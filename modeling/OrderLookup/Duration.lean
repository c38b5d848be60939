import OrderLookup.Text.Decimal

/-!
Spans of time in whole milliseconds, as reports show them: milliseconds below one second, and
otherwise seconds without the zeros at the end.
-/

namespace OrderLookup

open Text

def fractionOfSecond (ms : Nat) : List Char :=
  let d := ((padded 3 ms).reverse.dropWhile (· == '0')).reverse
  if d.isEmpty then [] else '.' :: d

def durationText (ms : Nat) : String :=
  if ms = 0 then "0ns"
  else if ms < 1000 then String.ofList (digits ms) ++ "ms"
  else String.ofList (digits (ms / 1000) ++ fractionOfSecond (ms % 1000)) ++ "s"

end OrderLookup
