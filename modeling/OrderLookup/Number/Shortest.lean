import OrderLookup.Text.Decimal

/-!
The shortest decimal text of a binary floating-point number. A finite number m · 2^q is the
reading of every decimal in an interval around it; the text takes the fewest digits that some
decimal in the interval has, and of two such decimals the nearer one. All comparisons are made
between whole numbers.
-/

namespace OrderLookup.Number

/-- The number `mantissa * 2 ^ exponent`; `narrow` says that the next number below is only half as
far away as the next one above. -/
structure Binary where
  mantissa : Nat
  exponent : Int
  narrow : Bool

def hiddenBit : Nat := 4503599627370496

def Binary.ofBits (b : Nat) : Binary :=
  let fraction : Nat := b % hiddenBit
  let e : Nat := b / hiddenBit % 2048
  if e = 0 then ⟨fraction, -1074, false⟩
  else ⟨fraction + hiddenBit, (e : Int) - 1075, fraction == 0 && 1 < e⟩

namespace Binary

/-- Whole numbers `p` and `d` such that a quarter of the last binary place is `p / d` steps of
the decimal grid of step `10 ^ j`. -/
def scale (x : Binary) (j : Int) : Nat × Nat :=
  (Nat.pow 2 (x.exponent - 2).toNat * Nat.pow 10 (-j).toNat,
    Nat.pow 2 (2 - x.exponent).toNat * Nat.pow 10 j.toNat)

def isReading (x : Binary) (j : Int) (c : Nat) : Bool :=
  let (p, d) := x.scale j
  let low := (4 * x.mantissa - if x.narrow then 1 else 2) * p
  let high := (4 * x.mantissa + 2) * p
  if x.mantissa % 2 = 0 then low ≤ c * d && c * d ≤ high else low < c * d && c * d < high

def onGrid? (x : Binary) (j : Int) : Option Nat :=
  let (p, d) := x.scale j
  let v := 4 * x.mantissa * p
  let c := v / d
  match x.isReading j c, x.isReading j (c + 1) with
  | true, true =>
    let below := v - c * d
    let above := (c + 1) * d - v
    some (if below < above || (below == above && c % 2 == 0) then c else c + 1)
  | true, false => some c
  | false, true => some (c + 1)
  | false, false => none

def magnitude (x : Binary) : Int :=
  let reaches (j : Int) : Bool := let (p, d) := x.scale j; d ≤ 4 * x.mantissa * p
  (((List.range 633).map fun (i : Nat) => (308 : Int) - i).find? reaches).getD 0

def shortest (x : Binary) : Nat × Int :=
  let top := x.magnitude
  (((List.range 17).map fun (i : Nat) => top - i).findSome? fun j =>
    (x.onGrid? j).map fun c => (c, j)).getD (0, 0)

end Binary

def scientific (c : Nat) (j : Int) : List Char × Int :=
  let d := Text.digits c
  ((d.reverse.dropWhile (· == '0')).reverse, j + d.length - 1)

/-- Writes digits with the given power of ten of the first one: with a point between 10⁻⁵ and
10¹⁵, and otherwise with an exponent that has a sign. -/
def layout (d : List Char) (e : Int) : List Char :=
  if -5 ≤ e ∧ e < 0 then '0' :: '.' :: List.replicate (-e - 1).toNat '0' ++ d
  else if 0 ≤ e ∧ e ≤ 15 then
    let whole := e.toNat + 1
    if d.length ≤ whole then d ++ List.replicate (whole - d.length) '0' ++ ['.', '0']
    else d.take whole ++ '.' :: d.drop whole
  else
    let mantissa := match d with
      | a :: b :: r => a :: '.' :: b :: r
      | _ => d
    mantissa ++ 'e' :: (if e < 0 then '-' else '+') :: Text.digits e.natAbs

def signBit : Nat := 9223372036854775808

def bitsText (b : Nat) : List Char :=
  let sign := if b / signBit % 2 = 1 then ['-'] else []
  let x := Binary.ofBits b
  if x.mantissa = 0 then sign ++ ['0', '.', '0']
  else
    let (c, j) := x.shortest
    let (d, e) := scientific c j
    sign ++ layout d e

def floatText (f : Float) : List Char := bitsText f.toBits.toNat

end OrderLookup.Number
