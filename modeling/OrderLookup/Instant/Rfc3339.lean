import OrderLookup.Instant
import OrderLookup.Text.Blank
import OrderLookup.Text.Decimal

/-!
Instants as texts. Written, an instant has as many decimals of the second as are needed, in steps
of three, or always nine. Read, blanks may stand before each number and each mark, an offset from
universal time is allowed, and second 60 is a leap second.
-/

namespace OrderLookup.Instant

open Text

def yearText (y : Int) : List Char :=
  if 0 ≤ y ∧ y ≤ 9999 then padded 4 y.toNat
  else (if y < 0 then '-' else '+') :: padded 4 y.natAbs

/-- The decimals of a second in three, six or nine digits, whatever is enough. -/
def shortFraction (n : Nat) : List Char :=
  if n = 0 then []
  else if n % 1000000 = 0 then '.' :: padded 3 (n / 1000000)
  else if n % 1000 = 0 then '.' :: padded 6 (n / 1000)
  else '.' :: padded 9 n

def fullFraction (n : Nat) : List Char := '.' :: padded 9 n

def textWith (fraction : Nat → List Char) (t : Instant) : List Char :=
  yearText t.date.year ++ '-' :: padded 2 t.date.month ++ '-' :: padded 2 t.date.day ++
    'T' :: padded 2 t.hour ++ ':' :: padded 2 t.minute ++ ':' :: padded 2 t.second ++
    fraction t.subsecond ++ ['Z']

def text (t : Instant) : List Char := t.textWith shortFraction

def stamp (t : Instant) : List Char := t.textWith fullFraction

inductive Fault
  | invalid
  | short
  | range
  | trailing
  | impossible
deriving DecidableEq, Repr

def Fault.message : Fault → String
  | .invalid => "input contains invalid characters"
  | .short => "premature end of input"
  | .range => "input is out of range"
  | .trailing => "trailing input"
  | .impossible => "no possible date and time matching input"

abbrev Scan (α : Type) := List Char → Except Fault (α × List Char)

def number (most : Nat) : Scan Nat := fun s =>
  let d := (s.take most).takeWhile isDigit
  if d.isEmpty then .error (if s.isEmpty then .short else .invalid)
  else .ok (value d, s.drop d.length)

def signedYear : Scan Int := fun s =>
  match trimLeft s with
  | '-' :: r => (number r.length r).map fun p => (-(p.1 : Int), p.2)
  | '+' :: r => (number r.length r).map fun p => (p.1, p.2)
  | r => (number 4 r).map fun p => (p.1, p.2)

def year : Scan Int := fun s => do
  let (y, s) ← signedYear s
  if -2147483648 ≤ y ∧ y ≤ 2147483647 then return (y, s) else .error .range

def field (low high : Nat) : Scan Nat := fun s => do
  let (n, s) ← number 2 (trimLeft s)
  if low ≤ n ∧ n ≤ high then return (n, s) else .error .range

def mark (c : Char) : Scan Unit := fun s =>
  match trimLeft s with
  | [] => .error .short
  | a :: r => if a = c then .ok ((), r) else .error .invalid

def divider : Scan Unit
  | [] => .error .short
  | c :: r => if c = 't' ∨ c = 'T' ∨ c = ' ' then .ok ((), r) else .error .invalid

/-- Reads the nanoseconds; decimals after the ninth are dropped. -/
def decimals : Scan Nat
  | '.' :: s => do
    let (n, r) ← number 9 s
    return (n * Nat.pow 10 (9 - (s.length - r.length)), r.dropWhile isDigit)
  | s => .ok (0, s)

def underTwo : List Char → Bool
  | [] => true
  | [c] => c.toNat < 0x80
  | _ => false

def offsetHours : Scan Nat := fun s =>
  match s with
  | a :: b :: r =>
    if isDigit a && isDigit b then .ok (digitValue a * 10 + digitValue b, r) else .error .invalid
  | _ => .error (if underTwo s then .short else .invalid)

def offsetMinutes : Scan Nat := fun s =>
  match s with
  | a :: b :: r =>
    if isDigit a && isDigit b then
      if a ≤ '5' then .ok (digitValue a * 10 + digitValue b, r) else .error .range
    else .error .invalid
  | _ => .error (if underTwo s then .short else .invalid)

def sign : Scan Bool
  | [] => .error .short
  | c :: r =>
    if c = '+' then .ok (false, r)
    else if c = '-' ∨ c = '\u2212' then .ok (true, r)
    else .error .invalid

def isUniversal (s : List Char) : Bool := (s.take 3).map Char.toLower == ['u', 't', 'c']

def offset : Scan Int := fun s =>
  if isUniversal s then .ok (0, s.drop 3)
  else match s with
    | 'Z' :: r => .ok (0, r)
    | 'z' :: r => .ok (0, r)
    | _ => do
      let (negative, s) ← sign s
      let (hours, s) ← offsetHours s
      let (minutes, s) ← offsetMinutes (s.dropWhile fun c => c = ':' || isBlank c)
      let n : Int := hours * 3600 + minutes * 60
      return (if negative then -n else n, s)

def assemble (d : Date) (hour minute second nanos : Nat) (offset : Int) : Except Fault Instant :=
  if minYear ≤ d.year ∧ d.year ≤ maxYear ∧ d.isValid then
    if offset.natAbs < 86400 then
      let clock : Nat := hour * 3600 + minute * 60 + min second 59
      match ofUnix? (d.days * 86400 + clock - offset)
          (nanos + if second = 60 then 1000000000 else 0) with
      | some t => .ok t
      | none => .error .impossible
    else .error .range
  else .error .range

def read (s : List Char) : Except Fault Instant := do
  let (year, s) ← year s
  let (_, s) ← mark '-' s
  let (month, s) ← field 1 12 s
  let (_, s) ← mark '-' s
  let (day, s) ← field 1 31 s
  let (_, s) ← divider s
  let (hour, s) ← field 0 23 s
  let (_, s) ← mark ':' s
  let (minute, s) ← field 0 59 s
  let (_, s) ← mark ':' s
  let (second, s) ← field 0 60 s
  let (nanos, s) ← decimals s
  let (offset, s) ← offset (trimLeft s)
  if (trimLeft s).isEmpty then assemble ⟨year, month, day⟩ hour minute second nanos offset
  else .error .trailing

end OrderLookup.Instant
