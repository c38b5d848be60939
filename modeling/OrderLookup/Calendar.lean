/-!
The proleptic Gregorian calendar, counted in days from 1 January 1970. Years are taken from March
on, so that the leap day is the last one, and in eras of 400 years, which all have the same length.
-/

namespace OrderLookup

structure Date where
  year : Int
  month : Nat
  day : Nat
deriving DecidableEq, Repr

namespace Date

def isLeapYear (y : Int) : Bool := y % 4 == 0 && (y % 100 != 0 || y % 400 == 0)

def daysInMonth (y : Int) (m : Nat) : Nat :=
  if m == 2 then (if isLeapYear y then 29 else 28)
  else if m == 4 || m == 6 || m == 9 || m == 11 then 30
  else 31

def isValid (d : Date) : Bool :=
  1 ≤ d.month && d.month ≤ 12 && 1 ≤ d.day && d.day ≤ daysInMonth d.year d.month

def eraDays : Nat := 146097

/-- Days from 1 March of year 0 to 1 January 1970. -/
def epochShift : Int := 719468

def marchMonth (m : Nat) : Nat := (m + 9) % 12

def daysBeforeMonth (k : Nat) : Nat := (153 * k + 2) / 5

def daysBeforeYear (y : Nat) : Nat := 365 * y + y / 4 - y / 100

def days (d : Date) : Int :=
  let y := if d.month ≤ 2 then d.year - 1 else d.year
  let inEra := daysBeforeYear (y % 400).toNat + daysBeforeMonth (marchMonth d.month) + (d.day - 1)
  y / 400 * eraDays + inEra - epochShift

def ofDays (n : Int) : Date :=
  let z := n + epochShift
  let inEra := (z % eraDays).toNat
  let y := (inEra - inEra / 1460 + inEra / 36524 - inEra / 146096) / 365
  let inYear := inEra - daysBeforeYear y
  let k := (5 * inYear + 2) / 153
  let month := if k < 10 then k + 3 else k - 9
  let year := z / eraDays * 400 + y
  ⟨if month ≤ 2 then year + 1 else year, month, inYear - daysBeforeMonth k + 1⟩

end Date

end OrderLookup
