import OrderLookup.Calendar

/-!
Instants of universal time: seconds from 1 January 1970 and nanoseconds within the second. From
10⁹ nanoseconds on the instant lies in a leap second, which follows the last second of a minute.
The years −262143 to 262142 are covered.
-/

namespace OrderLookup

structure Instant where
  seconds : Int
  nanos : Nat
  first_le : -8334601228800 ≤ seconds
  le_last : seconds ≤ 8210266876799
  nanos_lt : nanos < 2000000000
  leap : 1000000000 ≤ nanos → seconds % 60 = 59
deriving DecidableEq

namespace Instant

def minYear : Int := -262143

def maxYear : Int := 262142

def ofUnix? (seconds : Int) (nanos : Nat) : Option Instant :=
  if h : -8334601228800 ≤ seconds ∧ seconds ≤ 8210266876799 ∧ nanos < 2000000000 ∧
      (1000000000 ≤ nanos → seconds % 60 = 59) then
    some ⟨seconds, nanos, h.1, h.2.1, h.2.2.1, h.2.2.2⟩
  else none

def epoch : Instant := ⟨0, 0, by decide, by decide, by decide, by decide⟩

instance : Inhabited Instant := ⟨epoch⟩

instance : LT Instant :=
  ⟨fun a b => a.seconds < b.seconds ∨ a.seconds = b.seconds ∧ a.nanos < b.nanos⟩

instance (a b : Instant) : Decidable (a < b) :=
  inferInstanceAs (Decidable (a.seconds < b.seconds ∨ a.seconds = b.seconds ∧ a.nanos < b.nanos))

theorem lt_def {a b : Instant} :
    a < b ↔ a.seconds < b.seconds ∨ a.seconds = b.seconds ∧ a.nanos < b.nanos := Iff.rfl

@[ext] theorem ext {a b : Instant} (hs : a.seconds = b.seconds) (hn : a.nanos = b.nanos) :
    a = b := by
  cases a
  cases b
  cases hs
  cases hn
  rfl

theorem ofUnix?_self (t : Instant) : ofUnix? t.seconds t.nanos = some t := by
  exact dif_pos ⟨t.first_le, t.le_last, t.nanos_lt, t.leap⟩

def date (t : Instant) : Date := Date.ofDays (t.seconds / 86400)

def ofDay (t : Instant) : Nat := (t.seconds % 86400).toNat

def hour (t : Instant) : Nat := t.ofDay / 3600

def minute (t : Instant) : Nat := t.ofDay / 60 % 60

/-- The second of the minute, 60 in a leap second. -/
def second (t : Instant) : Nat := t.ofDay % 60 + t.nanos / 1000000000

def subsecond (t : Instant) : Nat := t.nanos % 1000000000

end Instant

end OrderLookup
