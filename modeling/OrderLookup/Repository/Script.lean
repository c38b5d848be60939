import OrderLookup.OrderError

/-!
Calls to the store, and scripts that say how long a call takes and how it fails. Both are looked
up when the call begins. A call under a deadline ends with its own result if it takes no longer
than the deadline allows, and otherwise with a timeout at the deadline.
-/

namespace OrderLookup

inductive CallKind
  | getOrder
  | getRecent
  | upsertOrder
deriving DecidableEq, Repr

def CallKind.name : CallKind → String
  | .getOrder => "get_order"
  | .getRecent => "get_recent"
  | .upsertOrder => "upsert_order"

structure Call where
  kind : CallKind
  subject : String
deriving DecidableEq, Repr

inductive Delay
  | uniform (ms : Nat)
  | bySubject (delays : List (String × Nat))
deriving DecidableEq, Repr

def Delay.of (d : Delay) (subject : String) : Nat :=
  match d with
  | .uniform ms => ms
  | .bySubject l => (l.lookup subject).getD 0

/-- How calls of one kind fail, by subject; an asterisk stands for every subject not named. -/
abbrev Failures := List (String × OrderError)

def Failures.of (f : Failures) (subject : String) : Option OrderError :=
  (f.lookup subject).orElse fun _ => f.lookup "*"

structure Script where
  delays : List (CallKind × Delay) := []
  failures : List (CallKind × Failures) := []
deriving DecidableEq, Repr

/-- New parts for a script; a part that is missing stays as it is. -/
structure Revision where
  delays : Option (List (CallKind × Delay)) := none
  failures : Option (List (CallKind × Failures)) := none

namespace Script

def revise (s : Script) (r : Revision) : Script :=
  ⟨r.delays.getD s.delays, r.failures.getD s.failures⟩

def delay (s : Script) (c : Call) : Nat :=
  match s.delays.lookup c.kind with
  | some d => d.of c.subject
  | none => 0

def failure (s : Script) (c : Call) : Option OrderError :=
  match s.failures.lookup c.kind with
  | some f => f.of c.subject
  | none => none

end Script

structure Pending where
  call : Call
  begun : Nat
  takes : Nat
  limit : Nat
  failure : Option OrderError
deriving DecidableEq, Repr

namespace Pending

def start (s : Script) (c : Call) (now limit : Nat) : Pending :=
  ⟨c, now, s.delay c, limit, s.failure c⟩

def inTime (p : Pending) : Bool := p.takes ≤ p.limit

def ends (p : Pending) : Nat := p.begun + min p.takes p.limit

end Pending

end OrderLookup
