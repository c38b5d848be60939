import OrderLookup.Clock
import OrderLookup.Inflight.Registry

/-!
Callers of shared fetches on a clock. A call says how long its own fetch would take and what it
would produce; whether that fetch runs depends on who is there. Dropping a caller in mid-fetch
lets the next one start its own fetch at that instant.
-/

namespace OrderLookup.Inflight

structure Fetch where
  key : String
  takes : Nat
  value : String
deriving DecidableEq, Repr

inductive Action
  | run (id : Nat) (fetch : Fetch)
  | abort (id : Nat)
deriving DecidableEq, Repr

structure Event where
  time : Nat
  action : Action
deriving DecidableEq, Repr

structure Flight where
  id : Nat
  due : Nat
  value : String
deriving DecidableEq, Repr

structure Finish where
  id : Nat
  time : Nat
  value : String
deriving DecidableEq, Repr

structure Timeline where
  now : Nat := 0
  registry : Registry String := Registry.empty
  fetches : List (Nat × Fetch) := []
  flights : List Flight := []
  started : List (Nat × Nat) := []
  finished : List Finish := []

namespace Timeline

def finish (t : Timeline) (id : Nat) (value : String) : Timeline :=
  { t with finished := t.finished ++ [⟨id, t.now, value⟩] }

def launch (t : Timeline) (id : Nat) : Timeline :=
  match t.fetches.lookup id with
  | none => t
  | some f =>
    { t with
      started := t.started ++ [(t.now, id)]
      flights := t.flights ++ [⟨id, t.now + f.takes, f.value⟩] }

def land (t : Timeline) (f : Flight) : Timeline :=
  { t with
    registry := t.registry.complete f.id f.value
    flights := t.flights.filter fun g => g.id ≠ f.id }.finish f.id f.value

def collect (t : Timeline) (id : Nat) : Timeline :=
  match t.registry.collect id with
  | none => t
  | some (v, registry) => { t with registry := registry }.finish id v

def takeOver (t : Timeline) (id : Nat) : Timeline :=
  match t.registry.caller? id with
  | none => t
  | some c => if c.stage = .chosen then { t with registry := t.registry.start id }.launch id else t

/-- Whoever can go on does so: first those who have been handed a turn, then those whose value
is there. -/
def proceed (t : Timeline) : Timeline :=
  let t := (t.registry.callers.map Caller.id).foldl takeOver t
  (t.registry.callers.map Caller.id).foldl collect t

def wake (t : Timeline) : Timeline :=
  match Clock.soonest Flight.due t.flights with
  | none => t
  | some f => ({ t with now := max t.now f.due }.land f).proceed

def clock : Clock Timeline where
  due t := (Clock.soonest Flight.due t.flights).map Flight.due
  wake := wake
  load t := t.flights.length

def run (t : Timeline) (id : Nat) (f : Fetch) : Timeline :=
  let t := { t with fetches := t.fetches ++ [(id, f)] }
  match t.registry.join id f.key with
  | (.value v, r) => { t with registry := r }.finish id v
  | (.wait, r) => { t with registry := r }
  | (.lead, r) => { t with registry := r }.launch id

def abort (t : Timeline) (id : Nat) : Timeline :=
  { t with
    registry := t.registry.drop id
    flights := t.flights.filter fun g => g.id ≠ id }

def start (t : Timeline) : Action → Timeline
  | .run id f => t.run id f
  | .abort id => t.abort id

def act (t : Timeline) (a : Action) : Timeline := (t.start a).proceed

/-- What is due at the instant of an event comes before it, and what it leads to at once comes
before the next one. -/
def step (t : Timeline) (e : Event) : Timeline :=
  let t := clock.advance e.time t
  clock.advance e.time ({ t with now := max t.now e.time }.act e.action)

def play (events : List Event) : Timeline := events.foldl step {}

def complete (events : List Event) : Timeline := clock.drain (play events)

def finish? (t : Timeline) (id : Nat) : Option Finish := t.finished.find? fun f => f.id = id

end Timeline

end OrderLookup.Inflight
