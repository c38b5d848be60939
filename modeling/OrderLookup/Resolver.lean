import OrderLookup.Cache
import OrderLookup.Clock
import OrderLookup.Config
import OrderLookup.Duration
import OrderLookup.Inflight.Registry
import OrderLookup.Repository
import OrderLookup.Repository.Script

/-!
The resolver answers lookups from the cache and fetches what is missing from the store, one fetch
at a time for each id. A fetch puts its order into the cache before anyone gets it. Orders are
written to the store without touching the cache, and a refresh loads the newest orders, the newest
first. A store call takes effect at the instant at which it returns.
-/

namespace OrderLookup

open Inflight (Registry)

namespace Resolver

inductive Work
  | fetch (uid : String)
  | save (order : Order)
  | refresh
deriving DecidableEq

/-- A store call that an operation waits for. -/
structure Flight where
  id : Nat
  work : Work
  pending : Pending
deriving DecidableEq

def Flight.due (f : Flight) : Nat := f.pending.ends

inductive Reply
  | found (r : Except OrderError Order)
  | stored (r : Except OrderError String)
  | loaded (r : Except OrderError Nat)
  | cached (o : Option Order)
  | done

structure Finish where
  id : Nat
  time : Nat
  reply : Reply

structure CallRecord where
  time : Nat
  call : Call
deriving DecidableEq, Repr

end Resolver

open Resolver in
structure Resolver where
  settings : Settings := {}
  cache : Cache Order := Cache.ofCapacity Cache.defaultCapacity
  registry : Registry (Except OrderError Order) := Inflight.Registry.empty
  repository : Repository := Repository.empty
  script : Script := {}
  now : Nat := 0
  flights : List Flight := []
  calls : List CallRecord := []
  finished : List Finish := []

namespace Resolver

def finish (s : Resolver) (id : Nat) (reply : Reply) : Resolver :=
  { s with finished := s.finished ++ [⟨id, s.now, reply⟩] }

def limitText (n : Nat) : String := String.ofList (Text.digits n)

def callOf (s : Resolver) : Work → Call
  | .fetch uid => ⟨.getOrder, uid⟩
  | .save o => ⟨.upsertOrder, o.uid⟩
  | .refresh => ⟨.getRecent, limitText s.settings.warmLimit⟩

def deadlineOf (s : Resolver) : Work → Nat
  | .fetch _ => s.settings.readTimeout
  | .save _ => s.settings.writeTimeout
  | .refresh => s.settings.readTimeout

def launch (s : Resolver) (id : Nat) (work : Work) : Resolver :=
  let call := s.callOf work
  let pending := Pending.start s.script call s.now (s.deadlineOf work)
  { s with
    calls := s.calls ++ [⟨s.now, call⟩]
    flights := s.flights ++ [⟨id, work, pending⟩] }

def timeout (p : Pending) : OrderError :=
  .timeout (p.call.kind.name ++ "(" ++ p.call.subject ++ ") exceeded " ++ durationText p.limit)

def outcome {α : Type} (p : Pending) (r : Except OrderError α) : Except OrderError α :=
  if p.inTime then
    match p.failure with
    | some e => .error e
    | none => r
  else .error (timeout p)

/-- The owner of a turn is done: its result is there for all who wait, and it returns with it. -/
def settle (s : Resolver) (id : Nat) (r : Except OrderError Order) : Resolver :=
  { s with registry := s.registry.complete id r }.finish id (.found r)

def collect (s : Resolver) (id : Nat) : Resolver :=
  match s.registry.collect id with
  | none => s
  | some (r, registry) => { s with registry := registry }.finish id (.found r)

/-- The owner of a turn looks into the cache once more before it asks the store. -/
def lead (s : Resolver) (id : Nat) (uid : String) : Resolver :=
  match s.cache.peek uid with
  | some o => s.settle id (.ok o)
  | none => s.launch id (.fetch uid)

def takeOver (s : Resolver) (id : Nat) : Resolver :=
  match s.registry.caller? id with
  | none => s
  | some c =>
    if c.stage = .chosen then { s with registry := s.registry.start id }.lead id c.key else s

/-- Whoever can go on does so: first those who have been handed a turn, then those whose value
is there. -/
def proceed (s : Resolver) : Resolver :=
  let s := (s.registry.callers.map Inflight.Caller.id).foldl takeOver s
  (s.registry.callers.map Inflight.Caller.id).foldl collect s

def fillCache (s : Resolver) (key : String) (o : Order) : Resolver :=
  { s with cache := (s.cache.set key o).2 }

def resume (s : Resolver) (f : Flight) : Resolver :=
  match f.work with
  | .fetch uid =>
    match outcome f.pending (s.repository.get uid) with
    | .ok o => (s.fillCache uid o).settle f.id (.ok o)
    | .error e => s.settle f.id (.error e)
  | .save o =>
    match outcome f.pending (s.repository.upsert o) with
    | .ok r => { s with repository := r }.finish f.id (.stored (.ok o.uid))
    | .error e => s.finish f.id (.stored (.error e))
  | .refresh =>
    match outcome f.pending (.ok (s.repository.recent s.settings.warmLimit)) with
    | .ok l =>
      -- The newest order goes in first, and the others behind it.
      (l.foldl (fun s o => s.fillCache o.uid o) s).finish f.id (.loaded (.ok l.length))
    | .error e => s.finish f.id (.loaded (.error e))

def withoutFlight (s : Resolver) (id : Nat) : Resolver :=
  { s with flights := s.flights.filter fun f => f.id ≠ id }

def land (s : Resolver) (f : Flight) : Resolver := (s.withoutFlight f.id).resume f

def wake (s : Resolver) : Resolver :=
  match Clock.soonest Flight.due s.flights with
  | none => s
  | some f => ({ s with now := max s.now f.due }.land f).proceed

def clock : Clock Resolver where
  due s := (Clock.soonest Flight.due s.flights).map Flight.due
  wake := wake
  load s := s.flights.length

def get (s : Resolver) (id : Nat) (uid : String) : Resolver :=
  match s.cache.get uid with
  | (some o, cache) => { s with cache := cache }.finish id (.found (.ok o))
  | (none, cache) =>
    match s.registry.join id uid with
    | (.value r, registry) => { s with cache := cache, registry := registry }.finish id (.found r)
    | (.wait, registry) => { s with cache := cache, registry := registry }
    | (.lead, registry) => { s with cache := cache, registry := registry }.lead id uid

/-- Drops an operation that has not finished. Its store call is given up, and if it owned the
turn of a shared fetch the turn is handed on. -/
def abort (s : Resolver) (id : Nat) : Resolver :=
  { s.withoutFlight id with registry := s.registry.drop id }

inductive Action
  | get (uid : String)
  | create (order : Order)
  | refresh
  | cacheSet (key : String) (order : Order)
  | cacheGet (key : String)
  | cachePeek (key : String)
  | store (order : Order)
  | script (r : Revision)
  | abort (id : Nat)

def start (s : Resolver) (id : Nat) : Action → Resolver
  | .get uid => s.get id uid
  | .create o => s.launch id (.save o)
  | .refresh => s.launch id .refresh
  | .cacheSet key o => (s.fillCache key o).finish id .done
  | .cacheGet key =>
    let (o, cache) := s.cache.get key
    { s with cache := cache }.finish id (.cached o)
  | .cachePeek key => s.finish id (.cached (s.cache.peek key))
  | .store o =>
    match s.repository.upsert o with
    | .ok r => { s with repository := r }.finish id (.stored (.ok o.uid))
    | .error e => s.finish id (.stored (.error e))
  | .script r => { s with script := s.script.revise r }.finish id .done
  | .abort target => s.abort target

def act (s : Resolver) (id : Nat) (a : Action) : Resolver := (s.start id a).proceed

structure Event where
  time : Nat
  id : Nat
  action : Action

/-- What is due at the instant of an event comes before it, and what it leads to at once comes
before the next one. -/
def step (s : Resolver) (e : Event) : Resolver :=
  let s := clock.advance e.time s
  clock.advance e.time ({ s with now := max s.now e.time }.act e.id e.action)

def play (s : Resolver) (events : List Event) : Resolver := events.foldl step s

def complete (s : Resolver) (events : List Event) : Resolver := clock.drain (s.play events)

def perform (s : Resolver) (id : Nat) (a : Action) : Resolver := clock.drain (s.act id a)

def finish? (s : Resolver) (id : Nat) : Option Finish := s.finished.find? fun f => f.id = id

def reply? (s : Resolver) (id : Nat) : Option Reply := (s.finish? id).map Finish.reply

def stored? (s : Resolver) (id : Nat) : Option (Except OrderError String) :=
  match s.reply? id with
  | some (.stored r) => some r
  | _ => none

def ofParts (settings : Settings) (capacity : Nat) (repository : Repository) (script : Script) :
    Resolver :=
  { settings := settings
    cache := Cache.ofCapacity capacity
    repository := repository
    script := script }

end Resolver

end OrderLookup
