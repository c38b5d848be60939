import OrderLookup.Ingest.Outcome
import OrderLookup.Order.Validation
import OrderLookup.Resolver
import OrderLookup.Topic

/-!
A worker carries one message at a time to its end: it reads the order, checks it and has it stored.
Whatever goes wrong diverts the message, and a dead letter goes to the sink if there is one. The
store calls of a worker are numbered.
-/

namespace OrderLookup.Ingest

structure Worker where
  resolver : Resolver
  /-- The name of the topic that the messages come from. -/
  origin : String
  sink : Option Topic := none
  /-- The time that dead letters bear. -/
  time : Instant := Instant.epoch
  operations : Nat := 0

def examine (m : Message) : Except (Reason × OrderError) Order :=
  match Order.decode m.value with
  | .error cause => .error (.invalidPayload, cause)
  | .ok o =>
    match o.validate with
    | .error cause => .error (.schemaValidation, cause)
    | .ok _ => .ok o

def forward (sink : Option Topic) (letter : Message) : Bool × Option Topic :=
  match sink with
  | none => (false, none)
  | some t =>
    match t.write letter with
    | .ok t => (true, some t)
    | .error _ => (false, some t)

namespace Worker

def divert (w : Worker) (m : Message) (reason : Reason) (cause : OrderError) : Outcome × Worker :=
  let (forwarded, sink) := forward w.sink (deadLetter m reason cause w.origin w.time)
  (.diverted reason cause forwarded, { w with sink := sink })

def settle (w : Worker) (m : Message) : Except OrderError String → Outcome × Worker
  | .ok uid => (.committed uid, w)
  | .error cause => w.divert m .businessError cause

def start (w : Worker) (a : Resolver.Action) : Worker :=
  { w with
    resolver := Resolver.clock.advance w.resolver.now (w.resolver.act w.operations a)
    operations := w.operations + 1 }

def perform (w : Worker) (a : Resolver.Action) : Worker :=
  { w with
    resolver := w.resolver.perform w.operations a
    operations := w.operations + 1 }

def process (w : Worker) (m : Message) : Option Outcome × Worker :=
  match examine m with
  | .error (reason, cause) =>
    let (outcome, w) := w.divert m reason cause
    (some outcome, w)
  | .ok o =>
    let number := w.operations
    let w := w.perform (.create o)
    match w.resolver.stored? number with
    | some r =>
      let (outcome, w) := w.settle m r
      (some outcome, w)
    | none => (none, w)

end Worker

end OrderLookup.Ingest
