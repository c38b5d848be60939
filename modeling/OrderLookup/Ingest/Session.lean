import OrderLookup.Ingest.Loop

/-!
A loop among its neighbours: somebody publishes messages, looks orders up, takes dead letters,
cancels the loop and waits. The loop runs only while its neighbour has to wait.
-/

namespace OrderLookup.Ingest.Loop

def setNow (l : Loop) (instant : Nat) : Loop :=
  { l with
    worker := { l.worker with
      resolver := { l.worker.resolver with now := max l.now instant } } }

def wait (l : Loop) (ms : Nat) : Loop :=
  let instant := l.now + ms
  (clock.advance instant l.run).setNow instant

/-- Publishes a message as soon as there is room, after so many returns of store calls at most. -/
def publishWithin : Nat → Loop → Message → Option (Except OrderError Unit) × Loop
  | 0, l, _ => (none, l)
  | returns + 1, l, m =>
    match l.source.publish m with
    | some (.ok source) => (some (.ok ()), { l with source := source })
    | some (.error e) => (some (.error e), l)
    | none => publishWithin returns l.wake m

def publish (l : Loop) (m : Message) : Option (Except OrderError Unit) × Loop :=
  let l := if l.source.hasReader && l.source.isFull then l.run else l
  publishWithin (clock.load l + 1) l m

def publishAll (l : Loop) : List Message → Option (Except OrderError Unit) × Loop
  | [] => (some (.ok ()), l)
  | m :: ms =>
    match l.publish m with
    | (some (.ok _), l) => l.publishAll ms
    | r => r

def awaitReply (number : Nat) : Nat → Loop → Option Resolver.Reply × Loop
  | 0, l => (l.worker.resolver.reply? number, l)
  | returns + 1, l =>
    match l.worker.resolver.reply? number with
    | some r => (some r, l)
    | none => awaitReply number returns l.wake

def ask (l : Loop) (a : Resolver.Action) : Option Resolver.Reply × Loop :=
  let number := l.worker.operations
  let l := { l with worker := l.worker.start a }
  match l.worker.resolver.reply? number with
  | some r => (some r, l)
  | none =>
    let l := l.run
    awaitReply number (clock.load l) l

def setSink (l : Loop) (sink : Option Topic) : Loop :=
  { l with worker := { l.worker with sink := sink } }

def letters (l : Loop) : List Message :=
  match l.worker.sink with
  | some t => t.queue
  | none => []

def takeLetters (l : Loop) : List Message × Loop :=
  (l.letters, l.setSink (l.worker.sink.map fun t => { t with queue := [] }))

inductive Action
  | wait (ms : Nat)
  | publish (messages : List Message)
  | cancel
  | closeSource
  | closeSink
  | take
  | ask (a : Resolver.Action)

inductive Report
  | done
  | published (r : Option (Except OrderError Unit))
  | taken (letters : List Message)
  | replied (r : Option Resolver.Reply)

def act (l : Loop) : Action → Report × Loop
  | .wait ms => (.done, l.wait ms)
  | .publish ms =>
    let (r, l) := l.publishAll ms
    (.published r, l)
  | .cancel => (.done, { l with cancelled := true })
  | .closeSource => (.done, { l with source := l.source.closePublisher })
  | .closeSink => (.done, l.setSink (l.worker.sink.map Topic.closeReader))
  | .take =>
    let (ms, l) := l.takeLetters
    (.taken ms, l)
  | .ask a =>
    let (r, l) := l.ask a
    (.replied r, l)

def play (l : Loop) : List Action → List Report × Loop
  | [] => ([], l)
  | a :: as =>
    let (r, l) := l.act a
    let (rs, l) := l.play as
    (r :: rs, l)

def shutDown (l : Loop) : Loop := clock.drain { l with cancelled := true }.run

end OrderLookup.Ingest.Loop
