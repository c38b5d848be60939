import OrderLookup.Clock
import OrderLookup.Ingest.Worker

/-!
The loop that takes messages from a topic, one at a time. It ends when it is cancelled or when its
topic is closed and empty. Cancelling is noticed only between messages, and there it comes before
the next message, so that a message that has been read is always carried to its end. A loop that
has ended leaves its topic.
-/

namespace OrderLookup.Ingest

inductive Phase
  | idle
  | storing (m : Message) (number : Nat)
  | stopped
  | failed (cause : OrderError)
deriving DecidableEq

structure Loop where
  worker : Worker
  source : Topic
  phase : Phase := .idle
  cancelled : Bool := false
  counters : Counters := {}
  /-- The messages that have come to their end, in order, each with its outcome. -/
  handled : List (Message × Outcome) := []

namespace Loop

def ofParts (resolver : Resolver) (source : Topic) (sink : Option Topic) (time : Instant) :
    Loop where
  worker := { resolver := resolver, origin := source.name, sink := sink, time := time }
  source := source

def now (l : Loop) : Nat := l.worker.resolver.now

def conclude (l : Loop) (m : Message) (p : Outcome × Worker) : Loop :=
  { l with
    worker := p.2
    phase := .idle
    counters := l.counters.record p.1
    handled := l.handled ++ [(m, p.1)] }

def accept (l : Loop) (m : Message) : Loop :=
  let l := { l with counters := l.counters.receive }
  match examine m with
  | .error (reason, cause) => l.conclude m (l.worker.divert m reason cause)
  | .ok o =>
    { l with
      worker := l.worker.start (.create o)
      phase := .storing m l.worker.operations }

def leave (l : Loop) (phase : Phase) : Loop :=
  { l with phase := phase, source := l.source.closeReader }

/-- What the loop does next; there is nothing if it has to wait or has ended. -/
def turn (l : Loop) : Option Loop :=
  match l.phase with
  | .idle =>
    -- A cancelled loop leaves, whatever is queued.
    if l.cancelled then some (l.leave .stopped)
    else match l.source.read with
      | none => none
      | some (.ok (m, source)) => some ({ l with source := source }.accept m)
      | some (.error cause) => some (l.leave (.failed cause))
  | .storing m number =>
    (l.worker.resolver.stored? number).map fun r => l.conclude m (l.worker.settle m r)
  | .stopped => none
  | .failed _ => none

def runFor : Nat → Loop → Loop
  | 0, l => l
  | turns + 1, l =>
    match l.turn with
    | none => l
    | some l => runFor turns l

/-- Runs until the loop has to wait or has ended: a message takes two turns at most, and there is
one turn before the first message and one after the last. -/
def run (l : Loop) : Loop := runFor (2 * l.source.queue.length + 2) l

def wake (l : Loop) : Loop :=
  { l with worker := { l.worker with resolver := l.worker.resolver.wake } }.run

def clock : Clock Loop where
  due l := Resolver.clock.due l.worker.resolver
  wake := wake
  load l := l.worker.resolver.flights.length + l.source.queue.length

def isEnded (l : Loop) : Bool :=
  match l.phase with
  | .stopped | .failed _ => true
  | .idle | .storing _ _ => false

def result? (l : Loop) : Option (Except OrderError Counters) :=
  match l.phase with
  | .stopped => some (.ok l.counters)
  | .failed cause => some (.error cause)
  | .idle | .storing _ _ => none

end Loop

end OrderLookup.Ingest
