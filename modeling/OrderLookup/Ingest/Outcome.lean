import OrderLookup.Ingest.DeadLetter

/-!
How a message ends: its order is stored, or the message is diverted, with or without a dead letter
that somebody took. Counters sum up what was received and how it ended.
-/

namespace OrderLookup.Ingest

inductive Outcome
  | committed (uid : String)
  | diverted (reason : Reason) (cause : OrderError) (forwarded : Bool)
deriving DecidableEq, Repr

structure Counters where
  received : Nat := 0
  committed : Nat := 0
  deadLettered : Nat := 0
  deadLetterFailures : Nat := 0
deriving DecidableEq, Repr

namespace Counters

def receive (c : Counters) : Counters := { c with received := c.received + 1 }

def record (c : Counters) : Outcome → Counters
  | .committed _ => { c with committed := c.committed + 1 }
  | .diverted _ _ true => { c with deadLettered := c.deadLettered + 1 }
  | .diverted _ _ false =>
    { c with
      deadLettered := c.deadLettered + 1
      deadLetterFailures := c.deadLetterFailures + 1 }

end Counters

end OrderLookup.Ingest
