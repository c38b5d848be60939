import OrderLookup.Message
import OrderLookup.OrderError

/-!
Bounded queues of messages between one publisher and one reader. A publisher waits for room and a
reader for a message; an operation that would have to wait gives nothing. Dead letters never wait:
a full queue refuses them.
-/

namespace OrderLookup

structure Topic where
  name : String
  capacity : Nat
  queue : List Message := []
  hasPublisher : Bool := true
  hasReader : Bool := true
deriving DecidableEq

namespace Topic

/-- An empty topic; capacity zero counts as one. -/
def ofCapacity (name : String) (capacity : Nat) : Topic :=
  { name := name, capacity := max capacity 1 }

def isFull (t : Topic) : Bool := t.capacity ≤ t.queue.length

def closedReason (t : Topic) : String := "topic '" ++ t.name ++ "' closed"

def fullReason (t : Topic) : String := "topic '" ++ t.name ++ "' is full"

def push (t : Topic) (m : Message) : Topic := { t with queue := t.queue ++ [m] }

/-- Publishes a message if there is room; fails if nobody is there to read it. -/
def publish (t : Topic) (m : Message) : Option (Except OrderError Topic) :=
  if !t.hasReader then some (.error (.source t.closedReason))
  else if t.isFull then none
  else some (.ok (t.push m))

def publishAll (t : Topic) : List Message → Topic × Option (Except OrderError Unit)
  | [] => (t, some (.ok ()))
  | m :: ms =>
    match t.publish m with
    | none => (t, none)
    | some (.error e) => (t, some (.error e))
    | some (.ok t) => t.publishAll ms

/-- Takes the next message; what is queued comes before the end of the topic. -/
def read (t : Topic) : Option (Except OrderError (Message × Topic)) :=
  match t.queue with
  | m :: queue => some (.ok (m, { t with queue := queue }))
  | [] => if t.hasPublisher then none else some (.error (.source t.closedReason))

def write (t : Topic) (m : Message) : Except OrderError Topic :=
  if !t.hasReader then .error (.deadLetter t.closedReason)
  else if t.isFull then .error (.deadLetter t.fullReason)
  else .ok (t.push m)

def poll (t : Topic) : Option Message × Topic :=
  match t.queue with
  | m :: queue => (some m, { t with queue := queue })
  | [] => (none, t)

def closePublisher (t : Topic) : Topic := { t with hasPublisher := false }

def closeReader (t : Topic) : Topic := { t with hasReader := false, queue := [] }

end Topic

end OrderLookup
