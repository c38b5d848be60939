import OrderLookup.Cache.Fifo
import OrderLookup.Cache.Stats
import OrderLookup.Table

/-!
A cache of fixed capacity. A new key pushes out the entry that came in first when the cache is
full; a key that is present gets its new value in place and keeps its turn to leave. An index
leads from keys to the slots of the entries.
-/

namespace OrderLookup

open Cache

structure Cache (α : Type) where
  index : Table String Nat := Table.empty
  fifo : Fifo α := Fifo.empty
  counters : Stats := {}
  capacity : Nat

namespace Cache

variable {α : Type}

def defaultCapacity : Nat := 10

/-- An empty cache; capacity zero counts as one. -/
def ofCapacity (capacity : Nat) : Cache α := { capacity := max capacity 1 }

inductive SetOutcome
  | inserted
  | updated
  | evicted (key : String)
deriving DecidableEq, Repr

def insertNew (c : Cache α) (key : String) (value : α) : Cache α :=
  let (slot, fifo) := c.fifo.push key value
  let index := c.index.insert key slot
  { c with index := index, fifo := fifo, counters := c.counters.setTotalEntries index.size }

def makeRoom (c : Cache α) : SetOutcome × Cache α :=
  if c.capacity ≤ c.index.size then
    match c.fifo.pop with
    | some (e, fifo) =>
      (.evicted e.key,
        { c with
          index := c.index.erase e.key
          fifo := fifo
          counters := c.counters.recordEviction })
    | none => (.inserted, c)
  else (.inserted, c)

def replace? (c : Cache α) (key : String) (value : α) : Option (Cache α) :=
  match c.index.get? key with
  | none => none
  | some slot =>
    (c.fifo.replace slot value).map fun p =>
      { c with fifo := p.2, counters := c.counters.recordUpdate }

def set (c : Cache α) (key : String) (value : α) : SetOutcome × Cache α :=
  match c.replace? key value with
  | some c => (.updated, c)
  | none =>
    let (outcome, c) := c.makeRoom
    (outcome, c.insertNew key value)

def peek (c : Cache α) (key : String) : Option α :=
  match c.index.get? key with
  | none => none
  | some slot => (c.fifo.get? slot).map Entry.value

def get (c : Cache α) (key : String) : Option α × Cache α :=
  match c.peek key with
  | some v => (some v, { c with counters := c.counters.recordHit })
  | none => (none, { c with counters := c.counters.recordMiss })

def keys (c : Cache α) : List String := c.fifo.keys

def stats (c : Cache α) : Stats := c.counters.setTotalEntries c.index.size

def size (c : Cache α) : Nat := c.index.size

def isEmpty (c : Cache α) : Bool := c.size == 0

end Cache

end OrderLookup
