/-!
A first-in-first-out list whose entries live in numbered slots. An entry keeps its slot while it
is in the list, and a vacated slot is taken again before a new one is made. Entries are linked to
their neighbours, so the oldest one is taken off and a new one put on without touching the others.
-/

namespace OrderLookup.Cache

variable {α : Type}

structure Entry (α : Type) where
  key : String
  value : α
  prev : Option Nat
  next : Option Nat
deriving DecidableEq, Repr

structure Fifo (α : Type) where
  slots : Array (Option (Entry α)) := #[]
  free : List Nat := []
  head : Option Nat := none
  tail : Option Nat := none
  len : Nat := 0

namespace Fifo

def empty : Fifo α := {}

def get? (f : Fifo α) (slot : Nat) : Option (Entry α) := f.slots[slot]?.join

def modifySlot (slots : Array (Option (Entry α))) (slot : Nat) (g : Entry α → Entry α) :
    Array (Option (Entry α)) :=
  match slots[slot]?.join with
  | some e => slots.setIfInBounds slot (some (g e))
  | none => slots

/-- Puts an entry into the slot vacated last, or into a new one. -/
def place (f : Fifo α) (e : Entry α) : Nat × Array (Option (Entry α)) × List Nat :=
  match f.free with
  | slot :: free => (slot, f.slots.setIfInBounds slot (some e), free)
  | [] => (f.slots.size, f.slots.push (some e), [])

def push (f : Fifo α) (key : String) (value : α) : Nat × Fifo α :=
  let (slot, slots, free) := f.place ⟨key, value, f.tail, none⟩
  match f.tail with
  | some t =>
    let slots := modifySlot slots t fun e => { e with next := some slot }
    (slot, ⟨slots, free, f.head, some slot, f.len + 1⟩)
  | none => (slot, ⟨slots, free, some slot, some slot, f.len + 1⟩)

def pop (f : Fifo α) : Option (Entry α × Fifo α) :=
  match f.head with
  | none => none
  | some slot =>
    match f.get? slot with
    | none => none
    | some e =>
      let slots := f.slots.setIfInBounds slot none
      match e.next with
      | some n =>
        let slots := modifySlot slots n fun e => { e with prev := none }
        some (e, ⟨slots, slot :: f.free, some n, f.tail, f.len - 1⟩)
      | none => some (e, ⟨slots, slot :: f.free, none, none, f.len - 1⟩)

def replace (f : Fifo α) (slot : Nat) (value : α) : Option (α × Fifo α) :=
  match f.get? slot with
  | none => none
  | some e =>
    some (e.value, { f with slots := modifySlot f.slots slot fun e => { e with value := value } })

def walk (f : Fifo α) : Nat → Option Nat → List (Entry α)
  | _, none => []
  | 0, some _ => []
  | steps + 1, some slot =>
    match f.get? slot with
    | none => []
    | some e => e :: f.walk steps e.next

def entries (f : Fifo α) : List (Entry α) := f.walk f.slots.size f.head

def keys (f : Fifo α) : List String := f.entries.map Entry.key

end Fifo

end OrderLookup.Cache
