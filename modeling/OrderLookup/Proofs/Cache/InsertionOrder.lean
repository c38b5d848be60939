import OrderLookup.Proofs.Cache.Thread
import OrderLookup.Cache

/-!
A cache is the list of its keys and values in the order in which the keys came in. On that list a
present key gets its value in place, and a new one goes to the end, for which the first one has to
go if the list is full. Whatever is done to a cache, nobody can tell it from this list.
-/

namespace OrderLookup.Cache

variable {α : Type}

structure Arrivals (α : Type) where
  capacity : Nat
  table : Table String α := Table.empty

namespace Arrivals

def makeRoom (a : Arrivals α) : SetOutcome × Arrivals α :=
  match a.table.keys with
  | [] => (.inserted, a)
  | oldest :: _ =>
    if a.capacity ≤ a.table.size then
      (.evicted oldest, { a with table := a.table.erase oldest })
    else (.inserted, a)

def write (a : Arrivals α) (key : String) (value : α) : Arrivals α :=
  { a with table := a.table.insert key value }

def set (a : Arrivals α) (key : String) (value : α) : SetOutcome × Arrivals α :=
  if key ∈ a.table.keys then (.updated, a.write key value)
  else (a.makeRoom.1, a.makeRoom.2.write key value)

end Arrivals

inductive Request (α : Type)
  | set (key : String) (value : α)
  | get (key : String)
  | peek (key : String)

inductive Answer (α : Type)
  | stored (outcome : SetOutcome)
  | found (value : Option α)

structure View (α : Type) where
  answer : Answer α
  keys : List String
  size : Nat
  isEmpty : Bool

def perform (c : Cache α) : Request α → Answer α × Cache α
  | .set key value => ((.stored (c.set key value).1), (c.set key value).2)
  | .get key => (.found (c.get key).1, (c.get key).2)
  | .peek key => (.found (c.peek key), c)

def observe (c : Cache α) : List (Request α) → List (View α)
  | [] => []
  | r :: rs =>
    let p := c.perform r
    ⟨p.1, p.2.keys, p.2.size, p.2.isEmpty⟩ :: p.2.observe rs

namespace Arrivals

def perform (a : Arrivals α) : Request α → Answer α × Arrivals α
  | .set key value => (.stored (a.set key value).1, (a.set key value).2)
  | .get key => (.found (a.table.get? key), a)
  | .peek key => (.found (a.table.get? key), a)

def observe (a : Arrivals α) : List (Request α) → List (View α)
  | [] => []
  | r :: rs =>
    let p := a.perform r
    ⟨p.1, p.2.table.keys, p.2.table.size, p.2.table.size == 0⟩ :: p.2.observe rs

end Arrivals

open Fifo (Stop slotsOf)

/-- A cache and the list that it stands for: the thread through the slots passes the entries of
the list, and the index leads to their slots. -/
structure Refines (c : Cache α) (a : Arrivals α) (l : List (Stop α)) : Prop where
  capacity : c.capacity = a.capacity
  holds : c.fifo.Holds l
  entries : l.map Prod.snd = a.table.entries
  index : ∀ {key slot}, c.index.get? key = some slot ↔ ∃ value, (slot, key, value) ∈ l
  index_keys : c.index.keys.Perm a.table.keys

variable {c : Cache α} {a : Arrivals α} {l : List (Stop α)} {key : String} {value : α}

namespace Refines

theorem keys_eq (h : Refines c a l) : (l.map fun x => x.2.1) = a.table.keys := by
  rw [Table.keys, ← h.entries, List.map_map]
  rfl

theorem keys (h : Refines c a l) : c.keys = a.table.keys := by
  rw [Cache.keys, h.holds.keys, h.keys_eq]

theorem size (h : Refines c a l) : c.size = a.table.size := by
  have hl := h.index_keys.length_eq
  simpa [Table.keys, Cache.size, Table.size] using hl

theorem isEmpty (h : Refines c a l) : c.isEmpty = (a.table.size == 0) := by
  rw [Cache.isEmpty, h.size]

theorem mem_keys (h : Refines c a l) :
    key ∈ a.table.keys ↔ ∃ slot, c.index.get? key = some slot := by
  rw [← h.index_keys.mem_iff, ← Option.ne_none_iff_exists']
  constructor
  · intro hk hn
    exact (Table.get?_eq_none_iff _ _).1 hn hk
  · intro hn
    by_contra hk
    exact hn ((Table.get?_eq_none_iff _ _).2 hk)

theorem peek (h : Refines c a l) (key : String) : c.peek key = a.table.get? key := by
  rw [Cache.peek]
  cases hi : c.index.get? key with
  | none =>
    have hk : key ∉ a.table.keys := by
      rw [h.mem_keys]
      simp [hi]
    exact ((Table.get?_eq_none_iff _ _).2 hk).symm
  | some slot =>
    obtain ⟨value, hm⟩ := h.index.1 hi
    obtain ⟨before, after, he⟩ := h.holds.get? hm
    have hv : (key, value) ∈ a.table.entries := by
      rw [← h.entries]
      exact List.mem_map.2 ⟨_, hm, rfl⟩
    rw [(Table.get?_eq_some_iff _ _ _).2 hv]
    simp [he]

theorem get (h : Refines c a l) (key : String) :
    (c.get key).1 = a.table.get? key ∧ Refines (c.get key).2 a l := by
  rw [Cache.get, ← h.peek]
  split <;> rename_i hp <;>
    exact ⟨hp.symm, h.capacity, h.holds, h.entries, h.index, h.index_keys⟩

theorem ofCapacity (n : Nat) :
    Refines (Cache.ofCapacity n : Cache α) { capacity := max n 1 } [] where
  capacity := rfl
  holds := Fifo.Holds.empty
  entries := rfl
  index := by simp [Cache.ofCapacity]
  index_keys := List.Perm.refl _

theorem nodup_keys (h : Refines c a l) : (l.map fun x => x.2.1).Nodup := by
  rw [h.keys_eq]
  exact a.table.nodup

theorem map_replaced {slot : Nat} {old : α} (hs : (slotsOf l).Nodup)
    (hk : (l.map fun x => x.2.1).Nodup) (hm : (slot, key, old) ∈ l) :
    (l.map (Stop.replaced slot value)).map Prod.snd = Table.put key value (l.map Prod.snd) := by
  induction l with
  | nil => cases hm
  | cons x rest ih =>
    obtain ⟨s, k, v⟩ := x
    obtain ⟨hsr, hs⟩ := List.nodup_cons.1 hs
    obtain ⟨hkr, hk⟩ := List.nodup_cons.1 hk
    rcases List.mem_cons.1 hm with hx | hm
    · cases hx
      have hrest := Fifo.map_replaced_of_not_mem hsr value
      simp [Stop.replaced, Table.put, hrest]
    · have hne : s ≠ slot := fun he => hsr (List.mem_map.2 ⟨_, hm, he.symm⟩)
      have hke : k ≠ key := fun he => hkr (List.mem_map.2 ⟨_, hm, he.symm⟩)
      simp only [List.map_cons, Stop.replaced, if_neg hne, Table.put, if_neg hke]
      rw [← ih hs hk hm]

theorem mem_replaced {slot t : Nat} {k : String} {v : α} :
    (t, k, v) ∈ l.map (Stop.replaced slot value) ↔
      ∃ old, (t, k, old) ∈ l ∧ v = if t = slot then value else old := by
  simp only [List.mem_map]
  constructor
  · intro hm
    obtain ⟨⟨s, k', old⟩, hm, he⟩ := hm
    by_cases hs : s = slot
    · simp only [Stop.replaced, if_pos hs, Prod.mk.injEq] at he
      obtain ⟨rfl, rfl, rfl⟩ := he
      exact ⟨old, hs ▸ hm, by rw [if_pos rfl]⟩
    · simp only [Stop.replaced, if_neg hs, Prod.mk.injEq] at he
      obtain ⟨rfl, rfl, rfl⟩ := he
      exact ⟨old, hm, by rw [if_neg hs]⟩
  · intro hm
    obtain ⟨old, hm, rfl⟩ := hm
    refine ⟨_, hm, ?_⟩
    by_cases hs : t = slot <;> simp [Stop.replaced, hs]

theorem update (h : Refines c a l) (hk : key ∈ a.table.keys) (value : α) :
    ∃ c' l', c.replace? key value = some c' ∧ Refines c' (a.write key value) l' := by
  obtain ⟨slot, hi⟩ := h.mem_keys.1 hk
  obtain ⟨old, hm⟩ := h.index.1 hi
  obtain ⟨_, f, hf, hholds⟩ := h.holds.replace (List.mem_map.2 ⟨_, hm, rfl⟩) value
  rw [Cache.replace?]
  simp only [hi, hf, Option.map_some]
  refine ⟨_, l.map (Stop.replaced slot value), rfl, ?_⟩
  constructor
  case capacity => exact h.capacity
  case holds => exact hholds
  case entries =>
    rw [map_replaced h.holds.nodup h.nodup_keys hm, h.entries]
    rfl
  case index =>
    intro k t
    simp only [mem_replaced]
    rw [h.index]
    constructor
    · intro he
      obtain ⟨v, hv⟩ := he
      exact ⟨_, v, hv, rfl⟩
    · intro he
      obtain ⟨_, v, hv, -⟩ := he
      exact ⟨v, hv⟩
  case index_keys =>
    rw [Arrivals.write, Table.keys_insert, if_pos hk]
    exact h.index_keys

theorem replace?_eq_none (h : Refines c a l) (hk : key ∉ a.table.keys) (value : α) :
    c.replace? key value = none := by
  rw [Cache.replace?]
  cases hi : c.index.get? key with
  | none => rfl
  | some slot => exact absurd (h.mem_keys.2 ⟨slot, hi⟩) hk

theorem makeRoom (h : Refines c a l) :
    c.makeRoom.1 = a.makeRoom.1 ∧ (∀ k, k ∉ a.table.keys → k ∉ a.makeRoom.2.table.keys) ∧
      ∃ l', Refines c.makeRoom.2 a.makeRoom.2 l' := by
  have hsize : c.index.size = a.table.size := h.size
  have hkeys := h.keys_eq
  rw [Cache.makeRoom, Arrivals.makeRoom, h.capacity, hsize]
  cases l with
  | nil =>
    rw [List.map_nil] at hkeys
    simp only [← hkeys, h.holds.pop_nil]
    split <;> exact ⟨rfl, fun k hk => hkeys ▸ hk, [], h⟩
  | cons x rest =>
    obtain ⟨slot, oldest, v⟩ := x
    obtain ⟨after, f, hpop, hholds⟩ := h.holds.pop_cons
    obtain ⟨hold, -⟩ := List.nodup_cons.1 h.nodup_keys
    rw [List.map_cons] at hkeys
    simp only [← hkeys, hpop]
    split
    · refine ⟨rfl, ?_, rest, ?_⟩
      · intro k hk
        rw [Table.keys_erase, ← hkeys]
        exact fun hm => hk (List.mem_of_mem_filter hm)
      · constructor
        case capacity => rfl
        case holds => exact hholds
        case entries =>
          have hne : ∀ e ∈ rest.map Prod.snd, e.1 ≠ oldest := by
            intro e he hk
            obtain ⟨x, hx, rfl⟩ := List.mem_map.1 he
            exact hold (List.mem_map.2 ⟨x, hx, hk⟩)
          change rest.map Prod.snd = a.table.entries.filter fun e => e.1 ≠ oldest
          rw [← h.entries, List.map_cons, List.filter_cons]
          simpa using (List.filter_eq_self.2 fun e he => by simpa using hne e he).symm
        case index =>
          intro k t
          rw [Table.get?_erase]
          split
          · rename_i he
            subst k
            simp only [reduceCtorEq, false_iff, not_exists]
            exact fun v hm => hold (List.mem_map.2 ⟨_, hm, rfl⟩)
          · rename_i hne
            rw [h.index]
            simp [Ne.symm hne]
        case index_keys =>
          rw [Table.keys_erase, Table.keys_erase]
          exact h.index_keys.filter _
    · exact ⟨rfl, fun k hk => by rwa [← hkeys], _, h⟩

theorem insertNew (h : Refines c a l) (hk : key ∉ a.table.keys) (value : α) :
    ∃ l', Refines (c.insertNew key value) (a.write key value) l' := by
  obtain ⟨slot, f, hpush, -, hholds⟩ := h.holds.push key value
  rw [Cache.insertNew]
  simp only [hpush]
  refine ⟨l ++ [(slot, key, value)], ?_⟩
  constructor
  case capacity => exact h.capacity
  case holds => exact hholds
  case entries =>
    rw [List.map_append, h.entries]
    exact (Table.put_of_not_mem hk value).symm
  case index =>
    intro k t
    rw [Table.get?_insert]
    split
    · rename_i he
      subst k
      have hl : ∀ v, (t, key, v) ∉ l := by
        intro v hm
        rw [← h.keys_eq] at hk
        exact hk (List.mem_map.2 ⟨_, hm, rfl⟩)
      simp [hl, eq_comm]
    · rename_i hne
      rw [h.index]
      simp [Ne.symm hne]
  case index_keys =>
    have hki : key ∉ c.index.keys := fun hm => hk (h.index_keys.mem_iff.1 hm)
    rw [Arrivals.write, Table.keys_insert, Table.keys_insert, if_neg hk, if_neg hki]
    exact h.index_keys.append_right _

theorem set (h : Refines c a l) (key : String) (value : α) :
    (c.set key value).1 = (a.set key value).1 ∧
      ∃ l', Refines (c.set key value).2 (a.set key value).2 l' := by
  rw [Cache.set, Arrivals.set]
  by_cases hk : key ∈ a.table.keys
  · obtain ⟨c', l', hr, h'⟩ := h.update hk value
    rw [hr, if_pos hk]
    exact ⟨rfl, l', h'⟩
  · obtain ⟨ho, hkeep, l₁, h₁⟩ := h.makeRoom
    rw [h.replace?_eq_none hk, if_neg hk]
    exact ⟨ho, h₁.insertNew (hkeep key hk) value⟩

theorem perform (h : Refines c a l) (r : Request α) :
    (c.perform r).1 = (a.perform r).1 ∧ ∃ l', Refines (c.perform r).2 (a.perform r).2 l' := by
  cases r with
  | set key value =>
    obtain ⟨ho, h'⟩ := h.set key value
    exact ⟨congrArg Answer.stored ho, h'⟩
  | get key =>
    obtain ⟨hv, h'⟩ := h.get key
    exact ⟨congrArg Answer.found hv, l, h'⟩
  | peek key => exact ⟨congrArg Answer.found (h.peek key), l, h⟩

theorem observe (h : Refines c a l) (rs : List (Request α)) : c.observe rs = a.observe rs := by
  induction rs generalizing c a l with
  | nil => rfl
  | cons r rs ih =>
    obtain ⟨ho, l', h'⟩ := h.perform r
    rw [Cache.observe, Arrivals.observe]
    simp only [ho, h'.keys, h'.size, h'.isEmpty, ih h']

end Refines

/-- A cache answers every sequence of requests as the list of its arrivals does, and shows the same
keys in the same order after each. -/
theorem observe_ofCapacity (capacity : Nat) (rs : List (Request α)) :
    (Cache.ofCapacity capacity).observe rs =
      ({ capacity := max capacity 1 } : Arrivals α).observe rs :=
  (Refines.ofCapacity capacity).observe rs

end OrderLookup.Cache
