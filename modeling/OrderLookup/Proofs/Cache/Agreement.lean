import OrderLookup.Proofs.Cache.Accounts
import OrderLookup.Proofs.Cache.Slots

/-!
The index of a cache and its slots. Writing changes both, one after the other, and they say the same
of every key afterwards: a key that is in the index has its entry, and an entry has its key there.
So a cache that is full has an entry to push out, and it never needs more slots than it has room.
-/

namespace OrderLookup.Cache

variable {α : Type} {c : Cache α} {a : Arrivals α} {l : List (Fifo.Stop α)} {key : String}
  {value : α} {slot : Nat}

namespace Refines

theorem len_eq (h : Refines c a l) : c.fifo.len = c.size := by
  have hl := congrArg List.length h.entries
  rw [List.length_map] at hl
  rw [h.holds.len, h.size, hl]
  rfl

theorem index_iff (h : Refines c a l) :
    c.index.get? key = some slot ↔ (c.fifo.get? slot).map Entry.key = some key := by
  rw [h.index]
  constructor
  · intro hk
    obtain ⟨value, hm⟩ := hk
    obtain ⟨before, after, he⟩ := h.holds.get? hm
    rw [he]
    rfl
  · intro hk
    obtain ⟨e, he, rfl⟩ := Option.map_eq_some_iff.1 hk
    exact ⟨e.value, h.holds.mem_of_get? he⟩

theorem replace?_eq_none_iff (h : Refines c a l) :
    c.replace? key value = none ↔ c.index.get? key = none := by
  cases hi : c.index.get? key with
  | none =>
    have hk : key ∉ a.table.keys := by simp [h.mem_keys, hi]
    exact iff_of_true (h.replace?_eq_none hk value) rfl
  | some slot =>
    obtain ⟨c', l', hr, -⟩ := h.update (h.mem_keys.2 ⟨slot, hi⟩) value
    rw [hr]
    exact iff_of_false (Option.some_ne_none c') (Option.some_ne_none slot)

theorem exists_pop (h : Refines c a l) (hpos : 0 < c.size) :
    ∃ e f, c.fifo.pop = some (e, f) := by
  cases l with
  | nil =>
    rw [← h.len_eq, h.holds.len] at hpos
    cases hpos
  | cons x rest =>
    obtain ⟨after, f, hpop, -⟩ := h.holds.pop_cons
    exact ⟨_, f, hpop⟩

theorem len_pop (h : Refines c a l) {e : Entry α} {f : Fifo α} (hpop : c.fifo.pop = some (e, f)) :
    c.fifo.len = f.len + 1 := by
  cases l with
  | nil =>
    rw [h.holds.pop_nil] at hpop
    cases hpop
  | cons x rest =>
    obtain ⟨after, f', hpop', hholds⟩ := h.holds.pop_cons
    rw [hpop'] at hpop
    cases hpop
    rw [h.holds.len, hholds.len, List.length_cons]

end Refines

theorem makeRoom_slots (c : Cache α) : c.makeRoom.2.fifo.slots.size = c.fifo.slots.size := by
  rw [makeRoom]
  split
  · split
    · rename_i hpop
      exact Fifo.size_pop hpop
    · rfl
  · rfl

theorem replace?_slots {c' : Cache α} (h : c.replace? key value = some c') :
    c'.fifo.slots.size = c.fifo.slots.size := by
  rw [replace?] at h
  split at h
  · cases h
  · obtain ⟨p, hp, rfl⟩ := Option.map_eq_some_iff.1 h
    exact Fifo.size_replace hp

theorem Refines.insertNew_slots (h : Refines c a l) (hk : key ∉ a.table.keys) (value : α) :
    (c.insertNew key value).fifo.slots.size =
      max c.fifo.slots.size (c.insertNew key value).size := by
  obtain ⟨l', h'⟩ := h.insertNew hk value
  obtain ⟨slot, f, hpush, -, hholds⟩ := h.holds.push key value
  have hfifo : (c.insertNew key value).fifo = f := by
    rw [Cache.insertNew]
    simp only [hpush]
  have hsize := h.holds.size_push key value
  rw [hpush] at hsize
  rw [← h'.len_eq, hfifo, hsize, hholds.len, List.length_append]
  rfl

namespace Ordered

theorem set_slots (h : c.Ordered) (key : String) (value : α) :
    (c.set key value).2.fifo.slots.size ≤ max c.fifo.slots.size (c.set key value).2.size := by
  obtain ⟨a, l, hr, -⟩ := h
  rw [Cache.set]
  cases hrep : c.replace? key value with
  | some c' => exact Nat.le_trans (Nat.le_of_eq (replace?_slots hrep)) (Nat.le_max_left _ _)
  | none =>
    have hk : key ∉ a.table.keys := by simp [hr.mem_keys, hr.replace?_eq_none_iff.1 hrep]
    obtain ⟨-, hkeep, l₁, h₁⟩ := hr.makeRoom
    refine Nat.le_of_eq ((h₁.insertNew_slots (hkeep key hk) value).trans ?_)
    rw [makeRoom_slots]

end Ordered

/-- Whether a cache stands for a list of keys and values and has slots for no more than that. -/
structure Fitting (c : Cache α) : Prop where
  ordered : c.Ordered
  slots : c.fifo.slots.size ≤ c.capacity

namespace Fitting

theorem ofCapacity (capacity : Nat) : Fitting (Cache.ofCapacity capacity : Cache α) where
  ordered := .ofCapacity capacity
  slots := Nat.zero_le _

theorem perform (h : c.Fitting) (r : Request α) :
    (c.perform r).2.Fitting ∧ (c.perform r).2.capacity = c.capacity := by
  obtain ⟨hord, hcap⟩ := h.ordered.perform r
  refine ⟨⟨hord, ?_⟩, hcap⟩
  have hslots := h.slots
  have hroom := hord.size_le
  rw [hcap] at hroom ⊢
  cases r with
  | set key value =>
    exact Nat.le_trans (h.ordered.set_slots key value) (Nat.max_le.2 ⟨hslots, hroom⟩)
  | get key =>
    rw [Cache.perform, Cache.get]
    split <;> exact hslots
  | peek key => exact hslots

theorem run (h : c.Fitting) (rs : List (Request α)) :
    (c.run rs).Fitting ∧ (c.run rs).capacity = c.capacity := by
  induction rs generalizing c with
  | nil => exact ⟨h, rfl⟩
  | cons r rs ih =>
    obtain ⟨hfit, hcap⟩ := h.perform r
    rw [Cache.run, ← hcap]
    exact ih hfit

end Fitting

/-- The index and the slots never say different things: no slot is named that is not there, and a
full cache has an entry to push out. -/
theorem index_and_slots_agree (capacity : Nat) (rs : List (Request α)) :
    let c := (Cache.ofCapacity capacity : Cache α).run rs
    (∀ key slot, c.index.get? key = some slot ↔ (c.fifo.get? slot).map Entry.key = some key) ∧
      c.index.size = c.fifo.len ∧ c.capacity = max capacity 1 ∧
      c.fifo.slots.size ≤ max capacity 1 ∧
      (∀ key value, c.replace? key value = none ↔ c.index.get? key = none) ∧
      (c.capacity ≤ c.index.size → ∃ e f, c.fifo.pop = some (e, f)) ∧
      (∀ e f, c.fifo.pop = some (e, f) → c.fifo.len = f.len + 1) ∧
      c.fifo.Contained ∧ c.makeRoom.2.fifo.Contained := by
  intro c
  obtain ⟨hfit, hcap⟩ := (Fitting.ofCapacity capacity : Fitting (α := α) _).run rs
  have hroom : c.capacity = max capacity 1 := hcap
  have hslots : c.fifo.slots.size ≤ max capacity 1 := hroom ▸ hfit.slots
  have hpos : 0 < c.capacity := hfit.ordered.capacity_pos
  obtain ⟨a, l, hr, -⟩ := hfit.ordered
  obtain ⟨-, -, l', hr'⟩ := hr.makeRoom
  refine ⟨fun key slot => hr.index_iff, hr.len_eq.symm, hroom, hslots,
    fun key value => hr.replace?_eq_none_iff, fun hfull => ?_, fun e f => hr.len_pop,
    hr.holds.linked.contained, hr'.holds.linked.contained⟩
  exact hr.exists_pop (Nat.lt_of_lt_of_le hpos hfull)

theorem index_and_slots_agree_after_eviction :
    let c := (Cache.ofCapacity 2 : Cache Nat).run [.set "a" 1, .set "b" 1, .set "c" 1]
    c.capacity ≤ c.index.size ∧ c.index.get? "c" = some 0 ∧
      (∃ e f, c.fifo.pop = some (e, f)) ∧
      ∀ e f, c.fifo.pop = some (e, f) → c.fifo.len = f.len + 1 := by
  intro c
  obtain ⟨hindex, -, -, -, -, hfull, hlen, -⟩ :=
    index_and_slots_agree 2 [.set "a" 1, .set "b" 1, .set "c" (1 : Nat)]
  have hroom : c.capacity ≤ c.index.size := by decide
  exact ⟨hroom, (hindex "c" 0).2 (by decide), hfull hroom, hlen⟩

end OrderLookup.Cache
