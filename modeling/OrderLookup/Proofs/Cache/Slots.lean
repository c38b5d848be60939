import OrderLookup.Proofs.Cache.Thread
import OrderLookup.Table

/-!
The slots of a first-in-first-out list. The thread through them can be followed slot by slot and
back, so a walk along it comes to an end, and a slot that is not on it is free. There is one slot
for each entry or free place, and a new slot is made only when no place is free.
-/

namespace OrderLookup.Cache.Fifo

variable {α : Type}

inductive Path (f : Fifo α) : Option Nat → List Nat → Prop
  | done : Path f none []
  | step {slot : Nat} {e : Entry α} {rest : List Nat} (he : f.get? slot = some e)
      (hr : Path f e.next rest) : Path f (some slot) (slot :: rest)

/-- Whether the links lead through the given slots, oldest first, from the head to the tail and
back, and all other slots are free. -/
structure Linked (f : Fifo α) (order : List Nat) : Prop where
  path : f.Path f.head order
  once : order.Nodup
  live : ∀ {slot}, slot ∈ order ↔ f.get? slot ≠ none
  tail : f.tail = order.getLast?
  inverse : ∀ {s t}, (f.get? s).bind Entry.next = some t ↔ (f.get? t).bind Entry.prev = some s
  free : ∀ {slot}, slot ∈ f.free ↔ slot < f.slots.size ∧ f.get? slot = none
  free_once : f.free.Nodup
  len : f.len = order.length

/-- Whether every slot that a list names is one of its slots, so that neither appending an entry
nor taking one off reaches beyond them. -/
structure Contained (f : Fifo α) : Prop where
  free : ∀ {slot}, slot ∈ f.free → slot < f.slots.size
  head : ∀ {slot}, f.head = some slot → slot < f.slots.size
  tail : ∀ {slot}, f.tail = some slot → slot < f.slots.size
  next : ∀ {slot t e}, f.get? slot = some e → e.next = some t → t < f.slots.size
  prev : ∀ {slot t e}, f.get? slot = some e → e.prev = some t → t < f.slots.size

variable {f f' : Fifo α} {l : List (Stop α)} {order : List Nat} {start prev : Option Nat}
  {slots : Array (Option (Entry α))} {e : Entry α} {s t slot steps : Nat} {key : String} {value : α}

theorem Path.walk (h : f.Path start order) (hl : order.length ≤ steps) :
    f.walk steps start = order.filterMap f.get? := by
  induction h generalizing steps with
  | done => cases steps <;> rfl
  | step he _ ih =>
    cases steps with
    | zero => cases hl
    | succ steps =>
      rw [Fifo.walk, he, List.filterMap_cons, he]
      exact congrArg _ (ih (Nat.le_of_succ_le_succ hl))

theorem lt_of_get? (h : f.get? slot ≠ none) : slot < f.slots.size := lt_of_lookup h

theorem get?_ne_none_of_bind {g : Entry α → Option Nat} (h : (f.get? slot).bind g = some t) :
    f.get? slot ≠ none := by
  intro hnone
  rw [hnone] at h
  cases h

namespace Linked

theorem lt_size (h : f.Linked order) (hs : slot ∈ order) : slot < f.slots.size :=
  lt_of_get? (h.live.1 hs)

theorem head_mem (h : f.Linked order) (hs : f.head = some slot) : slot ∈ order := by
  have hp := h.path
  rw [hs] at hp
  cases hp with
  | step => exact List.mem_cons_self ..

theorem contained (h : f.Linked order) : f.Contained where
  free hs := (h.free.1 hs).1
  head hs := h.lt_size (h.head_mem hs)
  tail hs := h.lt_size (List.mem_of_getLast? (h.tail.symm.trans hs))
  next {slot t e} he ht := by
    have hback : (f.get? t).bind Entry.prev = some slot := h.inverse.1 (by rw [he]; exact ht)
    exact lt_of_get? (get?_ne_none_of_bind hback)
  prev {slot t e} he ht := by
    have hon : (f.get? t).bind Entry.next = some slot := h.inverse.2 (by rw [he]; exact ht)
    exact lt_of_get? (get?_ne_none_of_bind hon)

end Linked

namespace Thread

theorem path (h : Thread f.slots prev l) : f.Path (slotsOf l).head? (slotsOf l) := by
  induction l generalizing prev with
  | nil => exact .done
  | cons x rest ih =>
    obtain ⟨slot, key, value⟩ := x
    obtain ⟨he, hr⟩ := h
    exact .step he (ih hr)

theorem prev_of_next (h : Thread slots prev l) (hs : s ∈ slotsOf l)
    (hn : (lookup slots s).bind Entry.next = some t) :
    (lookup slots t).bind Entry.prev = some s := by
  induction l generalizing prev with
  | nil => cases hs
  | cons x rest ih =>
    obtain ⟨slot, key, value⟩ := x
    obtain ⟨he, hr⟩ := h
    rcases List.mem_cons.1 hs with rfl | hs
    · rw [he] at hn
      cases rest with
      | nil => cases hn
      | cons y rest =>
        cases hn
        rw [hr.1]
        rfl
    · exact ih hr hs

theorem next_of_prev (h : Thread slots prev l) (ht : t ∈ slotsOf l)
    (hp : (lookup slots t).bind Entry.prev = some s) :
    prev = some s ∧ (slotsOf l).head? = some t ∨ (lookup slots s).bind Entry.next = some t := by
  induction l generalizing prev with
  | nil => cases ht
  | cons x rest ih =>
    obtain ⟨slot, key, value⟩ := x
    obtain ⟨he, hr⟩ := h
    rcases List.mem_cons.1 ht with rfl | ht
    · rw [he] at hp
      exact Or.inl ⟨hp, rfl⟩
    · rcases ih hr ht with ⟨hslot, hhead⟩ | hn
      · cases hslot
        rw [he]
        exact Or.inr hhead
      · exact Or.inr hn

end Thread

namespace Holds

theorem live_iff (h : Holds f l) : slot ∈ slotsOf l ↔ f.get? slot ≠ none :=
  ⟨fun hs => h.thread.live hs, fun hn => h.live hn⟩

theorem get?_eq_none_iff (h : Holds f l) : f.get? slot = none ↔ slot ∉ slotsOf l := by
  rw [h.live_iff, not_not]

theorem linked (h : Holds f l) : f.Linked (slotsOf l) := by
  have hpath := h.thread.path
  rw [← h.head] at hpath
  constructor
  case path => exact hpath
  case once => exact h.nodup
  case live => exact h.live_iff
  case tail => exact h.tail
  case inverse =>
    intro s t
    constructor
    · intro hn
      exact h.thread.prev_of_next (h.live_iff.2 (get?_ne_none_of_bind hn)) hn
    · intro hp
      have ht : t ∈ slotsOf l := h.live_iff.2 (get?_ne_none_of_bind hp)
      -- Nothing is behind the first entry, so the link back leads to one on the thread.
      rcases h.thread.next_of_prev ht hp with ⟨hnone, -⟩ | hn
      · cases hnone
      · exact hn
  case free =>
    intro slot
    rw [h.free, h.get?_eq_none_iff]
  case free_once => exact h.free_nodup
  case len => rw [h.len, slotsOf, List.length_map]

theorem walk_eq (h : Holds f l) (more : Nat) : f.walk (f.len + more) f.head = f.entries := by
  have hpath := h.linked.path
  have hlen : (slotsOf l).length = f.len := h.linked.len.symm
  have hsize : (slotsOf l).length ≤ f.slots.size := by
    rw [slotsOf, List.length_map]
    exact h.length_le
  rw [Fifo.entries, hpath.walk hsize, hpath.walk (hlen ▸ Nat.le_add_right f.len more)]

theorem get?_eq (h : Holds f l) (slot : Nat) :
    (f.get? slot).map (fun e => (e.key, e.value)) = Table.valueOf slot l := by
  cases hv : Table.valueOf slot l with
  | none =>
    have hnot : slot ∉ slotsOf l := (Table.valueOf_eq_none_iff slot l).1 hv
    rw [h.get?_eq_none_iff.2 hnot]
    rfl
  | some kv =>
    have hm := (Table.valueOf_eq_some_iff slot kv h.nodup).1 hv
    obtain ⟨before, after, he⟩ := h.get? hm
    rw [he]
    rfl

theorem mem_of_get? (h : Holds f l) (he : f.get? slot = some e) : (slot, e.key, e.value) ∈ l := by
  have hv := h.get?_eq slot
  rw [he] at hv
  exact (Table.valueOf_eq_some_iff slot _ h.nodup).1 hv.symm

theorem length_free (h : Holds f l) : f.free.length + l.length = f.slots.size := by
  have hnodup : (f.free ++ slotsOf l).Nodup := by
    refine List.nodup_append.2 ⟨h.free_nodup, h.nodup, fun s hs t ht he => ?_⟩
    exact (h.free.1 hs).2 (he ▸ ht)
  have hperm : (f.free ++ slotsOf l).Perm (List.range f.slots.size) := by
    refine (List.perm_ext_iff_of_nodup hnodup List.nodup_range).2 fun slot => ?_
    rw [List.mem_append, List.mem_range, h.free]
    constructor
    · intro hs
      rcases hs with hs | hs
      · exact hs.1
      · exact h.lt_size hs
    · intro hs
      by_cases hm : slot ∈ slotsOf l
      · exact Or.inr hm
      · exact Or.inl ⟨hs, hm⟩
  simpa [slotsOf] using hperm.length_eq

end Holds

theorem size_push (f : Fifo α) (key : String) (value : α) :
    (f.push key value).2.slots.size = max f.slots.size (f.slots.size + 1 - f.free.length) := by
  have hplace : ∀ e : Entry α,
      (f.place e).2.1.size = max f.slots.size (f.slots.size + 1 - f.free.length) := by
    intro e
    rw [place]
    cases f.free with
    | nil => simp
    | cons slot free => simp
  have hsize := hplace ⟨key, value, f.tail, none⟩
  rcases hp : f.place ⟨key, value, f.tail, none⟩ with ⟨slot, slots, free⟩
  rw [hp] at hsize
  simp only [push, hp]
  split
  · exact (size_modifySlot ..).trans hsize
  · exact hsize

theorem size_pop (h : f.pop = some (e, f')) : f'.slots.size = f.slots.size := by
  simp only [Fifo.pop] at h
  split at h
  · cases h
  split at h
  · cases h
  split at h <;> cases h <;> simp [size_modifySlot]

theorem size_replace {old : α} (h : f.replace slot value = some (old, f')) :
    f'.slots.size = f.slots.size := by
  rw [Fifo.replace] at h
  split at h
  · cases h
  · cases h
    exact size_modifySlot ..

theorem Holds.size_push (h : Holds f l) (key : String) (value : α) :
    (f.push key value).2.slots.size = max f.slots.size (l.length + 1) := by
  have hfree := h.length_free
  rw [Fifo.size_push]
  omega

end OrderLookup.Cache.Fifo
