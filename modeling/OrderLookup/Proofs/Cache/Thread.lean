import OrderLookup.Cache.Fifo
import Mathlib.Data.List.Perm.Subperm

/-!
The thread through the slots of a first-in-first-out list. A list `Holds` what its thread passes:
the links lead from slot to slot, oldest entry first, every other slot is vacant and stands in the
free list once. Appending puts an unused slot behind the thread, taking off shortens it in front,
and a replaced value changes nothing but itself.
-/

namespace OrderLookup.Cache.Fifo

variable {α : Type}

abbrev Stop (α : Type) := Nat × String × α

def lookup (slots : Array (Option (Entry α))) (slot : Nat) : Option (Entry α) := slots[slot]?.join

def slotsOf (l : List (Stop α)) : List Nat := l.map Prod.fst

/-- Whether the links lead through the given stops to the end, with `prev` behind the first. -/
def Thread (slots : Array (Option (Entry α))) : Option Nat → List (Stop α) → Prop
  | _, [] => True
  | prev, (slot, key, value) :: rest =>
    lookup slots slot = some ⟨key, value, prev, (slotsOf rest).head?⟩ ∧
      Thread slots (some slot) rest

def Stop.replaced (slot : Nat) (value : α) (x : Stop α) : Stop α :=
  if x.1 = slot then (slot, x.2.1, value) else x

structure Holds (f : Fifo α) (l : List (Stop α)) : Prop where
  thread : Thread f.slots none l
  head : f.head = (slotsOf l).head?
  tail : f.tail = (slotsOf l).getLast?
  nodup : (slotsOf l).Nodup
  live : ∀ {slot}, lookup f.slots slot ≠ none → slot ∈ slotsOf l
  free : ∀ {slot}, slot ∈ f.free ↔ slot < f.slots.size ∧ slot ∉ slotsOf l
  free_nodup : f.free.Nodup
  len : f.len = l.length

structure Stocked (slots : Array (Option (Entry α))) (vacant used : List Nat) : Prop where
  nodup : used.Nodup
  live : ∀ {slot}, lookup slots slot ≠ none → slot ∈ used
  free : ∀ {slot}, slot ∈ vacant ↔ slot < slots.size ∧ slot ∉ used
  free_nodup : vacant.Nodup

variable {slots slots' : Array (Option (Entry α))} {slot t : Nat} {prev : Option Nat}
  {free used : List Nat} {l : List (Stop α)} {key : String} {value : α} {f : Fifo α}

theorem lt_of_lookup (h : lookup slots slot ≠ none) : slot < slots.size := by
  by_contra hn
  apply h
  rw [lookup, Array.getElem?_eq_none (Nat.le_of_not_lt hn)]
  rfl

theorem lookup_set (h : slot < slots.size) (o : Option (Entry α)) (t : Nat) :
    lookup (slots.setIfInBounds slot o) t = if slot = t then o else lookup slots t := by
  simp only [lookup, Array.getElem?_setIfInBounds]
  by_cases ht : slot = t
  · subst t
    simp [h]
  · simp [ht]

theorem lookup_modifySlot (slots : Array (Option (Entry α))) (slot : Nat) (g : Entry α → Entry α)
    (t : Nat) : lookup (modifySlot slots slot g) t =
      if slot = t then (lookup slots t).map g else lookup slots t := by
  rw [modifySlot]
  cases he : lookup slots slot with
  | none =>
    simp only [lookup] at he
    simp only [he]
    split
    · subst t
      simp [lookup, he]
    · rfl
  | some e =>
    have hlt : slot < slots.size := lt_of_lookup (by simp [he])
    simp only [lookup] at he
    simp only [he]
    rw [lookup_set hlt]
    split
    · subst t
      simp [lookup, he]
    · rfl

theorem size_modifySlot (slots : Array (Option (Entry α))) (slot : Nat)
    (g : Entry α → Entry α) : (modifySlot slots slot g).size = slots.size := by
  rw [modifySlot]
  split <;> simp

theorem slotsOf_replaced (slot : Nat) (value : α) (l : List (Stop α)) :
    slotsOf (l.map (Stop.replaced slot value)) = slotsOf l := by
  simp only [slotsOf, List.map_map]
  apply List.map_congr_left
  intro x _
  by_cases hx : x.1 = slot <;> simp [Stop.replaced, hx]

theorem map_replaced_of_not_mem (hs : slot ∉ slotsOf l) (value : α) :
    l.map (Stop.replaced slot value) = l := by
  have hid : l.map (Stop.replaced slot value) = l.map id := by
    apply List.map_congr_left
    intro x hx
    exact if_neg fun he => hs (List.mem_map.2 ⟨x, hx, he⟩)
  rw [hid, List.map_id]

namespace Stocked

theorem modify (h : Stocked slots free used) (slot : Nat) (g : Entry α → Entry α) :
    Stocked (modifySlot slots slot g) free used where
  nodup := h.nodup
  live := by
    intro t ht
    rw [lookup_modifySlot] at ht
    apply h.live
    split at ht
    · simpa using ht
    · exact ht
  free := by
    intro t
    rw [size_modifySlot]
    exact h.free
  free_nodup := h.free_nodup

theorem vacate (h : Stocked slots free (slot :: used)) (hlt : slot < slots.size) :
    Stocked (slots.setIfInBounds slot none) (slot :: free) used := by
  obtain ⟨hnot, hnodup⟩ := List.nodup_cons.1 h.nodup
  constructor
  case nodup => exact hnodup
  case live =>
    intro t ht
    rw [lookup_set hlt] at ht
    split at ht
    · exact absurd rfl ht
    · rename_i hne
      exact (List.mem_cons.1 (h.live ht)).resolve_left (Ne.symm hne)
  case free =>
    intro t
    rw [List.mem_cons, h.free, Array.size_setIfInBounds, List.mem_cons, not_or]
    by_cases ht : t = slot
    · subst t
      simpa [hlt] using hnot
    · simp [ht]
  case free_nodup =>
    refine List.nodup_cons.2 ⟨fun hm => ?_, h.free_nodup⟩
    exact (h.free.1 hm).2 (List.mem_cons_self ..)

end Stocked

namespace Thread

theorem congr (h : Thread slots prev l)
    (hs : ∀ t ∈ slotsOf l, lookup slots' t = lookup slots t) : Thread slots' prev l := by
  induction l generalizing prev with
  | nil => trivial
  | cons x rest ih =>
    obtain ⟨slot, key, value⟩ := x
    obtain ⟨he, hr⟩ := h
    refine ⟨?_, ih hr fun t ht => hs t (List.mem_cons_of_mem _ ht)⟩
    rw [hs slot (List.mem_cons_self ..), he]

theorem lookup_eq (h : Thread slots prev l) (hm : (slot, key, value) ∈ l) :
    ∃ before after, lookup slots slot = some ⟨key, value, before, after⟩ := by
  induction l generalizing prev with
  | nil => cases hm
  | cons x rest ih =>
    obtain ⟨s, k, v⟩ := x
    obtain ⟨he, hr⟩ := h
    rcases List.mem_cons.1 hm with hx | hm
    · cases hx
      exact ⟨_, _, he⟩
    · exact ih hr hm

theorem live (h : Thread slots prev l) (ht : t ∈ slotsOf l) : lookup slots t ≠ none := by
  obtain ⟨⟨s, k, v⟩, hm, rfl⟩ := List.mem_map.1 ht
  obtain ⟨before, after, he⟩ := h.lookup_eq hm
  simp [he]

theorem concat (h : Thread slots prev l) (hn : (slotsOf l).Nodup) (hnew : slot ∉ slotsOf l)
    (hs : lookup slots' slot = some ⟨key, value, (slotsOf l).getLast?.or prev, none⟩)
    (hlast : ∀ t, (slotsOf l).getLast? = some t →
      lookup slots' t = (lookup slots t).map fun e => { e with next := some slot })
    (hrest : ∀ t ∈ slotsOf l, (slotsOf l).getLast? ≠ some t → lookup slots' t = lookup slots t) :
    Thread slots' prev (l ++ [(slot, key, value)]) := by
  induction l generalizing prev with
  | nil => exact ⟨hs, trivial⟩
  | cons x rest ih =>
    obtain ⟨s, k, v⟩ := x
    obtain ⟨he, hr⟩ := h
    obtain ⟨hsr, hn⟩ := List.nodup_cons.1 hn
    cases rest with
    | nil =>
      refine ⟨?_, hs, trivial⟩
      rw [hlast s rfl, he]
      rfl
    | cons y rest =>
      have hlast_eq : (slotsOf ((s, k, v) :: y :: rest)).getLast? =
          (slotsOf (y :: rest)).getLast? := by
        simp [slotsOf, List.getLast?_cons_cons]
      rw [hlast_eq] at hs hlast hrest
      refine ⟨?_, ih hr hn (fun hm => hnew (List.mem_cons_of_mem _ hm)) ?_ hlast
        fun t ht => hrest t (List.mem_cons_of_mem _ ht)⟩
      · rw [hrest s (List.mem_cons_self ..) fun hl => hsr (List.mem_of_getLast? hl), he]
        rfl
      · cases hl : (slotsOf (y :: rest)).getLast? with
        | none => simp [slotsOf] at hl
        | some t => simpa [hl] using hs

theorem tail (h : Thread slots prev ((slot, key, value) :: l))
    (hn : (slotsOf ((slot, key, value) :: l)).Nodup)
    (hfirst : ∀ t, (slotsOf l).head? = some t →
      lookup slots' t = (lookup slots t).map fun e => { e with prev := none })
    (hrest : ∀ t ∈ slotsOf l, (slotsOf l).head? ≠ some t → lookup slots' t = lookup slots t) :
    Thread slots' none l := by
  obtain ⟨-, hr⟩ := h
  obtain ⟨-, hn⟩ := List.nodup_cons.1 hn
  cases l with
  | nil => trivial
  | cons x rest =>
    obtain ⟨s, k, v⟩ := x
    obtain ⟨he, hr⟩ := hr
    obtain ⟨hsr, -⟩ := List.nodup_cons.1 hn
    refine ⟨?_, hr.congr fun t ht => hrest t (List.mem_cons_of_mem _ ht) fun hh => ?_⟩
    · rw [hfirst s rfl, he]
      rfl
    · cases hh
      exact hsr ht

theorem replace (h : Thread slots prev l)
    (hs : ∀ t ∈ slotsOf l, lookup slots' t =
      if slot = t then (lookup slots t).map fun e => { e with value := value }
      else lookup slots t) :
    Thread slots' prev (l.map (Stop.replaced slot value)) := by
  induction l generalizing prev with
  | nil => trivial
  | cons x rest ih =>
    obtain ⟨s, k, v⟩ := x
    obtain ⟨he, hr⟩ := h
    have hslots := slotsOf_replaced slot value rest
    have hstep := ih hr fun t ht => hs t (List.mem_cons_of_mem _ ht)
    have hhere := hs s (List.mem_cons_self ..)
    rw [he] at hhere
    by_cases hsl : s = slot
    · subst s
      simp only [List.map_cons, Stop.replaced, if_true, Thread, hslots]
      exact ⟨by simpa using hhere, hstep⟩
    · simp only [List.map_cons, Stop.replaced, if_neg hsl, Thread, hslots]
      exact ⟨by simpa [Ne.symm hsl] using hhere, hstep⟩

theorem walk {steps : Nat} (h : Thread f.slots prev l) (hl : l.length ≤ steps) :
    (f.walk steps (slotsOf l).head?).map (fun e => (e.key, e.value)) = l.map Prod.snd := by
  induction l generalizing prev steps with
  | nil => cases steps <;> rfl
  | cons x rest ih =>
    obtain ⟨s, k, v⟩ := x
    obtain ⟨he, hr⟩ := h
    cases steps with
    | zero => simp at hl
    | succ steps =>
      have hget : f.get? s = some ⟨k, v, prev, (slotsOf rest).head?⟩ := he
      have hstep := ih hr (Nat.le_of_succ_le_succ hl)
      simpa [slotsOf, Fifo.walk, hget] using hstep

end Thread

namespace Holds

theorem empty : Holds (Fifo.empty : Fifo α) [] where
  thread := trivial
  head := rfl
  tail := rfl
  nodup := List.nodup_nil
  live h := by simp [Fifo.empty, lookup] at h
  free := by simp [Fifo.empty]
  free_nodup := List.nodup_nil
  len := rfl

theorem lt_size (h : Holds f l) (ht : t ∈ slotsOf l) : t < f.slots.size :=
  lt_of_lookup (h.thread.live ht)

theorem length_le (h : Holds f l) : l.length ≤ f.slots.size := by
  have hsub : slotsOf l ⊆ List.range f.slots.size := fun t ht => List.mem_range.2 (h.lt_size ht)
  have hle := (List.subperm_of_subset h.nodup hsub).length_le
  simpa [slotsOf] using hle

theorem entries (h : Holds f l) :
    f.entries.map (fun e => (e.key, e.value)) = l.map Prod.snd := by
  rw [Fifo.entries, h.head]
  exact h.thread.walk h.length_le

theorem keys (h : Holds f l) : f.keys = l.map fun x => x.2.1 := by
  have he := congrArg (List.map Prod.fst) h.entries
  simpa [Fifo.keys, Function.comp_def] using he

theorem get? (h : Holds f l) (hm : (slot, key, value) ∈ l) :
    ∃ before after, f.get? slot = some ⟨key, value, before, after⟩ := h.thread.lookup_eq hm

theorem stocked (h : Holds f l) : Stocked f.slots f.free (slotsOf l) :=
  ⟨h.nodup, h.live, h.free, h.free_nodup⟩

theorem place (h : Holds f l) {e : Entry α}
    (hp : f.place e = (slot, slots, free)) :
    slot ∉ slotsOf l ∧ (∀ t, lookup slots t = if slot = t then some e else lookup f.slots t) ∧
      (∀ t, t ∈ free ↔ t < slots.size ∧ t ∉ slotsOf l ∧ t ≠ slot) ∧ free.Nodup := by
  rw [Fifo.place] at hp
  split at hp
  · rename_i s rest hfree
    cases hp
    have hfs : slot ∈ f.free ↔ _ := h.free
    have hnd := h.free_nodup
    rw [hfree] at hfs hnd
    obtain ⟨hlt, hnot⟩ := hfs.1 (List.mem_cons_self ..)
    obtain ⟨hsr, hnd⟩ := List.nodup_cons.1 hnd
    refine ⟨hnot, lookup_set hlt _, ?_, hnd⟩
    intro t
    have hft : t ∈ f.free ↔ _ := h.free
    rw [hfree, List.mem_cons] at hft
    rw [Array.size_setIfInBounds, ← and_assoc, ← hft]
    constructor
    · intro ht
      refine ⟨Or.inr ht, ?_⟩
      intro he
      exact hsr (he ▸ ht)
    · intro ht
      exact ht.1.resolve_left ht.2
  · rename_i hfree
    cases hp
    have hall : ∀ t, t < f.slots.size → t ∈ slotsOf l := by
      intro t ht
      by_contra hn
      have hf := h.free.2 ⟨ht, hn⟩
      rw [hfree] at hf
      cases hf
    refine ⟨fun hm => Nat.lt_irrefl _ (h.lt_size hm), ?_, ?_, List.nodup_nil⟩
    · intro t
      simp only [lookup, Array.getElem?_push]
      by_cases ht : f.slots.size = t
      · simp [ht]
      · simp [ht, Ne.symm ht]
    · intro t
      simp only [List.not_mem_nil, false_iff, Array.size_push, not_and, not_not]
      intro ht hn
      by_contra hne
      exact hn (hall t (by omega))

theorem place_stocked (h : Holds f l) {e : Entry α} (hp : f.place e = (slot, slots, free)) :
    Stocked slots free (slotsOf l ++ [slot]) := by
  obtain ⟨hnew, hset, hfree, hnd⟩ := h.place hp
  constructor
  case nodup =>
    refine List.nodup_append.2 ⟨h.nodup, by simp, ?_⟩
    intro a ha b hb
    rw [List.mem_singleton.1 hb]
    exact fun he => hnew (he ▸ ha)
  case live =>
    intro t ht
    rw [hset] at ht
    split at ht
    · simp [*]
    · exact List.mem_append_left _ (h.live ht)
  case free =>
    intro t
    rw [hfree]
    simp
  case free_nodup => exact hnd

theorem thread_push (h : Holds f l) (hp : f.place ⟨key, value, f.tail, none⟩ = (slot, slots, free))
    {last : Nat} (hlast : (slotsOf l).getLast? = some last) :
    Thread (modifySlot slots last fun e => { e with next := some slot }) none
      (l ++ [(slot, key, value)]) := by
  obtain ⟨hnew, hset, -⟩ := h.place hp
  have hne : ∀ t ∈ slotsOf l, slot ≠ t := by
    intro t ht he
    exact hnew (he ▸ ht)
  have hmem := List.mem_of_getLast? hlast
  apply h.thread.concat h.nodup hnew
  · rw [lookup_modifySlot, if_neg (hne last hmem).symm, hset, if_pos rfl, h.tail, hlast]
    rfl
  · intro t ht
    rw [hlast] at ht
    cases ht
    rw [lookup_modifySlot, if_pos rfl, hset, if_neg (hne last hmem)]
  · intro t ht htl
    have hlt : last ≠ t := by
      intro he
      exact htl (he ▸ hlast)
    rw [lookup_modifySlot, if_neg hlt, hset, if_neg (hne t ht)]

theorem push (h : Holds f l) (key : String) (value : α) :
    ∃ slot f', f.push key value = (slot, f') ∧ slot ∉ slotsOf l ∧
      Holds f' (l ++ [(slot, key, value)]) := by
  rcases hp : f.place ⟨key, value, f.tail, none⟩ with ⟨slot, slots, free⟩
  obtain ⟨hnew, hset, -⟩ := h.place hp
  have hstock : Stocked slots free (slotsOf (l ++ [(slot, key, value)])) := by
    simpa [slotsOf] using h.place_stocked hp
  have htail := h.tail
  rw [Fifo.push]
  simp only [hp]
  cases hlast : (slotsOf l).getLast? with
  | none =>
    have hnil : l = [] := by simpa [slotsOf] using hlast
    subst hnil
    rw [hlast] at htail
    simp only [htail] at hset ⊢
    refine ⟨slot, _, rfl, hnew, ?_⟩
    constructor
    case thread => exact ⟨by simp [hset, slotsOf], trivial⟩
    case head => rfl
    case tail => rfl
    case nodup => exact hstock.nodup
    case live => exact hstock.live
    case free => exact hstock.free
    case free_nodup => exact hstock.free_nodup
    case len => simp [h.len]
  | some last =>
    rw [hlast] at htail
    have hlinked := hstock.modify last fun e => { e with next := some slot }
    have hthread := h.thread_push hp hlast
    simp only [htail]
    refine ⟨slot, _, rfl, hnew, ?_⟩
    constructor
    case thread => exact hthread
    case head =>
      change f.head = _
      rw [h.head]
      cases l with
      | nil => cases hlast
      | cons x rest => rfl
    case tail => simp [slotsOf]
    case nodup => exact hlinked.nodup
    case live => exact hlinked.live
    case free => exact hlinked.free
    case free_nodup => exact hlinked.free_nodup
    case len => simp [h.len]

theorem pop_nil (h : Holds f []) : f.pop = none := by
  have hhead : f.head = none := h.head
  rw [Fifo.pop]
  simp [hhead]

theorem thread_pop {next : Nat} {k : String} {v : α}
    (h : Holds f ((slot, key, value) :: (next, k, v) :: l)) :
    Thread (modifySlot (f.slots.setIfInBounds slot none) next fun e => { e with prev := none }) none
      ((next, k, v) :: l) := by
  have hlt : slot < f.slots.size := h.lt_size (List.mem_cons_self ..)
  have hne : ∀ t ∈ slotsOf ((next, k, v) :: l), slot ≠ t := by
    intro t ht he
    exact (List.nodup_cons.1 h.nodup).1 (he ▸ ht)
  apply h.thread.tail h.nodup
  · intro t ht
    cases ht
    rw [lookup_modifySlot, if_pos rfl, lookup_set hlt, if_neg (hne next (List.mem_cons_self ..))]
  · intro t ht hth
    have hnt : next ≠ t := by
      intro he
      exact hth (he ▸ rfl)
    rw [lookup_modifySlot, if_neg hnt, lookup_set hlt, if_neg (hne t ht)]

theorem pop_cons (h : Holds f ((slot, key, value) :: l)) :
    ∃ after f', f.pop = some (⟨key, value, none, after⟩, f') ∧ Holds f' l := by
  have hhead : f.head = some slot := h.head
  have hget : f.get? slot = some ⟨key, value, none, (slotsOf l).head?⟩ := h.thread.1
  have hstock := h.stocked.vacate (h.lt_size (List.mem_cons_self ..))
  have hlen : f.len - 1 = l.length := by simp [h.len]
  rw [Fifo.pop]
  simp only [hhead, hget]
  cases l with
  | nil =>
    refine ⟨_, _, rfl, ?_⟩
    constructor
    case thread => trivial
    case head => rfl
    case tail => rfl
    case nodup => exact hstock.nodup
    case live => exact hstock.live
    case free => exact hstock.free
    case free_nodup => exact hstock.free_nodup
    case len => exact hlen
  | cons x rest =>
    obtain ⟨next, k, v⟩ := x
    have hlinked := hstock.modify next fun e => { e with prev := none }
    refine ⟨_, _, rfl, ?_⟩
    constructor
    case thread => exact h.thread_pop
    case head => rfl
    case tail => exact h.tail
    case nodup => exact hlinked.nodup
    case live => exact hlinked.live
    case free => exact hlinked.free
    case free_nodup => exact hlinked.free_nodup
    case len => exact hlen

theorem replace (h : Holds f l) (hs : slot ∈ slotsOf l) (value : α) :
    ∃ old f', f.replace slot value = some (old, f') ∧
      Holds f' (l.map (Stop.replaced slot value)) := by
  obtain ⟨e, he⟩ := Option.ne_none_iff_exists'.1 (h.thread.live hs)
  have hget : f.get? slot = some e := he
  have hstock := h.stocked.modify slot fun e => { e with value := value }
  rw [← slotsOf_replaced slot value] at hstock
  rw [Fifo.replace]
  simp only [hget]
  refine ⟨_, _, rfl, ?_⟩
  constructor
  case thread => exact h.thread.replace fun t _ => lookup_modifySlot ..
  case head => rw [slotsOf_replaced]; exact h.head
  case tail => rw [slotsOf_replaced]; exact h.tail
  case nodup => exact hstock.nodup
  case live => exact hstock.live
  case free => exact hstock.free
  case free_nodup => exact hstock.free_nodup
  case len => rw [List.length_map]; exact h.len

end Holds

end OrderLookup.Cache.Fifo
