import OrderLookup.Cache
import Mathlib.Data.List.Nodup

/-!
The index of a cache leads to slots that hold its keys. So a key that is written has the value
written last, and no other key gains a value by it.
-/

namespace OrderLookup.Cache

variable {α : Type}

namespace Fifo

def content (f : Fifo α) (slot : Nat) : Option (String × α) :=
  (f.get? slot).map fun e => (e.key, e.value)

def contentOf (slots : Array (Option (Entry α))) (slot : Nat) : Option (String × α) :=
  slots[slot]?.join.map fun e => (e.key, e.value)

theorem content_eq (f : Fifo α) (slot : Nat) : f.content slot = contentOf f.slots slot := rfl

theorem contentOf_setIfInBounds {slots : Array (Option (Entry α))} {slot : Nat}
    (h : slot < slots.size) (o : Option (Entry α)) (t : Nat) :
    contentOf (slots.setIfInBounds slot o) t =
      if slot = t then o.map fun e => (e.key, e.value) else contentOf slots t := by
  simp only [contentOf, Array.getElem?_setIfInBounds]
  by_cases ht : slot = t
  · subst ht
    simp [h]
  · simp [ht]

theorem lt_of_content {slots : Array (Option (Entry α))} {slot : Nat} {e : Entry α}
    (h : slots[slot]?.join = some e) : slot < slots.size := by
  by_contra hn
  rw [Array.getElem?_eq_none (Nat.le_of_not_lt hn)] at h
  cases h

theorem contentOf_modifySlot (slots : Array (Option (Entry α))) (slot : Nat)
    {g : Entry α → Entry α} (hg : ∀ e, (g e).key = e.key ∧ (g e).value = e.value) (t : Nat) :
    contentOf (modifySlot slots slot g) t = contentOf slots t := by
  rw [modifySlot]
  split
  · rename_i e he
    rw [contentOf_setIfInBounds (lt_of_content he)]
    split
    · subst t
      simp [contentOf, he, hg]
    · rfl
  · rfl

theorem vacant_modifySlot {slots : Array (Option (Entry α))} {slot t : Nat}
    (g : Entry α → Entry α) (h : slots[t]? = some none) :
    (modifySlot slots slot g)[t]? = some none := by
  rw [modifySlot]
  split
  · rename_i e he
    have hne : slot ≠ t := by
      rintro rfl
      simp [h] at he
    rw [Array.getElem?_setIfInBounds_ne hne, h]
  · exact h

structure Vacancies (f : Fifo α) : Prop where
  vacant : ∀ {slot}, slot ∈ f.free → f.slots[slot]? = some none
  nodup : f.free.Nodup

theorem Vacancies.empty : Vacancies (Fifo.empty : Fifo α) where
  vacant h := by cases h
  nodup := List.nodup_nil

theorem Vacancies.place {f : Fifo α} (hf : f.Vacancies) {e : Entry α} {slot : Nat}
    {slots : Array (Option (Entry α))} {free : List Nat} (h : f.place e = (slot, slots, free)) :
    contentOf f.slots slot = none ∧
    (∀ t, contentOf slots t = if slot = t then some (e.key, e.value) else contentOf f.slots t) ∧
    (∀ t ∈ free, slots[t]? = some none) ∧ free.Nodup := by
  rw [Fifo.place] at h
  split at h
  · rename_i s rest hfree
    cases h
    have hv : f.slots[slot]? = some none := hf.vacant (by simp [hfree])
    have hn := hf.nodup
    rw [hfree, List.nodup_cons] at hn
    have hlt : slot < f.slots.size := by
      by_contra hlt
      rw [Array.getElem?_eq_none (Nat.le_of_not_lt hlt)] at hv
      cases hv
    refine ⟨by simp [contentOf, hv], contentOf_setIfInBounds hlt _, ?_, hn.2⟩
    intro t ht
    have hne : slot ≠ t := by
      rintro rfl
      exact hn.1 ht
    rw [Array.getElem?_setIfInBounds_ne hne]
    exact hf.vacant (by simp [hfree, ht])
  · rename_i hfree
    cases h
    refine ⟨by simp [contentOf], ?_, by simp, List.nodup_nil⟩
    intro t
    simp only [contentOf, Array.getElem?_push]
    split <;> split <;> simp_all

theorem Vacancies.push {f : Fifo α} (hf : f.Vacancies) (key : String) (value : α) {slot : Nat}
    {f' : Fifo α} (h : f.push key value = (slot, f')) :
    f'.Vacancies ∧ f.content slot = none ∧
      ∀ t, f'.content t = if slot = t then some (key, value) else f.content t := by
  rcases hp : f.place ⟨key, value, f.tail, none⟩ with ⟨s, slots, free⟩
  obtain ⟨hnone, hset, hvac, hnd⟩ := hf.place hp
  rw [Fifo.push] at h
  simp only [hp] at h
  split at h
  · cases h
    refine ⟨⟨fun ht => vacant_modifySlot _ (hvac _ ht), hnd⟩, hnone, fun t => ?_⟩
    refine (contentOf_modifySlot _ _ ?_ t).trans (hset t)
    exact fun e => ⟨rfl, rfl⟩
  · cases h
    exact ⟨⟨fun ht => hvac _ ht, hnd⟩, hnone, hset⟩

theorem Vacancies.pop {f f' : Fifo α} (hf : f.Vacancies) {e : Entry α}
    (h : f.pop = some (e, f')) :
    f'.Vacancies ∧ ∃ slot, f.content slot = some (e.key, e.value) ∧
      ∀ t, f'.content t = if slot = t then none else f.content t := by
  simp only [Fifo.pop] at h
  split at h
  · cases h
  rename_i slot _
  split at h
  · cases h
  rename_i d hd
  have hlt : slot < f.slots.size := lt_of_content hd
  have hnot : slot ∉ f.free := by
    intro hm
    rw [Fifo.get?, hf.vacant hm] at hd
    cases hd
  have hvac : ∀ t ∈ slot :: f.free, (f.slots.setIfInBounds slot none)[t]? = some none := by
    intro t ht
    rcases List.mem_cons.1 ht with rfl | ht
    · simp [hlt]
    · have hne : slot ≠ t := by
        rintro rfl
        exact hnot ht
      rw [Array.getElem?_setIfInBounds_ne hne]
      exact hf.vacant ht
  have hset : ∀ t, contentOf (f.slots.setIfInBounds slot none) t =
      if slot = t then none else f.content t := contentOf_setIfInBounds hlt none
  split at h
  · cases h
    refine ⟨⟨fun ht => vacant_modifySlot _ (hvac _ ht), List.nodup_cons.2 ⟨hnot, hf.nodup⟩⟩,
      slot, by simp [content, hd], fun t => ?_⟩
    refine (contentOf_modifySlot _ _ ?_ t).trans (hset t)
    exact fun e => ⟨rfl, rfl⟩
  · cases h
    exact ⟨⟨fun ht => hvac _ ht, List.nodup_cons.2 ⟨hnot, hf.nodup⟩⟩,
      slot, by simp [content, hd], hset⟩

theorem Vacancies.replace {f f' : Fifo α} (hf : f.Vacancies) {slot : Nat} {value old : α}
    (h : f.replace slot value = some (old, f')) :
    f'.Vacancies ∧ ∀ t, f'.content t =
      if slot = t then (f.content t).map fun p => (p.1, value) else f.content t := by
  simp only [Fifo.replace] at h
  split at h
  · cases h
  rename_i e he
  cases h
  refine ⟨⟨fun ht => vacant_modifySlot _ (hf.vacant ht), hf.nodup⟩, fun t => ?_⟩
  rw [Fifo.get?] at he
  simp only [content_eq, modifySlot, he]
  rw [contentOf_setIfInBounds (lt_of_content he)]
  split
  · subst t
    simp [contentOf, he]
  · rfl

end Fifo

structure Indexed (c : Cache α) : Prop where
  vacancies : c.fifo.Vacancies
  live : ∀ {k slot}, c.index.get? k = some slot → ∃ v, c.fifo.content slot = some (k, v)

theorem peek_eq (c : Cache α) (key : String) :
    c.peek key = (c.index.get? key).bind fun slot => (c.fifo.content slot).map Prod.snd := by
  rw [peek]
  split
  · rename_i h
    simp [h]
  · rename_i slot h
    simp [h, Fifo.content, Function.comp_def]

namespace Indexed

theorem ofCapacity (capacity : Nat) : Indexed (Cache.ofCapacity capacity : Cache α) where
  vacancies := Fifo.Vacancies.empty
  live h := by cases h

theorem replace? {c c' : Cache α} (hc : c.Indexed) {key : String} {value : α}
    (h : c.replace? key value = some c') :
    c'.Indexed ∧ ∀ k, c'.peek k = if key = k then some value else c.peek k := by
  rw [Cache.replace?] at h
  split at h
  · cases h
  rename_i slot hslot
  obtain ⟨⟨old, f⟩, hf, rfl⟩ := Option.map_eq_some_iff.1 h
  obtain ⟨hvac, hcontent⟩ := hc.vacancies.replace hf
  have hkeep {k : String} {s : Nat} (hs : c.index.get? k = some s) (hk : key ≠ k) :
      f.content s = c.fifo.content s := by
    obtain ⟨v, hv⟩ := hc.live hs
    obtain ⟨w, hw⟩ := hc.live hslot
    rw [hcontent, if_neg]
    rintro rfl
    rw [hv] at hw
    cases hw
    exact hk rfl
  have hself : f.content slot = some (key, value) := by
    obtain ⟨w, hw⟩ := hc.live hslot
    rw [hcontent, if_pos rfl, hw]
    rfl
  refine ⟨⟨hvac, ?_⟩, ?_⟩
  · intro k s hs
    by_cases hk : key = k
    · subst hk
      rw [hslot] at hs
      cases hs
      exact ⟨value, hself⟩
    · rw [hkeep hs hk]
      exact hc.live hs
  · intro k
    simp only [peek_eq]
    split
    · subst k
      simp [hslot, hself]
    · rename_i hk
      cases hs : c.index.get? k with
      | none => rfl
      | some s => simp [hkeep hs hk]

theorem makeRoom {c : Cache α} (hc : c.Indexed) : c.makeRoom.2.Indexed ∧
    ∀ k, c.makeRoom.2.peek k = none ∨ c.makeRoom.2.peek k = c.peek k := by
  rw [Cache.makeRoom]
  split
  · split
    · rename_i e f hf
      obtain ⟨hvac, slot, hslot, hcontent⟩ := hc.vacancies.pop hf
      have hkeep {k : String} {s : Nat} (hs : c.index.get? k = some s) (hk : e.key ≠ k) :
          f.content s = c.fifo.content s := by
        obtain ⟨v, hv⟩ := hc.live hs
        rw [hcontent, if_neg]
        rintro rfl
        rw [hslot] at hv
        cases hv
        exact hk rfl
      refine ⟨⟨hvac, ?_⟩, ?_⟩
      · intro k s hs
        simp only [Table.get?_erase] at hs
        split at hs
        · cases hs
        · rename_i hk
          rw [hkeep hs hk]
          exact hc.live hs
      · intro k
        simp only [peek_eq, Table.get?_erase]
        split
        · exact Or.inl rfl
        · rename_i hk
          cases hs : c.index.get? k with
          | none => exact Or.inl rfl
          | some s => exact Or.inr (by simp [hkeep hs hk])
    · exact ⟨hc, fun k => Or.inr rfl⟩
  · exact ⟨hc, fun k => Or.inr rfl⟩

theorem insertNew {c : Cache α} (hc : c.Indexed) (key : String) (value : α) :
    (c.insertNew key value).Indexed ∧
      ∀ k, (c.insertNew key value).peek k = if key = k then some value else c.peek k := by
  rcases hp : c.fifo.push key value with ⟨slot, f⟩
  obtain ⟨hvac, hnone, hcontent⟩ := hc.vacancies.push key value hp
  have hkeep {k : String} {s : Nat} (hs : c.index.get? k = some s) :
      f.content s = c.fifo.content s := by
    obtain ⟨v, hv⟩ := hc.live hs
    rw [hcontent, if_neg]
    rintro rfl
    rw [hnone] at hv
    cases hv
  have hself : f.content slot = some (key, value) := by rw [hcontent, if_pos rfl]
  simp only [Cache.insertNew, hp]
  refine ⟨⟨hvac, ?_⟩, ?_⟩
  · intro k s hs
    simp only [Table.get?_insert] at hs
    split at hs
    · subst k
      cases hs
      exact ⟨value, hself⟩
    · rw [hkeep hs]
      exact hc.live hs
  · intro k
    simp only [peek_eq, Table.get?_insert]
    split
    · simp [hself]
    · cases hs : c.index.get? k with
      | none => rfl
      | some s => simp [hkeep hs]

theorem set {c : Cache α} (hc : c.Indexed) (key : String) (value : α) :
    (c.set key value).2.Indexed ∧ (c.set key value).2.peek key = some value ∧
      ∀ k, key ≠ k → (c.set key value).2.peek k = none ∨ (c.set key value).2.peek k = c.peek k := by
  rw [Cache.set]
  split
  · rename_i c' h
    obtain ⟨hi, hp⟩ := hc.replace? h
    exact ⟨hi, by rw [hp, if_pos rfl], fun k hk => Or.inr (by rw [hp, if_neg hk])⟩
  · obtain ⟨hr, hrp⟩ := hc.makeRoom
    obtain ⟨hi, hp⟩ := hr.insertNew key value
    refine ⟨hi, by rw [hp, if_pos rfl], fun k hk => ?_⟩
    rw [hp, if_neg hk]
    exact hrp k

theorem get {c : Cache α} (hc : c.Indexed) (key : String) :
    (c.get key).1 = c.peek key ∧ (c.get key).2.Indexed ∧ ∀ k, (c.get key).2.peek k = c.peek k := by
  rw [Cache.get]
  split
  · rename_i v h
    exact ⟨h.symm, ⟨hc.vacancies, hc.live⟩, fun k => rfl⟩
  · rename_i h
    exact ⟨h.symm, ⟨hc.vacancies, hc.live⟩, fun k => rfl⟩

end Indexed

end OrderLookup.Cache
