import Mathlib.Data.List.Induction
import OrderLookup.Order.Sample
import OrderLookup.Proofs.Repository.Newest

/-!
What a repository holds after any sequence of upserts, and which of it is shown as recent. For each
id the last order counts that was stored under it. The recent orders are the newest ones, whatever
order the store lists its orders in, so that it does not matter how equal dates are told apart.
-/

namespace OrderLookup

theorem Order.precedes_iff {a b : Order} : a.Precedes b ↔ ¬a.dateCreated < b.dateCreated := by
  rw [Precedes, isNewer_iff]

namespace Repository

variable {r : Repository} {l listed held os : List Order} {o : Order} {uid : String} {limit : Nat}

theorem ofOrders_concat (os : List Order) (o : Order) :
    ofOrders (os ++ [o]) = ((ofOrders os).upsert o).toOption.getD (ofOrders os) := by
  rw [ofOrders, List.foldl_concat, ← ofOrders]

theorem ofOrders_concat_of_refused (os : List Order) (h : o.uid = "") :
    ofOrders (os ++ [o]) = ofOrders os := by
  rw [ofOrders_concat, upsert, if_pos h]
  rfl

theorem ofOrders_concat_of_accepted (os : List Order) (h : o.uid ≠ "") :
    ofOrders (os ++ [o]) = (ofOrders os).put o := by
  rw [ofOrders_concat, upsert, if_neg h]
  rfl

theorem get_put (r : Repository) (o : Order) (uid : String) :
    (r.put o).get uid = if o.uid = uid then .ok o else r.get uid := by
  rw [get, put, Table.get?_insert, get]
  by_cases h : o.uid = uid
  · rw [if_pos h, if_pos h]
  · rw [if_neg h, if_neg h]

/-- Whether an order is the last one of several that can be stored under an id. -/
def IsLast (os : List Order) (uid : String) (o : Order) : Prop :=
  ∃ before after, os = before ++ o :: after ∧ o.uid = uid ∧ uid ≠ "" ∧ ∀ a ∈ after, a.uid ≠ uid

theorem isLast_concat_iff (os : List Order) (a : Order) :
    IsLast (os ++ [a]) uid o ↔
      a = o ∧ o.uid = uid ∧ uid ≠ "" ∨ a.uid ≠ uid ∧ IsLast os uid o := by
  constructor
  · rintro ⟨before, after, he, huid, hne, hlast⟩
    rcases List.eq_nil_or_concat' after with rfl | ⟨rest, b, rfl⟩
    · obtain ⟨-, hao⟩ := List.append_inj' he rfl
      exact .inl ⟨List.singleton_inj.1 hao, huid, hne⟩
    · rw [← List.cons_append, ← List.append_assoc] at he
      obtain ⟨hos, hab⟩ := List.append_inj' he rfl
      have hb : b.uid ≠ uid := hlast b (by simp)
      have hrest : ∀ c ∈ rest, c.uid ≠ uid := fun c hc => hlast c (by simp [hc])
      exact .inr ⟨List.singleton_inj.1 hab ▸ hb, before, rest, hos, huid, hne, hrest⟩
  · rintro (⟨rfl, huid, hne⟩ | ⟨ha, before, after, rfl, huid, hne, hlast⟩)
    · exact ⟨os, [], rfl, huid, hne, fun c hc => by cases hc⟩
    · refine ⟨before, after ++ [a], by simp, huid, hne, fun c hc => ?_⟩
      rcases List.mem_append.1 hc with hc | hc
      · exact hlast c hc
      · rw [List.mem_singleton.1 hc]
        exact ha

theorem get_ofOrders_iff (os : List Order) (uid : String) (o : Order) :
    (ofOrders os).get uid = .ok o ↔ IsLast os uid o := by
  induction os using List.reverseRecOn with
  | nil =>
    constructor
    · intro h
      cases h
    · rintro ⟨before, after, he, -⟩
      simp at he
  | append_singleton os a ih =>
    rw [isLast_concat_iff, ← ih]
    by_cases hblank : a.uid = ""
    · rw [ofOrders_concat_of_refused os hblank]
      constructor
      · intro h
        obtain ⟨-, -, -, -, hne, -⟩ := ih.1 h
        exact .inr ⟨hblank ▸ hne.symm, h⟩
      · rintro (⟨rfl, huid, hne⟩ | ⟨-, h⟩)
        · exact absurd (huid.symm.trans hblank) hne
        · exact h
    · rw [ofOrders_concat_of_accepted os hblank, get_put]
      by_cases huid : a.uid = uid
      · rw [if_pos huid, Except.ok.injEq]
        constructor
        · rintro rfl
          exact .inl ⟨rfl, huid, huid ▸ hblank⟩
        · rintro (⟨rfl, -⟩ | ⟨hother, -⟩)
          · rfl
          · exact absurd huid hother
      · rw [if_neg huid]
        constructor
        · exact fun h => .inr ⟨huid, h⟩
        · rintro (⟨rfl, hother, -⟩ | ⟨-, h⟩)
          · exact absurd hother huid
          · exact h

theorem mem_all_iff (h : r.HoldsOnly held) : o ∈ r.all ↔ r.get o.uid = .ok o := by
  rw [get_eq_ok_iff, Table.get?_eq_some_iff, all, List.mem_map]
  constructor
  · rintro ⟨⟨k, a⟩, he, rfl⟩
    have hk := (h k a ((Table.get?_eq_some_iff ..).2 he)).2
    rwa [hk]
  · exact fun he => ⟨_, he, rfl⟩

structure Recent (r : Repository) (limit : Nat) (l : List Order) : Prop where
  length : l.length = min limit r.size
  once : (l.map Order.uid).Nodup
  stored : ∀ o ∈ l, r.get o.uid = .ok o
  falls : l.Pairwise fun a b => ¬a.dateCreated < b.dateCreated
  newest : ∀ uid o, r.get uid = .ok o → o ∉ l → ∀ a ∈ l, ¬a.dateCreated < o.dateCreated

theorem Recent.ofPerm (h : r.HoldsOnly held) (hp : listed.Perm r.all) (limit : Nat) :
    Recent r limit ((newestFirst listed).take limit) := by
  have hall : (newestFirst listed).Perm r.all := (newestFirst_perm listed).trans hp
  have hsorted : (newestFirst listed).Pairwise fun a b => ¬a.dateCreated < b.dateCreated :=
    (pairwise_newestFirst listed).imp Order.precedes_iff.1
  constructor
  case length =>
    rw [List.length_take, hall.length_eq, all, List.length_map]
    rfl
  case once =>
    have hnodup : ((newestFirst listed).map Order.uid).Nodup :=
      (hall.map _).nodup_iff.2 h.nodup_uids
    exact hnodup.sublist ((List.take_sublist _ _).map _)
  case stored =>
    intro o ho
    exact (mem_all_iff h).1 (hall.mem_iff.1 (List.mem_of_mem_take ho))
  case falls => exact hsorted.sublist (List.take_sublist _ _)
  case newest =>
    intro uid o ho hout a ha
    have huid : o.uid = uid := (h uid o (get_eq_ok_iff.1 ho)).2
    have hmem : o ∈ newestFirst listed := hall.mem_iff.2 ((mem_all_iff h).2 (huid ▸ ho))
    rw [← List.take_append_drop limit (newestFirst listed)] at hmem hsorted
    have hrest := (List.mem_append.1 hmem).resolve_left hout
    exact (List.pairwise_append.1 hsorted).2.2 a ha o hrest

/-- Each id stands for the last order that could be stored under it. Those that are shown as recent
are as many as the limit allows, the newest first, and none of the others is newer. -/
theorem recent_are_newest (os : List Order) :
    let r := ofOrders os
    (∀ uid o, r.get uid = .ok o ↔ IsLast os uid o) ∧
      (∀ limit, Recent r limit (r.recent limit)) ∧
      (∀ limit listed, listed.Perm r.all → Recent r limit ((newestFirst listed).take limit)) ∧
      (∀ o, o.uid = "" →
        r.upsert o = .error (.store "order_uid violates not-null constraint") ∧
          ofOrders (os ++ [o]) = r) ∧
      ∀ o, o.uid ≠ "" → ∃ r', r.upsert o = .ok r' ∧ ofOrders (os ++ [o]) = r' ∧
        r'.get o.uid = .ok o ∧ ∀ uid, uid ≠ o.uid → r'.get uid = r.get uid := by
  intro r
  have hholds : r.HoldsOnly os := .ofOrders os
  refine ⟨get_ofOrders_iff os, .ofPerm hholds (.refl _), fun limit listed hp => .ofPerm hholds hp
    limit, fun o h => ⟨if_pos h, ofOrders_concat_of_refused os h⟩, fun o h => ?_⟩
  refine ⟨r.put o, if_neg h, ofOrders_concat_of_accepted os h, ?_, fun uid hother => ?_⟩
  · rw [get_put, if_pos rfl]
  · rw [get_put, if_neg (Ne.symm hother)]

theorem recent_are_newest_of_tie :
    let first : Order := { uid := "a", dateCreated := Order.Sample.created 3 }
    let other : Order := { uid := "b", dateCreated := Order.Sample.created 2 }
    let last : Order := { uid := "a", items := [{}], dateCreated := Order.Sample.created 2 }
    let blank : Order := {}
    let r := ofOrders [first, other, blank, last]
    r.all.reverse.Perm r.all ∧ Recent r 1 ((newestFirst r.all.reverse).take 1) ∧
      (newestFirst r.all.reverse).take 1 = [other] ∧ r.get "a" = .ok last ∧
      ofOrders ([first, other, blank, last] ++ [blank]) = r := by
  intro first other last blank r
  obtain ⟨hget, -, hrecent, hrefused, -⟩ := recent_are_newest [first, other, blank, last]
  have hperm : r.all.reverse.Perm r.all := List.reverse_perm _
  have hlast : IsLast [first, other, blank, last] "a" last :=
    ⟨[first, other, blank], [], rfl, rfl, by decide, fun a ha => by cases ha⟩
  refine ⟨hperm, hrecent 1 _ hperm, ?_, (hget "a" last).2 hlast, (hrefused blank rfl).2⟩
  decide

end Repository

end OrderLookup
