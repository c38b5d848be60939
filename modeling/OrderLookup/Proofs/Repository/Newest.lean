import OrderLookup.Proofs.Repository.Contents
import Mathlib.Data.List.Sort
import Mathlib.Data.List.Perm.Subperm

/-!
The newest orders of a repository. They come sorted by their dates, each stored order once. When no
two dates are the same, the place of an order among them is the number of newer ones.
-/

namespace OrderLookup

theorem Instant.not_lt_trans {a b c : Instant} (hab : ¬a < b) (hbc : ¬b < c) : ¬a < c := by
  simp only [Instant.lt_def] at *
  omega

theorem Instant.not_lt_total (a b : Instant) : ¬a < b ∨ ¬b < a := by
  simp only [Instant.lt_def]
  omega

theorem Instant.lt_of_not_lt_of_ne {a b : Instant} (h : ¬a < b) (hne : a ≠ b) : b < a := by
  simp only [Instant.lt_def] at *
  by_contra hn
  exact hne (Instant.ext (by omega) (by omega))

namespace Order

variable {a b : Order}

theorem isNewer_iff : a.isNewer b = true ↔ b.dateCreated < a.dateCreated := by simp [isNewer]

theorem not_isNewer_self (a : Order) : ¬a.isNewer a = true := by
  rw [isNewer_iff, Instant.lt_def]
  omega

theorem isNewer_asymm (h : a.isNewer b = true) : ¬b.isNewer a = true := by
  rw [isNewer_iff, Instant.lt_def] at *
  omega

/-- Whether an order may stand in front of another one when the newest come first. -/
def Precedes (a b : Order) : Prop := ¬b.isNewer a = true

instance (a b : Order) : Decidable (a.Precedes b) := inferInstanceAs (Decidable (¬_))

instance : Std.Total Precedes where
  total a b := by
    simp only [Precedes, isNewer_iff]
    exact Instant.not_lt_total _ _

instance : IsTrans Order Precedes where
  trans a b c hab hbc := by
    simp only [Precedes, isNewer_iff] at *
    exact Instant.not_lt_trans hab hbc

theorem Precedes.isNewer (h : a.Precedes b) (hne : a.dateCreated ≠ b.dateCreated) :
    a.isNewer b = true := by
  rw [Precedes, isNewer_iff] at h
  exact isNewer_iff.2 (Instant.lt_of_not_lt_of_ne h hne)

theorem getElem?_eq_some_iff_countP {l : List Order}
    (h : l.Pairwise fun a b => a.isNewer b = true) {i : Nat} :
    l[i]? = some a ↔ a ∈ l ∧ l.countP (fun b => b.isNewer a) = i := by
  induction l generalizing i with
  | nil => simp
  | cons b l ih =>
    obtain ⟨hb, hl⟩ := List.pairwise_cons.1 h
    have hhead : (b :: l).countP (fun c => c.isNewer b) = 0 := by
      refine List.countP_eq_zero.2 fun c hc => ?_
      rcases List.mem_cons.1 hc with rfl | hc
      · exact not_isNewer_self c
      · exact isNewer_asymm (hb c hc)
    have htail : a ∈ l → (b :: l).countP (fun c => c.isNewer a) =
        l.countP (fun c => c.isNewer a) + 1 :=
      fun ha => List.countP_cons_of_pos (hb a ha)
    cases i with
    | zero =>
      rw [List.getElem?_cons_zero, Option.some.injEq]
      constructor
      · rintro rfl
        exact ⟨.head _, hhead⟩
      · rintro ⟨ha, hcount⟩
        rcases List.mem_cons.1 ha with rfl | ha
        · rfl
        · rw [htail ha] at hcount
          omega
    | succ i =>
      rw [List.getElem?_cons_succ, ih hl]
      constructor
      · rintro ⟨ha, rfl⟩
        exact ⟨.tail _ ha, htail ha⟩
      · rintro ⟨ha, hcount⟩
        rcases List.mem_cons.1 ha with rfl | ha
        · omega
        · rw [htail ha] at hcount
          exact ⟨ha, by omega⟩

end Order

namespace Repository

def newer (r : Repository) (o : Order) : Nat := r.all.countP fun a => a.isNewer o

variable {r : Repository} {l : List Order} {o : Order} {limit : Nat}

theorem newestFirst_eq (l : List Order) : newestFirst l = l.insertionSort Order.Precedes := by
  have hinsert : ∀ (o : Order) (l : List Order),
      insertByDate o l = l.orderedInsert Order.Precedes o := by
    intro o l
    induction l with
    | nil => rfl
    | cons a l ih =>
      rw [insertByDate, List.orderedInsert_cons, ih]
      by_cases h : a.isNewer o = true <;> simp [Order.Precedes, h]
  induction l with
  | nil => rfl
  | cons a l ih =>
    rw [List.insertionSort_cons, ← ih, ← hinsert]
    rfl

theorem newestFirst_perm (l : List Order) : (newestFirst l).Perm l :=
  newestFirst_eq l ▸ List.perm_insertionSort ..

theorem HoldsOnly.get?_of_mem_recent (h : r.HoldsOnly l) (ho : o ∈ r.recent limit) :
    r.orders.get? o.uid = some o := by
  have hall : o ∈ r.all := (newestFirst_perm _).mem_iff.1 (List.mem_of_mem_take ho)
  obtain ⟨⟨k, a⟩, hmem, rfl⟩ := List.mem_map.1 hall
  have hk := (Table.get?_eq_some_iff r.orders k a).2 hmem
  rw [(h k a hk).2, hk]

theorem pairwise_newestFirst (l : List Order) : (newestFirst l).Pairwise Order.Precedes :=
  newestFirst_eq l ▸ List.pairwise_insertionSort ..

theorem newestFirst_falls (h : (l.map Order.dateCreated).Nodup) :
    (newestFirst l).Pairwise fun a b => a.isNewer b = true := by
  have hdates : ((newestFirst l).map Order.dateCreated).Nodup :=
    ((newestFirst_perm l).map _).nodup_iff.2 h
  exact (pairwise_newestFirst l).imp₂ (fun a b hab hne => hab.isNewer hne)
    (List.pairwise_map.1 hdates)

theorem newestFirst_of_falls {l' : List Order} (hp : l.Perm l')
    (hf : l'.Pairwise fun a b => a.isNewer b = true) : newestFirst l = l' := by
  have hdates : (l'.map Order.dateCreated).Nodup := by
    apply List.pairwise_map.2
    apply hf.imp
    intro a b h he
    rw [Order.isNewer_iff, he, Instant.lt_def] at h
    omega
  have hfalls := newestFirst_falls ((hp.map Order.dateCreated).nodup_iff.2 hdates)
  apply ((newestFirst_perm l).trans hp).eq_of_pairwise _ hfalls hf
  intro a b _ _ hab hba
  exact absurd hba (Order.isNewer_asymm hab)

theorem length_recent (r : Repository) (limit : Nat) :
    (r.recent limit).length = min limit r.size := by
  rw [recent, List.length_take, (newestFirst_perm _).length_eq, all, List.length_map]
  rfl

namespace HoldsOnly

theorem uids {held : List Order} (h : r.HoldsOnly held) : r.all.map Order.uid = r.orders.keys := by
  rw [all, List.map_map]
  refine List.map_congr_left fun e he => ?_
  exact (h e.1 e.2 ((Table.get?_eq_some_iff _ _ _).2 he)).2

theorem nodup_uids {held : List Order} (h : r.HoldsOnly held) : (r.all.map Order.uid).Nodup :=
  h.uids ▸ r.orders.nodup

theorem nodup_recent {held : List Order} (h : r.HoldsOnly held) (limit : Nat) :
    ((r.recent limit).map Order.uid).Nodup := by
  have hall : ((newestFirst r.all).map Order.uid).Nodup :=
    ((newestFirst_perm _).map _).nodup_iff.2 h.nodup_uids
  exact hall.sublist ((List.take_sublist _ _).map _)

end HoldsOnly

theorem newer_eq (r : Repository) (o : Order) :
    (newestFirst r.all).countP (fun a => a.isNewer o) = r.newer o :=
  (newestFirst_perm r.all).countP_eq _

theorem mem_drop_recent_iff (h : (r.all.map Order.dateCreated).Nodup) {skip : Nat} :
    o ∈ (r.recent limit).drop skip ↔ o ∈ r.all ∧ skip ≤ r.newer o ∧ r.newer o < limit := by
  have hplace : ∀ i, (newestFirst r.all)[i]? = some o ↔ o ∈ r.all ∧ r.newer o = i := by
    intro i
    rw [Order.getElem?_eq_some_iff_countP (newestFirst_falls h), (newestFirst_perm _).mem_iff,
      newer_eq]
  rw [List.mem_iff_getElem?]
  constructor
  · rintro ⟨i, hi⟩
    rw [List.getElem?_drop, recent, List.getElem?_take] at hi
    split at hi
    · rename_i hlt
      obtain ⟨ho, hn⟩ := (hplace _).1 hi
      exact ⟨ho, by omega, by omega⟩
    · cases hi
  · rintro ⟨ho, hle, hlt⟩
    refine ⟨r.newer o - skip, ?_⟩
    have hadd : skip + (r.newer o - skip) = r.newer o := by omega
    rw [List.getElem?_drop, recent, hadd, List.getElem?_take, if_pos hlt, hplace]
    exact ⟨ho, rfl⟩

theorem newer_lt_size (ho : o ∈ r.all) : r.newer o < r.size := by
  have hne : r.newer o ≠ r.all.length :=
    fun he => Order.not_isNewer_self o (List.countP_eq_length.1 he o ho)
  have hlt : r.newer o < r.all.length := Nat.lt_of_le_of_ne List.countP_le_length hne
  rwa [all, List.length_map] at hlt

theorem mem_recent_iff (h : (r.all.map Order.dateCreated).Nodup) :
    o ∈ r.recent limit ↔ o ∈ r.all ∧ r.newer o < min limit r.size := by
  have hfirst : o ∈ r.recent limit ↔ o ∈ (r.recent limit).drop 0 := Iff.rfl
  rw [hfirst, mem_drop_recent_iff h]
  constructor
  · intro hm
    obtain ⟨hall, -, hlt⟩ := hm
    exact ⟨hall, Nat.lt_min.2 ⟨hlt, newer_lt_size hall⟩⟩
  · intro hm
    obtain ⟨hall, hlt⟩ := hm
    exact ⟨hall, Nat.zero_le _, (Nat.lt_min.1 hlt).1⟩

end Repository

end OrderLookup
