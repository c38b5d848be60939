/-!
Tables from keys to values that remember the order in which their keys first came in. Writing a
key that is present replaces its value in place, writing a new one appends it, and no key occurs
twice. The lemmas say what each operation does to `get?` and to `keys`.
-/

namespace OrderLookup

structure Table (κ ν : Type) where
  entries : List (κ × ν)
  nodup : (entries.map Prod.fst).Nodup

namespace Table

variable {κ ν : Type} [DecidableEq κ]

def empty : Table κ ν := ⟨[], List.nodup_nil⟩

instance : Inhabited (Table κ ν) := ⟨empty⟩

def keys (t : Table κ ν) : List κ := t.entries.map Prod.fst

def size (t : Table κ ν) : Nat := t.entries.length

def valueOf (k : κ) : List (κ × ν) → Option ν
  | [] => none
  | e :: r => if e.1 = k then some e.2 else valueOf k r

def get? (t : Table κ ν) (k : κ) : Option ν := valueOf k t.entries

def put (k : κ) (v : ν) : List (κ × ν) → List (κ × ν)
  | [] => [(k, v)]
  | e :: r => if e.1 = k then (k, v) :: r else e :: put k v r

theorem map_fst_put (k : κ) (v : ν) (l : List (κ × ν)) :
    (put k v l).map Prod.fst =
      if k ∈ l.map Prod.fst then l.map Prod.fst else l.map Prod.fst ++ [k] := by
  induction l with
  | nil => simp [put]
  | cons e r ih =>
    by_cases h : e.1 = k
    · simp [put, h]
    · have h' : k ≠ e.1 := fun hk => h hk.symm
      simp only [put, h, if_false, List.map_cons, List.mem_cons, h', false_or, ih]
      split <;> simp

theorem put_of_not_mem {k : κ} {l : List (κ × ν)} (h : k ∉ l.map Prod.fst) (v : ν) :
    put k v l = l ++ [(k, v)] := by
  induction l with
  | nil => rfl
  | cons e r ih =>
    rw [List.map_cons, List.mem_cons, not_or] at h
    rw [put, if_neg (Ne.symm h.1), ih h.2]
    rfl

theorem nodup_put (k : κ) (v : ν) {l : List (κ × ν)} (h : (l.map Prod.fst).Nodup) :
    ((put k v l).map Prod.fst).Nodup := by
  rw [map_fst_put]
  split
  · exact h
  · rename_i hk
    exact List.nodup_append.2 ⟨h, by simp, fun a ha b hb => by
      rw [List.mem_singleton.1 hb]
      exact fun he => hk (he ▸ ha)⟩

def insert (t : Table κ ν) (k : κ) (v : ν) : Table κ ν :=
  ⟨put k v t.entries, nodup_put k v t.nodup⟩

def erase (t : Table κ ν) (k : κ) : Table κ ν :=
  ⟨t.entries.filter (fun e => e.1 ≠ k), by
    have h : ((t.entries.filter (fun e => e.1 ≠ k)).map Prod.fst).Sublist
        (t.entries.map Prod.fst) := List.filter_sublist.map _
    exact List.Pairwise.sublist h t.nodup⟩

/-- Writes the pairs one after another, so a later pair wins over an earlier one of its key. -/
def ofList (l : List (κ × ν)) : Table κ ν := l.foldl (fun t e => t.insert e.1 e.2) empty

@[simp] theorem get?_empty (k : κ) : (empty : Table κ ν).get? k = none := rfl

omit [DecidableEq κ] in
@[simp] theorem keys_empty : (empty : Table κ ν).keys = [] := rfl

theorem valueOf_put (k a : κ) (v : ν) (l : List (κ × ν)) :
    valueOf a (put k v l) = if k = a then some v else valueOf a l := by
  induction l with
  | nil => simp [put, valueOf]
  | cons e r ih =>
    by_cases h : e.1 = k
    · by_cases ha : k = a
      · simp [put, h, valueOf, ha]
      · have : e.1 ≠ a := fun he => ha (h ▸ he)
        simp [put, h, valueOf, ha]
    · by_cases he : e.1 = a
      · have hk : k ≠ a := fun hk => h (he.trans hk.symm)
        rw [put, if_neg h, valueOf, if_pos he, if_neg hk, valueOf, if_pos he]
      · rw [put, if_neg h, valueOf, if_neg he, ih, valueOf, if_neg he]

theorem get?_insert (t : Table κ ν) (k a : κ) (v : ν) :
    (t.insert k v).get? a = if k = a then some v else t.get? a :=
  valueOf_put k a v t.entries

@[simp] theorem get?_insert_self (t : Table κ ν) (k : κ) (v : ν) :
    (t.insert k v).get? k = some v := by
  simp [get?_insert]

theorem get?_insert_of_ne (t : Table κ ν) {k a : κ} (h : k ≠ a) (v : ν) :
    (t.insert k v).get? a = t.get? a := by
  simp [get?_insert, h]

theorem valueOf_filter (k a : κ) (l : List (κ × ν)) :
    valueOf a (l.filter (fun e => e.1 ≠ k)) = if k = a then none else valueOf a l := by
  induction l with
  | nil => simp [valueOf]
  | cons e r ih =>
    by_cases h : e.1 = k
    · by_cases ha : k = a
      · simpa [List.filter_cons, h, ha] using ih
      · have : e.1 ≠ a := fun he => ha (h ▸ he)
        simpa [List.filter_cons, h, ha, valueOf] using ih
    · by_cases he : e.1 = a
      · have hk : k ≠ a := fun hk => h (he.trans hk.symm)
        have ha : a ≠ k := fun h' => hk h'.symm
        simp [valueOf, he, hk, ha]
      · simpa [List.filter_cons, h, valueOf, he] using ih

theorem get?_erase (t : Table κ ν) (k a : κ) :
    (t.erase k).get? a = if k = a then none else t.get? a :=
  valueOf_filter k a t.entries

theorem keys_insert (t : Table κ ν) (k : κ) (v : ν) :
    (t.insert k v).keys = if k ∈ t.keys then t.keys else t.keys ++ [k] :=
  map_fst_put k v t.entries

theorem keys_erase (t : Table κ ν) (k : κ) :
    (t.erase k).keys = t.keys.filter (fun a => a ≠ k) := by
  simp [keys, erase, List.filter_map, Function.comp_def]

theorem valueOf_eq_none_iff (k : κ) (l : List (κ × ν)) :
    valueOf k l = none ↔ k ∉ l.map Prod.fst := by
  induction l with
  | nil => simp [valueOf]
  | cons e r ih =>
    by_cases h : e.1 = k
    · simp [valueOf, h]
    · have h' : k ≠ e.1 := fun hk => h hk.symm
      rw [valueOf, if_neg h, ih, List.map_cons, List.mem_cons]
      simp [h']

theorem get?_eq_none_iff (t : Table κ ν) (k : κ) : t.get? k = none ↔ k ∉ t.keys :=
  valueOf_eq_none_iff k t.entries

theorem valueOf_eq_some_iff (k : κ) (v : ν) {l : List (κ × ν)} (hn : (l.map Prod.fst).Nodup) :
    valueOf k l = some v ↔ (k, v) ∈ l := by
  induction l with
  | nil => simp [valueOf]
  | cons e r ih =>
    rw [List.map_cons, List.nodup_cons] at hn
    by_cases h : e.1 = k
    · have hr : (k, v) ∉ r := fun hm => hn.1 (List.mem_map.2 ⟨(k, v), hm, h.symm⟩)
      simp [valueOf, h, hr, Prod.ext_iff, eq_comm]
    · have hk : ¬(k, v) = e := fun he => h (by rw [← he])
      simp [valueOf, h, ih hn.2, hk]

theorem get?_eq_some_iff (t : Table κ ν) (k : κ) (v : ν) :
    t.get? k = some v ↔ (k, v) ∈ t.entries :=
  valueOf_eq_some_iff k v t.nodup

theorem map_entries (t : Table κ ν) :
    t.entries.map (fun e => (e.1, some e.2)) = t.keys.map fun k => (k, t.get? k) := by
  rw [keys, List.map_map]
  apply List.map_congr_left
  intro e he
  rw [Function.comp_apply, (t.get?_eq_some_iff e.1 e.2).2 he]

theorem eq_of_get? {t t' : Table κ ν} (hk : t.keys = t'.keys) (hg : ∀ k, t.get? k = t'.get? k) :
    t = t' := by
  have hmap : t.entries.map (fun e => (e.1, some e.2)) =
      t'.entries.map fun e => (e.1, some e.2) := by
    rw [map_entries, map_entries, hk, funext hg]
  have hentries : t.entries = t'.entries := by
    refine (List.map_inj_right ?_).1 hmap
    rintro ⟨a, v⟩ ⟨b, u⟩ he
    cases he
    rfl
  cases t
  cases t'
  congr

end Table

end OrderLookup
