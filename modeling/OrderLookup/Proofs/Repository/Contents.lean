import OrderLookup.Repository

/-!
What a repository holds: orders that were put into it, each under its own id.
-/

namespace OrderLookup.Repository

/-- Whether every stored order is one of `l` and stands under its id. -/
def HoldsOnly (r : Repository) (l : List Order) : Prop :=
  ∀ k o, r.orders.get? k = some o → o ∈ l ∧ o.uid = k

def put (r : Repository) (o : Order) : Repository := ⟨r.orders.insert o.uid o⟩

def putAll (r : Repository) (l : List Order) : Repository := l.foldl put r

variable {r r' : Repository} {l : List Order} {o : Order}

theorem get_eq_ok_iff {uid : String} : r.get uid = .ok o ↔ r.orders.get? uid = some o := by
  rw [get]
  split <;> simp_all

theorem get_eq_error_iff {uid : String} {e : OrderError} :
    r.get uid = .error e ↔ r.orders.get? uid = none ∧ e = .notFound uid := by
  rw [get]
  cases h : r.orders.get? uid with
  | some a => simp
  | none => simp [eq_comm]

theorem upsert_eq_ok_iff :
    r.upsert o = .ok r' ↔ o.uid ≠ "" ∧ r' = ⟨r.orders.insert o.uid o⟩ := by
  rw [upsert]
  by_cases h : o.uid = ""
  · simp [h]
  · simp [h, eq_comm]

theorem upsert_eq (r : Repository) (o : Order) :
    r.upsert o = (empty.upsert o).map fun _ => r.put o := by
  rw [upsert, upsert]
  split <;> rfl

theorem putAll_append (r : Repository) (l l' : List Order) :
    r.putAll (l ++ l') = (r.putAll l).putAll l' := List.foldl_append

theorem get?_putAll (r : Repository) (l : List Order) (uid : String) :
    (r.putAll l).orders.get? uid =
      (l.reverse.find? fun o => o.uid = uid).or (r.orders.get? uid) := by
  induction l generalizing r with
  | nil => rfl
  | cons o l ih =>
    change ((r.put o).putAll l).orders.get? uid = _
    rw [ih, List.reverse_cons, List.find?_append, List.find?_singleton, put, Table.get?_insert,
      Option.or_assoc]
    by_cases h : o.uid = uid <;> simp [h]

theorem mem_keys_putAll (r : Repository) (ho : o ∈ l) : o.uid ∈ (r.putAll l).orders.keys := by
  apply Decidable.byContradiction
  intro hn
  have hnone := (Table.get?_eq_none_iff _ _).2 hn
  rw [get?_putAll, Option.or_eq_none_iff, List.find?_eq_none] at hnone
  exact hnone.1 o (List.mem_reverse.2 ho) (by simp)

theorem keys_putAll_of_mem (h : ∀ o ∈ l, o.uid ∈ r.orders.keys) :
    (r.putAll l).orders.keys = r.orders.keys := by
  induction l generalizing r with
  | nil => rfl
  | cons o l ih =>
    have hput : (r.put o).orders.keys = r.orders.keys := by
      rw [put, Table.keys_insert, if_pos (h o (.head _))]
    have hrest : ∀ a ∈ l, a.uid ∈ (r.put o).orders.keys := by
      intro a ha
      rw [hput]
      exact h a (.tail _ ha)
    exact (ih hrest).trans hput

theorem entries_putAll (hn : (r.orders.keys ++ l.map Order.uid).Nodup) :
    (r.putAll l).orders.entries = r.orders.entries ++ l.map fun o => (o.uid, o) := by
  induction l generalizing r with
  | nil => exact (List.append_nil _).symm
  | cons o l ih =>
    have hnew : o.uid ∉ r.orders.keys := by
      intro hk
      exact (List.nodup_append.1 hn).2.2 o.uid hk o.uid (.head _) rfl
    have hkeys : (r.put o).orders.keys = r.orders.keys ++ [o.uid] := by
      rw [put, Table.keys_insert, if_neg hnew]
    have hentries : (r.put o).orders.entries = r.orders.entries ++ [(o.uid, o)] :=
      Table.put_of_not_mem hnew o
    have hrest : ((r.put o).orders.keys ++ l.map Order.uid).Nodup := by
      rw [hkeys, List.append_assoc]
      exact hn
    rw [List.map_cons, List.append_cons, ← hentries]
    exact ih hrest

theorem putAll_of_suffix {l' : List Order} (r : Repository) (h : l' <:+ l) :
    (r.putAll l).putAll l' = r.putAll l := by
  have horders : ((r.putAll l).putAll l').orders = (r.putAll l).orders := by
    apply Table.eq_of_get?
    · exact keys_putAll_of_mem fun o ho => mem_keys_putAll r (h.mem ho)
    · intro uid
      obtain ⟨before, rfl⟩ := h
      rw [get?_putAll, get?_putAll, List.reverse_append, List.find?_append, ← Option.or_assoc,
        ← Option.or_assoc, Option.or_self]
  exact congrArg Repository.mk horders

theorem HoldsOnly.empty : empty.HoldsOnly l := by
  intro k o h
  cases h

theorem HoldsOnly.mono {l' : List Order} (h : r.HoldsOnly l) (hl : ∀ a ∈ l, a ∈ l') :
    r.HoldsOnly l' := by
  intro k a ha
  exact ⟨hl a (h k a ha).1, (h k a ha).2⟩

theorem HoldsOnly.upsert (h : r.HoldsOnly l) (hu : r.upsert o = .ok r') :
    r'.HoldsOnly (l ++ [o]) := by
  obtain ⟨-, rfl⟩ := upsert_eq_ok_iff.1 hu
  intro k a ha
  rw [Table.get?_insert] at ha
  split at ha
  · cases ha
    exact ⟨by simp, ‹_›⟩
  · exact ⟨List.mem_append_left _ (h k a ha).1, (h k a ha).2⟩

theorem HoldsOnly.ofOrders (l : List Order) : (Repository.ofOrders l).HoldsOnly l := by
  suffices h : ∀ (rest seen : List Order) (r : Repository), r.HoldsOnly seen →
      (rest.foldl (fun r o => (r.upsert o).toOption.getD r) r).HoldsOnly (seen ++ rest) from
    h l [] Repository.empty HoldsOnly.empty
  intro rest
  induction rest with
  | nil => exact fun seen r h => by simpa using h
  | cons a rest ih =>
    intro seen r h
    rw [List.foldl_cons, List.append_cons]
    apply ih
    cases hu : r.upsert a with
    | error e => exact h.mono fun b hb => List.mem_append_left _ hb
    | ok r' => exact h.upsert hu

end OrderLookup.Repository
