import OrderLookup.Proofs.Inflight.Sharing

/-!
The callers of a key who do not lead its fetch may still come to run one. A call that has to wait
makes them one more, a turn that is taken over makes them one less, and nothing else makes them
more.
-/

namespace OrderLookup.Inflight.Registry

variable {α : Type} {r r' : Registry α} {m : Move α} {id : Nat} {key : String}

def reserve (r : Registry α) (key : String) : Nat :=
  r.callers.countP fun c => c.key = key && c.stage ≠ .leading

theorem reserve_congr (h : r'.callers = r.callers) : r'.reserve key = r.reserve key := by
  rw [reserve, reserve, h]

theorem reserve_without : (r.without id).reserve key ≤ r.reserve key :=
  List.filter_sublist.countP_le

theorem reserve_setStage {stage : Stage}
    (h : stage ≠ .leading → ∀ c ∈ r.callers, c.id = id → c.stage ≠ .leading) :
    (r.setStage id stage).reserve key ≤ r.reserve key := by
  rw [reserve, reserve, setStage, List.countP_map]
  apply List.countP_mono_left
  intro c hc
  simp only [Function.comp_apply, Bool.and_eq_true, decide_eq_true_eq]
  split
  · rename_i hi
    rintro ⟨hk, hs⟩
    exact ⟨hk, h hs c hc hi⟩
  · exact fun hp => hp

theorem Sound.reserve_join (hr : Sound r) (id : Nat) (key k : String) :
    (r.join id key).2.reserve k ≤ r.reserve k + (if key = k then 1 else 0) ∧
      ((r.join id key).1 = .lead → (r.join id key).2.reserve k = r.reserve k) := by
  rcases he : r.register key with ⟨h, r₁⟩
  obtain ⟨ho, hc, -, hp⟩ := hr.toOrderly.register key he
  simp only [Registry.join, he, ho.pending_open hp]
  split
  · by_cases hk : key = k <;> simp [reserve, hc, hk]
  · simp [reserve, hc]

theorem Step.reserve_le (hr : Sound r) (h : Step r m r') (hj : ∀ id, m ≠ .join id key) :
    r'.reserve key ≤ r.reserve key := by
  cases h with
  | @join id k hid =>
    have hk : k ≠ key := fun he => hj id (by rw [he])
    simpa [hk] using (hr.reserve_join id k key).1
  | start hc hs => exact reserve_setStage fun hl => absurd rfl hl
  | complete v hc hs =>
    rw [complete_eq v hc]
    refine Nat.le_trans reserve_without (Nat.le_of_eq (reserve_congr ?_))
    simp only [unregister]
    split <;> rfl
  | collect hv =>
    obtain ⟨c, -, -, rfl⟩ := collect_eq_some_iff.1 hv
    exact reserve_without
  | gone => exact Nat.le_refl _
  | leave => exact reserve_without
  | abandon => exact reserve_without
  | handOver hc hs hh =>
    obtain ⟨hheir, -, hw⟩ := mem_waiters.1 hh
    refine Nat.le_trans (reserve_setStage fun _ d hd hi => ?_) reserve_without
    -- Whoever is handed the turn has been waiting, so no leader becomes one of the others.
    rw [(hr.toOrderly.without _).eq_of_id hd hheir hi, hw]
    simp

theorem reserve_start {c : Caller} (hc : c ∈ r.callers) (hs : c.stage = .chosen) :
    (r.start c.id).reserve c.key + 1 ≤ r.reserve c.key := by
  obtain ⟨before, after, he⟩ := List.append_of_mem hc
  have hle : ∀ l : List Caller, Registry.reserve ({ r with callers := l }.start c.id) c.key ≤
      Registry.reserve { r with callers := l } c.key :=
    fun l => reserve_setStage fun hl => absurd rfl hl
  have hb := hle before
  have ha := hle after
  simp only [reserve, start, setStage, he, List.map_append, List.map_cons, List.countP_append,
    List.countP_cons] at hb ha ⊢
  simp only [hs, if_true, ne_eq, reduceCtorEq, not_true_eq_false, not_false_eq_true, decide_true,
    decide_false, Bool.and_false, Bool.and_true, Bool.false_eq_true, if_false] at hb ha ⊢
  omega

theorem Sound.exists_of_join (hr : Sound r) (id : Nat) (key : String) :
    ∃ c ∈ (r.join id key).2.callers, c.id = id := by
  rcases he : r.register key with ⟨h, r₁⟩
  obtain ⟨ho, -, -, hp⟩ := hr.toOrderly.register key he
  rw [(join_eq he (ho.pending_open hp)).1]
  exact ⟨_, List.mem_append_right _ (.head _), rfl⟩

end OrderLookup.Inflight.Registry
