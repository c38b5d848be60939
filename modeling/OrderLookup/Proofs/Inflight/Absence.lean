import OrderLookup.Proofs.Inflight.Sharing

/-!
A register without one of its waiting callers. Whoever only waits keeps nobody from anything: the
other callers join, lead, complete and collect as if it were not there. Its absence shows only when
a turn is handed to it.
-/

namespace OrderLookup.Inflight.Registry

variable {α : Type} {r r' : Registry α} {m : Move α} {ms : List (Move α)} {id w : Nat}
  {key : String}

theorem without_comm (r : Registry α) (i j : Nat) :
    (r.without i).without j = (r.without j).without i := by
  simp only [without, List.filter_filter, Bool.and_comm]

theorem without_of_absent (h : ∀ c ∈ r.callers, c.id ≠ w) : r.without w = r := by
  have hself : r.callers.filter (fun c => decide (c.id ≠ w)) = r.callers :=
    List.filter_eq_self.2 fun c hc => by simpa using h c hc
  rw [without, hself]

theorem caller?_without (h : id ≠ w) : (r.without w).caller? id = r.caller? id := by
  rw [caller?, without, List.find?_filter, caller?]
  congr 1
  funext c
  by_cases hi : c.id = id
  · simp [hi, h]
  · simp [hi]

theorem setStage_without (r : Registry α) (id w : Nat) (stage : Stage) :
    (r.without w).setStage id stage = (r.setStage id stage).without w := by
  simp only [setStage, without, List.filter_map]
  congr 2
  apply List.filter_congr
  intro c _
  by_cases hi : c.id = id <;> simp [hi]

theorem unregister_without (r : Registry α) (w : Nat) (key : String) (handle : Nat) :
    (r.without w).unregister key handle = (r.unregister key handle).without w := by
  simp only [unregister]
  split <;> rename_i h <;> simp only [without] at h ⊢
  · rw [if_pos h]
  · rw [if_neg h]

theorem complete_without (h : id ≠ w) (v : α) :
    (r.without w).complete id v = (r.complete id v).without w := by
  simp only [complete, caller?_without h]
  cases r.caller? id with
  | none => rfl
  | some c =>
    dsimp only
    rw [unregister_without]
    exact without_comm { r.unregister c.key c.handle with
      values := (r.unregister c.key c.handle).values.insert c.handle v } w id

theorem collect_without (h : id ≠ w) :
    (r.without w).collect id = (r.collect id).map fun p => (p.1, p.2.without w) := by
  simp only [collect, caller?_without h]
  cases r.caller? id with
  | none => rfl
  | some c =>
    simp only [Option.map_map]
    congr 1
    funext v
    exact Prod.ext rfl (without_comm r w id)

theorem register_without (r : Registry α) (w : Nat) (key : String) :
    (r.without w).register key = ((r.register key).1, (r.register key).2.without w) := by
  simp only [register]
  split <;> rename_i h <;> simp only [without] at h ⊢ <;> simp only [h]

theorem isOwned_without (hw : ∀ c ∈ r.callers, c.id = w → c.stage = .waiting) (handle : Nat) :
    (r.without w).isOwned handle = r.isOwned handle := by
  rw [Bool.eq_iff_iff, isOwned_iff, isOwned_iff]
  constructor
  · rintro ⟨c, hc, hh, hs⟩
    exact ⟨c, (mem_without.1 hc).1, hh, hs⟩
  · rintro ⟨c, hc, hh, hs⟩
    exact ⟨c, mem_without.2 ⟨hc, fun hi => hs (hw c hc hi)⟩, hh, hs⟩

theorem callers_register (r : Registry α) (key : String) :
    (r.register key).2.callers = r.callers := by
  simp only [register]
  split <;> rfl

theorem mem_join {c : Caller} (hc : c ∈ (r.join id key).2.callers) :
    c ∈ r.callers ∨ c.id = id ∧ c.key = key := by
  have hcs := callers_register r key
  rw [join] at hc
  generalize r.register key = p at hc hcs
  obtain ⟨g, r₁⟩ := p
  dsimp only at hc hcs
  split at hc
  · exact Or.inl (hcs ▸ hc)
  · split at hc <;> rcases List.mem_append.1 hc with hc | hc
    · exact Or.inl (hcs ▸ hc)
    · rw [List.mem_singleton.1 hc]
      exact Or.inr ⟨rfl, rfl⟩
    · exact Or.inl (hcs ▸ hc)
    · rw [List.mem_singleton.1 hc]
      exact Or.inr ⟨rfl, rfl⟩

theorem enter_without (r : Registry α) {c : Caller} (h : c.id ≠ w) :
    { r.without w with callers := (r.without w).callers ++ [c] } =
      { r with callers := r.callers ++ [c] }.without w := by
  simp [without, h]

theorem join_without (h : id ≠ w) (hw : ∀ c ∈ r.callers, c.id = w → c.stage = .waiting)
    (key : String) :
    (r.without w).join id key = ((r.join id key).1, (r.join id key).2.without w) := by
  rw [← callers_register r key] at hw
  rw [join, join, register_without]
  generalize r.register key = p at hw
  obtain ⟨g, r₁⟩ := p
  have howned := isOwned_without hw g
  have hvalues : (r₁.without w).values.get? g = r₁.values.get? g := rfl
  dsimp only
  rw [hvalues, howned]
  cases r₁.values.get? g with
  | some v => rfl
  | none =>
    cases r₁.isOwned g with
    | true => exact Prod.ext rfl (enter_without r₁ h)
    | false => exact Prod.ext rfl (enter_without r₁ h)

/-- A caller who does not get the turn finds the register as if it had not come. -/
theorem without_of_join (hr : Sound r) (hnew : r.caller? w = none)
    (hl : (r.join w key).1 ≠ .lead) :
    (r.join w key).2.without w = r ∧
      ∀ c ∈ (r.join w key).2.callers, c.id = w → c.stage = .waiting := by
  have habsent := caller?_eq_none_iff.1 hnew
  cases hp : r.pending.get? key with
  | none =>
    -- Nobody owns the turn of a fresh handle, so the caller would have got it.
    have hreg : r.register key = (r.fresh,
        { r with pending := r.pending.insert key r.fresh, fresh := r.fresh + 1 }) := by
      simp only [register, hp]
    obtain ⟨horderly, -, -, hp'⟩ := hr.toOrderly.register key hreg
    have hopen : r.values.get? r.fresh = none := horderly.pending_open hp'
    have hfree : r.isOwned r.fresh = false := by
      rw [Bool.eq_false_iff, ne_eq, isOwned_iff]
      rintro ⟨c, hc, hh, -⟩
      exact absurd (hr.handle_lt hc) (hh ▸ Nat.lt_irrefl _)
    refine absurd ?_ hl
    simp only [join, hreg, hopen]
    exact congrArg Prod.fst (if_neg (by simpa [isOwned] using hfree))
  | some g =>
    have hopen := hr.pending_open hp
    have hreg : r.register key = (g, r) := by simp only [register, hp]
    cases ho : r.isOwned g with
    | false => exact absurd (by simp [join, hreg, hopen, ho]) hl
    | true =>
      have hjoin : (r.join w key).2 =
          { r with callers := r.callers ++ [⟨w, key, g, .waiting⟩] } := by
        simp [join, hreg, hopen, ho]
      have hkeep : r.callers.filter (fun c => decide (c.id ≠ w)) = r.callers :=
        List.filter_eq_self.2 fun c hc => by simpa using habsent c hc
      rw [hjoin]
      refine ⟨?_, fun c hc hi => ?_⟩
      · simp only [without, List.filter_append, hkeep]
        simp
      · rcases List.mem_append.1 hc with hc | hc
        · exact absurd hi (habsent c hc)
        · rw [List.mem_singleton.1 hc]

theorem waiters_without (r : Registry α) (w handle : Nat) :
    (r.without w).waiters handle = (r.waiters handle).filter fun c => c.id ≠ w := by
  simp only [waiters, without, List.filter_filter, Bool.and_comm]

theorem handOver_without (r : Registry α) (w handle : Nat) :
    ((r.without w).handOver handle = (r.handOver handle).without w ∧
      ∀ c ∈ (r.handOver handle).callers, c.id = w → c ∈ r.callers) ∨
    ((∃ c ∈ r.callers, c.id = w) ∧
      ∀ c ∈ (r.handOver handle).callers, c.id = w → c.stage = .chosen) := by
  simp only [handOver, waiters_without]
  cases hl : r.waiters handle with
  | nil => exact Or.inl ⟨rfl, fun c hc _ => hc⟩
  | cons d rest =>
    by_cases hd : d.id = w
    · have hdm : d ∈ r.waiters handle := by simp [hl]
      refine Or.inr ⟨⟨d, (mem_waiters.1 hdm).1, hd⟩, fun c hc hi => ?_⟩
      rcases mem_setStage.1 hc with ⟨-, hne⟩ | ⟨e, -, -, rfl⟩
      · exact absurd (hi.trans hd.symm) hne
      · rfl
    · rw [List.filter_cons_of_pos (by simpa using hd)]
      refine Or.inl ⟨setStage_without r d.id w .chosen, fun c hc hi => ?_⟩
      rcases mem_setStage.1 hc with ⟨hc, -⟩ | ⟨e, -, he, rfl⟩
      · exact hc
      · exact absurd (he.symm.trans hi) hd

theorem drop_without (h : id ≠ w) :
    ((r.without w).drop id = (r.drop id).without w ∧
      ∀ c ∈ (r.drop id).callers, c.id = w → c ∈ r.callers) ∨
    ((∃ c ∈ r.callers, c.id = w) ∧ ∀ c ∈ (r.drop id).callers, c.id = w → c.stage = .chosen) := by
  simp only [drop, caller?_without h]
  cases r.caller? id with
  | none => exact Or.inl ⟨rfl, fun c hc _ => hc⟩
  | some c =>
    dsimp only
    split
    · exact Or.inl ⟨without_comm r w id, fun c hc _ => (mem_without.1 hc).1⟩
    · rw [without_comm r w id]
      rcases handOver_without (r.without id) w c.handle with ⟨hsame, hold⟩ | ⟨⟨d, hd, hi⟩, hturn⟩
      · exact Or.inl ⟨hsame, fun c hc hi => (mem_without.1 (hold c hc hi)).1⟩
      · exact Or.inr ⟨⟨d, (mem_without.1 hd).1, hi⟩, hturn⟩

theorem id_ne_of_mem_drop {c : Caller} (hc : c ∈ (r.drop id).callers) : c.id ≠ id := by
  rw [drop] at hc
  split at hc
  · rename_i hnone
    exact caller?_eq_none_iff.1 hnone c hc
  · split at hc
    · exact (mem_without.1 hc).2
    · rw [handOver] at hc
      split at hc
      · exact (mem_without.1 hc).2
      · rcases mem_setStage.1 hc with ⟨hc, -⟩ | ⟨d, hd, -, rfl⟩
        · exact (mem_without.1 hc).2
        · exact (mem_without.1 hd).2

theorem id_ne_of_mem_complete {v : α} {c : Caller} (hc : c ∈ (r.complete id v).callers) :
    c.id ≠ id := by
  cases h : r.caller? id with
  | none =>
    rw [complete, h] at hc
    exact caller?_eq_none_iff.1 h c hc
  | some d =>
    rw [complete_eq v h] at hc
    exact (mem_without.1 hc).2

def Waits (r : Registry α) (id : Nat) : Prop :=
  ∃ c ∈ r.callers, c.id = id ∧ c.stage = .waiting ∧ r.values.get? c.handle = none

theorem Step.waiting_past (h : Step r m r') {c : Caller} (hc : c ∈ r'.callers)
    (hs : c.stage = .waiting) : c ∈ r.callers ∨ m = .join c.id c.key := by
  cases h with
  | join key =>
    rcases mem_join hc with hc | ⟨rfl, rfl⟩
    · exact Or.inl hc
    · exact Or.inr rfl
  | start =>
    rcases mem_setStage.1 hc with ⟨hc, -⟩ | ⟨e, -, -, rfl⟩
    · exact Or.inl hc
    · cases hs
  | complete v hd =>
    rw [complete_eq v hd, mem_without, unregister] at hc
    have hcs := hc.1
    split at hcs <;> exact Or.inl hcs
  | collect hv =>
    obtain ⟨d, -, -, rfl⟩ := collect_eq_some_iff.1 hv
    exact Or.inl (mem_without.1 hc).1
  | gone => exact Or.inl hc
  | leave => exact Or.inl (mem_without.1 hc).1
  | abandon => exact Or.inl (mem_without.1 hc).1
  | handOver =>
    rcases mem_setStage.1 hc with ⟨hc, -⟩ | ⟨e, -, -, rfl⟩
    · exact Or.inl (mem_without.1 hc).1
    · cases hs

theorem Step.waits_past (hr : Sound r) (h : Step r m r') (hj : ∀ k, m ≠ .join w k)
    (hw : r'.Waits w) : r.Waits w := by
  obtain ⟨c, hc, rfl, hs, hv⟩ := hw
  rcases h.waiting_past hc hs with hc | hm
  · refine ⟨c, hc, rfl, hs, ?_⟩
    cases hv' : r.values.get? c.handle with
    | none => rfl
    | some v =>
      rw [h.value_stays hr hv'] at hv
      cases hv
  · exact absurd hm (hj c.key)

theorem Run.waits_past (hr : Sound r) (h : Run r ms r') (hj : w ∉ calls ms) (hw : r'.Waits w) :
    r.Waits w := by
  induction h with
  | nil => exact hw
  | @move ms r₁ r₂ m h hs ih =>
    rw [calls_append, List.mem_append, not_or] at hj
    refine ih hj.1 (hs.waits_past (hr.run h) (fun k hm => hj.2 ?_) hw)
    exact mem_calls.2 ⟨k, by simp [hm]⟩

theorem Run.there_past (hr : Sound r) (h : Run r ms r') (hj : w ∉ calls ms)
    (hw : ∃ c ∈ r'.callers, c.id = w) : ∃ c ∈ r.callers, c.id = w := by
  induction h with
  | nil => exact hw
  | @move ms r₁ r₂ m h hs ih =>
    rw [calls_append, List.mem_append, not_or] at hj
    obtain ⟨c, hc, rfl⟩ := hw
    rcases hs.caller_past (hr.run h) hc with ⟨d, hd, hi, -⟩ | ⟨hm, -⟩
    · exact ih hj.1 ⟨d, hd, hi⟩
    · exact absurd (mem_calls.2 ⟨c.key, by simp [hm]⟩) hj.2

end OrderLookup.Inflight.Registry
