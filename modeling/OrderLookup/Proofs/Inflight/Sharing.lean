import OrderLookup.Proofs.Inflight.History

/-!
What callers of a register return. A value reaches exactly the callers who waited on its handle
when its fetch ended, so nobody gets a value older than his own call or one of another key.
-/

namespace OrderLookup.Inflight

variable {α : Type}

theorem mem_calls {ms : List (Move α)} {id : Nat} : id ∈ calls ms ↔ ∃ key, .join id key ∈ ms := by
  simp only [calls, List.mem_filterMap]
  constructor
  · rintro ⟨m, hm, hj⟩
    cases m <;> simp only [Move.joined?, Option.some.injEq, reduceCtorEq] at hj
    subst hj
    exact ⟨_, hm⟩
  · rintro ⟨key, hm⟩
    exact ⟨_, hm, rfl⟩

theorem calls_append (ms ms' : List (Move α)) : calls (ms ++ ms') = calls ms ++ calls ms' :=
  List.filterMap_append

theorem calls_concat (ms : List (Move α)) (m : Move α) :
    calls (ms ++ [m]) = calls ms ++ m.joined?.toList := by
  rw [calls_append]
  cases m <;> rfl

theorem mem_of_append_eq {β : Type} {l l' past since : List β} {x y : β}
    (h : l ++ l' = past ++ x :: since) (hx : x ∉ l) (hy : y ∈ since) : y ∈ l' := by
  rcases List.append_eq_append_iff.1 h with ⟨as, -, rfl⟩ | ⟨as, rfl, he⟩
  · simp [hy]
  · cases as with
    | nil =>
      rw [List.nil_append] at he
      simp [← he, hy]
    | cons a as =>
      cases he
      simp at hx

namespace Registry

variable {r r' : Registry α} {m : Move α} {ms : List (Move α)}

theorem Step.caller_past (hr : Sound r) (h : Step r m r') {c : Caller} (hc : c ∈ r'.callers) :
    (∃ d ∈ r.callers, d.id = c.id ∧ d.key = c.key ∧ d.handle = c.handle) ∨
      (m = .join c.id c.key ∧ r.values.get? c.handle = none) := by
  cases h with
  | @join id key hid =>
    rcases he : r.register key with ⟨g, r₁⟩
    obtain ⟨ho, hcs, hvs, hp⟩ := hr.toOrderly.register key he
    have hopen := ho.pending_open hp
    rw [(join_eq he hopen).1, hcs] at hc
    rcases List.mem_append.1 hc with hc | hc
    · exact Or.inl ⟨c, hc, rfl, rfl, rfl⟩
    · rw [List.mem_singleton.1 hc]
      exact Or.inr ⟨rfl, hvs ▸ hopen⟩
  | start hd hs =>
    rcases mem_setStage.1 hc with ⟨hc, -⟩ | ⟨e, he, -, rfl⟩
    · exact Or.inl ⟨c, hc, rfl, rfl, rfl⟩
    · exact Or.inl ⟨e, he, rfl, rfl, rfl⟩
  | complete v hd hs =>
    rw [complete_eq v hd, mem_without] at hc
    refine Or.inl ⟨c, ?_, rfl, rfl, rfl⟩
    have hcs := hc.1
    simp only [unregister] at hcs
    split at hcs <;> exact hcs
  | collect hv =>
    obtain ⟨d, hd, -, rfl⟩ := collect_eq_some_iff.1 hv
    exact Or.inl ⟨c, (mem_without.1 hc).1, rfl, rfl, rfl⟩
  | gone => exact Or.inl ⟨c, hc, rfl, rfl, rfl⟩
  | leave => exact Or.inl ⟨c, (mem_without.1 hc).1, rfl, rfl, rfl⟩
  | abandon => exact Or.inl ⟨c, (mem_without.1 hc).1, rfl, rfl, rfl⟩
  | handOver hd hs hh =>
    rcases mem_setStage.1 hc with ⟨hc, -⟩ | ⟨e, he, -, rfl⟩
    · exact Or.inl ⟨c, (mem_without.1 hc).1, rfl, rfl, rfl⟩
    · exact Or.inl ⟨e, (mem_without.1 he).1, rfl, rfl, rfl⟩

theorem Step.caller_future (hr : Sound r) (h : Step r m r') {c : Caller} (hc : c ∈ r.callers) :
    (∃ d ∈ r'.callers, d.id = c.id ∧ d.key = c.key ∧ d.handle = c.handle ∧
      (c.stage = .leading → d.stage = .leading)) ∨
    m = .drop c.id ∨ ∃ v, m.returned = some (c.id, v) := by
  cases h with
  | @join id key hid =>
    rcases he : r.register key with ⟨g, r₁⟩
    obtain ⟨ho, hcs, -, hp⟩ := hr.toOrderly.register key he
    rw [(join_eq he (ho.pending_open hp)).1]
    exact Or.inl ⟨c, by simp [hcs, hc], rfl, rfl, rfl, fun h => h⟩
  | @start id d hd hs =>
    by_cases hi : c.id = id
    · exact Or.inl ⟨_, mem_setStage.2 (Or.inr ⟨c, hc, hi, rfl⟩), rfl, rfl, rfl, fun _ => rfl⟩
    · exact Or.inl ⟨c, mem_setStage.2 (Or.inl ⟨hc, hi⟩), rfl, rfl, rfl, fun h => h⟩
  | @complete id d v hd hs =>
    by_cases hi : c.id = id
    · exact Or.inr (Or.inr ⟨v, by rw [hi]; rfl⟩)
    · rw [complete_eq v hd]
      refine Or.inl ⟨c, mem_without.2 ⟨?_, hi⟩, rfl, rfl, rfl, fun h => h⟩
      simp only [unregister]
      split <;> exact hc
  | @collect _ id v hv =>
    obtain ⟨d, hd, -, rfl⟩ := collect_eq_some_iff.1 hv
    by_cases hi : c.id = id
    · exact Or.inr (Or.inr ⟨v, by rw [hi]; rfl⟩)
    · exact Or.inl ⟨c, mem_without.2 ⟨hc, hi⟩, rfl, rfl, rfl, fun h => h⟩
  | gone => exact Or.inl ⟨c, hc, rfl, rfl, rfl, fun h => h⟩
  | @leave id =>
    by_cases hi : c.id = id
    · exact Or.inr (Or.inl (by rw [hi]))
    · exact Or.inl ⟨c, mem_without.2 ⟨hc, hi⟩, rfl, rfl, rfl, fun h => h⟩
  | @abandon id =>
    by_cases hi : c.id = id
    · exact Or.inr (Or.inl (by rw [hi]))
    · exact Or.inl ⟨c, mem_without.2 ⟨hc, hi⟩, rfl, rfl, rfl, fun h => h⟩
  | @handOver id _ heir _ _ hh =>
    by_cases hi : c.id = id
    · exact Or.inr (Or.inl (by rw [hi]))
    · have hcw := mem_without.2 ⟨hc, hi⟩
      by_cases hci : c.id = heir.id
      · -- The heir has been waiting, so it was not a leader.
        obtain ⟨hheir, -, hw⟩ := mem_waiters.1 hh
        rw [hr.eq_of_id hc (mem_without.1 hheir).1 hci] at hcw ⊢
        exact Or.inl ⟨_, mem_setStage.2 (Or.inr ⟨heir, hcw, rfl, rfl⟩), rfl, rfl, rfl,
          fun hl => by rw [hw] at hl; cases hl⟩
      · exact Or.inl ⟨c, mem_setStage.2 (Or.inl ⟨hcw, hci⟩), rfl, rfl, rfl, fun h => h⟩

theorem Step.values (hr : Sound r) (h : Step r m r') :
    r'.values = r.values ∨ ∃ c v, m = .complete c.id v ∧ c ∈ r.callers ∧ c.stage = .leading ∧
      r'.values = r.values.insert c.handle v := by
  cases h with
  | join key hid =>
    rcases he : r.register key with ⟨g, r₁⟩
    obtain ⟨ho, -, hvs, hp⟩ := hr.toOrderly.register key he
    rw [(join_eq he (ho.pending_open hp)).1]
    exact Or.inl hvs
  | complete v hd hs =>
    obtain ⟨hm, rfl⟩ := mem_of_caller? hd
    rw [complete_eq v hd]
    exact Or.inr ⟨_, v, rfl, hm, hs, rfl⟩
  | collect hv =>
    obtain ⟨d, hd, -, rfl⟩ := collect_eq_some_iff.1 hv
    exact Or.inl rfl
  | start => exact Or.inl rfl
  | gone => exact Or.inl rfl
  | leave => exact Or.inl rfl
  | abandon => exact Or.inl rfl
  | handOver => exact Or.inl rfl

theorem Step.fills {id : Nat} {v : α} (h : Step r (.complete id v) r') :
    ∃ c ∈ r.callers, c.id = id ∧ c.stage = .leading ∧
      r'.values = r.values.insert c.handle v := by
  cases h with
  | complete _ hc hs =>
    obtain ⟨hm, hi⟩ := mem_of_caller? hc
    rw [complete_eq v hc]
    exact ⟨_, hm, hi, hs, rfl⟩

theorem Step.value_stays (hr : Sound r) (h : Step r m r') {g : Nat} {v : α}
    (hv : r.values.get? g = some v) : r'.values.get? g = some v := by
  rcases h.values hr with hvs | ⟨c, w, -, hc, hs, hvs⟩
  · rw [hvs, hv]
  · have ho := hr.owner_open hc (by simp [hs])
    rw [hvs, Table.get?_insert, if_neg, hv]
    rintro rfl
    rw [ho] at hv
    cases hv

theorem Step.returned (h : Step r m r') {id : Nat} {v : α} (hm : m.returned = some (id, v)) :
    ∃ c ∈ r.callers, c.id = id ∧ ((m = .complete id v ∧ c.stage = .leading) ∨
      (m = .collect id v ∧ r.values.get? c.handle = some v)) := by
  cases h <;> simp only [Move.returned, Option.some.injEq, Prod.mk.injEq, reduceCtorEq] at hm
  case complete c w hc hs =>
    obtain ⟨rfl, rfl⟩ := hm
    obtain ⟨hcm, hi⟩ := mem_of_caller? hc
    exact ⟨c, hcm, hi, Or.inl ⟨rfl, hs⟩⟩
  case collect hv =>
    obtain ⟨rfl, rfl⟩ := hm
    obtain ⟨c, hc, hcv, -⟩ := collect_eq_some_iff.1 hv
    obtain ⟨hcm, hi⟩ := mem_of_caller? hc
    exact ⟨c, hcm, hi, Or.inr ⟨rfl, hcv⟩⟩

theorem Step.leading_stays (hr : Sound r) (h : Step r m r') {c : Caller} (hc : c ∈ r.callers)
    (hs : c.stage = .leading) :
    c ∈ r'.callers ∨ m = .drop c.id ∨ ∃ v, m = .complete c.id v := by
  rcases h.caller_future hr hc with ⟨d, hd, hi, hk, hh, hl⟩ | hm | ⟨v, hm⟩
  · have hdc : d = c := by
      have hds := hl hs
      cases d
      cases c
      simp_all
    exact Or.inl (hdc ▸ hd)
  · exact Or.inr (Or.inl hm)
  · obtain ⟨d, hd, hi, ⟨rfl, -⟩ | ⟨-, hv⟩⟩ := h.returned hm
    · exact Or.inr (Or.inr ⟨v, rfl⟩)
    · rw [hr.eq_of_id hd hc hi, hr.owner_open hc (by simp [hs])] at hv
      cases hv

theorem Step.leading_past (h : Step r m r') {c : Caller} (hc : c ∈ r'.callers)
    (hs : c.stage = .leading) :
    (c ∈ r.callers ∧ m ≠ .drop c.id ∧ ∀ v, m ≠ .complete c.id v) ∨ m = .start c.id ∨
      (m = .join c.id c.key ∧ (r.join c.id c.key).1 = .lead) := by
  cases h with
  | @join id key hid =>
    rcases he : r.register key with ⟨g, r₁⟩
    have hcs : r₁.callers = r.callers := by
      rw [register] at he
      split at he <;> cases he <;> rfl
    simp only [Registry.join, he] at hc
    split at hc
    · exact Or.inl ⟨hcs ▸ hc, by simp, by simp⟩
    · rename_i hv
      split at hc
      · rcases List.mem_append.1 hc with hc | hc
        · exact Or.inl ⟨hcs ▸ hc, by simp, by simp⟩
        · cases List.mem_singleton.1 hc
          cases hs
      · rename_i ho
        rcases List.mem_append.1 hc with hc | hc
        · exact Or.inl ⟨hcs ▸ hc, by simp, by simp⟩
        · cases List.mem_singleton.1 hc
          exact Or.inr (Or.inr ⟨rfl, by simp [Registry.join, he, hv, ho]⟩)
  | @start id d hd hds =>
    rcases mem_setStage.1 hc with ⟨hc, -⟩ | ⟨e, he, hi, rfl⟩
    · exact Or.inl ⟨hc, by simp, by simp⟩
    · exact Or.inr (Or.inl (by rw [← hi]))
  | @complete id d v hd hds =>
    rw [complete_eq v hd, mem_without] at hc
    refine Or.inl ⟨?_, by simp, fun w hw => hc.2 (Move.complete.inj hw).1.symm⟩
    have hcs := hc.1
    simp only [unregister] at hcs
    split at hcs <;> exact hcs
  | collect hv =>
    obtain ⟨d, hd, -, rfl⟩ := collect_eq_some_iff.1 hv
    exact Or.inl ⟨(mem_without.1 hc).1, by simp, by simp⟩
  | gone hid =>
    refine Or.inl ⟨hc, fun hm => ?_, by simp⟩
    exact caller?_eq_none_iff.1 hid c hc (Move.drop.inj hm).symm
  | leave =>
    obtain ⟨hc, hi⟩ := mem_without.1 hc
    exact Or.inl ⟨hc, fun hm => hi (Move.drop.inj hm).symm, by simp⟩
  | abandon =>
    obtain ⟨hc, hi⟩ := mem_without.1 hc
    exact Or.inl ⟨hc, fun hm => hi (Move.drop.inj hm).symm, by simp⟩
  | handOver =>
    rcases mem_setStage.1 hc with ⟨hc, -⟩ | ⟨e, he, -, rfl⟩
    · obtain ⟨hc, hi⟩ := mem_without.1 hc
      exact Or.inl ⟨hc, fun hm => hi (Move.drop.inj hm).symm, by simp⟩
    · cases hs

theorem Run.joined (h : Run Registry.empty ms r) {c : Caller} (hc : c ∈ r.callers) :
    .join c.id c.key ∈ ms := by
  induction h generalizing c with
  | nil => cases hc
  | move h hs ih =>
    rcases hs.caller_past (Sound.empty.run h) hc with ⟨d, hd, hi, hk, -⟩ | ⟨rfl, -⟩
    · rw [← hi, ← hk]
      exact List.mem_append_left _ (ih hd)
    · simp

theorem Run.served (h : Run Registry.empty ms r) {c : Caller} {v : α} (hc : c ∈ r.callers)
    (hv : r.values.get? c.handle = some v) :
    ∃ before after leader, ms = before ++ .join c.id c.key :: after ∧
      .complete leader v ∈ after ∧ .join leader c.key ∈ ms := by
  induction h generalizing c with
  | nil => cases hc
  | @move ms r r' m h hs ih =>
    have hr := Sound.empty.run h
    rcases hs.caller_past hr hc with ⟨d, hd, hi, hk, hh⟩ | ⟨rfl, ho⟩
    · rw [← hi, ← hk]
      rcases hs.values hr with hvs | ⟨e, w, rfl, he, hes, hvs⟩
      · rw [hvs, ← hh] at hv
        obtain ⟨before, after, leader, rfl, hcm, hj⟩ := ih hd hv
        exact ⟨before, after ++ [m], leader, by simp, List.mem_append_left _ hcm,
          List.mem_append_left _ hj⟩
      · rw [hvs, Table.get?_insert, ← hh] at hv
        split at hv
        · rename_i heh
          -- The fetch that has just ended is the one that the caller was waiting for.
          cases hv
          have hkey := hr.key_eq he hd heh (hr.owner_open he (by simp [hes]))
          obtain ⟨before, after, rfl⟩ := List.append_of_mem (h.joined hd)
          exact ⟨before, after ++ [.complete e.id v], e.id, by simp, by simp,
            List.mem_append_left _ (hkey ▸ h.joined he)⟩
        · obtain ⟨before, after, leader, rfl, hcm, hj⟩ := ih hd hv
          exact ⟨before, after ++ [.complete e.id w], leader, by simp, List.mem_append_left _ hcm,
            List.mem_append_left _ hj⟩
    · rcases hs.values hr with hvs | ⟨e, w, he, -⟩
      · rw [hvs, ho] at hv
        cases hv
      · cases he

theorem Run.value_stays (hr : Sound r) (h : Run r ms r') {g : Nat} {v : α}
    (hv : r.values.get? g = some v) : r'.values.get? g = some v := by
  induction h with
  | nil => exact hv
  | move h hs ih => exact hs.value_stays (hr.run h) ih

theorem Run.caller_past (hr : Sound r) (h : Run r ms r') {g : Nat} {v : α}
    (hv : r.values.get? g = some v) {c : Caller} (hc : c ∈ r'.callers) (hg : c.handle = g) :
    ∃ d ∈ r.callers, d.id = c.id ∧ d.handle = g := by
  induction h generalizing c with
  | nil => exact ⟨c, hc, rfl, hg⟩
  | move h hs ih =>
    rcases hs.caller_past (hr.run h) hc with ⟨d, hd, hi, -, hh⟩ | ⟨-, ho⟩
    · rw [← hi]
      exact ih hd (hh.trans hg)
    · rw [hg, h.value_stays hr hv] at ho
      cases ho

theorem Run.handle_eq (hr : Sound r) (h : Run r ms r') {c d : Caller} (hc : c ∈ r.callers)
    (hd : d ∈ r'.callers) (hi : d.id = c.id) (hj : c.id ∉ calls ms) : d.handle = c.handle := by
  induction h generalizing d with
  | nil => rw [hr.eq_of_id hd hc hi]
  | move h hs ih =>
    rw [calls_append, List.mem_append, not_or] at hj
    rcases hs.caller_past (hr.run h) hd with ⟨e, he, hei, -, heh⟩ | ⟨rfl, -⟩
    · rw [← heh]
      exact ih he (hei.trans hi) hj.1
    · exact absurd (mem_calls.2 ⟨d.key, by simp [hi]⟩) hj.2

theorem Run.returns (hr : Sound r) (h : Run r ms r') {c : Caller} {v : α} (hc : c ∈ r.callers)
    (hv : r.values.get? c.handle = some v) (hj : c.id ∉ calls ms) :
    (∀ m ∈ ms, ∀ w, m.returned = some (c.id, w) → m = .collect c.id v) ∧
      (.collect c.id v ∈ ms ∨ .drop c.id ∈ ms ∨
        ∃ d ∈ r'.callers, d.id = c.id ∧ d.handle = c.handle) := by
  induction h with
  | nil => exact ⟨by simp, Or.inr (Or.inr ⟨c, hc, rfl, rfl⟩)⟩
  | @move ms r₁ r₂ m h hs ih =>
    have hr₁ := hr.run h
    have hv₁ := h.value_stays hr hv
    rw [calls_append, List.mem_append, not_or] at hj
    obtain ⟨hret, hleft⟩ := ih hj.1
    have hlast : ∀ w, m.returned = some (c.id, w) → m = .collect c.id v := by
      intro w hm
      obtain ⟨d, hd, hi, hcase⟩ := hs.returned hm
      have hh := h.handle_eq hr hc hd hi hj.1
      rcases hcase with ⟨-, hds⟩ | ⟨rfl, hdv⟩
      · have ho := hr₁.owner_open hd (by simp [hds])
        rw [hh, hv₁] at ho
        cases ho
      · rw [hh, hv₁] at hdv
        cases hdv
        rfl
    refine ⟨?_, ?_⟩
    · intro n hn w hw
      rcases List.mem_append.1 hn with hn | hn
      · exact hret n hn w hw
      · rw [List.mem_singleton.1 hn] at hw ⊢
        exact hlast w hw
    · rcases hleft with hl | hl | ⟨d, hd, hi, hh⟩
      · exact Or.inl (List.mem_append_left _ hl)
      · exact Or.inr (Or.inl (List.mem_append_left _ hl))
      · rcases hs.caller_future hr₁ hd with ⟨e, he, hei, -, heh, -⟩ | hm | ⟨w, hm⟩
        · exact Or.inr (Or.inr ⟨e, he, hei.trans hi, heh.trans hh⟩)
        · exact Or.inr (Or.inl (by simp [hm, hi]))
        · rw [hi] at hm
          exact Or.inl (by simp [hlast w hm])

theorem Run.returned (h : Run Registry.empty ms r) (hm : Step r m r') {id : Nat} {v : α}
    (hv : m.returned = some (id, v)) :
    ∃ key past since leader, ms ++ [m] = past ++ .join id key :: since ∧
      .complete leader v ∈ since ∧ .join leader key ∈ ms := by
  obtain ⟨c, hc, rfl, hcase⟩ := hm.returned hv
  rcases hcase with ⟨rfl, -⟩ | ⟨rfl, hcv⟩
  · obtain ⟨past, since, he⟩ := List.append_of_mem (h.joined hc)
    exact ⟨c.key, past, since ++ [.complete c.id v], c.id, by simp [he], by simp, h.joined hc⟩
  · obtain ⟨past, since, leader, he, hl, hj⟩ := h.served hc hcv
    exact ⟨c.key, past, since ++ [.collect c.id v], leader, by simp [he],
      List.mem_append_left _ hl, hj⟩

theorem Sound.join_ne_value (hr : Sound r) (id : Nat) (key : String) (w : α) :
    (r.join id key).1 ≠ .value w := by
  rcases he : r.register key with ⟨g, r₁⟩
  obtain ⟨ho, -, -, hp⟩ := hr.toOrderly.register key he
  exact (join_eq he (ho.pending_open hp)).2 w

theorem exists_leading_of_join {id : Nat} {key : String} (h : (r.join id key).1 = .lead) :
    ∃ c ∈ (r.join id key).2.callers, c.id = id ∧ c.key = key ∧ c.stage = .leading := by
  rcases he : r.register key with ⟨g, r₁⟩
  simp only [join, he] at h ⊢
  split at h
  · cases h
  · split at h
    · cases h
    · rename_i hv ho
      simp [ho]

theorem Run.returned_later {ms' : List (Move α)} (h : Run Registry.empty (ms ++ ms') r)
    (hn : (calls (ms ++ ms')).Nodup) {id : Nat} {v : α} (hm : m ∈ ms')
    (hv : m.returned = some (id, v)) (hid : id ∈ calls ms') :
    ∃ leader, .complete leader v ∈ ms' := by
  obtain ⟨first, rest, rfl⟩ := List.append_of_mem hm
  rw [← List.append_assoc] at h
  obtain ⟨r₁, r₂, h₁, hs, -⟩ := h.through
  obtain ⟨key, past, since, leader, he, hl, -⟩ := h₁.returned hs hv
  have hnot : .join id key ∉ ms := by
    intro hj
    rw [calls_append] at hn
    exact (List.nodup_append.1 hn).2.2 id (mem_calls.2 ⟨key, hj⟩) id hid rfl
  have hmem : .complete leader v ∈ first ++ [m] := by
    rw [List.append_assoc] at he
    exact mem_of_append_eq he hnot hl
  exact ⟨leader, by simpa [or_assoc] using List.mem_append_left rest hmem⟩

/-- The callers who wait on the handle of a fetch when it ends get its value and nobody else does:
a later call is on another handle, and returns the value of a later fetch. -/
theorem Run.fetch_ends {before after : List (Move α)} {r₀ r₁ : Registry α} {leader : Nat} {v : α}
    (h₀ : Run Registry.empty before r₀) (hm : Step r₀ (.complete leader v) r₁)
    (h : Run r₁ after r) (hn : (calls (before ++ .complete leader v :: after)).Nodup) :
    ∃ c ∈ r₀.callers, c.id = leader ∧ c.stage = .leading ∧
      (∀ d ∈ r₀.callers, d.handle = c.handle → d.id ≠ leader →
        (∀ n ∈ after, ∀ w, n.returned = some (d.id, w) → w = v) ∧
        (.collect d.id v ∈ after ∨ .drop d.id ∈ after ∨ ∃ r', r.collect d.id = some (v, r'))) ∧
      ∀ d ∈ r.callers, d.id ∈ calls after → d.handle ≠ c.handle := by
  have hr₀ := Sound.empty.run h₀
  have hr₁ := hr₀.step hm
  have hr := hr₁.run h
  rw [calls_append] at hn
  have hfresh : ∀ d ∈ r₀.callers, d.id ∉ calls after := fun d hd hc =>
    (List.nodup_append.1 hn).2.2 d.id (mem_calls.2 ⟨d.key, h₀.joined hd⟩) d.id
      (by simpa [calls, Move.joined?] using hc) rfl
  obtain ⟨c, hc, rfl, hs, hvs⟩ := hm.fills
  have hv₁ : r₁.values.get? c.handle = some v := by rw [hvs, Table.get?_insert_self]
  refine ⟨c, hc, rfl, hs, ?_, ?_⟩
  · intro d hd hh hi
    rcases hm.caller_future hr₀ hd with ⟨e, he, hei, -, heh, -⟩ | hd' | ⟨w, hw⟩
    · rw [← hh, ← heh] at hv₁
      have hj : e.id ∉ calls after := hei ▸ hfresh d hd
      obtain ⟨hret, hleft⟩ := h.returns hr₁ he hv₁ hj
      rw [← hei]
      refine ⟨fun n hn w hw => ?_, ?_⟩
      · rw [hret n hn w hw] at hw
        cases hw
        rfl
      · rcases hleft with hl | hl | ⟨f, hf, hfi, hfh⟩
        · exact Or.inl hl
        · exact Or.inr (Or.inl hl)
        · refine Or.inr (Or.inr ⟨r.without e.id, collect_eq_some_iff.2 ⟨f, ?_, ?_, rfl⟩⟩)
          · exact hr.caller?_eq_some_iff.2 ⟨hf, hfi⟩
          · rw [hfh, h.value_stays hr₁ hv₁]
    · cases hd'
    · simp only [Move.returned, Option.some.injEq, Prod.mk.injEq] at hw
      exact absurd hw.1.symm hi
  · intro d hd hid hh
    obtain ⟨e, he, hei, -⟩ := h.caller_past hr₁ hv₁ hd hh
    rcases hm.caller_past hr₀ he with ⟨f, hf, hfi, -⟩ | ⟨hj, -⟩
    · exact hfresh f hf (by rwa [hfi, hei])
    · cases hj

/-- Whoever waits for a fetch when it ends returns with its value unless it is dropped, and nobody
who calls later does. -/
theorem values_are_shared {before after : List (Move α)} {r₀ r₁ : Registry α}
    (h₀ : Run Registry.empty before r₀) (hm : Step r₀ m r₁) (h : Run r₁ after r)
    (hn : (calls (before ++ m :: after)).Nodup) :
    (∀ id v, m.returned = some (id, v) → ∃ key past since leader,
      before ++ [m] = past ++ .join id key :: since ∧ .complete leader v ∈ since ∧
        .join leader key ∈ before) ∧
    (∀ leader v, m = .complete leader v → ∃ c ∈ r₀.callers, c.id = leader ∧ c.stage = .leading ∧
      (∀ d ∈ r₀.callers, d.handle = c.handle → d.id ≠ leader →
        (∀ n ∈ after, ∀ w, n.returned = some (d.id, w) → w = v) ∧
        (.collect d.id v ∈ after ∨ .drop d.id ∈ after ∨ ∃ r', r.collect d.id = some (v, r'))) ∧
      (∀ d ∈ r.callers, d.id ∈ calls after → d.handle ≠ c.handle) ∧
      ∀ n ∈ after, ∀ id w, n.returned = some (id, w) → id ∈ calls after →
        ∃ later, .complete later w ∈ after) ∧
    ∀ id key w, (r₀.join id key).1 ≠ .value w := by
  refine ⟨fun id v hv => h₀.returned hm hv, ?_, (Sound.empty.run h₀).join_ne_value⟩
  rintro leader v rfl
  obtain ⟨c, hc, hi, hs, hwait, hlater⟩ := h₀.fetch_ends hm h hn
  refine ⟨c, hc, hi, hs, hwait, hlater, ?_⟩
  intro n hn' id w hw hid
  have hrun : Run Registry.empty ((before ++ [.complete leader v]) ++ after) r :=
    (Run.move h₀ hm).append h
  exact hrun.returned_later (by simpa using hn) hn' hw hid

theorem values_are_shared_by_two :
    ∃ r₀ r₁ r : Registry Nat, Run Registry.empty [.join 0 "a", .join 1 "a"] r₀ ∧
      Step r₀ (.complete 0 7) r₁ ∧
      Run r₁ [.drop 0, .join 2 "a", .collect 1 7, .complete 2 8] r ∧
      (∃ key past since leader, [.join 0 "a", .join 1 "a"] ++ [.complete 0 7] =
        past ++ Move.join 0 key :: since ∧ .complete leader 7 ∈ since) ∧
      ∀ w, Move.collect 1 w ∈ [.drop 0, .join 2 "a", .collect 1 7, .complete 2 8] → w = 7 := by
  have h₀ : Run (Registry.empty : Registry Nat) [.join 0 "a", .join 1 "a"] _ :=
    .move (.move .nil (.join "a" rfl)) (.join "a" rfl)
  have hm : Step _ (.complete 0 7) ((((Registry.empty : Registry Nat).join 0 "a").2.join 1
      "a").2.complete 0 7) := .complete 7 rfl rfl
  have h : Run ((((Registry.empty : Registry Nat).join 0 "a").2.join 1 "a").2.complete 0 7)
      [.drop 0, .join 2 "a", .collect 1 7, .complete 2 8] _ :=
    .move (.move (.move (.move .nil (drop_step _ 0)) (.join "a" rfl)) (.collect rfl))
      (.complete 8 (c := ⟨2, "a", 1, .leading⟩) rfl rfl)
  obtain ⟨hret, hend, -⟩ := values_are_shared h₀ hm h (by decide)
  obtain ⟨key, past, since, leader, he, hl, -⟩ := hret 0 7 rfl
  obtain ⟨c, hc, hi, -, hwait, -⟩ := hend 0 7 rfl
  have hh : ∀ d ∈ (((Registry.empty : Registry Nat).join 0 "a").2.join 1 "a").2.callers,
      d.handle = 0 := by decide
  obtain ⟨hall, -⟩ := hwait ⟨1, "a", 0, .waiting⟩ (by decide) (hh c hc).symm (by decide)
  exact ⟨_, _, _, h₀, hm, h, ⟨key, past, since, leader, he, hl⟩, fun w hw => hall _ hw w rfl⟩

end Registry

end OrderLookup.Inflight
