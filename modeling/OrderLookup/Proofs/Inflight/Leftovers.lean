import OrderLookup.Proofs.Inflight.SingleFlight
import OrderLookup.Proofs.Inflight.Timeline

/-!
Which keys are registered. A call registers its key, and only the value of a fetch takes a key off
the register. So a key is registered while somebody waits for its value, but also when the last of
those who waited has been dropped: such a key stays registered until somebody calls for it again.
-/

namespace OrderLookup.Inflight

namespace Registry

variable {α : Type} {r r' : Registry α} {m : Move α} {ms : List (Move α)} {key : String}

/-- Whether the last caller of a key without a value has been dropped, and nobody has called for
the key since. -/
def Deserted (r : Registry α) (ms : List (Move α)) (key : String) : Prop :=
  ∃ past since c r₀ r₁, ms = past ++ .drop c.id :: since ∧ Run Registry.empty past r₀ ∧
    Step r₀ (.drop c.id) r₁ ∧ Run r₁ since r ∧ r₀.unserved key = [c] ∧ ∀ id, .join id key ∉ since

/-- What a move can do to a key: it leaves the key alone, or calls for it, or brings its value, or
drops a caller who has no value yet. -/
inductive Change (r r' : Registry α) (key : String) : Move α → Prop
  | idle {m : Move α} : (∀ id, m ≠ .join id key) → (∀ c ∈ r.unserved key, m ≠ .drop c.id) →
      r'.pending.get? key = r.pending.get? key →
      (r'.unserved key).map Caller.id = (r.unserved key).map Caller.id → Change r r' key m
  | joined {id : Nat} : r'.unserved key ≠ [] → Change r r' key (.join id key)
  | served {id : Nat} {v : α} : r.unserved key ≠ [] → r'.pending.get? key = none →
      r'.unserved key = [] → Change r r' key (.complete id v)
  | left {c : Caller} : c ∈ r.unserved key → r'.pending.get? key = r.pending.get? key →
      (r'.unserved key).map Caller.id = ((r.unserved key).map Caller.id).filter (· ≠ c.id) →
      Change r r' key (.drop c.id)

theorem unserved_without (r : Registry α) (id : Nat) (key : String) :
    (r.without id).unserved key = (r.unserved key).filter fun c => c.id ≠ id := by
  simp only [unserved, without, List.filter_filter, Bool.and_comm]

theorem ids_unserved_without (r : Registry α) (id : Nat) (key : String) :
    ((r.without id).unserved key).map Caller.id =
      ((r.unserved key).map Caller.id).filter (· ≠ id) := by
  rw [unserved_without, List.filter_map]
  rfl

theorem ids_unserved_setStage (r : Registry α) (id : Nat) (stage : Stage) (key : String) :
    ((r.setStage id stage).unserved key).map Caller.id = (r.unserved key).map Caller.id := by
  have hsame : ∀ c : Caller, (if c.id = id then { c with stage := stage } else c).id = c.id ∧
      (if c.id = id then { c with stage := stage } else c).key = c.key ∧
      (if c.id = id then { c with stage := stage } else c).handle = c.handle := by
    intro c
    split <;> exact ⟨rfl, rfl, rfl⟩
  simp only [unserved, setStage, List.filter_map, List.map_map]
  have hfilter : r.callers.filter
      ((fun c => decide (c.key = key) && (r.values.get? c.handle).isNone) ∘
        fun c => if c.id = id then { c with stage := stage } else c) = r.unserved key := by
    apply List.filter_congr
    intro c _
    simp only [Function.comp_apply, (hsame c).2.1, (hsame c).2.2]
  rw [hfilter]
  exact List.map_congr_left fun c _ => (hsame c).1

theorem ids_unserved_of_not_mem {c : Caller} (h : c ∉ r.unserved key)
    (hids : ∀ d ∈ r.callers, d.id = c.id → d = c) :
    ((r.unserved key).map Caller.id).filter (· ≠ c.id) = (r.unserved key).map Caller.id := by
  rw [List.filter_eq_self]
  intro i hi
  obtain ⟨d, hd, rfl⟩ := List.mem_map.1 hi
  have hne : d.id ≠ c.id := fun he => h (hids d (mem_unserved.1 hd).1 he ▸ hd)
  simpa using hne

theorem Sound.change_drop (hr : Sound r) {c : Caller} (hc : c ∈ r.callers)
    (hp : r'.pending = r.pending)
    (hu : (r'.unserved key).map Caller.id = ((r.without c.id).unserved key).map Caller.id) :
    Change r r' key (.drop c.id) := by
  rw [ids_unserved_without] at hu
  have hids : ∀ d ∈ r.callers, d.id = c.id → d = c := fun d hd hi => hr.eq_of_id hd hc hi
  by_cases hcu : c ∈ r.unserved key
  · exact .left hcu (by rw [hp]) hu
  · refine .idle (by simp) (fun d hd hm => ?_) (by rw [hp])
      (hu.trans (ids_unserved_of_not_mem hcu hids))
    have hdc := hids d (mem_unserved.1 hd).1 (Move.drop.inj hm).symm
    exact hcu (hdc ▸ hd)

theorem Sound.change_join (hr : Sound r) (id : Nat) (k : String) :
    Change r (r.join id k).2 key (.join id k) := by
  rcases he : r.register k with ⟨g, r₁⟩
  obtain ⟨ho, hc, hv, hp⟩ := hr.toOrderly.register k he
  have hopen := ho.pending_open hp
  have hcallers : (r.join id k).2 = _ := (join_eq he hopen).1
  by_cases hk : k = key
  · subst hk
    refine .joined ?_
    rw [hcallers]
    simp [unserved, hopen]
  · have hpend : r₁.pending.get? key = r.pending.get? key := by
      simp only [Registry.register] at he
      split at he
      · cases he
        rfl
      · cases he
        exact Table.get?_insert_of_ne _ hk _
    refine .idle (fun i hm => hk (Move.join.inj hm).2) (by simp) ?_ ?_
    · rw [hcallers]
      exact hpend
    · rw [hcallers, unserved, hc, List.filter_append]
      simp [unserved, hk, hv]

theorem Sound.change_complete (hr : Sound r) {c : Caller} (v : α) (hc : c ∈ r.callers)
    (hs : c.stage = .leading) : Change r (r.complete c.id v) key (.complete c.id v) := by
  have hopen := hr.owner_open hc (by simp [hs])
  have hp := hr.registered hc hopen
  rw [complete_eq v (hr.caller?_eq_some_iff.2 ⟨hc, rfl⟩)]
  simp only [unregister, if_pos hp]
  have hval (g : Nat) : (r.values.insert c.handle v).get? g =
      if c.handle = g then some v else r.values.get? g := Table.get?_insert _ _ _ _
  have hpend (k : String) : (r.pending.erase c.key).get? k =
      if c.key = k then none else r.pending.get? k := Table.get?_erase _ _ _
  by_cases hk : c.key = key
  · subst hk
    refine .served (List.ne_nil_of_mem (mem_unserved.2 ⟨hc, rfl, hopen⟩)) ?_ ?_
    · exact (hpend c.key).trans (if_pos rfl)
    · -- Whoever waits for the key waits on the handle that has just got its value.
      refine List.eq_nil_iff_forall_not_mem.2 fun d hd => ?_
      obtain ⟨hdm, hdk, hdv⟩ := mem_unserved.1 hd
      change (r.values.insert c.handle v).get? d.handle = none at hdv
      rw [hval] at hdv
      split at hdv
      · cases hdv
      · rename_i hne
        have hdp := hr.registered (mem_without.1 hdm).1 hdv
        rw [hdk, hp] at hdp
        exact hne (Option.some.inj hdp)
  · refine .idle (by simp) (by simp) ((hpend key).trans (if_neg hk)) ?_
    have hsame : ∀ d ∈ r.callers, d.key = key →
        (r.values.insert c.handle v).get? d.handle = r.values.get? d.handle := by
      intro d hd hdk
      rw [hval, if_neg]
      intro hh
      exact hk ((hr.key_eq hc hd hh hopen).trans hdk)
    have hunserved : Registry.unserved { r with values := r.values.insert c.handle v } key =
        r.unserved key := by
      apply List.filter_congr
      intro d hd
      by_cases hdk : d.key = key
      · simp only [hsame d hd hdk]
      · simp [hdk]
    have hnot : c ∉ Registry.unserved { r with values := r.values.insert c.handle v } key :=
      fun hm => hk (mem_unserved.1 hm).2.1
    have hgone := ids_unserved_of_not_mem hnot fun d hd hi => hr.eq_of_id hd hc hi
    rw [← ids_unserved_without, hunserved] at hgone
    exact hgone

theorem Step.change (hr : Sound r) (h : Step r m r') (key : String) : Change r r' key m := by
  cases h with
  | join k => exact hr.change_join _ k
  | start => exact .idle (by simp) (by simp) rfl (ids_unserved_setStage r _ _ key)
  | complete v hc hs =>
    obtain ⟨hm, rfl⟩ := mem_of_caller? hc
    exact hr.change_complete v hm hs
  | collect hv =>
    obtain ⟨c, hc, hcv, rfl⟩ := collect_eq_some_iff.1 hv
    obtain ⟨hm, rfl⟩ := mem_of_caller? hc
    have hnot : c ∉ r.unserved key := fun hu => by
      rw [(mem_unserved.1 hu).2.2] at hcv
      cases hcv
    refine .idle (by simp) (by simp) rfl ((ids_unserved_without r c.id key).trans ?_)
    exact ids_unserved_of_not_mem hnot fun d hd hi => hr.eq_of_id hd hm hi
  | gone hid =>
    refine .idle (by simp) (fun c hc hm => ?_) rfl rfl
    exact caller?_eq_none_iff.1 hid c (mem_unserved.1 hc).1 (Move.drop.inj hm).symm
  | leave hc =>
    obtain ⟨hm, rfl⟩ := mem_of_caller? hc
    exact hr.change_drop hm rfl rfl
  | abandon hc =>
    obtain ⟨hm, rfl⟩ := mem_of_caller? hc
    exact hr.change_drop hm rfl rfl
  | handOver hc =>
    obtain ⟨hm, rfl⟩ := mem_of_caller? hc
    exact hr.change_drop hm rfl (ids_unserved_setStage _ _ _ key)

theorem unserved_eq_nil_congr (h : (r'.unserved key).map Caller.id =
    (r.unserved key).map Caller.id) : r'.unserved key = [] ↔ r.unserved key = [] := by
  rw [← List.map_eq_nil_iff (f := Caller.id), h, List.map_eq_nil_iff]

theorem Step.leaves_nobody {c : Caller} (hr : Sound r) (h : Step r (.drop c.id) r')
    (hu : r.unserved key = [c]) :
    r'.unserved key = [] ∧ r'.pending.get? key = r.pending.get? key := by
  have hc : c ∈ r.unserved key := by simp [hu]
  generalize hm : Move.drop c.id = m at h
  cases h.change hr key with
  | idle _ hd => exact absurd hm.symm (hd c hc)
  | joined => cases hm
  | served => cases hm
  | left _ hp hids =>
    rw [hu, ← Move.drop.inj hm] at hids
    exact ⟨by simpa using hids, hp⟩

theorem Run.keeps_nobody (hr : Sound r) (h : Run r ms r') (hj : ∀ id, .join id key ∉ ms)
    (hu : r.unserved key = []) :
    r'.unserved key = [] ∧ r'.pending.get? key = r.pending.get? key := by
  induction h with
  | nil => exact ⟨hu, rfl⟩
  | @move ms r' r'' m h hs ih =>
    obtain ⟨hu', hp'⟩ := ih fun id hm => hj id (List.mem_append_left _ hm)
    cases hs.change (hr.run h) key with
    | idle _ _ hp hids => exact ⟨(unserved_eq_nil_congr hids).2 hu', hp.trans hp'⟩
    | @joined id => exact absurd (List.mem_append_right _ (.head _)) (hj id)
    | served hne => exact absurd hu' hne
    | left hc =>
      rw [hu'] at hc
      cases hc

theorem Deserted.unserved (h : Deserted r ms key) :
    r.unserved key = [] ∧ (r.pending.get? key).isSome := by
  obtain ⟨past, since, c, r₀, r₁, -, h₀, hd, h₁, hu, hj⟩ := h
  have hr₀ := Sound.empty.run h₀
  obtain ⟨hu₁, hp₁⟩ := hd.leaves_nobody hr₀ hu
  obtain ⟨hu', hp'⟩ := h₁.keeps_nobody (hr₀.step hd) hj hu₁
  have hc : c ∈ r₀.unserved key := by simp [hu]
  exact ⟨hu', by rw [hp', hp₁, hr₀.handle_unserved hc]; rfl⟩

theorem Deserted.move (h : Deserted r ms key) (hs : Step r m r') (hj : ∀ id, m ≠ .join id key) :
    Deserted r' (ms ++ [m]) key := by
  obtain ⟨past, since, c, r₀, r₁, rfl, h₀, hd, h₁, hu, hn⟩ := h
  refine ⟨past, since ++ [m], c, r₀, r₁, by simp, h₀, hd, .move h₁ hs, hu, fun id hm => ?_⟩
  rcases List.mem_append.1 hm with hm | hm
  · exact hn id hm
  · exact hj id (List.mem_singleton.1 hm).symm

theorem Sound.unserved_eq_singleton (hr : Sound r) {c : Caller} (hc : c ∈ r.unserved key)
    (h : ∀ d ∈ r.unserved key, d.id = c.id) : r.unserved key = [c] := by
  have hn : ((r.unserved key).map Caller.id).Nodup := hr.ids.sublist (List.filter_sublist.map _)
  have hrep : (r.unserved key).map Caller.id = List.replicate (r.unserved key).length c.id :=
    List.eq_replicate_iff.2 ⟨by simp, by simpa using h⟩
  rw [hrep, List.nodup_replicate] at hn
  obtain ⟨d, hd⟩ := List.length_eq_one_iff.1 (Nat.le_antisymm hn (List.length_pos_of_mem hc))
  rw [hd, List.mem_singleton] at hc
  rw [hd, hc]

theorem Run.deserted (h : Run Registry.empty ms r) (hp : (r.pending.get? key).isSome)
    (hu : r.unserved key = []) : Deserted r ms key := by
  induction h with
  | nil => simp [Registry.empty] at hp
  | @move ms r r' m h hs ih =>
    have hr := Sound.empty.run h
    cases hs.change hr key with
    | idle hj _ hp' hids =>
      exact (ih (hp' ▸ hp) ((unserved_eq_nil_congr hids).1 hu)).move hs hj
    | joined hne => exact absurd hu hne
    | served _ hp' => simp [hp'] at hp
    | @left c hc _ hids =>
      -- The last one to go had no value, and everybody else has gone before.
      have hone : r.unserved key = [c] := by
        rw [hu, List.map_nil, eq_comm, List.filter_eq_nil_iff] at hids
        refine hr.unserved_eq_singleton hc fun d hd => ?_
        simpa using hids d.id (List.mem_map_of_mem hd)
      exact ⟨ms, [], c, r, r', rfl, h, hs, .nil, hone, by simp⟩

/-- A key is registered exactly if some caller has no value for it yet, or if the last such caller
has been dropped and nobody has called for the key since. -/
theorem registered_iff_unserved_or_deserted (h : Run Registry.empty ms r) (key : String) :
    ((r.pending.get? key).isSome ↔ r.unserved key ≠ [] ∨ Deserted r ms key) ∧
    (((r.pending.get? key).isSome ↔ r.unserved key ≠ []) ↔ ¬Deserted r ms key) := by
  have hr := Sound.empty.run h
  have hwait : r.unserved key ≠ [] → (r.pending.get? key).isSome := by
    intro hne
    obtain ⟨c, hc⟩ := List.exists_mem_of_ne_nil _ hne
    rw [hr.handle_unserved hc]
    rfl
  constructor
  · constructor
    · intro hp
      by_cases hu : r.unserved key = []
      · exact Or.inr (h.deserted hp hu)
      · exact Or.inl hu
    · rintro (hne | hd)
      · exact hwait hne
      · exact hd.unserved.2
  · constructor
    · exact fun hiff hd => hiff.1 hd.unserved.2 hd.unserved.1
    · intro hnot
      refine ⟨fun hp hu => hnot (h.deserted hp hu), hwait⟩

theorem registered_iff_unserved_or_deserted_after_drops :
    ∃ r : Registry String,
      Run Registry.empty [.join 0 "a", .join 1 "a", .drop 0, .join 2 "b", .drop 1] r ∧
      r.callers = [⟨2, "b", 1, .leading⟩] ∧
      Deserted r [.join 0 "a", .join 1 "a", .drop 0, .join 2 "b", .drop 1] "a" ∧
      ¬Deserted r [.join 0 "a", .join 1 "a", .drop 0, .join 2 "b", .drop 1] "b" := by
  have h : Run (Registry.empty : Registry String)
      [.join 0 "a", .join 1 "a", .drop 0, .join 2 "b", .drop 1] _ :=
    .move (.move (.move (.move (.move .nil (.join "a" rfl)) (.join "a" rfl)) (drop_step _ 0))
      (.join "b" rfl)) (drop_step _ 1)
  have ha := (registered_iff_unserved_or_deserted h "a").1
  have hb := (registered_iff_unserved_or_deserted h "b").2
  exact ⟨_, h, rfl, (ha.1 rfl).resolve_left (by decide), hb.1 (by decide)⟩

theorem Sound.fresh_open (hr : Sound r) : r.values.get? r.fresh = none := by
  cases hv : r.values.get? r.fresh with
  | none => rfl
  | some v => exact absurd (hr.value_lt hv) (Nat.lt_irrefl _)

theorem deserted_keys_pile_up {keys : List String} (hn : keys.Nodup) :
    ∃ (ms : List (Move α)) (r : Registry α), Run Registry.empty ms r ∧ r.callers = [] ∧
      r.pending.keys = keys := by
  induction keys using List.reverseRecOn with
  | nil => exact ⟨[], Registry.empty, .nil, rfl, rfl⟩
  | append_singleton keys key ih =>
    obtain ⟨hkeys, -, hnew⟩ := List.nodup_append.1 hn
    obtain ⟨ms, r, h, hc, hk⟩ := ih hkeys
    have hnone : r.pending.get? key = none := by
      rw [Table.get?_eq_none_iff, hk]
      exact fun hm => hnew key hm key (by simp) rfl
    have hid : r.caller? 0 = none := by simp [caller?, hc]
    have hdrop : (r.join 0 key).2.drop 0 =
        { r with pending := r.pending.insert key r.fresh, fresh := r.fresh + 1 } := by
      have hopen := (Sound.empty.run h).fresh_open
      simp [join, register, hnone, hopen, hc, isOwned, drop, caller?, without, handOver, waiters]
    refine ⟨_, _, .move (.move h (.join key hid)) (drop_step _ 0), ?_, ?_⟩
    · rw [hdrop, hc]
    · rw [hdrop, Table.keys_insert, hk, if_neg fun hm => hnew key hm key (by simp) rfl]

def abandoned : List Event := [⟨0, .run 0 ⟨"k", 60, "never"⟩⟩, ⟨10, .abort 0⟩]

/-- When nobody is left the key is still registered, although no fetch of it is pending; and so
any number of keys can be. -/
theorem abandoned_key_stays_registered :
    (∃ ms, Run Registry.empty ms (Timeline.complete abandoned).registry) ∧
    (Timeline.complete abandoned).registry.callers = [] ∧
    (Timeline.complete abandoned).flights = [] ∧
    ¬(((Timeline.complete abandoned).registry.pending.get? "k").isSome ↔
      (Timeline.complete abandoned).registry.unserved "k" ≠ []) ∧
    ∀ keys : List String, keys.Nodup → ∃ (ms : List (Move String)) (r : Registry String),
      Run Registry.empty ms r ∧ r.callers = [] ∧ r.pending.keys = keys := by
  have hn : (Timeline.callsOf abandoned).Nodup := by decide
  obtain ⟨ms, h, -⟩ := Timeline.complete_follows hn
  exact ⟨⟨ms, h.history⟩, rfl, rfl, by decide, fun keys hkeys => deserted_keys_pile_up hkeys⟩

end Registry

end OrderLookup.Inflight
