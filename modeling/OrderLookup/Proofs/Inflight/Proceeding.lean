import OrderLookup.Proofs.Inflight.Timeline

/-!
What happens at once on a timeline. A turn that has been handed on is taken over, whoever finds a
value returns with it in the order of arrival, and nobody else moves; none of this takes time.
-/

namespace OrderLookup.Inflight

namespace Timeline

variable {t : Timeline} {ids : List Nat} {id : Nat}

def served (t : Timeline) (c : Caller) : Option Finish :=
  (t.registry.values.get? c.handle).map fun v => ⟨c.id, t.now, v⟩

theorem takeOvers_eq (h : ∀ c ∈ t.registry.callers, c.stage = .chosen → c.id ∉ ids) :
    ids.foldl takeOver t = t := by
  induction ids with
  | nil => rfl
  | cons i ids ih =>
    have htake : t.takeOver i = t := by
      rw [takeOver]
      split
      · rfl
      · rename_i c hc
        obtain ⟨hm, rfl⟩ := Registry.mem_of_caller? hc
        exact if_neg fun hs => h c hm hs (.head _)
    rw [List.foldl_cons, htake]
    exact ih fun c hc hs hi => h c hc hs (.tail _ hi)

theorem takeOver_eq (hr : t.registry.Sound) {c : Caller} (hc : c ∈ t.registry.callers)
    (hs : c.stage = .chosen) :
    t.takeOver c.id = { t with registry := t.registry.start c.id }.launch c.id := by
  rw [takeOver, hr.caller?_eq_some_iff.2 ⟨hc, rfl⟩]
  exact if_pos hs

theorem launch_registry (t : Timeline) (id : Nat) : (t.launch id).registry = t.registry := by
  rw [launch]
  split <;> rfl

theorem takeOvers_one (hr : t.registry.Sound) {d : Caller} (hd : d ∈ t.registry.callers)
    (hs : d.stage = .chosen) (hone : ∀ c ∈ t.registry.callers, c.stage = .chosen → c = d) :
    (t.registry.callers.map Caller.id).foldl takeOver t =
      { t with registry := t.registry.start d.id }.launch d.id := by
  obtain ⟨before, after, hl⟩ := List.append_of_mem hd
  have hn := hr.ids
  rw [hl, List.map_append, List.map_cons, List.nodup_append] at hn
  have hbefore : (before.map Caller.id).foldl takeOver t = t := by
    refine takeOvers_eq fun c hc hcs hi => ?_
    rw [hone c hc hcs] at hi
    exact hn.2.2 _ hi _ (.head _) rfl
  have hafter : ∀ c ∈ (t.takeOver d.id).registry.callers, c.stage = .chosen →
      c.id ∉ after.map Caller.id := by
    intro c hc hcs
    rw [takeOver_eq hr hd hs, launch_registry] at hc
    rcases Registry.mem_setStage.1 hc with ⟨hc, hne⟩ | ⟨e, -, -, rfl⟩
    · exact absurd (by rw [hone c hc hcs]) hne
    · cases hcs
  rw [hl, List.map_append, List.map_cons, List.foldl_append, hbefore, List.foldl_cons,
    takeOvers_eq hafter, takeOver_eq hr hd hs]

theorem caller?_of_mem {r : Registry String} {c : Caller} (hn : (r.callers.map Caller.id).Nodup)
    (hc : c ∈ r.callers) : r.caller? c.id = some c := by
  cases h : r.caller? c.id with
  | none => exact absurd rfl (Registry.caller?_eq_none_iff.1 h c hc)
  | some d =>
    obtain ⟨hd, hi⟩ := Registry.mem_of_caller? h
    rw [List.inj_on_of_nodup_map hn hd hc hi]

theorem collect_of_none {c : Caller} (hn : (t.registry.callers.map Caller.id).Nodup)
    (hc : c ∈ t.registry.callers) (hs : t.served c = none) : t.collect c.id = t := by
  have hv : t.registry.values.get? c.handle = none := by simpa [served] using hs
  simp only [collect, Registry.collect, caller?_of_mem hn hc, hv, Option.map_none]

theorem collect_of_some {c : Caller} {f : Finish} (hn : (t.registry.callers.map Caller.id).Nodup)
    (hc : c ∈ t.registry.callers) (hs : t.served c = some f) :
    t.collect c.id =
      { t with registry := t.registry.without c.id, finished := t.finished ++ [f] } := by
  obtain ⟨v, hv, rfl⟩ := Option.map_eq_some_iff.1 hs
  simp only [collect, Registry.collect, caller?_of_mem hn hc, hv, Option.map_some]
  rfl

theorem collects_eq (before : List Caller) {after : List Caller}
    (hl : t.registry.callers = before ++ after)
    (hn : (t.registry.callers.map Caller.id).Nodup) :
    (after.map Caller.id).foldl collect t = { t with
      registry := { t.registry with
        callers := before ++ after.filter fun c => (t.served c).isNone }
      finished := t.finished ++ after.filterMap t.served } := by
  induction after generalizing t before with
  | nil => simp [← hl]
  | cons c after ih =>
    have hc : c ∈ t.registry.callers := by simp [hl]
    rw [List.map_cons, List.foldl_cons]
    cases hs : t.served c with
    | none =>
      rw [collect_of_none hn hc hs, ih (before ++ [c]) (by simp [hl]) hn]
      simp [hs]
    | some f =>
      have hgone : (t.registry.without c.id).callers = before ++ after := by
        have hothers : ∀ d ∈ before ++ after, d.id ≠ c.id := by
          rw [hl, List.map_append, List.map_cons, List.nodup_middle, List.nodup_cons,
            ← List.map_append] at hn
          exact fun d hd hi => hn.1 (List.mem_map.2 ⟨d, hd, hi⟩)
        have hkeep : (before ++ after).filter (fun d => decide (d.id ≠ c.id)) = before ++ after :=
          List.filter_eq_self.2 fun d hd => by simpa using hothers d hd
        simpa [Registry.without, hl] using hkeep
      rw [collect_of_some hn hc hs, ih before hgone (hn.sublist (List.filter_sublist.map _)),
        List.filter_cons_of_neg (by simp [hs]), List.filterMap_cons_some hs, List.append_assoc]
      rfl

theorem proceed_eq (h : ∀ c ∈ t.registry.callers, c.stage ≠ .chosen)
    (hn : (t.registry.callers.map Caller.id).Nodup) :
    t.proceed = { t with
      registry := { t.registry with
        callers := t.registry.callers.filter fun c => (t.served c).isNone }
      finished := t.finished ++ t.registry.callers.filterMap t.served } := by
  rw [proceed, takeOvers_eq fun c hc hs => absurd hs (h c hc)]
  exact collects_eq [] rfl hn

theorem collects_self (h : ∀ c ∈ t.registry.callers, t.registry.values.get? c.handle = none)
    (hn : (t.registry.callers.map Caller.id).Nodup) :
    (t.registry.callers.map Caller.id).foldl collect t = t := by
  have hnone : ∀ c ∈ t.registry.callers, t.served c = none := fun c hc => by simp [served, h c hc]
  have hkeep : t.registry.callers.filter (fun c => (t.served c).isNone) = t.registry.callers :=
    List.filter_eq_self.2 fun c hc => by simp [hnone c hc]
  rw [collects_eq [] rfl hn, hkeep, List.filterMap_eq_nil_iff.2 hnone,
    List.append_nil, List.nil_append]

theorem land_eq (hr : t.registry.Sound) {c : Caller} {f : Flight} (hc : c ∈ t.registry.callers)
    (hi : c.id = f.id) :
    ∃ pending, t.land f = { t with
      registry := { t.registry with
        pending := pending
        values := t.registry.values.insert c.handle f.value
        callers := (t.registry.without f.id).callers }
      flights := t.flights.filter fun g => g.id ≠ f.id
      finished := t.finished ++ [⟨f.id, t.now, f.value⟩] } := by
  rw [land, Registry.complete_eq f.value (hr.caller?_eq_some_iff.2 ⟨hc, hi⟩), Registry.unregister]
  split <;> exact ⟨_, rfl⟩

theorem foldl_now {f : Timeline → Nat → Timeline} (hf : ∀ t id, (f t id).now = t.now)
    (ids : List Nat) (t : Timeline) : (ids.foldl f t).now = t.now := by
  induction ids generalizing t with
  | nil => rfl
  | cons i ids ih => rw [List.foldl_cons, ih, hf]

theorem launch_now (t : Timeline) (id : Nat) : (t.launch id).now = t.now := by
  rw [launch]
  split <;> rfl

theorem act_now (t : Timeline) (a : Action) : (t.act a).now = t.now := by
  have htake (t : Timeline) (id : Nat) : (t.takeOver id).now = t.now := by
    rw [takeOver]
    split
    · rfl
    · split
      · exact launch_now _ _
      · rfl
  have hcollect (t : Timeline) (id : Nat) : (t.collect id).now = t.now := by
    rw [collect]
    split <;> rfl
  have hstart : (t.start a).now = t.now := by
    cases a with
    | run id f =>
      rw [start, run]
      split
      · rfl
      · rfl
      · exact launch_now _ _
    | abort id => rfl
  rw [act, proceed, foldl_now hcollect, foldl_now htake, hstart]

end Timeline

end OrderLookup.Inflight
