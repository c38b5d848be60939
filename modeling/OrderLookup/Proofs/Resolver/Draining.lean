import OrderLookup.Proofs.Resolver.Calls
import OrderLookup.Proofs.Resolver.Timeline

/-!
Timelines come to rest. Between two events nobody can go on by itself, so each store call that
ends makes the calls in flight fewer, and when none is left nobody waits any more. A lookup that
nobody drops has returned by then.
-/

namespace OrderLookup.Resolver

open Inflight (Registry Caller)

/-- Nobody can go on: no turn has just been handed on, and no caller finds a value. -/
structure Settled (s : Resolver) : Prop where
  unchosen : ∀ c ∈ s.registry.callers, c.stage ≠ .chosen
  unserved : ∀ c ∈ s.registry.callers, s.registry.values.get? c.handle = none

variable {s s' : Resolver} {m : Move} {ms : List Move} {ids : List Nat} {id : Nat} {uid : String}
  {l : List (Nat × Action)}

theorem Leads.coherent (hl : Leads s l s') (h : Coherent ids s)
    (hn : (ids ++ l.map Prod.fst).Nodup) : Coherent (ids ++ l.map Prod.fst) s' := by
  obtain ⟨ms, rfl, rfl⟩ := hl
  rw [← started_eq] at hn ⊢
  exact h.run hn

theorem Leads.stays_coherent (hl : Leads s [] s') (h : Coherent ids s) (hn : ids.Nodup) :
    Coherent ids s' := by
  simpa using hl.coherent h (by simpa using hn)

theorem complete_callers {r : Registry (Except OrderError Order)} {v : Except OrderError Order}
    {c : Caller} (hc : c ∈ (r.complete id v).callers) : c ∈ r.callers := by
  cases hi : r.caller? id with
  | none => rwa [Registry.complete, hi] at hc
  | some d =>
    rw [Inflight.Registry.complete_eq v hi, Inflight.Registry.mem_without] at hc
    have hcs := hc.1
    simp only [Registry.unregister] at hcs
    split at hcs <;> exact hcs

theorem lead_callers {c : Caller} (hc : c ∈ (s.lead id uid).registry.callers) :
    c ∈ s.registry.callers := by
  rw [lead] at hc
  split at hc
  · exact complete_callers hc
  · exact hc

theorem takeOver_chosen (h : Coherent ids s) {c : Caller}
    (hc : c ∈ (s.takeOver id).registry.callers) (hch : c.stage = .chosen) :
    c ∈ s.registry.callers ∧ c.id ≠ id := by
  rw [takeOver] at hc
  split at hc
  · rename_i hnone
    exact ⟨hc, Inflight.Registry.caller?_eq_none_iff.1 hnone c hc⟩
  · rename_i d hd
    split at hc
    · rcases Inflight.Registry.mem_setStage.1 (lead_callers hc) with hc | ⟨e, -, -, rfl⟩
      · exact hc
      · cases hch
    · rename_i hnot
      obtain ⟨hdm, rfl⟩ := Inflight.Registry.mem_of_caller? hd
      refine ⟨hc, fun hi => hnot ?_⟩
      rw [← h.sound.eq_of_id hc hdm hi, hch]

theorem takeOvers_chosen (h : Coherent ids s) (is : List Nat) {c : Caller}
    (hc : c ∈ (is.foldl takeOver s).registry.callers) (hch : c.stage = .chosen) :
    c ∈ s.registry.callers ∧ c.id ∉ is := by
  induction is generalizing s with
  | nil => exact ⟨hc, by simp⟩
  | cons i is ih =>
    obtain ⟨hc, hi⟩ := ih (h.takeOver i) hc
    obtain ⟨hc, hne⟩ := takeOver_chosen h hc hch
    exact ⟨hc, by simp [hne, hi]⟩

theorem takeOvers_coherent (h : Coherent ids s) (is : List Nat) :
    Coherent ids (is.foldl takeOver s) := by
  induction is generalizing s with
  | nil => exact h
  | cons i is ih => exact ih (h.takeOver i)

theorem takeOvers_eq (hs : ∀ c ∈ s.registry.callers, c.stage ≠ .chosen) (is : List Nat) :
    is.foldl takeOver s = s := by
  induction is with
  | nil => rfl
  | cons i is ih =>
    have htake : s.takeOver i = s := by
      rw [takeOver]
      split
      · rfl
      · rename_i c hc
        exact if_neg (hs c (Inflight.Registry.mem_of_caller? hc).1)
    rw [List.foldl_cons, htake, ih]

theorem collect_unserved (h : Coherent ids s) (id : Nat) :
    (s.collect id).registry.values = s.registry.values ∧ (s.collect id).flights = s.flights ∧
      ∀ c ∈ (s.collect id).registry.callers, c ∈ s.registry.callers ∧
        (c.id = id → s.registry.values.get? c.handle = none) := by
  rw [Resolver.collect]
  split
  · rename_i hnone
    refine ⟨rfl, rfl, fun c hc => ⟨hc, fun hi => ?_⟩⟩
    rw [Registry.collect, h.sound.caller?_eq_some_iff.2 ⟨hc, hi⟩] at hnone
    simpa using hnone
  · rename_i r registry hsome
    obtain ⟨d, -, -, rfl⟩ := Inflight.Registry.collect_eq_some_iff.1 hsome
    refine ⟨rfl, rfl, fun c hc => ?_⟩
    obtain ⟨hc, hne⟩ := Inflight.Registry.mem_without.1 hc
    exact ⟨hc, fun hi => absurd hi hne⟩

theorem collects_unserved (h : Coherent ids s) (is : List Nat) :
    (is.foldl collect s).registry.values = s.registry.values ∧
      (is.foldl collect s).flights = s.flights ∧
      ∀ c ∈ (is.foldl collect s).registry.callers, c ∈ s.registry.callers ∧
        (c.id ∈ is → s.registry.values.get? c.handle = none) := by
  induction is generalizing s with
  | nil => exact ⟨rfl, rfl, fun c hc => ⟨hc, by simp⟩⟩
  | cons i is ih =>
    obtain ⟨hv, hf, hc⟩ := collect_unserved h i
    obtain ⟨hvs, hfs, hcs⟩ := ih (h.collect i)
    refine ⟨hvs.trans hv, hfs.trans hf, fun c hmem => ?_⟩
    obtain ⟨hmem, hlater⟩ := hcs c hmem
    obtain ⟨hmem, hnow⟩ := hc c hmem
    refine ⟨hmem, fun hi => ?_⟩
    rcases List.mem_cons.1 hi with hi | hi
    · exact hnow hi
    · rw [← hv]
      exact hlater hi

theorem Settled.ofParts (settings : Settings) (capacity : Nat) (repository : Repository)
    (script : Script) : Settled (ofParts settings capacity repository script) := by
  constructor <;> intro c hc <;> cases hc

theorem Settled.ofProceed (h : Coherent ids s) : Settled s.proceed := by
  rw [proceed]
  have h₁ := takeOvers_coherent h (s.registry.callers.map Caller.id)
  have hunchosen : ∀ c ∈ ((s.registry.callers.map Caller.id).foldl takeOver s).registry.callers,
      c.stage ≠ .chosen := by
    intro c hc hch
    obtain ⟨hc, hi⟩ := takeOvers_chosen h _ hc hch
    exact hi (List.mem_map_of_mem hc)
  obtain ⟨hv, -, hcs⟩ := collects_unserved h₁ (List.map Caller.id
    ((s.registry.callers.map Caller.id).foldl takeOver s).registry.callers)
  constructor
  · exact fun c hc => hunchosen c (hcs c hc).1
  · intro c hc
    obtain ⟨hc, hnone⟩ := hcs c hc
    rw [hv]
    exact hnone (List.mem_map_of_mem hc)

theorem Coherent.act (h : Coherent ids s) (hn : (ids ++ [id]).Nodup) (a : Action) :
    Coherent (ids ++ [id]) (s.act id a) ∧ Settled (s.act id a) := by
  have hid : id ∉ ids := fun hi => List.disjoint_of_nodup_append hn hi (.head _)
  have hstart := h.start hid a
  exact ⟨(Leads.proceed _).stays_coherent hstart hn, .ofProceed hstart⟩

theorem proceed_flights (h : Coherent ids s) (hs : ∀ c ∈ s.registry.callers, c.stage ≠ .chosen) :
    s.proceed.flights = s.flights := by
  rw [proceed, takeOvers_eq hs]
  exact (collects_unserved h _).2.1

theorem land_flights (s : Resolver) (f : Flight) :
    (s.land f).flights = (s.withoutFlight f.id).flights := by
  rw [Resolver.land, resume]
  split
  · split <;> rfl
  · split <;> rfl
  · split
    · exact (fillAll_frame _ _).2.1
    · rfl

theorem land_registry (s : Resolver) {f : Flight} (hw : ∀ uid, f.work ≠ .fetch uid) :
    (s.land f).registry = s.registry := by
  rw [Resolver.land, resume]
  split
  · rename_i uid he
    exact absurd he (hw uid)
  · split <;> rfl
  · split
    · exact (fillAll_frame _ _).1
    · rfl

theorem land_unchosen (h : Coherent ids s) (hs : ∀ c ∈ s.registry.callers, c.stage ≠ .chosen)
    {f : Flight} (hf : f ∈ s.flights) :
    ∀ c ∈ (s.land f).registry.callers, c.stage ≠ .chosen := by
  have hshift := shift_land h hf
  generalize s.land f = s' at hshift
  intro c hc
  cases hshift with
  | idle hr => exact hs c (hr ▸ hc)
  | ended _ _ hr => exact hs c (hr ▸ hc)
  | fetched _ _ _ _ _ hr => exact hs c (complete_callers (hr ▸ hc))

theorem wake_settled (h : Coherent ids s) (hs : Settled s) :
    Settled s.wake ∧ (s.flights ≠ [] → s.wake.flights.length < s.flights.length) := by
  rw [wake]
  split
  · rename_i hnone
    exact ⟨hs, fun hne => absurd (Clock.eq_nil_of_soonest hnone) hne⟩
  · rename_i f hsome
    have hf := Clock.mem_of_soonest hsome
    have hnow : Coherent ids { s with now := max s.now f.due } :=
      ⟨h.history, h.indexed, h.callers, h.finished, h.flights, h.fetching⟩
    have hland := hnow.land hf
    refine ⟨.ofProceed hland, fun _ => ?_⟩
    rw [proceed_flights hland (land_unchosen hnow hs.unchosen hf), land_flights]
    exact List.length_filter_lt_length_iff_exists.2 ⟨f, hf, by simp⟩

theorem Settled.advanceFor (h : Coherent ids s) (hn : ids.Nodup) (hs : Settled s)
    (bound : Option Nat) (steps : Nat) : Settled (clock.advanceFor bound steps s) := by
  induction steps generalizing s with
  | zero => exact hs
  | succ steps ih =>
    rw [Clock.advanceFor]
    split
    · exact ih ((Leads.wake s).stays_coherent h hn) (wake_settled h hs).1
    · exact hs

theorem isDue_flights {bound : Option Nat} (h : clock.isDue bound s = true) : s.flights ≠ [] := by
  intro hf
  simp [Clock.isDue, clock, hf, Clock.soonest] at h

theorem advanceFor_flights_le (h : Coherent ids s) (hn : ids.Nodup) (hs : Settled s)
    (bound : Option Nat) (steps : Nat) :
    (clock.advanceFor bound steps s).flights.length ≤ s.flights.length := by
  induction steps generalizing s with
  | zero => exact Nat.le_refl _
  | succ steps ih =>
    rw [Clock.advanceFor]
    obtain ⟨hset, hless⟩ := wake_settled h hs
    split
    · rename_i hdue
      have hrest := ih ((Leads.wake s).stays_coherent h hn) hset
      have hfewer := hless (isDue_flights hdue)
      exact Nat.le_trans hrest (Nat.le_of_lt hfewer)
    · exact Nat.le_refl _

theorem isDue_none_iff : clock.isDue none s = true ↔ s.flights ≠ [] := by
  cases hd : Clock.soonest Flight.due s.flights with
  | none => simp [Clock.isDue, clock, Clock.soonest, Clock.eq_nil_of_soonest hd]
  | some f => simp [Clock.isDue, clock, hd, List.ne_nil_of_mem (Clock.mem_of_soonest hd)]

theorem drained (h : Coherent ids s) (hn : ids.Nodup) (hs : Settled s) {steps : Nat}
    (hl : s.flights.length ≤ steps) : (clock.advanceFor none steps s).flights = [] := by
  induction steps generalizing s with
  | zero => exact List.length_eq_zero_iff.1 (Nat.le_zero.1 hl)
  | succ steps ih =>
    rw [Clock.advanceFor]
    obtain ⟨hset, hless⟩ := wake_settled h hs
    split
    · rename_i hdue
      have hfewer := hless (isDue_none_iff.1 hdue)
      exact ih ((Leads.wake s).stays_coherent h hn) hset
        (Nat.le_of_lt_succ (Nat.lt_of_lt_of_le hfewer hl))
    · rename_i hdue
      by_contra hne
      exact hdue (isDue_none_iff.2 hne)

theorem Settled.play (h : Coherent ids s) (hs : Settled s) {events : List Event}
    (hn : (ids ++ events.map Event.id).Nodup) : Settled (s.play events) := by
  induction events generalizing ids s with
  | nil => exact hs
  | cons e events ih =>
    rw [List.map_cons, List.append_cons] at hn
    have hids := (List.nodup_append.1 hn).1
    have hwait := (Leads.wait s e.time).stays_coherent h (List.nodup_append.1 hids).1
    obtain ⟨hact, hsettled⟩ := hwait.act hids e.action
    apply ih _ _ hn
    · exact (Leads.advanceFor _ _ _).stays_coherent hact hids
    · exact Settled.advanceFor hact hids hsettled _ _

theorem callers_eq_nil (h : Coherent ids s) (hm : Manned s) (hs : Settled s)
    (hf : s.flights = []) : s.registry.callers = [] := by
  refine List.eq_nil_iff_forall_not_mem.2 fun c hcm => ?_
  obtain ⟨d, hd, -, hds⟩ := h.sound.owned hcm (hs.unserved c hcm)
  have hlead : d.stage = .leading := by
    cases hst : d.stage with
    | waiting => exact absurd hst hds
    | chosen => exact absurd hst (hs.unchosen d hd)
    | leading => rfl
  obtain ⟨f, hmem, -⟩ := hm.led d hd hlead
  rw [hf] at hmem
  cases hmem

theorem Leads.manned (hl : Leads s l s') (h : Coherent ids s) (hm : Manned s)
    (hn : (ids ++ l.map Prod.fst).Nodup) : Manned s' := by
  obtain ⟨ms, rfl, rfl⟩ := hl
  rw [← started_eq] at hn
  exact hm.run h hn

theorem drain_rests (h : Coherent ids s) (hm : Manned s) (hn : ids.Nodup) (hs : Settled s) :
    (clock.drain s).flights = [] ∧ (clock.drain s).registry.callers = [] := by
  have hend : Leads s [] (clock.drain s) := Leads.advanceFor none _ _
  have hflights : (clock.drain s).flights = [] := drained h hn hs (Nat.le_refl _)
  exact ⟨hflights, callers_eq_nil (hend.stays_coherent h hn)
    (hend.manned h hm (by simpa using hn)) (hs.advanceFor h hn _ _) hflights⟩

theorem complete_at_rest {settings : Settings} {capacity : Nat} {repository : Repository}
    {script : Script} {events : List Event} (hs : s = ofParts settings capacity repository script)
    (hn : (events.map Event.id).Nodup) :
    (s.complete events).flights = [] ∧ (s.complete events).registry.callers = [] := by
  have h₀ : Coherent [] s := hs ▸ .ofParts ..
  have hm₀ : Manned s := hs ▸ .ofParts ..
  have hset₀ : Settled s := hs ▸ .ofParts ..
  have hids : ([] ++ (events.map fun e : Event => (e.id, e.action)).map Prod.fst).Nodup := by
    simpa [Function.comp_def] using hn
  have hplay : Coherent (events.map Event.id) (s.play events) := by
    simpa [Function.comp_def] using (Leads.play s events).coherent h₀ hids
  exact drain_rests hplay ((Leads.play s events).manned h₀ hm₀ hids) hn
    (Settled.play h₀ hset₀ (by simpa using hn))

/-- Whether a lookup waits for its answer or has returned with one. -/
def Accounted (s : Resolver) (id : Nat) : Prop :=
  (∃ c ∈ s.registry.callers, c.id = id) ∨ ∃ t r, ⟨id, t, .found r⟩ ∈ s.finished

theorem lead_finished (s : Resolver) (id : Nat) (uid : String) :
    s.finished ⊆ (s.lead id uid).finished := by
  rw [lead]
  split
  · exact List.subset_append_left _ _
  · exact List.Subset.refl _

theorem start_finished (s : Resolver) (id : Nat) (a : Action) :
    s.finished ⊆ (s.start id a).finished := by
  cases a with
  | get k =>
    rw [start, Resolver.get]
    split
    · exact List.subset_append_left _ _
    · split
      · exact List.subset_append_left _ _
      · exact List.Subset.refl _
      · exact fun f hf => lead_finished _ _ _ hf
  | store o =>
    rw [start]
    split <;> exact List.subset_append_left _ _
  | create o => exact List.Subset.refl _
  | refresh => exact List.Subset.refl _
  | abort target => exact List.Subset.refl _
  | _ => exact List.subset_append_left _ _

theorem fillAll_finished (s : Resolver) (l : List Order) :
    (l.foldl (fun s o => s.fillCache o.uid o) s).finished = s.finished := by
  induction l generalizing s with
  | nil => rfl
  | cons o l ih => exact ih (s.fillCache o.uid o)

theorem fillAll_now (s : Resolver) (l : List Order) :
    (l.foldl (fun s o => s.fillCache o.uid o) s).now = s.now := by
  induction l generalizing s with
  | nil => rfl
  | cons o l ih => exact ih (s.fillCache o.uid o)

theorem land_finished (s : Resolver) (f : Flight) : s.finished ⊆ (s.land f).finished := by
  rw [Resolver.land, resume]
  split
  · split <;> exact List.subset_append_left _ _
  · split <;> exact List.subset_append_left _ _
  · split
    · rw [finish, fillAll_finished]
      exact List.subset_append_left _ _
    · exact List.subset_append_left _ _

theorem finished_move (s : Resolver) (m : Move) : s.finished ⊆ (s.move m).finished := by
  cases m with
  | start i a => exact start_finished s i a
  | land f =>
    rw [move]
    split
    · exact land_finished s f
    · exact List.Subset.refl _
  | takeOver i =>
    rw [move, Resolver.takeOver]
    split
    · exact List.Subset.refl _
    · split
      · exact lead_finished { s with registry := s.registry.start i } i _
      · exact List.Subset.refl _
  | collect i =>
    rw [move, Resolver.collect]
    split
    · exact List.Subset.refl _
    · exact List.subset_append_left _ _
  | wait time => exact List.Subset.refl _

namespace Accounted

theorem step (h : Coherent ids s) (ha : Accounted s id)
    {m : Inflight.Move (Except OrderError Order)}
    (hs : Registry.Step s.registry m s'.registry) (hf : s.finished ⊆ s'.finished)
    (hd : m ≠ .drop id)
    (hr : ∀ v, m.returned = some (id, v) → ∃ t r, ⟨id, t, .found r⟩ ∈ s'.finished) :
    Accounted s' id := by
  rcases ha with ⟨c, hc, rfl⟩ | ⟨t, r, hmem⟩
  · rcases hs.caller_future h.sound hc with ⟨d, hdm, hi, -⟩ | hm | ⟨v, hm⟩
    · exact Or.inl ⟨d, hdm, hi⟩
    · exact absurd hm hd
    · exact Or.inr (hr v hm)
  · exact Or.inr ⟨t, r, hf hmem⟩

theorem move (h : Coherent ids s) (ha : Accounted s id) (hn : (ids ++ m.started).Nodup)
    (hd : ∀ i, m ≠ .start i (.abort id)) : Accounted (s.move m) id := by
  have hshift := shift_move h hn
  have hf := finished_move s m
  generalize s.move m = s' at hshift hf
  have hquiet : s'.registry = s.registry → Accounted s' id := by
    intro hr
    rcases ha with ⟨c, hc, hi⟩ | ⟨t, r, hmem⟩
    · exact Or.inl ⟨c, hr ▸ hc, hi⟩
    · exact Or.inr ⟨t, r, hf hmem⟩
  cases hshift with
  | idle hr => exact hquiet hr
  | launched _ hr => exact hquiet hr
  | ended _ _ hr => exact hquiet hr
  | @joined i k hid _ _ hr =>
    have hst : Registry.Step s.registry (.join i k) s'.registry := hr ▸ .join k hid
    exact ha.step h hst hf (by simp) (by simp [Inflight.Move.returned])
  | @asked i k p hid _ _ hr =>
    have hst : Registry.Step s.registry (.join i k) s'.registry := hr ▸ .join k hid
    exact ha.step h hst hf (by simp) (by simp [Inflight.Move.returned])
  | @fetched f c r _ _ hc _ hl hr _ _ hfin =>
    have hst : Registry.Step s.registry (.complete c.id r) s'.registry :=
      hr ▸ h.completes hc hl r
    refine ha.step h hst hf (by simp) fun v hv => ?_
    obtain ⟨hi, -⟩ := Prod.mk.inj (Option.some.inj hv)
    exact ⟨_, r, hi ▸ hfin⟩
  | @found c o hc hch _ hr _ _ hfin =>
    have hstart : Accounted { s with registry := s.registry.start c.id } id :=
      ha.step h (h.starts hc hch) (List.Subset.refl _) (by simp)
        (by simp [Inflight.Move.returned])
    have hst : Registry.Step (s.registry.start c.id) (.complete c.id (.ok o)) s'.registry :=
      hr ▸ h.finds hc hch _
    refine hstart.step (h.started hc hch) hst hf (by simp) fun v hv => ?_
    obtain ⟨hi, -⟩ := Prod.mk.inj (Option.some.inj hv)
    exact ⟨_, _, hi ▸ hfin⟩
  | @resumed c p hc hch _ hr =>
    have hst : Registry.Step s.registry (.start c.id) s'.registry := hr ▸ h.starts hc hch
    exact ha.step h hst hf (by simp) (by simp [Inflight.Move.returned])
  | @collected c r hc hv hr _ _ hfin =>
    have hst : Registry.Step s.registry (.collect c.id r) s'.registry := hr ▸ h.collects hc hv
    refine ha.step h hst hf (by simp) fun v hv => ?_
    obtain ⟨hi, -⟩ := Prod.mk.inj (Option.some.inj hv)
    exact ⟨_, r, hi ▸ hfin⟩
  | @dropped i target hr =>
    have hst : Registry.Step s.registry (.drop target) s'.registry :=
      hr ▸ Inflight.Registry.drop_step _ target
    refine ha.step h hst hf ?_ (by simp [Inflight.Move.returned])
    exact fun hm => hd i (by rw [Inflight.Move.drop.inj hm])

theorem run (h : Coherent ids s) (ha : Accounted s id) (hn : (ids ++ started ms).Nodup)
    (hd : ∀ i, .start i (.abort id) ∉ ms) : Accounted (s.run ms) id :=
  h.run_induction (P := fun s => Accounted s id) hn ha fun _ _ _ he hb hn' ha =>
    ha.move hb hn' fun i hm => hd i (by simp [he, hm])

theorem ofGet (h : Coherent ids s) (id : Nat) (uid : String) : Accounted (s.get id uid) id := by
  rw [get_eq h.sound]
  split
  · exact Or.inr ⟨_, _, List.mem_append_right _ (.head _)⟩
  · have hjoin := h.sound.exists_of_join id uid
    dsimp only
    split
    · exact Or.inl hjoin
    · exact Or.inl hjoin

end Accounted

theorem started_of_operations {events : List Event}
    (h : operations ms = events.map fun e => (e.id, e.action)) :
    started ms = events.map Event.id := by
  rw [started_eq, h, List.map_map]
  rfl

theorem started_eq_nil (hops : operations ms = []) : started ms = [] := by
  rw [started_eq, hops, List.map_nil]

theorem mem_operations {a : Action} (h : .start id a ∈ ms) : (id, a) ∈ operations ms :=
  List.mem_filterMap.2 ⟨_, h, rfl⟩

theorem not_mem_of_operations (hops : operations ms = []) (i : Nat) (a : Action) :
    .start i a ∉ ms := by
  intro hi
  have hop := mem_operations hi
  rw [hops] at hop
  cases hop

theorem get_answered (h : Coherent ids s) (hn : (ids ++ id :: started ms).Nodup)
    (hd : ∀ i, .start i (.abort id) ∉ ms)
    (hc : (s.run (.start id (.get uid) :: ms)).registry.callers = []) :
    ∃ t r, ⟨id, t, .found r⟩ ∈ (s.run (.start id (.get uid) :: ms)).finished := by
  have hids : (ids ++ [id] ++ started ms).Nodup := by simpa using hn
  have hid : id ∉ ids := fun hi => List.disjoint_of_nodup_append hn hi (.head _)
  have hstart : Coherent (ids ++ [id]) (s.start id (.get uid)) := h.start hid _
  rcases (Accounted.ofGet h id uid).run hstart hids hd with ⟨c, hcm, -⟩ | hfin
  · rw [run_cons] at hc
    exact absurd hcm (hc ▸ List.not_mem_nil)
  · exact hfin

theorem get_finishes {settings : Settings} {capacity : Nat} {repository : Repository}
    {script : Script} {past rest : List Event} {e : Event}
    (hs : s = ofParts settings capacity repository script)
    (hn : ((past ++ e :: rest).map Event.id).Nodup) (hg : e.action = .get uid)
    (hd : ∀ d ∈ rest, d.action ≠ .abort e.id) :
    ∃ t r, ⟨e.id, t, .found r⟩ ∈ (s.complete (past ++ e :: rest)).finished := by
  have h₀ : Coherent [] s := hs ▸ .ofParts ..
  have hrest := (complete_at_rest hs hn).2
  obtain ⟨before, wait, after, -, hrun, hb, hw, ha⟩ := complete_around s past rest e
  have hwait : started wait = [] := started_eq_nil hw
  have hids : started (before ++ wait) = past.map Event.id := by
    rw [started_append, started_of_operations hb, hwait, List.append_nil]
  rw [List.map_append, List.map_cons, ← hids, ← started_of_operations ha] at hn
  have hbefore : Coherent (started (before ++ wait)) (s.run (before ++ wait)) :=
    h₀.run (List.nodup_append.1 hn).1
  rw [hrun, run_append, hg] at hrest ⊢
  refine get_answered hbefore hn (fun i hm => ?_) hrest
  have hop := mem_operations hm
  rw [ha] at hop
  obtain ⟨d, hdm, hde⟩ := List.mem_map.1 hop
  exact hd d hdm (Prod.mk.inj hde).2

end OrderLookup.Resolver
