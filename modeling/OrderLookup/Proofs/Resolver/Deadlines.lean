import OrderLookup.Proofs.Resolver.Effects
import OrderLookup.Proofs.Resolver.Idling

/-!
Store calls end when they are due. On a timeline no call in flight is ever overdue, so the next one
to end does so at its instant: when it has taken its time, or when its time is up. The operation
that has waited for it is answered at that instant, with what the store then makes of the call or
with a timeout; and an operation that has been dropped by then is not answered at all.
-/

namespace OrderLookup.Resolver

def Punctual (s : Resolver) : Prop := ∀ f ∈ s.flights, s.now ≤ f.due

/-- What holds between two events of a timeline that has begun the operations `ids`. -/
structure Timed (ids : List Nat) (s : Resolver) : Prop extends Quiet ids s where
  manned : Manned s
  single : Single s
  punctual : Punctual s

def Lands (s : Resolver) (f : Flight) (l : List (Nat × Action)) (s' : Resolver) : Prop :=
  ∃ before after, operations (before ++ after) = l ∧ s.run (before ++ .land f :: after) = s' ∧
    f ∈ (s.run before).flights ∧ (s.run before).now = f.due

/-- Whether a store call has ended in time on the way, or is still in flight. -/
def Carries (s : Resolver) (f : Flight) (l : List (Nat × Action)) (s' : Resolver) : Prop :=
  Lands s f l s' ∨ Leads s l s' ∧ f ∈ s'.flights

variable {s s' s'' : Resolver} {m : Move} {ids : List Nat} {id t : Nat} {a : Action} {f g : Flight}
  {l l' : List (Nat × Action)} {e : Event} {events : List Event} {work : Work}

namespace Lands

theorem after (h : Lands s f l s') (hl : Leads s' l' s'') : Lands s f (l ++ l') s'' := by
  obtain ⟨before, after, rfl, rfl, hf, hdue⟩ := h
  obtain ⟨ms, rfl, rfl⟩ := hl
  refine ⟨before, after ++ ms, ?_, ?_, hf, hdue⟩
  · rw [← List.append_assoc]
    exact List.filterMap_append
  · rw [← run_append, List.append_assoc, List.cons_append]

theorem before (hl : Leads s l s') (h : Lands s' f l' s'') : Lands s f (l ++ l') s'' := by
  obtain ⟨before, after, rfl, rfl, hf, hdue⟩ := h
  obtain ⟨ms, rfl, rfl⟩ := hl
  rw [← run_append] at hf hdue ⊢
  refine ⟨ms ++ before, after, ?_, by rw [List.append_assoc], hf, hdue⟩
  rw [List.append_assoc]
  exact List.filterMap_append

end Lands

theorem Carries.trans (h : Carries s f l s') (hl : Leads s' l' s'')
    (hf : f ∈ s'.flights → Carries s' f l' s'') : Carries s f (l ++ l') s'' := by
  rcases h with hlands | ⟨hleads, hmem⟩
  · exact .inl (hlands.after hl)
  · exact (hf hmem).imp (.before hleads) fun hend => ⟨hleads.trans hend.1, hend.2⟩

theorem stays_move (h : Coherent ids s) (hn : (ids ++ m.started).Nodup) (hf : f ∈ s.flights)
    (hl : ∀ g, m = .land g → g.id ≠ f.id) (ha : ∀ i, m ≠ .start i (.abort f.id)) :
    f ∈ (s.move m).flights := by
  rcases (shift_move h hn).flights_future hf with hf | ⟨g, -, hm, hi⟩ | ⟨i, hm⟩
  · exact hf
  · exact absurd hi (hl g hm)
  · exact absurd hm (ha i)

theorem lead_now (s : Resolver) (id : Nat) (uid : String) : (s.lead id uid).now = s.now := by
  rw [lead]
  split <;> rfl

theorem move_now (s : Resolver) (hm : ∀ t, m ≠ .wait t) : (s.move m).now = s.now := by
  cases m with
  | start id a =>
    cases a with
    | get uid =>
      rw [move, start, Resolver.get]
      split
      · rfl
      · split
        · rfl
        · rfl
        · exact lead_now _ id uid
    | store o =>
      rw [move, start]
      split <;> rfl
    | _ => rfl
  | land f =>
    rw [move]
    split
    · rw [land, resume]
      split
      · split <;> rfl
      · split <;> rfl
      · split
        · exact fillAll_now _ _
        · rfl
    · rfl
  | takeOver id =>
    rw [move, takeOver]
    split
    · rfl
    · split
      · exact lead_now _ id _
      · rfl
  | collect id =>
    rw [move, collect]
    split <;> rfl
  | wait t => exact absurd rfl (hm t)

theorem now_le_due (s : Resolver) (id : Nat) (work : Work) : s.now ≤ (s.flightFor id work).due :=
  Nat.le_add_right _ _

theorem Punctual.move (hp : Punctual s) (h : Coherent ids s) (hm : ∀ t, m ≠ .wait t) :
    Punctual (s.move m) := by
  intro f hf
  rw [move_now s hm]
  rcases flights_move h m hf with hf | ⟨hnew, -⟩
  · exact hp f hf
  · rw [hnew]
    exact now_le_due s _ _

theorem proceed_induction {P : Resolver → Prop} (htake : ∀ s i, P s → P (s.move (.takeOver i)))
    (hcollect : ∀ s i, P s → P (s.move (.collect i))) (h : P s) : P s.proceed := by
  have hfold : ∀ (step : Resolver → Nat → Resolver), (∀ s i, P s → P (step s i)) →
      ∀ (is : List Nat) (s : Resolver), P s → P (is.foldl step s) := by
    intro step hstep is
    induction is with
    | nil => exact fun s hs => hs
    | cons i is ih => exact fun s hs => ih _ (hstep s i hs)
  exact hfold collect hcollect _ _ (hfold takeOver htake _ s h)

theorem proceed_now (s : Resolver) : s.proceed.now = s.now := by
  refine proceed_induction (P := fun s' => s'.now = s.now)
    (fun s' i hs => ?_) (fun s' i hs => ?_) rfl
  · rw [move_now s' (by simp), hs]
  · rw [move_now s' (by simp), hs]

theorem proceed_keeps (h : Coherent ids s) (hn : ids.Nodup) (hp : Punctual s) :
    Punctual s.proceed ∧ s.flights ⊆ s.proceed.flights := by
  have hn' : (ids ++ []).Nodup := by rwa [List.append_nil]
  have hkeeps : Coherent ids s.proceed ∧ Punctual s.proceed ∧ s.flights ⊆ s.proceed.flights := by
    refine proceed_induction
      (P := fun s' => Coherent ids s' ∧ Punctual s' ∧ s.flights ⊆ s'.flights) ?_ ?_
      ⟨h, hp, List.Subset.refl _⟩
    · rintro s' i ⟨hc, hp, hf⟩
      exact ⟨hc.takeOver i, hp.move hc (by simp),
        fun f hmem => stays_move hc hn' (hf hmem) (by simp) (by simp)⟩
    · rintro s' i ⟨hc, hp, hf⟩
      exact ⟨hc.collect i, hp.move hc (by simp),
        fun f hmem => stays_move hc hn' (hf hmem) (by simp) (by simp)⟩
  exact hkeeps.2

theorem wake_eq (hg : Clock.soonest Flight.due s.flights = some g) :
    s.wake = ((s.move (.wait g.due)).move (.land g)).proceed := by
  have hland : (s.move (.wait g.due)).move (.land g) = (s.move (.wait g.due)).land g :=
    if_pos (Clock.mem_of_soonest hg)
  rw [wake, hg, hland]
  rfl

namespace Timed

theorem ofParts (settings : Settings) (capacity : Nat) (repository : Repository)
    (script : Script) : Timed [] (ofParts settings capacity repository script) where
  toQuiet := .ofParts ..
  manned := .ofParts ..
  single := .ofParts ..
  punctual f hf := by cases hf

theorem ofLeads (h : Timed ids s) (hl : Leads s l s') (hn : (ids ++ l.map Prod.fst).Nodup)
    (hs : Settled s') (hp : Punctual s') : Timed (ids ++ l.map Prod.fst) s' where
  coherent := hl.coherent h.coherent hn
  nodup := hn
  settled := hs
  manned := hl.manned h.coherent h.manned hn
  single := h.single.ofLeads h.coherent h.manned hl hn
  punctual := hp

theorem ofQuiet (h : Timed ids s) (hl : Leads s [] s') (hs : Settled s') (hp : Punctual s') :
    Timed ids s' := by
  simpa using h.ofLeads hl (by simpa using h.nodup) hs hp

theorem awaits (h : Timed ids s) (hg : Clock.soonest Flight.due s.flights = some g) :
    (s.move (.wait g.due)).now = g.due ∧ Coherent ids (s.move (.wait g.due)) ∧
      Coherent ids ((s.move (.wait g.due)).move (.land g)) ∧
      Punctual ((s.move (.wait g.due)).move (.land g)) := by
  have hnow : max s.now g.due = g.due := Nat.max_eq_right (h.punctual g (Clock.mem_of_soonest hg))
  have hwait : Coherent ids (s.move (.wait g.due)) :=
    (Leads.move (.wait g.due)).stays_coherent h.coherent h.nodup
  have hp : Punctual (s.move (.wait g.due)) := fun f hf =>
    Nat.le_trans (Nat.le_of_eq hnow) (Clock.soonest_le hg hf)
  exact ⟨hnow, hwait, (Leads.move (.land g)).stays_coherent hwait h.nodup,
    hp.move hwait (by simp)⟩

theorem wake (h : Timed ids s) : Timed ids s.wake := by
  refine h.ofQuiet (Leads.wake s) (wake_settled h.coherent h.settled).1 ?_
  cases hg : Clock.soonest Flight.due s.flights with
  | none =>
    have hstill : s.wake = s := by rw [Resolver.wake, hg]
    rw [hstill]
    exact h.punctual
  | some g =>
    obtain ⟨-, -, hland, hp⟩ := h.awaits hg
    rw [wake_eq hg]
    exact (proceed_keeps hland h.nodup hp).1

theorem stays_wake (h : Timed ids s) (hg : Clock.soonest Flight.due s.flights = some g)
    (hf : f ∈ s.flights) (hne : g.id ≠ f.id) : f ∈ s.wake.flights := by
  obtain ⟨-, hwait, hland, hp⟩ := h.awaits hg
  have hstays : f ∈ ((s.move (.wait g.due)).move (.land g)).flights :=
    stays_move hwait (by simpa [Move.started] using h.nodup) hf
      (fun g' hg' => Move.land.inj hg' ▸ hne) (by simp)
  rw [wake_eq hg]
  exact (proceed_keeps hland h.nodup hp).2 hstays

theorem carries_wake (h : Timed ids s) (hf : f ∈ s.flights) : Carries s f [] s.wake := by
  cases hg : Clock.soonest Flight.due s.flights with
  | none =>
    rw [Clock.eq_nil_of_soonest hg] at hf
    cases hf
  | some g =>
    by_cases hi : g.id = f.id
    · have hmem := Clock.mem_of_soonest hg
      have hsame : g = f := List.inj_on_of_nodup_map h.manned.ids hmem hf hi
      subst hsame
      obtain ⟨ms, hops, hrun⟩ := Leads.proceed ((s.move (.wait g.due)).move (.land g))
      refine .inl ⟨[.wait g.due], ms, hops, ?_, hf, (h.awaits hg).1⟩
      rw [wake_eq hg, ← hrun]
      rfl
    · exact .inr ⟨Leads.wake s, h.stays_wake hg hf hi⟩

theorem advanceFor (h : Timed ids s) (bound : Option Nat) (steps : Nat) :
    Timed ids (clock.advanceFor bound steps s) :=
  clock.advanceFor_induction (fun _ hs => hs.wake) bound steps h

theorem carries_advanceFor (h : Timed ids s) (hf : f ∈ s.flights) (bound : Option Nat)
    (steps : Nat) : Carries s f [] (clock.advanceFor bound steps s) := by
  have hkeeps : Timed ids (clock.advanceFor bound steps s) ∧
      Carries s f [] (clock.advanceFor bound steps s) := by
    refine clock.advanceFor_induction (P := fun s' => Timed ids s' ∧ Carries s f [] s') ?_ bound
      steps ⟨h, .inr ⟨.refl s, hf⟩⟩
    rintro s' ⟨hs, hc⟩
    exact ⟨hs.wake, hc.trans (Leads.wake s') hs.carries_wake⟩
  exact hkeeps.2

theorem stays_advanceFor (h : Timed ids s) (hf : f ∈ s.flights) (ht : t < f.due) (steps : Nat) :
    f ∈ (clock.advanceFor (some t) steps s).flights := by
  induction steps generalizing s with
  | zero => exact hf
  | succ steps ih =>
    rw [Clock.advanceFor]
    split
    · rename_i hdue
      apply ih h.wake
      cases hg : Clock.soonest Flight.due s.flights with
      | none =>
        rw [Clock.eq_nil_of_soonest hg] at hf
        cases hf
      | some g =>
        have hearly : g.due ≤ t := by simpa [Clock.isDue, clock, hg] using hdue
        refine h.stays_wake hg hf fun hi => ?_
        have hmem := Clock.mem_of_soonest hg
        rw [List.inj_on_of_nodup_map h.manned.ids hmem hf hi] at hearly
        omega
    · exact hf

theorem due_later (h : Timed ids s) (hf : f ∈ (s.idle t).flights) : t < f.due := by
  have hdue := h.isDue_idle t
  cases hg : Clock.soonest Flight.due (s.idle t).flights with
  | none =>
    rw [Clock.eq_nil_of_soonest hg] at hf
    cases hf
  | some g =>
    have hlater : t < g.due := by simpa [Clock.isDue, clock, hg] using hdue
    exact Nat.lt_of_lt_of_le hlater (Clock.soonest_le hg hf)

theorem idle (h : Timed ids s) (t : Nat) : Timed ids (s.idle t) := by
  have hadvance : Timed ids (clock.advance t s) := h.advanceFor _ _
  refine h.ofQuiet (Leads.wait s t) (h.toQuiet.idle t).settled fun f hf => ?_
  exact Nat.max_le.2 ⟨hadvance.punctual f hf, Nat.le_of_lt (h.due_later hf)⟩

theorem carries_idle (h : Timed ids s) (hf : f ∈ s.flights) (t : Nat) :
    Carries s f [] (s.idle t) :=
  (h.carries_advanceFor hf (some t) _).trans (Leads.move (.wait t))
    fun hf => .inr ⟨Leads.move (.wait t), hf⟩

theorem act (h : Timed ids s) (hn : (ids ++ [id]).Nodup) (a : Action) :
    Timed (ids ++ [id]) (s.act id a) := by
  have hid : id ∉ ids := fun hi => List.disjoint_of_nodup_append hn hi (.head _)
  have hstart := h.coherent.start hid a
  have hp : Punctual (s.start id a) := h.punctual.move (m := .start id a) h.coherent (by simp)
  exact h.ofLeads (Leads.act s id a) hn (h.coherent.act hn a).2 (proceed_keeps hstart hn hp).1

theorem stays_act (h : Timed ids s) (hn : (ids ++ [id]).Nodup)
    (hf : f ∈ (s.start id a).flights) : f ∈ (s.act id a).flights := by
  have hid : id ∉ ids := fun hi => List.disjoint_of_nodup_append hn hi (.head _)
  have hp : Punctual (s.start id a) := h.punctual.move (m := .start id a) h.coherent (by simp)
  exact (proceed_keeps (h.coherent.start hid a) hn hp).2 hf

theorem step (h : Timed ids s) (hn : (ids ++ [e.id]).Nodup) : Timed (ids ++ [e.id]) (s.step e) :=
  ((h.idle e.time).act hn e.action).advanceFor _ _

theorem play (h : Timed ids s) (hn : (ids ++ events.map Event.id).Nodup) :
    Timed (ids ++ events.map Event.id) (s.play events) := by
  induction events generalizing ids s with
  | nil => simpa [Resolver.play] using h
  | cons e events ih =>
    rw [List.map_cons, List.append_cons] at hn ⊢
    exact ih (h.step (List.nodup_append.1 hn).1) hn

theorem spares_act (h : Timed ids s) (hn : (ids ++ [id]).Nodup) (hf : f ∈ s.flights)
    (ha : a ≠ .abort f.id) : f ∈ (s.act id a).flights := by
  apply h.stays_act hn
  exact stays_move (m := .start id a) h.coherent hn hf (by simp)
    fun i hm => ha (Move.start.inj hm).2

theorem carries_step (h : Timed ids s) (hn : (ids ++ [e.id]).Nodup) (hf : f ∈ s.flights)
    (ha : e.action = .abort f.id → f.due ≤ e.time) :
    Carries s f [(e.id, e.action)] (s.step e) := by
  have hidle := h.idle e.time
  have hlater : Leads ((s.idle e.time).act e.id e.action) [] (s.step e) :=
    Leads.advanceFor (some e.time) _ _
  refine (h.carries_idle hf e.time).trans ((Leads.act _ e.id e.action).trans hlater) fun hf => ?_
  have hact : f ∈ ((s.idle e.time).act e.id e.action).flights :=
    hidle.spares_act hn hf fun hdrop => Nat.not_lt.2 (ha hdrop) (h.due_later hf)
  exact Carries.trans (.inr ⟨Leads.act _ e.id e.action, hact⟩) hlater
    fun hf => (hidle.act hn e.action).carries_advanceFor hf _ _

theorem lands (h : Timed ids s) (hn : (ids ++ events.map Event.id).Nodup) (hf : f ∈ s.flights)
    (ha : ∀ e ∈ events, e.action = .abort f.id → f.due ≤ e.time) :
    Lands s f (events.map fun e => (e.id, e.action)) (s.complete events) := by
  induction events generalizing ids s with
  | nil =>
    rcases h.carries_advanceFor hf none (clock.load s) with hlands | ⟨-, hmem⟩
    · exact hlands
    · have hnone : (clock.drain s).flights = [] :=
        drained h.coherent h.nodup h.settled (Nat.le_refl _)
      change f ∈ (clock.drain s).flights at hmem
      rw [hnone] at hmem
      cases hmem
  | cons e events ih =>
    rw [List.map_cons, List.append_cons] at hn
    have hn' := (List.nodup_append.1 hn).1
    have hrest : Leads (s.step e) (events.map fun e => (e.id, e.action))
        (s.complete (e :: events)) :=
      Leads.complete (s.step e) events
    rcases h.carries_step hn' hf (ha e (.head _)) with hlands | ⟨hleads, hmem⟩
    · exact hlands.after hrest
    · exact .before hleads (ih (h.step hn') hn hmem fun d hd => ha d (.tail _ hd))

theorem abandons (h : Timed ids s) (hn : (ids ++ events.map Event.id).Nodup) (hf : f ∈ s.flights)
    (ht : events.Pairwise fun d e => d.time ≤ e.time)
    (ha : ∃ e ∈ events, e.action = .abort f.id ∧ e.time < f.due) :
    ∀ g ∈ (s.complete events).finished, g.id ≠ f.id := by
  induction events generalizing ids s with
  | nil =>
    obtain ⟨e, he, -⟩ := ha
    cases he
  | cons e events ih =>
    rw [List.map_cons, List.append_cons] at hn
    have hn' := (List.nodup_append.1 hn).1
    obtain ⟨hlater, ht'⟩ := List.pairwise_cons.1 ht
    obtain ⟨d, hd, hda, hdue⟩ := ha
    have hearly : e.time < f.due := by
      rcases List.mem_cons.1 hd with rfl | hd
      · exact hdue
      · exact Nat.lt_of_le_of_lt (hlater d hd) hdue
    have hidle := h.idle e.time
    have hmem : f ∈ (s.idle e.time).flights := h.stays_advanceFor hf hearly _
    by_cases hdrop : e.action = .abort f.id
    · have hid : e.id ∉ ids := fun hi => List.disjoint_of_nodup_append hn' hi (.head _)
      have hrest : Leads ((s.idle e.time).start e.id e.action)
          (events.map fun e => (e.id, e.action)) (s.complete (e :: events)) :=
        (Leads.proceed _).trans ((Leads.advanceFor (some e.time) _ _).trans
          (Leads.complete (s.step e) events))
      obtain ⟨ms, hops, hrun⟩ := hrest
      have hmanned : Manned ((s.idle e.time).start e.id e.action) :=
        (Leads.move (.start e.id e.action)).manned hidle.coherent hidle.manned hn'
      have hgone := gone_run (hidle.coherent.start hid e.action) hmanned
        (List.mem_append_left _ (hidle.coherent.flights f hmem))
        (hdrop ▸ not_underWay_abort _ f.id) (by rwa [started_of_operations hops])
      intro g hg hi
      rw [← hrun] at hg
      have hold := hgone.2 g hg hi
      rw [hdrop] at hold
      exact hidle.single.settled g hold (.inr ⟨f, hmem, hi.symm⟩)
    · have hact : f ∈ ((s.idle e.time).act e.id e.action).flights :=
        hidle.spares_act hn' hmem hdrop
      have hstep : f ∈ (s.step e).flights :=
        (hidle.act hn' e.action).stays_advanceFor hact hearly _
      refine ih (h.step hn') hn hstep ht' ⟨d, ?_, hda, hdue⟩
      rcases List.mem_cons.1 hd with rfl | hd
      · exact absurd hda hdrop
      · exact hd

end Timed

theorem now_wake_le (h : s.now ≤ t) (hdue : clock.isDue (some t) s = true) : s.wake.now ≤ t := by
  cases hg : Clock.soonest Flight.due s.flights with
  | none =>
    rw [wake, hg]
    exact h
  | some g =>
    have hearly : g.due ≤ t := by simpa [Clock.isDue, clock, hg] using hdue
    rw [wake_eq hg, proceed_now, move_now _ (by simp)]
    exact Nat.max_le.2 ⟨h, hearly⟩

theorem now_advanceFor_le {u : Nat} (hu : u ≤ t) (h : s.now ≤ t) (steps : Nat) :
    (clock.advanceFor (some u) steps s).now ≤ t := by
  induction steps generalizing s with
  | zero => exact h
  | succ steps ih =>
    rw [Clock.advanceFor]
    split
    · rename_i hdue
      refine ih (now_wake_le h (Clock.isDue_of_le (fun v hv => ?_) hdue))
      exact Option.some.inj hv ▸ hu
    · exact h

theorem now_idle (h : s.now ≤ t) : (s.idle t).now = t :=
  Nat.max_eq_right (now_advanceFor_le (Nat.le_refl t) h _)

theorem now_play_le (he : ∀ e ∈ events, e.time ≤ t) (h : s.now ≤ t) : (s.play events).now ≤ t := by
  induction events generalizing s with
  | nil => exact h
  | cons e events ih =>
    have ht := he e (.head _)
    refine ih (s := s.step e) (fun d hd => he d (.tail _ hd)) (now_advanceFor_le ht ?_ _)
    rw [act, proceed_now]
    change ((s.idle e.time).move (.start e.id e.action)).now ≤ t
    rw [move_now _ (by simp)]
    exact Nat.max_le.2 ⟨now_advanceFor_le ht h _, ht⟩

/-- Whether an operation begins with a store call. A lookup does if it misses and is to lead. -/
def Begins (s : Resolver) (id : Nat) : Action → Work → Prop
  | .get uid, work =>
    work = .fetch uid ∧ s.cache.peek uid = none ∧ (s.registry.join id uid).1 = .lead
  | .create o, work => work = .save o
  | .refresh, work => work = .refresh
  | _, _ => False

theorem Begins.flight (hb : Begins s id a work) (h : Coherent ids s) :
    s.flightFor id work ∈ (s.start id a).flights := by
  cases a with
  | get uid =>
    obtain ⟨rfl, hp, hl⟩ := hb
    rw [start, get_eq h.sound, hp]
    dsimp only
    rw [if_pos hl]
    exact List.mem_append_right _ (.head _)
  | create o =>
    cases hb
    exact List.mem_append_right _ (.head _)
  | refresh =>
    cases hb
    exact List.mem_append_right _ (.head _)
  | _ => cases hb

def Work.refusal (e : OrderError) : Work → Reply
  | .fetch _ => .found (.error e)
  | .save _ => .stored (.error e)
  | .refresh => .loaded (.error e)

def storeReply (s : Resolver) (work : Work) : Option OrderError → Reply
  | some e => work.refusal e
  | none =>
    match work with
    | .fetch uid => .found (s.repository.get uid)
    | .save o => .stored ((s.repository.upsert o).map fun _ => o.uid)
    | .refresh => .loaded (.ok (s.repository.recent s.settings.warmLimit).length)

theorem replyTo_eq (s : Resolver) (f : Flight) :
    s.replyTo f =
      if f.pending.takes ≤ f.pending.limit then s.storeReply f.work f.pending.failure
      else f.work.refusal (timeout f.pending) := by
  rw [replyTo]
  cases f.work with
  | fetch uid =>
    dsimp only
    rw [outcome_eq]
    split
    · cases f.pending.failure <;> rfl
    · rfl
  | save o =>
    dsimp only
    rw [outcome_eq]
    split
    · cases f.pending.failure <;> rfl
    · rfl
  | refresh =>
    dsimp only
    rw [outcome_eq]
    split
    · cases f.pending.failure <;> rfl
    · rfl

/-- How an operation of a timeline ends that begins with a store call: it is answered when the call
is due, unless it is dropped before. -/
def OnTime (s : Resolver) (past : List Event) (e : Event) (rest : List Event) (work : Work) :
    Prop :=
  let before := (s.play past).idle e.time
  let whole := s.complete (past ++ e :: rest)
  let call := before.callOf work
  let takes := before.script.delay call
  let limit := before.deadlineOf work
  let ends := e.time + min takes limit
  before.now = e.time ∧
  ((∀ d ∈ rest, d.action = .abort e.id → ends ≤ d.time) →
    ∃ earlier later, s.run (earlier ++ .land (before.flightFor e.id work) :: later) = whole ∧
      operations (earlier ++ later) = (past ++ e :: rest).map (fun e => (e.id, e.action)) ∧
      (s.run earlier).now = ends ∧
      whole.finish? e.id = some ⟨e.id, ends,
        if takes ≤ limit then (s.run earlier).storeReply work (before.script.failure call)
        else work.refusal (.timeout
          (call.kind.name ++ "(" ++ call.subject ++ ") exceeded " ++ durationText limit))⟩) ∧
  ((∃ d ∈ rest, d.action = .abort e.id ∧ d.time < ends) → whole.finish? e.id = none)

theorem Lands.answered (h : Lands s f l s') (hs : Single s') :
    ∃ earlier later, s.run (earlier ++ .land f :: later) = s' ∧ operations (earlier ++ later) = l ∧
      (s.run earlier).now = f.due ∧
      s'.finish? f.id = some ⟨f.id, f.due, (s.run earlier).replyTo f⟩ := by
  obtain ⟨earlier, later, hops, hrun, hmem, hnow⟩ := h
  have hland : Leads ((s.run earlier).land f) (operations later) s' := by
    refine ⟨later, rfl, ?_⟩
    rw [← hrun, run_append, run_cons, move, if_pos hmem]
  have hanswer : ⟨f.id, f.due, (s.run earlier).replyTo f⟩ ∈ s'.finished := by
    apply hland.finished
    rw [land_finished_eq, ← hnow]
    exact List.mem_append_right _ (.head _)
  exact ⟨earlier, later, hrun, hops, hnow, hs.finish?_eq hanswer⟩

theorem OnTime.ofEvent {past rest : List Event} (h : Timed [] s) (hnow : s.now ≤ e.time)
    (hn : ((past ++ e :: rest).map Event.id).Nodup)
    (ht : (past ++ e :: rest).Pairwise fun d e => d.time ≤ e.time)
    (hb : Begins ((s.play past).idle e.time) e.id e.action work) : OnTime s past e rest work := by
  obtain ⟨-, htrest, htpast⟩ := List.pairwise_append.1 ht
  obtain ⟨hlater, htrest⟩ := List.pairwise_cons.1 htrest
  have hids : (past.map Event.id ++ [e.id] ++ rest.map Event.id).Nodup := by simpa using hn
  have hn₁ := (List.nodup_append.1 hids).1
  have hpast : Timed (past.map Event.id) (s.play past) := by
    simpa using h.play (by simpa using (List.nodup_append.1 hn₁).1)
  have hbefore := hpast.idle e.time
  have hact := hbefore.act hn₁ e.action
  have hstep : Timed (past.map Event.id ++ [e.id]) ((s.play past).step e) := hpast.step hn₁
  have hstart : ((s.play past).idle e.time).now = e.time :=
    now_idle (now_play_le (fun d hd => htpast d hd e (.head _)) hnow)
  delta OnTime
  intro before whole call takes limit ends
  have hwhole : whole = ((s.play past).step e).complete rest := by
    change s.complete (past ++ e :: rest) = _
    rw [complete, complete, play_append]
    rfl
  have hflight : before.flightFor e.id work ∈ (before.act e.id e.action).flights :=
    hbefore.stays_act hn₁ (hb.flight hbefore.coherent)
  have hdue : (before.flightFor e.id work).due = ends :=
    congrArg (· + min takes limit) hstart
  refine ⟨hstart, fun hkeep => ?_, fun hdrop => ?_⟩
  · have hends : Lands (before.act e.id e.action) (before.flightFor e.id work)
        (rest.map fun e => (e.id, e.action)) whole := by
      rw [hwhole]
      rcases hact.carries_advanceFor hflight (some e.time) _ with hlands | ⟨hleads, hmem⟩
      · exact hlands.after (Leads.complete _ rest)
      · exact .before hleads (hstep.lands hids hmem fun d hd ha => hdue.symm ▸ hkeep d hd ha)
    have hleads : Leads s (past.map (fun e => (e.id, e.action)) ++ [] ++ [(e.id, e.action)])
        (before.act e.id e.action) :=
      ((Leads.play s past).trans (Leads.wait _ _)).trans (Leads.act _ _ _)
    have hsingle : Single whole :=
      h.single.ofLeads h.coherent h.manned (Leads.complete s _)
        (by simpa [Function.comp_def] using hn)
    obtain ⟨earlier, later, hrun, hops, hdue', hanswer⟩ :=
      (Lands.before hleads hends).answered hsingle
    rw [hdue] at hdue' hanswer
    rw [replyTo_eq] at hanswer
    exact ⟨earlier, later, hrun, by simpa using hops, hdue', hanswer⟩
  -- The call is still in flight when its operation is dropped.
  · obtain ⟨d, hd, hda, hdt⟩ := hdrop
    have hlate : e.time < (before.flightFor e.id work).due := by
      rw [hdue]
      exact Nat.lt_of_le_of_lt (hlater d hd) hdt
    have hstays : before.flightFor e.id work ∈ ((s.play past).step e).flights :=
      hact.stays_advanceFor hflight hlate _
    have hnever : ∀ g ∈ whole.finished, g.id ≠ e.id :=
      hwhole ▸ hstep.abandons hids hstays htrest ⟨d, hd, hda, hdue.symm ▸ hdt⟩
    exact List.find?_eq_none.2 fun g hg => by simpa using hnever g hg

/-- A store call is answered to the millisecond, by the store or with a timeout. Store and cache
hold only what operations have put there that ended without an error. -/
theorem deadlines_are_exact {settings : Settings} {capacity : Nat} {repository : Repository}
    {script : Script} (hs : s = ofParts settings capacity repository script) :
    (∀ ms, (started ms).Nodup → Attributed s ms) ∧
    ∀ events : List Event, (events.map Event.id).Nodup →
      (events.Pairwise fun d e => d.time ≤ e.time) →
      (∃ ms, operations ms = events.map (fun e => (e.id, e.action)) ∧
        s.run ms = s.complete events ∧ Attributed s ms) ∧
      ∀ past e rest work, events = past ++ e :: rest →
        Begins ((s.play past).idle e.time) e.id e.action work → OnTime s past e rest work := by
  have h : Timed [] s := hs ▸ .ofParts ..
  have hruns : ∀ ms, (started ms).Nodup → Attributed s ms := fun ms hn =>
    .ofRun h.coherent h.manned h.single hn
  refine ⟨hruns, fun events hn ht => ⟨?_, ?_⟩⟩
  · obtain ⟨ms, hops, hrun⟩ := Leads.complete s events
    exact ⟨ms, hops, hrun, hruns ms (by rwa [started_of_operations hops])⟩
  · rintro past e rest work rfl hb
    have hnow : s.now = 0 := by rw [hs]; rfl
    exact .ofEvent h (hnow ▸ Nat.zero_le _) hn ht hb

def strained : Resolver :=
  ofParts { readTimeout := 50, writeTimeout := 100 } 2 (Repository.ofOrders [dated "a" 1])
    ⟨[(.upsertOrder, .uniform 100), (.getRecent, .uniform 51), (.getOrder, .uniform 30)], []⟩

def strains : List Event :=
  [⟨0, 0, .create (dated "a" 2)⟩, ⟨10, 1, .refresh⟩, ⟨20, 2, .get "a"⟩, ⟨30, 3, .abort 2⟩]

theorem deadlines_are_exact_under_strain :
    (strained.complete strains).finish? 0 = some ⟨0, 100, .stored (.ok "a")⟩ ∧
    (strained.complete strains).finish? 1 =
      some ⟨1, 60, .loaded (.error (.timeout "get_recent(10) exceeded 50ms"))⟩ ∧
    (strained.complete strains).finish? 2 = none ∧
    ∃ ms, strained.run ms = strained.complete strains ∧
      1 ∉ (strained.fills ms).map Prod.fst := by
  obtain ⟨-, htimes⟩ := deadlines_are_exact (s := strained) rfl
  obtain ⟨⟨ms, -, hrun, hattributed⟩, hends⟩ := htimes strains (by decide) (by simp [strains])
  obtain ⟨-, hwrite, -⟩ := hends [] ⟨0, 0, .create (dated "a" 2)⟩
    [⟨10, 1, .refresh⟩, ⟨20, 2, .get "a"⟩, ⟨30, 3, .abort 2⟩] (.save (dated "a" 2)) rfl rfl
  obtain ⟨-, hrefresh, -⟩ := hends [⟨0, 0, .create (dated "a" 2)⟩] ⟨10, 1, .refresh⟩
    [⟨20, 2, .get "a"⟩, ⟨30, 3, .abort 2⟩] .refresh rfl rfl
  obtain ⟨-, -, hlookup⟩ := hends [⟨0, 0, .create (dated "a" 2)⟩, ⟨10, 1, .refresh⟩]
    ⟨20, 2, .get "a"⟩ [⟨30, 3, .abort 2⟩] (.fetch "a") rfl ⟨rfl, rfl, rfl⟩
  obtain ⟨_, _, -, -, -, hwrite⟩ := hwrite (by simp)
  obtain ⟨_, _, -, -, -, hrefresh⟩ := hrefresh (by simp)
  have htimeout : (strained.complete strains).finish? 1 =
      some ⟨1, 60, .loaded (.error (.timeout "get_recent(10) exceeded 50ms"))⟩ := hrefresh
  have hfailed : Ended (strained.run ms) 1 true := by
    rw [hrun]
    exact ⟨_, List.mem_of_find?_eq_some htimeout, rfl, rfl⟩
  exact ⟨hwrite, htimeout, hlookup ⟨_, .head _, rfl, by decide⟩, ms, hrun,
    (hattributed.failed ms [] 1 (by simp) (.inl hfailed)).2⟩

end OrderLookup.Resolver
