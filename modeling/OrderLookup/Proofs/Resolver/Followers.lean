import OrderLookup.Proofs.Resolver.Idling
import OrderLookup.Proofs.Resolver.Shadows

/-!
Followers who are dropped. Two runs go side by side, of which only one has a certain caller. As long
as that caller only waits, each state of the one run shadows the state of the other. Whatever takes
the shadow away gives the caller something to do, and then it never waits again. So a caller who is
dropped while it waits has been a shadow all the time.
-/

namespace OrderLookup.Resolver

open Inflight (Registry Caller)

variable {s s' t : Resolver} {m : Move} {ids : List Nat} {id w time : Nat} {uid : String}
  {l : List (Nat × Action)} {b : Prop} {events : List Event} {e : Event}

theorem register_move (h : Coherent ids s) (hn : (ids ++ m.started).Nodup) :
    ∃ rs, Registry.Run s.registry rs (s.move m).registry ∧ Inflight.calls rs ⊆ m.started := by
  have hshift := shift_move h hn
  generalize s.move m = s' at hshift
  have hstays : s'.registry = s.registry →
      ∃ rs, Registry.Run s.registry rs s'.registry ∧ Inflight.calls rs ⊆ m.started :=
    fun hr => ⟨[], hr ▸ .nil, List.nil_subset _⟩
  cases hshift with
  | idle hr => exact hstays hr
  | launched _ hr => exact hstays hr
  | ended _ _ hr => exact hstays hr
  | @joined id uid hid _ _ hr =>
    exact ⟨[.join id uid], hr ▸ .move .nil (.join uid hid), List.Subset.refl _⟩
  | @asked id uid _ hid _ _ hr =>
    exact ⟨[.join id uid], hr ▸ .move .nil (.join uid hid), List.Subset.refl _⟩
  | @fetched f c r _ _ hc _ hl hr =>
    exact ⟨[.complete c.id r], hr ▸ .move .nil (h.completes hc hl r), List.nil_subset _⟩
  | @found c o hc hch _ hr =>
    exact ⟨[.start c.id, .complete c.id (.ok o)],
      hr ▸ .move (.move .nil (h.starts hc hch)) (h.finds hc hch _), List.nil_subset _⟩
  | @resumed c _ hc hch _ hr =>
    exact ⟨[.start c.id], hr ▸ .move .nil (h.starts hc hch), List.nil_subset _⟩
  | @collected c r hc hv hr =>
    exact ⟨[.collect c.id r], hr ▸ .move .nil (h.collects hc hv), List.nil_subset _⟩
  | @dropped _ target hr =>
    exact ⟨[.drop target], hr ▸ .move .nil (Registry.drop_step _ target), List.nil_subset _⟩

namespace Leads

theorem register (hl : Leads s l t) (h : Coherent ids s) (hn : (ids ++ l.map Prod.fst).Nodup) :
    ∃ rs, Registry.Run s.registry rs t.registry ∧ Inflight.calls rs ⊆ l.map Prod.fst := by
  obtain ⟨ms, rfl, rfl⟩ := hl
  rw [← started_eq] at hn ⊢
  induction ms generalizing ids s with
  | nil => exact ⟨[], .nil, List.nil_subset _⟩
  | cons m ms ih =>
    rw [started_cons, ← List.append_assoc] at hn
    have hm := (List.nodup_append.1 hn).1
    obtain ⟨rs, hrun, hsub⟩ := register_move h hm
    obtain ⟨rs', hrun', hsub'⟩ := ih (h.move hm) hn
    refine ⟨rs ++ rs', hrun.append hrun', ?_⟩
    rw [Inflight.calls_append, started_cons]
    exact List.append_subset.2 ⟨List.Subset.trans hsub (List.subset_append_left _ _),
      List.Subset.trans hsub' (List.subset_append_right _ _)⟩

theorem waits_past (hl : Leads s l t) (h : Coherent ids s) (hn : (ids ++ l.map Prod.fst).Nodup)
    (hw : w ∈ ids) :
    (t.registry.Waits w → s.registry.Waits w) ∧
      ((∃ c ∈ t.registry.callers, c.id = w) → ∃ c ∈ s.registry.callers, c.id = w) := by
  obtain ⟨rs, hrun, hsub⟩ := hl.register h hn
  have hj : w ∉ Inflight.calls rs := fun hc => (List.disjoint_of_nodup_append hn) hw (hsub hc)
  exact ⟨hrun.waits_past h.sound hj, hrun.there_past h.sound hj⟩

end Leads

/-- Two runs side by side, of which the first has one caller more. As long as that caller is there
`b` holds; then it may also have got something to do, and will never wait again. -/
structure Trails (b : Prop) (w : Nat) (ids : List Nat) (s s' : Resolver) : Prop where
  coherent : Coherent ids s
  nodup : ids.Nodup
  known : w ∈ ids
  apart : Shadow w s s' ∧ ((∃ c ∈ s.registry.callers, c.id = w) → b) ∨
    b ∧ ¬s.registry.Waits w

namespace Trails

theorem lost (h : Trails b w ids s s') (hb : b) (hw : ¬s.registry.Waits w) (hl : Leads s l t)
    (hn : (ids ++ l.map Prod.fst).Nodup) (t' : Resolver) :
    Trails b w (ids ++ l.map Prod.fst) t t' where
  coherent := hl.coherent h.coherent hn
  nodup := hn
  known := List.mem_append_left _ h.known
  apart := Or.inr ⟨hb, fun ht => hw ((hl.waits_past h.coherent hn h.known).1 ht)⟩

theorem follow (h : Trails b w ids s s') (hl : Leads s l t) (hn : (ids ++ l.map Prod.fst).Nodup)
    {t' : Resolver} (hs : Shadow w s s' → Shadow w t t' ∨
      (∃ c ∈ s.registry.callers, c.id = w) ∧ ¬t.registry.Waits w) :
    Trails b w (ids ++ l.map Prod.fst) t t' := by
  rcases h.apart with ⟨hsh, hb⟩ | ⟨hb, hw⟩
  · refine ⟨hl.coherent h.coherent hn, hn, List.mem_append_left _ h.known, ?_⟩
    rcases hs hsh with hsh | ⟨hthere, hw⟩
    · exact Or.inl ⟨hsh, fun hc => hb ((hl.waits_past h.coherent hn h.known).2 hc)⟩
    · exact Or.inr ⟨hb hthere, hw⟩
  · exact h.lost hb hw hl hn t'

theorem go (h : Trails b w ids s s') (hl : Leads s [] t) {t' : Resolver}
    (hs : Shadow w s s' → Trails b w ids t t') : Trails b w ids t t' := by
  rcases h.apart with ⟨hsh, -⟩ | ⟨hb, hw⟩
  · exact hs hsh
  · simpa using h.lost hb hw hl (by simpa using h.nodup) t'

theorem shadowed (h : Trails b w ids s s') (hl : Leads s [] t) {t' : Resolver}
    (hs : Shadow w s s' → Shadow w t t') : Trails b w ids t t' := by
  simpa using h.follow hl (by simpa using h.nodup) fun hsh => Or.inl (hs hsh)

theorem takeOvers (h : Trails b w ids s s') (is : List Nat) :
    Trails b w ids (is.foldl takeOver s) ((is.filter fun i => i ≠ w).foldl takeOver s') := by
  induction is generalizing s s' with
  | nil => exact h
  | cons i is ih =>
    have hl : Leads s [] (s.takeOver i) := Leads.move (.takeOver i)
    by_cases hi : i = w
    · rw [List.filter_cons_of_neg (by simpa using hi)]
      exact ih (h.shadowed hl fun hsh => by rwa [hi, hsh.takeOver_self])
    · rw [List.filter_cons_of_pos (by simpa using hi)]
      exact ih (h.shadowed hl fun hsh => hsh.takeOver hi)

theorem collects (h : Trails b w ids s s') (is : List Nat) :
    Trails b w ids (is.foldl collect s) ((is.filter fun i => i ≠ w).foldl collect s') := by
  induction is generalizing s s' with
  | nil => exact h
  | cons i is ih =>
    have hl : Leads s [] (s.collect i) := Leads.move (.collect i)
    by_cases hi : i = w
    · rw [List.filter_cons_of_neg (by simpa using hi)]
      refine ih ?_
      simpa using h.follow hl (by simpa using h.nodup) fun hsh => hi ▸ hsh.collect_self
    · rw [List.filter_cons_of_pos (by simpa using hi)]
      exact ih (h.shadowed hl fun hsh => hsh.collect hi)

theorem proceed (h : Trails b w ids s s') : Trails b w ids s.proceed s'.proceed := by
  refine h.go (Leads.proceed s) fun hsh => ?_
  have htake := h.takeOvers (s.registry.callers.map Caller.id)
  rw [← hsh.ids_eq] at htake
  -- Who collects is read off after the takeovers, so the two states are compared once more.
  refine htake.go (Leads.foldl collect (fun s i => Leads.move (s := s) (.collect i)) _ _)
    fun hsh' => ?_
  have hcollect := htake.collects
    (((s.registry.callers.map Caller.id).foldl Resolver.takeOver s).registry.callers.map Caller.id)
  rwa [← hsh'.ids_eq] at hcollect

theorem wait (h : Trails b w ids s s') (time : Nat) :
    Trails b w ids (s.move (.wait time)) (s'.move (.wait time)) :=
  h.shadowed (Leads.move (.wait time)) fun hsh => hsh.wait time

theorem wake (h : Trails b w ids s s') : Trails b w ids s.wake s'.wake := by
  refine h.go (Leads.wake s) fun hsh => ?_
  have hnext : Clock.soonest Flight.due s.flights = Clock.soonest Flight.due s'.flights := by
    rw [hsh.flights_eq]
  rw [Resolver.wake, Resolver.wake, hnext]
  cases hf : Clock.soonest Flight.due s'.flights with
  | none => exact h
  | some f =>
    have hmem := Clock.mem_of_soonest hf
    have hwait := h.wait f.due
    have hmove : (s.move (.wait f.due)).move (.land f) = (s.move (.wait f.due)).land f :=
      if_pos (hsh.flights_eq ▸ hmem)
    have hl := Leads.move (s := s.move (.wait f.due)) (.land f)
    rw [hmove] at hl
    exact (hwait.shadowed hl fun hsh' => hsh'.land (hsh.idle f hmem)).proceed

theorem advanceFor (h : Trails b w ids s s') (bound : Option Nat) (steps : Nat) :
    Trails b w ids (clock.advanceFor bound steps s) (clock.advanceFor bound steps s') := by
  induction steps generalizing s s' with
  | zero => exact h
  | succ steps ih =>
    refine h.go (Leads.advanceFor bound _ s) fun hsh => ?_
    have hdue : clock.isDue bound s = clock.isDue bound s' := by
      simp only [Clock.isDue, clock, hsh.flights_eq]
    rw [Clock.advanceFor, Clock.advanceFor, hdue]
    split
    · exact ih h.wake
    · exact h

theorem windUp (h : Trails b w ids s s') (bound : Option Nat) :
    Trails b w ids (clock.advanceFor bound (clock.load s) s)
      (clock.advanceFor bound (clock.load s') s') := by
  refine h.go (Leads.advanceFor bound _ s) fun hsh => ?_
  have hload : clock.load s = clock.load s' := congrArg List.length hsh.flights_eq
  rw [hload]
  exact h.advanceFor bound _

theorem advance (h : Trails b w ids s s') (time : Nat) :
    Trails b w ids (clock.advance time s) (clock.advance time s') :=
  h.windUp (some time)

theorem drain (h : Trails b w ids s s') : Trails b w ids (clock.drain s) (clock.drain s') :=
  h.windUp none

theorem idle (h : Trails b w ids s s') (time : Nat) :
    Trails b w ids (s.idle time) (s'.idle time) :=
  (h.advance time).wait time

theorem step (h : Trails b w ids s s') (hn : (ids ++ [e.id]).Nodup) :
    Trails b w (ids ++ [e.id]) (s.step e) (s'.step e) := by
  have hid : e.id ≠ w := fun hi =>
    List.disjoint_of_nodup_append hn h.known (List.mem_singleton.2 hi.symm)
  have hstart := (h.idle e.time).follow (Leads.move (.start e.id e.action)) hn
    fun hsh => hsh.start hid e.action
  exact (hstart.proceed).advance e.time

theorem play (h : Trails b w ids s s') (hn : (ids ++ events.map Event.id).Nodup) :
    Trails b w (ids ++ events.map Event.id) (s.play events) (s'.play events) := by
  induction events generalizing ids s s' with
  | nil =>
    rw [List.map_nil, List.append_nil]
    exact h
  | cons e events ih =>
    rw [List.map_cons, List.append_cons] at hn ⊢
    exact ih (h.step (List.nodup_append.1 hn).1) hn

theorem complete (h : Trails b w ids s s') (hn : (ids ++ events.map Event.id).Nodup) :
    Trails b w (ids ++ events.map Event.id) (s.complete events) (s'.complete events) :=
  (h.play hn).drain

theorem ofGet (h : Coherent ids s) (hn : (ids ++ [w]).Nodup) (uid : String) :
    Trails True w (ids ++ [w]) (s.get w uid) s := by
  have hid : w ∉ ids := fun hi => List.disjoint_of_nodup_append hn hi (List.mem_singleton.2 rfl)
  have hnew := h.caller?_eq_none hid
  refine ⟨h.start hid (.get uid), hn, by simp, ?_⟩
  rw [get_eq h.sound]
  cases hp : s.cache.peek uid with
  | some o =>
    refine Or.inr ⟨trivial, ?_⟩
    rintro ⟨c, hc, hi, -⟩
    exact Registry.caller?_eq_none_iff.1 hnew c hc hi
  | none =>
    dsimp only
    split
    · rename_i hl
      obtain ⟨c, hc, hi, -, hs⟩ := Registry.exists_leading_of_join hl
      have hjoined := h.sound.run (.move .nil (.join uid hnew))
      refine Or.inr ⟨trivial, ?_⟩
      rintro ⟨d, hd, hdi, hds, -⟩
      rw [hjoined.eq_of_id hd hc (hdi.trans hi.symm), hs] at hds
      cases hds
    · rename_i hl
      obtain ⟨hr, hw⟩ := Registry.without_of_join h.sound hnew hl
      have hcache : (s.cache.get uid).2 = s.cache.missed := by
        rw [Cache.get, hp]
        rfl
      refine Or.inl ⟨⟨?_, hr.symm, hw, fun f hf => h.flight_ne hid hf⟩, fun _ => trivial⟩
      rw [hcache]
      rfl

theorem ofAbort (h : Trails b w ids s s') (hn : (ids ++ [id]).Nodup)
    (hw : s.registry.Waits w) :
    Trails False w (ids ++ [id]) (s.abort w) s' := by
  have hid : id ∉ ids := fun hi => List.disjoint_of_nodup_append hn hi (List.mem_singleton.2 rfl)
  refine ⟨h.coherent.start hid (.abort w), hn, by simp [h.known], ?_⟩
  rcases h.apart with ⟨hsh, -⟩ | ⟨-, hnot⟩
  -- Who waits has no store call, so nothing but the register changes.
  · obtain ⟨c, hc, hi, hs, -⟩ := hw
    have hdrop : s.registry.drop w = s.registry.without w := by
      rw [Registry.drop, h.coherent.sound.caller?_eq_some_iff.2 ⟨hc, hi⟩]
      exact if_pos hs
    have hflights : s.flights.filter (fun f => decide (f.id ≠ w)) = s.flights :=
      List.filter_eq_self.2 fun f hf => by simpa using hsh.idle f (hsh.flights_eq ▸ hf)
    have habort : s.abort w = { s with registry := s.registry.without w } := by
      rw [Resolver.abort, withoutFlight, hflights, hdrop]
    have hgone : ∀ d ∈ (s.registry.without w).callers, d.id ≠ w :=
      fun d hd => (Registry.mem_without.1 hd).2
    have hr : s'.registry = (s.registry.without w).without w := by
      rw [Registry.without_of_absent hgone, hsh.registry]
    rw [habort]
    refine Or.inl ⟨hsh.withRegister hr fun d hd hi => absurd hi (hgone d hd), ?_⟩
    rintro ⟨d, hd, hi⟩
    exact hgone d hd hi
  · exact absurd hw hnot

theorem begin (h : Quiet ids s) (hn : (ids ++ [e.id]).Nodup) (he : e.action = .get uid) :
    Trails True e.id (ids ++ [e.id]) (s.step e) (s.idle e.time) := by
  have hidle := h.idle e.time
  have hact := ((Trails.ofGet hidle.coherent hn uid).proceed).advance e.time
  rw [hidle.settled.proceed_eq, h.advance_idle] at hact
  rw [step_eq, he]
  exact hact

theorem abort (h : Trails b w ids s s') {ids' : List Nat} (hs' : Quiet ids' s')
    (hn : (ids ++ [e.id]).Nodup) (he : e.action = .abort w)
    (hw : (s.idle e.time).registry.Waits w) :
    Trails False w (ids ++ [e.id]) (s.step e) (s'.idle e.time) := by
  have hidle := hs'.idle e.time
  have hact := (((h.idle e.time).ofAbort hn hw).proceed).advance e.time
  rw [hidle.settled.proceed_eq, hs'.advance_idle] at hact
  rw [step_eq, he]
  exact hact

end Trails

theorem complete_append (s : Resolver) (events events' : List Event) :
    s.complete (events ++ events') = (s.play events).complete events' :=
  congrArg clock.drain (play_append s events events')

/-- A lookup that is dropped while it waits for the fetch of another one leaves no trace but a miss
that the cache has counted. -/
theorem aborted_follower_leaves_no_trace {settings : Settings} {capacity : Nat}
    {repository : Repository} {script : Script} {past between rest : List Event} {g a : Event}
    (hs : s = ofParts settings capacity repository script)
    (hn : ((past ++ g :: between ++ a :: rest).map Event.id).Nodup)
    (ht : (past ++ g :: between ++ a :: rest).Pairwise fun d e => d.time ≤ e.time)
    (hg : g.action = .get uid) (ha : a.action = .abort g.id)
    (hw : ∃ c ∈ (clock.advance a.time (s.play (past ++ g :: between))).registry.callers,
      c.id = g.id ∧ c.stage = .waiting) :
    let whole := s.complete (past ++ g :: between ++ a :: rest)
    let short := s.complete (past ++ between ++ rest)
    whole.finished = short.finished ∧ whole.calls = short.calls ∧
      whole.cache = { short.cache with counters := short.cache.counters.recordMiss } ∧
      whole.repository = short.repository := by
  have hstart : Quiet [] s := hs ▸ .ofParts ..
  obtain ⟨hbefore, hafter, hacross⟩ := List.pairwise_append.1 ht
  have hbetween := (List.pairwise_cons.1 (List.pairwise_append.1 hbefore).2.1).1
  have hrest := (List.pairwise_cons.1 hafter).1
  have hga : g.time ≤ a.time := hacross g (by simp) a (.head _)
  have hall : (past.map Event.id ++ [g.id] ++ between.map Event.id ++ [a.id] ++
      rest.map Event.id).Nodup := by simpa using hn
  have hended := (List.nodup_append.1 hall).1
  have hwaited := (List.nodup_append.1 hended).1
  have hbegun := (List.nodup_append.1 hwaited).1
  have hpast : Quiet (past.map Event.id) (s.play past) := hstart.play (List.nodup_append.1 hbegun).1
  have hids : (past.map Event.id ++ between.map Event.id).Nodup := by
    rw [List.append_assoc] at hwaited
    exact hwaited.sublist ((List.sublist_append_right _ _).append_left _)
  have hshort : Quiet ((past ++ between).map Event.id) (s.play (past ++ between)) :=
    hstart.play (by simpa using hids)
  have hwhole : Quiet ((past ++ g :: between).map Event.id) (s.play (past ++ g :: between)) :=
    hstart.play (by simpa using hwaited)
  -- Up to the end of the lookup one timeline trails the other, in which time just passes.
  have hwaiting : Trails True g.id (past.map Event.id ++ [g.id] ++ between.map Event.id)
      (s.play (past ++ g :: between)) (((s.play past).idle g.time).play between) := by
    rw [play_append]
    exact (Trails.begin hpast hbegun hg).play hwaited
  have hstill : (s.play (past ++ g :: between)).idle a.time |>.registry.Waits g.id := by
    obtain ⟨c, hc, hi, hst⟩ := hw
    exact ⟨c, hc, hi, hst, (hwhole.idle a.time).settled.unserved c hc⟩
  have hend := (hwaiting.abort ((hpast.idle g.time).play hids) hended ha hstill).complete hall
  -- That time has passed there shows at the very end at most.
  obtain ⟨now, hnow⟩ := hshort.complete_idle hrest
  rw [hpast.idle_play_idle hbetween hga, ← play_append, hnow, ← complete_append] at hend
  have hlast : ((s.play (past ++ g :: between)).step a).complete rest =
      s.complete (past ++ g :: between ++ a :: rest) := (complete_append s _ (a :: rest)).symm
  rw [hlast] at hend
  rcases hend.apart with ⟨hsh, -⟩ | ⟨hfalse, -⟩
  · dsimp only
    rw [hsh.same]
    exact ⟨rfl, rfl, rfl, rfl⟩
  · exact hfalse.elim

def unhurried : Resolver :=
  ofParts {} 2 (Repository.ofOrders [{ uid := "a" }]) ⟨[(.getOrder, .uniform 100)], []⟩

theorem aborted_follower_leaves_no_trace_in_takeover :
    let past : List Event := [⟨0, 0, .get "a"⟩]
    let between : List Event := [⟨20, 2, .get "a"⟩]
    let rest : List Event := [⟨40, 4, .abort 0⟩]
    let waited := past ++ ⟨10, 1, .get "a"⟩ :: between
    let whole := unhurried.complete (waited ++ ⟨30, 3, .abort 1⟩ :: rest)
    let short := unhurried.complete (past ++ between ++ rest)
    (∃ c ∈ (clock.advance 30 (unhurried.play waited)).registry.callers,
      c.id = 1 ∧ c.stage = .waiting) ∧
    whole.finished = short.finished ∧ whole.calls = short.calls ∧
    whole.cache = { short.cache with counters := short.cache.counters.recordMiss } ∧
    whole.repository = short.repository ∧
    ⟨2, 140, .found (.ok { uid := "a" })⟩ ∈ whole.finished := by
  intro past between rest waited whole short
  have hn : ((waited ++ ⟨30, 3, .abort 1⟩ :: rest).map Event.id).Nodup := by decide
  have ht : (waited ++ ⟨30, 3, .abort 1⟩ :: rest).Pairwise fun d e => d.time ≤ e.time := by
    simp [waited, past, between, rest]
  have hw : ∃ c ∈ (clock.advance 30 (unhurried.play waited)).registry.callers,
      c.id = 1 ∧ c.stage = .waiting := by decide
  obtain ⟨hfinished, hcalls, hcache, hrepository⟩ :=
    aborted_follower_leaves_no_trace (s := unhurried) rfl hn ht rfl rfl hw
  exact ⟨hw, hfinished, hcalls, hcache, hrepository, .head _⟩

end OrderLookup.Resolver
