import OrderLookup.Proofs.Inflight.Absence
import OrderLookup.Proofs.Resolver.Saving

/-!
Operations end once. As long as an operation is under way it is a caller of the register or waits
for a store call, and its answer takes both away. Whoever is gone does not come back. So no
operation is answered twice, and one that has been dropped is not answered any more.
-/

namespace OrderLookup.Resolver

open Inflight (Caller)
open Inflight.Registry (id_ne_of_mem_complete id_ne_of_mem_drop)

def UnderWay (s : Resolver) (id : Nat) : Prop :=
  (∃ c ∈ s.registry.callers, c.id = id) ∨ ∃ f ∈ s.flights, f.id = id

variable {s s' : Resolver} {m : Move} {ms : List Move} {ids : List Nat} {id : Nat} {f : Finish}
  {l : List (Nat × Action)}

theorem UnderWay.past (h : Coherent ids s) (hn : (ids ++ m.started).Nodup)
    (hu : UnderWay (s.move m) id) : id ∈ m.started ∨ UnderWay s id := by
  have hshift := shift_move h hn
  rcases hu with ⟨c, hc, rfl⟩ | ⟨g, hg, rfl⟩
  · exact (hshift.callers_past h hc).imp_right .inl
  · rcases hshift.flights_past hg with hg | hi | hc
    · exact .inr (.inr ⟨g, hg, rfl⟩)
    · exact .inl hi
    · exact .inr (.inl hc)

theorem Coherent.not_underWay (h : Coherent ids s) (hid : id ∉ ids) : ¬UnderWay s id := by
  rintro (⟨c, hc, rfl⟩ | ⟨g, hg, rfl⟩)
  · exact hid (h.callers c hc)
  · exact hid (h.flights g hg)

/-- Whether an operation is answered between two states: there is one answer more, and whoever gets
it is not under way any more. -/
def Answered (s s' : Resolver) (id : Nat) : Prop :=
  (∃ f : Finish, f.id = id ∧ s'.finished = s.finished ++ [f]) ∧ ¬UnderWay s' id

theorem answered_finish {reply : Reply} (hu : ¬UnderWay s id) :
    Answered s (s.finish id reply) id :=
  ⟨⟨_, rfl, rfl⟩, hu⟩

theorem answered_start (h : Coherent ids s) (hid : id ∉ ids) (a : Action) :
    (s.start id a).finished = s.finished ∨ Answered s (s.start id a) id := by
  have hfresh := h.not_underWay hid
  cases a with
  | get uid =>
    rw [start, get_eq h.sound]
    split
    · exact .inr (answered_finish (s := { s with cache := (s.cache.get uid).2 }) hfresh)
    · dsimp only
      split <;> exact .inl rfl
  | create o => exact .inl rfl
  | refresh => exact .inl rfl
  | abort target => exact .inl rfl
  | store o =>
    rw [start]
    split
    · exact .inr (answered_finish (s := { s with repository := _ }) hfresh)
    · exact .inr (answered_finish hfresh)
  | cacheSet key o => exact .inr (answered_finish (s := s.fillCache key o) hfresh)
  | cacheGet key => exact .inr (answered_finish (s := { s with cache := _ }) hfresh)
  | cachePeek key => exact .inr (answered_finish hfresh)
  | script r => exact .inr (answered_finish (s := { s with script := _ }) hfresh)

def replyTo (s : Resolver) (g : Flight) : Reply :=
  match g.work with
  | .fetch uid => .found (outcome g.pending (s.repository.get uid))
  | .save o => .stored ((outcome g.pending (s.repository.upsert o)).map fun _ => o.uid)
  | .refresh =>
    .loaded ((outcome g.pending (.ok (s.repository.recent s.settings.warmLimit))).map List.length)

theorem land_finished_eq (s : Resolver) (g : Flight) :
    (s.land g).finished = s.finished ++ [⟨g.id, s.now, s.replyTo g⟩] := by
  rw [land, resume, replyTo]
  cases g.work with
  | fetch uid =>
    dsimp only
    rw [withoutFlight_repository]
    cases outcome g.pending (s.repository.get uid) <;> rfl
  | save o =>
    dsimp only
    rw [withoutFlight_repository]
    cases outcome g.pending (s.repository.upsert o) <;> rfl
  | refresh =>
    have hrecent : (s.withoutFlight g.id).repository.recent
        (s.withoutFlight g.id).settings.warmLimit =
          s.repository.recent s.settings.warmLimit := rfl
    dsimp only
    rw [hrecent]
    cases outcome g.pending (.ok (s.repository.recent s.settings.warmLimit)) with
    | ok l =>
      dsimp only
      rw [finish, fillAll_finished, fillAll_now]
      rfl
    | error e => rfl

theorem land_callers (hm : Manned s) {g : Flight} (hg : g ∈ s.flights) {c : Caller}
    (hc : c ∈ (s.land g).registry.callers) : c.id ≠ g.id := by
  cases hw : g.work with
  | fetch uid =>
    rw [land, resume, hw] at hc
    dsimp only at hc
    split at hc <;> exact id_ne_of_mem_complete hc
  | _ =>
    rw [land_registry s (by simp [hw])] at hc
    intro hi
    have hfetch := hm.own c hc g hg hi.symm
    rw [hw] at hfetch
    cases hfetch

theorem answered_land (hm : Manned s) {g : Flight} (hg : g ∈ s.flights) :
    Answered s (s.land g) g.id := by
  refine ⟨⟨_, rfl, land_finished_eq s g⟩, ?_⟩
  rintro (⟨c, hc, hi⟩ | ⟨f, hf, hi⟩)
  · exact land_callers hm hg hc hi
  · rw [land_flights] at hf
    exact (mem_withoutFlight.1 hf).2 hi

theorem answered_takeOver (h : Coherent ids s) (hm : Manned s) (id : Nat) :
    (s.takeOver id).finished = s.finished ∨
      UnderWay s id ∧ Answered s (s.takeOver id) id := by
  rw [takeOver]
  split
  · exact .inl rfl
  · rename_i c hc
    obtain ⟨hmem, rfl⟩ := Inflight.Registry.mem_of_caller? hc
    split
    · rename_i hch
      rw [lead]
      split
      · refine .inr ⟨.inl ⟨c, hmem, rfl⟩, ⟨_, rfl, rfl⟩, ?_⟩
        rintro (⟨d, hd, hi⟩ | ⟨f, hf, hi⟩)
        · exact id_ne_of_mem_complete hd hi
        · have hlead := hm.leading h hmem hf hi
          rw [hch] at hlead
          cases hlead
      · exact .inl rfl
    · exact .inl rfl

theorem answered_collect (h : Coherent ids s) (hm : Manned s) (id : Nat) :
    (s.collect id).finished = s.finished ∨
      UnderWay s id ∧ Answered s (s.collect id) id := by
  rw [collect]
  split
  · exact .inl rfl
  · rename_i r registry hc
    obtain ⟨c, hcc, hv, rfl⟩ := Inflight.Registry.collect_eq_some_iff.1 hc
    obtain ⟨hmem, rfl⟩ := Inflight.Registry.mem_of_caller? hcc
    refine .inr ⟨.inl ⟨c, hmem, rfl⟩, ⟨_, rfl, rfl⟩, ?_⟩
    rintro (⟨d, hd, hi⟩ | ⟨f, hf, hi⟩)
    · exact (Inflight.Registry.mem_without.1 hd).2 hi
    · -- Whoever leads has not got a value yet.
      have hlead := hm.leading h hmem hf hi
      have hopen := h.sound.owner_open hmem (by simp [hlead])
      rw [hv] at hopen
      cases hopen

theorem answered_move (h : Coherent ids s) (hm : Manned s) (hn : (ids ++ m.started).Nodup) :
    (s.move m).finished = s.finished ∨
      ∃ id, (id ∈ m.started ∨ UnderWay s id) ∧ Answered s (s.move m) id := by
  cases m with
  | start id a =>
    have hid : id ∉ ids := fun hi => List.disjoint_of_nodup_append hn hi (List.mem_singleton.2 rfl)
    exact (answered_start h hid a).imp_right fun ha => ⟨id, .inl (List.mem_singleton.2 rfl), ha⟩
  | land g =>
    rw [move]
    split
    · rename_i hg
      exact .inr ⟨g.id, .inr (.inr ⟨g, hg, rfl⟩), answered_land hm hg⟩
    · exact .inl rfl
  | takeOver id => exact (answered_takeOver h hm id).imp_right fun ha => ⟨id, .inr ha.1, ha.2⟩
  | collect id => exact (answered_collect h hm id).imp_right fun ha => ⟨id, .inr ha.1, ha.2⟩
  | wait time => exact .inl rfl

/-- No operation has been answered twice, and none that has been answered is under way. -/
structure Single (s : Resolver) : Prop where
  ids : (s.finished.map Finish.id).Nodup
  settled : ∀ f ∈ s.finished, ¬UnderWay s f.id

namespace Single

theorem ofParts (settings : Settings) (capacity : Nat) (repository : Repository)
    (script : Script) : Single (ofParts settings capacity repository script) where
  ids := List.nodup_nil
  settled f hf := by cases hf

theorem move (hs : Single s) (h : Coherent ids s) (hm : Manned s)
    (hn : (ids ++ m.started).Nodup) : Single (s.move m) := by
  have hold : ∀ f ∈ s.finished, ¬UnderWay (s.move m) f.id := by
    intro f hf hu
    rcases hu.past h hn with hi | hu
    · exact List.disjoint_of_nodup_append hn (h.finished f hf) hi
    · exact hs.settled f hf hu
  rcases answered_move h hm hn with hsame | ⟨id, hid, ⟨f, rfl, hnew⟩, hover⟩
  · exact ⟨hsame ▸ hs.ids, hsame ▸ hold⟩
  · constructor
    · rw [hnew, List.map_append, List.map_singleton, List.nodup_append]
      refine ⟨hs.ids, List.nodup_singleton _, ?_⟩
      rintro i hi j hj rfl
      obtain ⟨g, hg, rfl⟩ := List.mem_map.1 hi
      rw [List.mem_singleton] at hj
      rcases hid with hid | hid
      · exact List.disjoint_of_nodup_append hn (h.finished g hg) (hj ▸ hid)
      · exact hs.settled g hg (hj ▸ hid)
    · rw [hnew]
      intro g hg
      rcases List.mem_append.1 hg with hg | hg
      · exact hold g hg
      · rw [List.mem_singleton.1 hg]
        exact hover

theorem run (hs : Single s) (h : Coherent ids s) (hm : Manned s)
    (hn : (ids ++ started ms).Nodup) : Single (s.run ms) :=
  And.right <| h.run_induction (P := fun s => Manned s ∧ Single s) hn ⟨hm, hs⟩
    fun _ _ _ _ hb hn' ⟨hm, hs⟩ => ⟨hm.move hb hn', hs.move hb hm hn'⟩

theorem eq_of_id (hs : Single s) {f g : Finish} (hf : f ∈ s.finished) (hg : g ∈ s.finished)
    (hi : f.id = g.id) : f = g :=
  List.inj_on_of_nodup_map hs.ids hf hg hi

theorem finish?_eq (hs : Single s) (hf : f ∈ s.finished) : s.finish? f.id = some f := by
  rw [finish?]
  cases hfind : s.finished.find? fun g => g.id = f.id with
  | none =>
    have hnone := List.find?_eq_none.1 hfind f hf
    simp at hnone
  | some g =>
    have hi : g.id = f.id := by simpa using List.find?_some hfind
    rw [hs.eq_of_id (List.mem_of_find?_eq_some hfind) hf hi]

theorem ofLeads (hs : Single s) (h : Coherent ids s) (hm : Manned s) (hl : Leads s l s')
    (hn : (ids ++ l.map Prod.fst).Nodup) : Single s' := by
  obtain ⟨ms, rfl, rfl⟩ := hl
  exact hs.run h hm (by rwa [started_eq])

theorem reply?_eq (hs : Single s) (hf : f ∈ s.finished) : s.reply? f.id = some f.reply := by
  rw [reply?, hs.finish?_eq hf, Option.map_some]

end Single

theorem gone_run (h : Coherent ids s) (hm : Manned s) (hid : id ∈ ids) (hu : ¬UnderWay s id)
    (hn : (ids ++ started ms).Nodup) :
    ¬UnderWay (s.run ms) id ∧ ∀ f ∈ (s.run ms).finished, f.id = id → f ∈ s.finished := by
  refine And.right <| h.run_induction (P := fun s' => Manned s' ∧ ¬UnderWay s' id ∧
    ∀ f ∈ s'.finished, f.id = id → f ∈ s.finished) hn ⟨hm, hu, fun f hf _ => hf⟩
    fun before m _ _ hb hn' ⟨hm, hgone, hpast⟩ => ?_
  have hold : id ∉ m.started :=
    fun hi => List.disjoint_of_nodup_append hn' (List.mem_append_left _ hid) hi
  refine ⟨hm.move hb hn', fun hu' => (hu'.past hb hn').elim hold hgone, fun f hf hi => ?_⟩
  rcases answered_move hb hm hn' with hsame | ⟨i, hi', ⟨g, rfl, hnew⟩, -⟩
  · exact hpast f (hsame ▸ hf) hi
  · rw [hnew] at hf
    rcases List.mem_append.1 hf with hf | hf
    · exact hpast f hf hi
    · rw [List.mem_singleton.1 hf] at hi
      rw [hi] at hi'
      exact absurd hi' (not_or.2 ⟨hold, hgone⟩)

theorem not_underWay_abort (s : Resolver) (id : Nat) : ¬UnderWay (s.abort id) id := by
  rintro (⟨c, hc, hi⟩ | ⟨f, hf, hi⟩)
  · exact id_ne_of_mem_drop hc hi
  · exact (mem_withoutFlight.1 hf).2 hi

end OrderLookup.Resolver
