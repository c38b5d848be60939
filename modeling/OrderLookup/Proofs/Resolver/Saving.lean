import OrderLookup.Proofs.Resolver.Draining

/-!
An order on its way into the store. From the start of a write there is a store call for it in
flight, or its answer is there, whatever the others do in between; only who drops the write takes
this away. The answer names the order that was written.
-/

namespace OrderLookup.Resolver

open Inflight (Registry Caller)

/-- What holds of an operation that writes an order, dropped or not: it does nothing else. -/
structure Author (s : Resolver) (id : Nat) (o : Order) : Prop where
  callers : ∀ c ∈ s.registry.callers, c.id ≠ id
  flights : ∀ f ∈ s.flights, f.id = id → f.work = .save o
  finished : ∀ f ∈ s.finished, f.id = id →
    ∃ r, f.reply = .stored r ∧ ∀ uid, r = .ok uid → uid = o.uid

/-- What holds of an operation that writes an order, until it is dropped. -/
structure Saving (s : Resolver) (id : Nat) (o : Order) : Prop extends Author s id o where
  present : (∃ f ∈ s.flights, f.id = id) ∨ ∃ f ∈ s.finished, f.id = id

variable {s s' : Resolver} {m : Move} {ms : List Move} {ids : List Nat} {id : Nat} {o : Order}
  {l : List (Nat × Action)}

theorem mem_finish {i : Nat} {reply : Reply} {f : Finish} :
    f ∈ (s.finish i reply).finished ↔ f ∈ s.finished ∨ f = ⟨i, s.now, reply⟩ := by
  simp [finish]

theorem lead_past {i : Nat} {uid : String} {f : Finish} (hf : f ∈ (s.lead i uid).finished) :
    f ∈ s.finished ∨ f.id = i := by
  rw [lead] at hf
  split at hf
  · rcases mem_finish.1 hf with hf | rfl
    · exact .inl hf
    · exact .inr rfl
  · exact .inl hf

theorem start_past {i : Nat} {a : Action} {f : Finish} (hf : f ∈ (s.start i a).finished) :
    f ∈ s.finished ∨ f.id = i := by
  have hfinish : ∀ {s : Resolver} {reply : Reply}, f ∈ (s.finish i reply).finished →
      f ∈ s.finished ∨ f.id = i := by
    intro s reply hf
    rcases mem_finish.1 hf with hf | rfl
    · exact .inl hf
    · exact .inr rfl
  cases a with
  | get k =>
    rw [start, Resolver.get] at hf
    split at hf
    · exact hfinish hf
    · split at hf
      · exact hfinish hf
      · exact .inl hf
      · have hlead := lead_past hf
        exact hlead
  | store o =>
    rw [start] at hf
    split at hf <;> exact hfinish hf
  | create o => exact .inl hf
  | refresh => exact .inl hf
  | abort target => exact .inl hf
  | _ => exact hfinish hf

theorem land_past {g : Flight} {f : Finish} (hf : f ∈ (s.land g).finished) :
    f ∈ s.finished ∨ f.id = g.id ∧
      ∀ o, g.work = .save o → ∃ r, f.reply = .stored r ∧ ∀ uid, r = .ok uid → uid = o.uid := by
  rw [Resolver.land, resume] at hf
  split at hf
  · rename_i uid hw
    split at hf <;> rcases mem_finish.1 hf with hf | rfl
    · exact .inl hf
    · exact .inr ⟨rfl, by simp [hw]⟩
    · exact .inl hf
    · exact .inr ⟨rfl, by simp [hw]⟩
  · rename_i o hw
    split at hf <;> rcases mem_finish.1 hf with hf | rfl
    · exact .inl hf
    · refine .inr ⟨rfl, fun o' ho => ⟨_, rfl, fun uid hu => ?_⟩⟩
      rw [hw] at ho
      cases ho
      exact (Except.ok.inj hu).symm
    · exact .inl hf
    · exact .inr ⟨rfl, fun o' _ => ⟨_, rfl, fun uid hu => by cases hu⟩⟩
  · rename_i hw
    split at hf <;> rcases mem_finish.1 hf with hf | rfl
    · rw [fillAll_finished] at hf
      exact .inl hf
    · exact .inr ⟨rfl, by simp [hw]⟩
    · exact .inl hf
    · exact .inr ⟨rfl, by simp [hw]⟩

theorem takeOver_past {i : Nat} {f : Finish} (hf : f ∈ (s.takeOver i).finished) :
    f ∈ s.finished ∨ ∃ c ∈ s.registry.callers, c.id = f.id := by
  rw [Resolver.takeOver] at hf
  split at hf
  · exact .inl hf
  · rename_i c hc
    obtain ⟨hmem, hci⟩ := Inflight.Registry.mem_of_caller? hc
    split at hf
    · exact (lead_past hf).imp_right fun hi => ⟨c, hmem, hci.trans hi.symm⟩
    · exact .inl hf

theorem collect_past {i : Nat} {f : Finish} (hf : f ∈ (s.collect i).finished) :
    f ∈ s.finished ∨ ∃ c ∈ s.registry.callers, c.id = f.id := by
  rw [Resolver.collect] at hf
  split at hf
  · exact .inl hf
  · rename_i r registry hc
    obtain ⟨c, hcc, -, -⟩ := Inflight.Registry.collect_eq_some_iff.1 hc
    obtain ⟨hmem, hci⟩ := Inflight.Registry.mem_of_caller? hcc
    rcases mem_finish.1 hf with hf | rfl
    · exact .inl hf
    · exact .inr ⟨c, hmem, hci⟩

theorem finished_past {f : Finish} (hf : f ∈ (s.move m).finished) :
    f ∈ s.finished ∨ f.id ∈ m.started ∨ (∃ c ∈ s.registry.callers, c.id = f.id) ∨
      ∃ g ∈ s.flights, m = .land g ∧ g.id = f.id ∧
        ∀ o, g.work = .save o → ∃ r, f.reply = .stored r ∧ ∀ uid, r = .ok uid → uid = o.uid := by
  cases m with
  | start i a =>
    rcases start_past hf with hf | hi
    · exact .inl hf
    · exact .inr (.inl (List.mem_singleton.2 hi))
  | land g =>
    rw [move] at hf
    split at hf
    · rename_i hg
      rcases land_past hf with hf | ⟨hi, hr⟩
      · exact .inl hf
      · exact .inr (.inr (.inr ⟨g, hg, rfl, hi.symm, hr⟩))
    · exact .inl hf
  | takeOver i => exact (takeOver_past hf).imp_right fun hc => .inr (.inl hc)
  | collect i => exact (collect_past hf).imp_right fun hc => .inr (.inl hc)
  | wait time => exact .inl hf

theorem Shift.callers_past (h : Coherent ids s) (hs : Shift s s' m) {c : Caller}
    (hc : c ∈ s'.registry.callers) :
    c.id ∈ m.started ∨ ∃ d ∈ s.registry.callers, d.id = c.id := by
  have hjoin : ∀ {i k : _}, s.registry.caller? i = none → c ∈ (s.registry.join i k).2.callers →
      c.id = i ∨ ∃ d ∈ s.registry.callers, d.id = c.id := by
    intro i k hi hc
    rcases (Registry.Step.join k hi).caller_past h.sound hc with ⟨d, hd, hdi, -⟩ | ⟨hj, -⟩
    · exact .inr ⟨d, hd, hdi⟩
    · exact .inl (Inflight.Move.join.inj hj).1.symm
  cases hs with
  | idle hr => exact .inr ⟨c, hr ▸ hc, rfl⟩
  | launched _ hr => exact .inr ⟨c, hr ▸ hc, rfl⟩
  | ended _ _ hr => exact .inr ⟨c, hr ▸ hc, rfl⟩
  | joined hi _ _ hr => exact (hjoin hi (hr ▸ hc)).imp_left List.mem_singleton.2
  | asked hi _ _ hr => exact (hjoin hi (hr ▸ hc)).imp_left List.mem_singleton.2
  | fetched _ _ _ _ _ hr => exact .inr ⟨c, complete_callers (hr ▸ hc), rfl⟩
  | found _ _ _ hr =>
    rw [hr] at hc
    rcases Inflight.Registry.mem_setStage.1 (complete_callers hc) with ⟨hc, -⟩ | ⟨d, hd, -, rfl⟩
    · exact .inr ⟨c, hc, rfl⟩
    · exact .inr ⟨d, hd, rfl⟩
  | resumed _ _ _ hr =>
    rw [hr] at hc
    rcases Inflight.Registry.mem_setStage.1 hc with ⟨hc, -⟩ | ⟨d, hd, -, rfl⟩
    · exact .inr ⟨c, hc, rfl⟩
    · exact .inr ⟨d, hd, rfl⟩
  | collected _ _ hr =>
    rw [hr] at hc
    exact .inr ⟨c, (Inflight.Registry.mem_without.1 hc).1, rfl⟩
  | @dropped _ target hr =>
    rw [hr] at hc
    have hst := Inflight.Registry.drop_step s.registry target
    rcases hst.caller_past h.sound hc with ⟨d, hd, hdi, -⟩ | ⟨hj, -⟩
    · exact .inr ⟨d, hd, hdi⟩
    · cases hj

theorem Shift.flights_past (hs : Shift s s' m) {f : Flight} (hf : f ∈ s'.flights) :
    f ∈ s.flights ∨ f.id ∈ m.started ∨ ∃ c ∈ s.registry.callers, c.id = f.id := by
  have hnew : ∀ {g : Flight}, s'.flights = s.flights ++ [g] → f ∈ s.flights ∨ f = g := by
    intro g hfl
    rw [hfl] at hf
    exact (List.mem_append.1 hf).imp_right List.mem_singleton.1
  have hold : ∀ {i : Nat}, s'.flights = (s.withoutFlight i).flights → f ∈ s.flights :=
    fun hfl => (mem_withoutFlight.1 (hfl ▸ hf)).1
  cases hs with
  | idle _ hfl => exact .inl (hfl ▸ hf)
  | launched _ _ hfl =>
    rcases hnew hfl with hf | rfl
    · exact .inl hf
    · exact .inr (.inl (.head _))
  | ended _ _ _ hfl => exact .inl (hold hfl)
  | joined _ _ _ _ hfl => exact .inl (hfl ▸ hf)
  | asked _ _ _ _ hfl =>
    rcases hnew hfl with hf | rfl
    · exact .inl hf
    · exact .inr (.inl (.head _))
  | fetched _ _ _ _ _ _ hfl => exact .inl (hold hfl)
  | found _ _ _ _ hfl => exact .inl (hfl ▸ hf)
  | resumed hc _ _ _ hfl =>
    rcases hnew hfl with hf | rfl
    · exact .inl hf
    · exact .inr (.inr ⟨_, hc, rfl⟩)
  | collected _ _ _ hfl => exact .inl (hfl ▸ hf)
  | dropped _ hfl => exact .inl (hold hfl)

theorem Shift.flights_future (hs : Shift s s' m) {f : Flight} (hf : f ∈ s.flights) :
    f ∈ s'.flights ∨ (∃ g ∈ s.flights, m = .land g ∧ g.id = f.id) ∨
      ∃ i, m = .start i (.abort f.id) := by
  cases hs with
  | idle _ hfl => exact .inl (hfl ▸ hf)
  | launched _ _ hfl => exact .inl (hfl ▸ List.mem_append_left _ hf)
  | joined _ _ _ _ hfl => exact .inl (hfl ▸ hf)
  | asked _ _ _ _ hfl => exact .inl (hfl ▸ List.mem_append_left _ hf)
  | found _ _ _ _ hfl => exact .inl (hfl ▸ hf)
  | resumed _ _ _ _ hfl => exact .inl (hfl ▸ List.mem_append_left _ hf)
  | collected _ _ _ hfl => exact .inl (hfl ▸ hf)
  | @ended g _ hg _ hfl =>
    by_cases hi : f.id = g.id
    · exact .inr (.inl ⟨g, hg, rfl, hi.symm⟩)
    · exact .inl (hfl ▸ mem_withoutFlight.2 ⟨hf, hi⟩)
  | @fetched g _ _ _ hg _ _ _ _ hfl =>
    by_cases hi : f.id = g.id
    · exact .inr (.inl ⟨g, hg, rfl, hi.symm⟩)
    · exact .inl (hfl ▸ mem_withoutFlight.2 ⟨hf, hi⟩)
  | @dropped i target _ hfl =>
    by_cases hi : f.id = target
    · exact .inr (.inr ⟨i, by rw [hi]⟩)
    · exact .inl (hfl ▸ mem_withoutFlight.2 ⟨hf, hi⟩)

theorem land_answers (s : Resolver) (f : Flight) :
    ∃ g ∈ (s.land f).finished, g.id = f.id := by
  rw [Resolver.land, resume]
  split
  · split <;> exact ⟨_, mem_finish.2 (.inr rfl), rfl⟩
  · split <;> exact ⟨_, mem_finish.2 (.inr rfl), rfl⟩
  · split <;> exact ⟨_, mem_finish.2 (.inr rfl), rfl⟩

theorem mem_of_stored {r : Except OrderError String} (h : s.stored? id = some r) :
    ∃ f ∈ s.finished, f.id = id ∧ f.reply = .stored r := by
  rw [stored?, reply?, finish?] at h
  cases hf : s.finished.find? fun f => f.id = id with
  | none => simp [hf] at h
  | some f =>
    refine ⟨f, List.mem_of_find?_eq_some hf, by simpa using List.find?_some hf, ?_⟩
    simp only [hf, Option.map_some] at h
    split at h
    · rename_i hr
      rw [Option.some.inj hr, Option.some.inj h]
    · cases h

theorem Leads.finished (hl : Leads s l s') : s.finished ⊆ s'.finished := by
  obtain ⟨ms, -, rfl⟩ := hl
  exact run_induction (P := fun s' => s.finished ⊆ s'.finished) (List.Subset.refl _)
    fun before m _ _ hb => List.Subset.trans hb (finished_move (s.run before) m)

namespace Author

theorem ofStart (h : Coherent ids s) (hid : id ∉ ids) (o : Order) :
    Author (s.start id (.create o)) id o where
  callers c hc hi := hid (hi ▸ h.callers c hc)
  flights := by
    intro f hf hi
    rcases List.mem_append.1 hf with hf | hf
    · exact absurd hi (h.flight_ne hid hf)
    · rw [List.mem_singleton.1 hf]
  finished f hf hi := absurd (hi ▸ h.finished f hf) hid

theorem move (h : Coherent ids s) (ha : Author s id o) (hid : id ∈ ids)
    (hn : (ids ++ m.started).Nodup) : Author (s.move m) id o := by
  have hshift := shift_move h hn
  have hold : id ∉ m.started := fun hi => List.disjoint_of_nodup_append hn hid hi
  constructor
  case callers =>
    rintro c hc rfl
    rcases hshift.callers_past h hc with hi | ⟨d, hdm, hdi⟩
    · exact hold hi
    · exact ha.callers d hdm hdi
  case flights =>
    rintro f hf rfl
    rcases hshift.flights_past hf with hf | hi | ⟨c, hc, hi⟩
    · exact ha.flights f hf rfl
    · exact absurd hi hold
    · exact absurd hi (ha.callers c hc)
  case finished =>
    rintro f hf rfl
    rcases finished_past hf with hf | hi | ⟨c, hc, hi⟩ | ⟨g, hg, -, hi, hr⟩
    · exact ha.finished f hf rfl
    · exact absurd hi hold
    · exact absurd hi (ha.callers c hc)
    · exact hr o (ha.flights g hg hi)

theorem run (h : Coherent ids s) (ha : Author s id o) (hid : id ∈ ids)
    (hn : (ids ++ started ms).Nodup) : Author (s.run ms) id o :=
  h.run_induction (P := fun s => Author s id o) hn ha fun _ _ _ _ hb hn' ha =>
    ha.move hb (List.mem_append_left _ hid) hn'

end Author

namespace Saving

theorem ofStart (h : Coherent ids s) (hid : id ∉ ids) (o : Order) :
    Saving (s.start id (.create o)) id o where
  toAuthor := .ofStart h hid o
  present := .inl ⟨_, List.mem_append_right _ (.head _), rfl⟩

theorem mem (h : Coherent ids s) (hs : Saving s id o) : id ∈ ids := by
  rcases hs.present with ⟨f, hf, rfl⟩ | ⟨f, hf, rfl⟩
  · exact h.flights f hf
  · exact h.finished f hf

theorem move (h : Coherent ids s) (hs : Saving s id o) (hn : (ids ++ m.started).Nodup)
    (hd : ∀ i, m ≠ .start i (.abort id)) : Saving (s.move m) id o where
  toAuthor := hs.toAuthor.move h (hs.mem h) hn
  present := by
    rcases hs.present with ⟨f, hf, rfl⟩ | ⟨f, hf, rfl⟩
    · rcases (shift_move h hn).flights_future hf with hf | ⟨g, hg, rfl, hi⟩ | ⟨i, rfl⟩
      · exact .inl ⟨f, hf, rfl⟩
      · right
        rw [Resolver.move, if_pos hg, ← hi]
        exact land_answers s g
      · exact absurd rfl (hd i)
    · exact .inr ⟨f, finished_move s m hf, rfl⟩

theorem run (h : Coherent ids s) (hs : Saving s id o) (hn : (ids ++ started ms).Nodup)
    (hd : ∀ i, .start i (.abort id) ∉ ms) : Saving (s.run ms) id o :=
  h.run_induction (P := fun s => Saving s id o) hn hs fun _ _ _ he hb hn' hs =>
    hs.move hb hn' fun i hm => hd i (by simp [he, hm])

theorem ofLeads (h : Coherent ids s) (hs : Saving s id o) (hl : Leads s l s')
    (hn : (ids ++ l.map Prod.fst).Nodup) (hd : ∀ i, (i, .abort id) ∉ l) : Saving s' id o := by
  obtain ⟨ms, rfl, rfl⟩ := hl
  apply hs.run h
  · rwa [started_eq]
  · exact fun i hm => hd i (mem_operations hm)

theorem uid_eq (hs : Saving s id o) {uid : String} (h : s.stored? id = some (.ok uid)) :
    uid = o.uid := by
  obtain ⟨f, hf, hi, hr⟩ := mem_of_stored h
  obtain ⟨r, hfr, huid⟩ := hs.finished f hf hi
  rw [hr] at hfr
  exact huid uid (Reply.stored.inj hfr).symm

theorem exists_stored (hs : Saving s id o) (hf : s.flights = []) : ∃ r, s.stored? id = some r := by
  rw [stored?, reply?, finish?]
  rcases hs.present with ⟨f, hfl, -⟩ | ⟨f, hfin, hi⟩
  · rw [hf] at hfl
    cases hfl
  · cases hfind : s.finished.find? fun f => f.id = id with
    | none =>
      have hnone := List.find?_eq_none.1 hfind f hfin
      simp [hi] at hnone
    | some g =>
      obtain ⟨r, hr, -⟩ := hs.finished g (List.mem_of_find?_eq_some hfind)
        (by simpa using List.find?_some hfind)
      exact ⟨r, by simp [hr]⟩

end Saving

end OrderLookup.Resolver
