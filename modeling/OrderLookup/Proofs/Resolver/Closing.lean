import OrderLookup.Proofs.Resolver.Writing

/-!
What is left when all store calls have ended. Nobody begins a new one while the calls in flight
end, so the store ends as these calls leave it, one after another as they fall due. A call that the
store does not take might as well not have been there, and who made a call does not count.
-/

namespace OrderLookup.Resolver

def besides (f : Flight) (fs : List Flight) : List Flight := fs.filter fun g => g.id ≠ f.id

theorem length_besides_lt {f : Flight} {fs : List Flight} (hf : f ∈ fs) :
    (besides f fs).length < fs.length :=
  List.length_filter_lt_length_iff_exists.2 ⟨f, hf, by simp⟩

/-- The repository after the given store calls have ended, the earliest first. -/
def closing (fs : List Flight) (r : Repository) : Repository :=
  match _hf : Clock.soonest Flight.due fs with
  | none => r
  | some f => closing (besides f fs) (absorb r f)
termination_by fs.length
decreasing_by exact length_besides_lt (Clock.mem_of_soonest _hf)

variable {s s' : Resolver} {m : Move} {ms : List Move} {ids : List Nat} {id : Nat} {uid : String}
  {o : Order} {p : Pending} {f g : Flight} {fs : List Flight} {r r' : Repository}
  {l : List (Nat × Action)}

theorem closing_of_soonest (h : Clock.soonest Flight.due fs = some f) :
    closing fs r = closing (besides f fs) (absorb r f) := by
  rw [closing]
  split
  · rename_i hn
    rw [h] at hn
    cases hn
  · rename_i g hg
    rw [h] at hg
    cases hg
    rfl

theorem closing_nil (r : Repository) : closing [] r = r := by
  rw [closing]
  rfl

/-- Induction along the order in which the calls end. -/
@[elab_as_elim]
theorem closing_induction {P : List Flight → Prop} (nil : P [])
    (step : ∀ fs f, Clock.soonest Flight.due fs = some f → P (besides f fs) → P fs)
    (fs : List Flight) : P fs := by
  cases hf : Clock.soonest Flight.due fs with
  | none => exact Clock.eq_nil_of_soonest hf ▸ nil
  | some f =>
    have hmem := Clock.mem_of_soonest hf
    exact step fs f hf (closing_induction nil step (besides f fs))
termination_by fs.length
decreasing_by exact length_besides_lt hmem

theorem soonest_concat {α : Type} (due : α → Nat) (l : List α) (a : α) :
    Clock.soonest due (l ++ [a]) =
      match Clock.soonest due l with
      | none => some a
      | some b => if due b ≤ due a then some b else some a := by
  induction l with
  | nil => rfl
  | cons b l ih =>
    rw [List.cons_append, Clock.soonest, ih, Clock.soonest]
    cases Clock.soonest due l with
    | none => rfl
    | some c =>
      dsimp only
      by_cases hca : due c ≤ due a
      · by_cases hbc : due b ≤ due c
        · simp [hca, hbc, Nat.le_trans hbc hca]
        · simp [hca, hbc]
      · by_cases hbc : due b ≤ due c
        · by_cases hba : due b ≤ due a <;> simp [hca, hbc, hba]
        · have hba : ¬due b ≤ due a := by omega
          simp [hca, hbc, hba]

theorem proceed_repository (s : Resolver) : s.proceed.repository = s.repository := by
  have hfold : ∀ (step : Resolver → Nat → Resolver),
      (∀ s i, (step s i).repository = s.repository) → ∀ (is : List Nat) (s : Resolver),
        (is.foldl step s).repository = s.repository := by
    intro step hstep is
    induction is with
    | nil => exact fun s => rfl
    | cons i is ih => exact fun s => (ih (step s i)).trans (hstep s i)
  rw [proceed]
  exact (hfold collect collect_repository _ _).trans (hfold takeOver takeOver_repository _ s)

theorem wake_of_soonest (h : Coherent ids s) (hs : Settled s)
    (hf : Clock.soonest Flight.due s.flights = some f) :
    s.wake.flights = besides f s.flights ∧
      s.wake.repository = absorb s.repository f := by
  have hmem := Clock.mem_of_soonest hf
  have hnow : Coherent ids { s with now := max s.now f.due } :=
    ⟨h.history, h.indexed, h.callers, h.finished, h.flights, h.fetching⟩
  rw [wake, hf]
  constructor
  · rw [proceed_flights (hnow.land hmem) (land_unchosen hnow hs.unchosen hmem), land_flights]
    rfl
  · rw [proceed_repository, land_repository_eq]

theorem advanceFor_repository (h : Coherent ids s) (hn : ids.Nodup) (hs : Settled s) {steps : Nat}
    (hl : s.flights.length ≤ steps) :
    (clock.advanceFor none steps s).repository = closing s.flights s.repository := by
  induction steps generalizing s with
  | zero =>
    rw [Clock.advanceFor, List.length_eq_zero_iff.1 (Nat.le_zero.1 hl), closing_nil]
  | succ steps ih =>
    rw [Clock.advanceFor]
    cases hf : Clock.soonest Flight.due s.flights with
    | none =>
      have hempty := Clock.eq_nil_of_soonest hf
      rw [if_neg (by simp [isDue_none_iff, hempty]), hempty, closing_nil]
    | some f =>
      have hmem := Clock.mem_of_soonest hf
      obtain ⟨hflights, hrepository⟩ := wake_of_soonest h hs hf
      have hfewer := length_besides_lt hmem
      have hrest := ih ((Leads.wake s).stays_coherent h hn) (wake_settled h hs).1
        (by rw [hflights]; omega)
      rw [if_pos (isDue_none_iff.2 (List.ne_nil_of_mem hmem)), closing_of_soonest hf]
      rwa [hflights, hrepository] at hrest

theorem drain_repository (h : Coherent ids s) (hn : ids.Nodup) (hs : Settled s) :
    (clock.drain s).repository = closing s.flights s.repository :=
  advanceFor_repository h hn hs (Nat.le_refl _)

theorem mem_besides : g ∈ besides f fs ↔ g ∈ fs ∧ g.id ≠ f.id := by simp [besides]

theorem besides_concat (hg : f.id ≠ g.id) : besides f (fs ++ [g]) = besides f fs ++ [g] := by
  simp [besides, hg.symm]

theorem besides_last (hg : ∀ f ∈ fs, f.id ≠ g.id) : besides g (fs ++ [g]) = fs := by
  rw [besides, List.filter_append, List.filter_eq_self.2 fun f hf => by simpa using hg f hf]
  simp

theorem closing_singleton (f : Flight) (r : Repository) : closing [f] r = absorb r f := by
  have hlone : besides f ([] ++ [f]) = [] := besides_last (by simp)
  rw [closing_of_soonest (f := f) rfl]
  exact (congrArg (closing · (absorb r f)) hlone).trans (closing_nil _)

/-- A call that is made last ends at some moment among the others, which depends on nothing but the
instant at which it is due. -/
theorem closing_concat (fs : List Flight) (r : Repository) (due : Nat) :
    ∃ rest now, rest ⊆ fs ∧ closing fs r = closing rest now ∧
      ∀ g, g.due = due → (∀ f ∈ fs, f.id ≠ g.id) →
        closing (fs ++ [g]) r = closing rest (absorb now g) := by
  -- The calls end one after another, and the new one comes before the first that is due later.
  induction fs using closing_induction generalizing r with
  | nil =>
    refine ⟨[], r, List.Subset.refl _, rfl, fun g _ _ => ?_⟩
    rw [List.nil_append, closing_singleton, closing_nil]
  | step fs f hf ih =>
    have hmem := Clock.mem_of_soonest hf
    by_cases hlate : f.due ≤ due
    · obtain ⟨rest, now, hsub, hsame, hlast⟩ := ih (absorb r f)
      refine ⟨rest, now, fun a ha => (mem_besides.1 (hsub ha)).1, ?_, fun g hg hn => ?_⟩
      · rw [closing_of_soonest hf, hsame]
      · have hnext : Clock.soonest Flight.due (fs ++ [g]) = some f := by
          rw [soonest_concat, hf, hg]
          exact if_pos hlate
        rw [closing_of_soonest hnext, besides_concat (hn f hmem)]
        exact hlast g hg fun a ha => hn a (mem_besides.1 ha).1
    · refine ⟨fs, r, List.Subset.refl _, rfl, fun g hg hn => ?_⟩
      have hnext : Clock.soonest Flight.due (fs ++ [g]) = some g := by
        rw [soonest_concat, hf, hg]
        exact if_neg hlate
      rw [closing_of_soonest hnext, besides_last hn]

theorem closing_concat_of_refused (hn : ∀ f ∈ fs, f.id ≠ g.id) (hg : ∀ r, absorb r g = r)
    (r : Repository) : closing (fs ++ [g]) r = closing fs r := by
  obtain ⟨rest, now, -, hsame, hlast⟩ := closing_concat fs r g.due
  rw [hlast g rfl hn, hg, hsame]

theorem closing_concat_congr {g' : Flight} (hn : ∀ f ∈ fs, f.id ≠ g.id)
    (hn' : ∀ f ∈ fs, f.id ≠ g'.id) (hw : g'.work = g.work) (hp : g'.pending = g.pending)
    (r : Repository) : closing (fs ++ [g']) r = closing (fs ++ [g]) r := by
  obtain ⟨rest, now, -, -, hlast⟩ := closing_concat fs r g.due
  have hdue : g'.due = g.due := congrArg Pending.ends hp
  have habsorb : absorb now g' = absorb now g := by rw [absorb, absorb, hw, hp]
  rw [hlast g rfl hn, hlast g' hdue hn', habsorb]

def Writes (f : Flight) (uid : String) : Prop := ∃ o, f.work = .save o ∧ o.uid = uid

theorem get?_absorb (h : ¬Writes f uid) (r : Repository) :
    (absorb r f).orders.get? uid = r.orders.get? uid := by
  rw [absorb]
  cases hw : f.work with
  | save o =>
    dsimp only
    split
    · rw [Repository.put, Table.get?_insert_of_ne]
      exact fun he => h ⟨o, hw, he⟩
    · rfl
  | _ => rfl

theorem get?_absorb_congr (h : r.orders.get? uid = r'.orders.get? uid) (f : Flight) :
    (absorb r f).orders.get? uid = (absorb r' f).orders.get? uid := by
  rw [absorb, absorb]
  cases f.work with
  | save o =>
    dsimp only
    split
    · rw [Repository.put, Repository.put, Table.get?_insert, Table.get?_insert, h]
    · exact h
  | _ => exact h

theorem get?_closing_congr (fs : List Flight) (h : r.orders.get? uid = r'.orders.get? uid) :
    (closing fs r).orders.get? uid = (closing fs r').orders.get? uid := by
  induction fs using closing_induction generalizing r r' with
  | nil => rw [closing_nil, closing_nil, h]
  | step fs f hf ih =>
    rw [closing_of_soonest hf, closing_of_soonest hf]
    exact ih (get?_absorb_congr h f)

theorem get?_closing (h : ∀ f ∈ fs, ¬Writes f uid) (r : Repository) :
    (closing fs r).orders.get? uid = r.orders.get? uid := by
  induction fs using closing_induction generalizing r with
  | nil => rw [closing_nil]
  | step fs f hf ih =>
    rw [closing_of_soonest hf, ih fun g hg => h g (mem_besides.1 hg).1,
      get?_absorb (h f (Clock.mem_of_soonest hf))]

theorem get?_closing_concat (hn : ∀ f ∈ fs, f.id ≠ g.id) (hw : g.work = .save o)
    (ha : (answer g.pending o).isOk) (h : ∀ f ∈ fs, ¬Writes f o.uid) (r : Repository)
    (uid : String) :
    (closing (fs ++ [g]) r).orders.get? uid =
      if o.uid = uid then some o else (closing fs r).orders.get? uid := by
  obtain ⟨rest, now, hsub, hsame, hlast⟩ := closing_concat fs r g.due
  have habsorb : absorb now g = now.put o := by
    rw [absorb, hw]
    exact if_pos ha
  rw [hlast g rfl hn, habsorb, hsame]
  by_cases hu : o.uid = uid
  · subst hu
    rw [if_pos rfl, get?_closing (fun f hf => h f (hsub hf)), Repository.put,
      Table.get?_insert_self]
  · rw [if_neg hu]
    apply get?_closing_congr
    rw [Repository.put, Table.get?_insert_of_ne _ hu]

/-- What holds of an operation that writes an order by the given call, until it is dropped: the
answer is the one that this call gives. -/
structure Promised (s : Resolver) (id : Nat) (o : Order) (p : Pending) : Prop
    extends Saving s id o where
  pending : ∀ f ∈ s.flights, f.id = id → f.pending = p
  told : ∀ f ∈ s.finished, f.id = id → f.reply = .stored (answer p o)

namespace Promised

theorem ofStart (h : Coherent ids s) (hid : id ∉ ids) (o : Order) :
    Promised (s.start id (.create o)) id o (s.flightFor id (.save o)).pending where
  toSaving := .ofStart h hid o
  pending := by
    intro f hf hi
    rcases List.mem_append.1 hf with hf | hf
    · exact absurd hi (h.flight_ne hid hf)
    · rw [List.mem_singleton.1 hf]
      rfl
  told f hf hi := absurd (hi ▸ h.finished f hf) hid

theorem move (h : Coherent ids s) (hp : Promised s id o p) (hn : (ids ++ m.started).Nodup)
    (hd : ∀ i, m ≠ .start i (.abort id)) : Promised (s.move m) id o p where
  toSaving := hp.toSaving.move h hn hd
  pending := by
    rintro f hf rfl
    rcases (shift_move h hn).flights_past hf with hf | hi | ⟨c, hc, hi⟩
    · exact hp.pending f hf rfl
    · exact absurd hi fun hi => List.disjoint_of_nodup_append hn (hp.toSaving.mem h) hi
    · exact absurd hi (hp.callers c hc)
  told := by
    rintro f hf rfl
    have hold : f.id ∉ m.started := fun hi =>
      List.disjoint_of_nodup_append hn (hp.toSaving.mem h) hi
    cases m with
    | start i a =>
      rcases start_past hf with hf | hi
      · exact hp.told f hf rfl
      · exact absurd (List.mem_singleton.2 hi) hold
    | land g =>
      rw [Resolver.move] at hf
      split at hf
      · rename_i hg
        by_cases hi : g.id = f.id
        · rw [land_save s (hp.flights g hg hi), hp.pending g hg hi] at hf
          rcases mem_finish.1 hf with hf | rfl
          · exact hp.told f hf rfl
          · rfl
        · rcases land_past hf with hf | ⟨he, -⟩
          · exact hp.told f hf rfl
          · exact absurd he.symm hi
      · exact hp.told f hf rfl
    | takeOver i =>
      rcases takeOver_past hf with hf | ⟨c, hc, hi⟩
      · exact hp.told f hf rfl
      · exact absurd hi (hp.callers c hc)
    | collect i =>
      rcases collect_past hf with hf | ⟨c, hc, hi⟩
      · exact hp.told f hf rfl
      · exact absurd hi (hp.callers c hc)
    | wait time => exact hp.told f hf rfl

theorem run (h : Coherent ids s) (hp : Promised s id o p) (hn : (ids ++ started ms).Nodup)
    (hd : ∀ i, .start i (.abort id) ∉ ms) : Promised (s.run ms) id o p :=
  h.run_induction (P := fun s => Promised s id o p) hn hp fun _ _ _ he hb hn' hp =>
    hp.move hb hn' fun i hm => hd i (by simp [he, hm])

theorem ofLeads (h : Coherent ids s) (hp : Promised s id o p) (hl : Leads s [] s')
    (hn : ids.Nodup) : Promised s' id o p := by
  obtain ⟨ms, hops, rfl⟩ := hl
  have hstarted : started ms = [] := started_eq_nil hops
  apply hp.run h
  · rwa [hstarted, List.append_nil]
  · exact fun i => not_mem_of_operations hops i _

theorem stored (hp : Promised s id o p) (hf : s.flights = []) :
    s.stored? id = some (answer p o) := by
  obtain ⟨a, ha⟩ := hp.toSaving.exists_stored hf
  obtain ⟨f, hmem, hi, hr⟩ := mem_of_stored ha
  rw [hp.told f hmem hi] at hr
  rw [ha, Reply.stored.inj hr]

end Promised

/-- An order that is written while others are under way: the answer is the verdict on it, and the
store ends as the calls in flight and this one leave it. -/
theorem perform_create (h : Coherent ids s) (hn : ids.Nodup) (hs : Settled s) (hid : id ∉ ids)
    (o : Order) :
    (s.perform id (.create o)).stored? id = some (verdict s.settings s.script o) ∧
      (s.perform id (.create o)).repository =
        closing (s.flights ++ [s.flightFor id (.save o)]) s.repository := by
  have hnodup : (ids ++ [id]).Nodup := by
    rw [List.nodup_append]
    refine ⟨hn, List.nodup_singleton id, fun i hi j hj hij => hid ?_⟩
    rwa [← List.mem_singleton.1 hj, ← hij]
  have hstart := h.start hid (.create o)
  obtain ⟨hact, hsettled⟩ := h.act hnodup (.create o)
  have hflights : (s.act id (.create o)).flights = s.flights ++ [s.flightFor id (.save o)] :=
    proceed_flights hstart hs.unchosen
  constructor
  · have hl : Leads (s.start id (.create o)) [] (s.perform id (.create o)) :=
      (Leads.proceed _).trans (Leads.advanceFor none _ _)
    have hpromised := (Promised.ofStart h hid o).ofLeads hstart hl hnodup
    exact hpromised.stored (drained hact hnodup hsettled (Nat.le_refl _))
  · have hrepository : (s.act id (.create o)).repository = s.repository := proceed_repository _
    rw [perform, drain_repository hact hnodup hsettled, hflights, hrepository]

end OrderLookup.Resolver
