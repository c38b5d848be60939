import OrderLookup.Proofs.Resolver.Alone

/-!
How a write ends. The answer to it is known from the order, the script and the deadline alone: it
does not matter what the store holds, what time it is, or who else waits. The store takes the order
exactly if the answer is good.
-/

namespace OrderLookup.Resolver

def answer (p : Pending) (o : Order) : Except OrderError String :=
  outcome p ((Repository.empty.upsert o).map fun _ => o.uid)

/-- How a write of an order ends that begins under the given settings and script. -/
def verdict (settings : Settings) (script : Script) (o : Order) : Except OrderError String :=
  answer (.start script ⟨.upsertOrder, o.uid⟩ 0 settings.writeTimeout) o

def absorb (r : Repository) (f : Flight) : Repository :=
  match f.work with
  | .save o => if (answer f.pending o).isOk then r.put o else r
  | _ => r

variable {s : Resolver} {f : Flight} {o : Order} {p : Pending} {uid : String} {id : Nat}
  {settings : Settings} {script : Script} {r : Repository}

theorem outcome_map {α β : Type} (p : Pending) (r : Except OrderError α) (g : α → β) :
    outcome p (r.map g) = (outcome p r).map g := by
  rw [outcome, outcome]
  split
  · cases p.failure <;> rfl
  · rfl

theorem outcome_upsert (p : Pending) (r : Repository) (o : Order) :
    outcome p (r.upsert o) = (answer p o).map fun _ => r.put o := by
  rw [r.upsert_eq, outcome_map, answer, outcome_map]
  cases outcome p (Repository.empty.upsert o) <;> rfl

theorem uid_of_answer (h : answer p o = .ok uid) : uid = o.uid := by
  rw [answer, outcome_map] at h
  cases ho : outcome p (Repository.empty.upsert o) with
  | ok r =>
    rw [ho] at h
    exact (Except.ok.inj h).symm
  | error e =>
    rw [ho] at h
    cases h

theorem uid_of_verdict (h : verdict settings script o = .ok uid) : uid = o.uid :=
  uid_of_answer h

theorem land_repository_eq (s : Resolver) (f : Flight) :
    (s.land f).repository = absorb s.repository f := by
  rw [land_repository, absorb]
  cases f.work with
  | save o =>
    dsimp only
    rw [outcome_upsert]
    cases answer f.pending o <;> rfl
  | _ => rfl

theorem land_save (s : Resolver) (hw : f.work = .save o) :
    s.land f =
      { s.withoutFlight f.id with repository := absorb s.repository f }.finish f.id
        (.stored (answer f.pending o)) := by
  rw [land, resume, absorb, hw]
  dsimp only
  rw [outcome_upsert]
  cases ha : answer f.pending o with
  | ok uid =>
    rw [uid_of_answer ha]
    rfl
  | error e => rfl

def written (settings : Settings) (script : Script) (r : Repository) (o : Order) : Repository :=
  if (verdict settings script o).isOk then r.put o else r

structure Written (settings : Settings) (script : Script) (r : Repository) (id : Nat) (o : Order)
    (s : Resolver) : Prop where
  flights : s.flights = []
  answered : s.stored? id = some (verdict settings script o)
  past : ∀ g ∈ s.finished, g.id ≤ id
  repository : s.repository = written settings script r o

/-- A write that nothing else goes on beside: its store call is in flight, or it is over. -/
inductive Writing (settings : Settings) (script : Script) (r : Repository) (id : Nat) (o : Order)
    (s : Resolver) : Prop
  | begun {f : Flight} (flights : s.flights = [f]) (own : f.id = id) (work : f.work = .save o)
      (pending : answer f.pending o = verdict settings script o)
      (past : ∀ g ∈ s.finished, g.id < id) (repository : s.repository = r)
  | ended (h : Written settings script r id o s)

structure Frame (s s' : Resolver) : Prop where
  settings : s'.settings = s.settings
  script : s'.script = s.script
  cache : s'.cache = s.cache
  registry : s'.registry = s.registry

theorem Frame.refl (s : Resolver) : Frame s s := ⟨rfl, rfl, rfl, rfl⟩

theorem Frame.trans {s' s'' : Resolver} (h : Frame s s') (h' : Frame s' s'') : Frame s s'' :=
  ⟨h'.settings.trans h.settings, h'.script.trans h.script, h'.cache.trans h.cache,
    h'.registry.trans h.registry⟩

theorem land_save_frame (s : Resolver) (hw : f.work = .save o) : Frame s (s.land f) := by
  rw [land_save s hw]
  exact ⟨rfl, rfl, rfl, rfl⟩

theorem written_eq (hw : f.work = .save o)
    (ha : answer f.pending o = verdict settings script o) :
    absorb r f = written settings script r o := by
  rw [absorb, hw, written, ← ha]

theorem Written.ofLand (hf : s.flights = [f]) (hi : f.id = id) (hw : f.work = .save o)
    (ha : answer f.pending o = verdict settings script o) (hp : ∀ g ∈ s.finished, g.id < id) :
    Written settings script s.repository id o (s.land f) := by
  rw [land_save s hw, written_eq hw ha, ha]
  constructor
  case flights =>
    change s.flights.filter (fun g => g.id ≠ f.id) = []
    simp [hf]
  case answered =>
    rw [stored?, reply?_of_fresh (fun g hg => Nat.ne_of_lt (hp g hg)) hi rfl]
  case past =>
    intro g hg
    rcases mem_finish.1 hg with hg | rfl
    · exact Nat.le_of_lt (hp g hg)
    · exact Nat.le_of_eq hi
  case repository => rfl

namespace Writing

theorem wake (h : Writing settings script r id o s) (hc : s.registry.callers = []) :
    Writing settings script r id o s.wake ∧ Frame s s.wake := by
  cases h with
  | @begun f hf hi hw ha hp hr =>
    subst hr
    rw [wake_alone hf hc fun s => (land_save_frame s hw).registry]
    have hland := Written.ofLand (s := { s with now := max s.now f.due }) hf hi hw ha hp
    have hframe := land_save_frame { s with now := max s.now f.due } hw
    exact ⟨.ended hland, ⟨hframe.settings, hframe.script, hframe.cache, hframe.registry⟩⟩
  | ended h =>
    have hwake : s.wake = s := by
      rw [Resolver.wake, h.flights]
      rfl
    rw [hwake]
    exact ⟨.ended h, .refl s⟩

theorem wait (h : Writing settings script r id o s) (time : Nat) :
    Writing settings script r id o { s with now := max s.now time } := by
  cases h with
  | begun hf hi hw ha hp hr => exact .begun hf hi hw ha hp hr
  | ended h => exact .ended ⟨h.flights, h.answered, h.past, h.repository⟩

theorem over_of_stored (h : Writing settings script r id o s) {a : Except OrderError String}
    (ha : s.stored? id = some a) :
    Written settings script r id o s ∧ a = verdict settings script o := by
  cases h with
  | begun _ _ _ _ hp =>
    obtain ⟨f, hf, hi, -⟩ := mem_of_stored ha
    exact absurd hi (Nat.ne_of_lt (hp f hf))
  | ended h => exact ⟨h, Option.some.inj (ha.symm.trans h.answered)⟩

end Writing

/-- Whether nothing is under way, and no number from `n` on has been answered. -/
structure AtRest (s : Resolver) (n : Nat) : Prop where
  callers : s.registry.callers = []
  flights : s.flights = []
  past : ∀ f ∈ s.finished, f.id < n

namespace AtRest

theorem launch_flights (h : AtRest s id) (work : Work) :
    (s.launch id work).flights = [s.flightFor id work] :=
  congrArg (· ++ [s.flightFor id work]) h.flights

theorem wake (h : AtRest s id) : s.wake = s := by
  rw [Resolver.wake, h.flights]
  rfl

theorem wait (h : AtRest s id) (time : Nat) : AtRest { s with now := max s.now time } id :=
  ⟨h.callers, h.flights, h.past⟩

theorem advance (h : AtRest s id) (o : Order) :
    let s' := clock.advance s.now (s.act id (.create o))
    Writing s.settings s.script s.repository id o s' ∧ Frame s s' := by
  have hact : s.act id (.create o) = s.launch id (.save o) := proceed_of_callers_nil h.callers
  have hframe : Frame s (s.launch id (.save o)) := ⟨rfl, rfl, rfl, rfl⟩
  have hbegun : Writing s.settings s.script s.repository id o (s.launch id (.save o)) :=
    .begun (h.launch_flights _) rfl rfl rfl h.past rfl
  rw [hact]
  rcases advance_alone (h.launch_flights (.save o)) s.now with he | he
  · rw [he]
    exact ⟨hbegun, hframe⟩
  · obtain ⟨hwake, hrest⟩ := hbegun.wake h.callers
    rw [he]
    exact ⟨hwake, hframe.trans hrest⟩

theorem perform (h : AtRest s id) (o : Order) :
    let s' := s.perform id (.create o)
    Written s.settings s.script s.repository id o s' ∧ Frame s s' ∧ AtRest s' (id + 1) := by
  have hw : (s.flightFor id (.save o)).work = .save o := rfl
  have hperform :
      s.perform id (.create o) = (s.awaited id (.save o)).land (s.flightFor id (.save o)) :=
    drain_launch h.flights h.callers fun s' => (land_save_frame s' hw).registry
  have hwritten : Written s.settings s.script s.repository id o (s.perform id (.create o)) :=
    hperform ▸ .ofLand (s := s.awaited id (.save o)) (h.launch_flights _) rfl hw rfl h.past
  have hframe : Frame s (s.perform id (.create o)) := by
    have hland := land_save_frame (s.awaited id (.save o)) hw
    rw [hperform]
    exact ⟨hland.settings, hland.script, hland.cache, hland.registry⟩
  refine ⟨hwritten, hframe, (congrArg _ hframe.registry).trans h.callers, hwritten.flights, ?_⟩
  exact fun f hf => Nat.lt_succ_of_le (hwritten.past f hf)

end AtRest

end OrderLookup.Resolver
