import OrderLookup.Proofs.Resolver.Runs

/-!
Timelines are runs. Whatever the clock lets happen is a list of moves, and the operations that a
timeline begins are those of its events, in their order. So what holds of all runs holds of all
timelines.
-/

namespace OrderLookup.Resolver

def Move.operation? : Move → Option (Nat × Action)
  | .start id a => some (id, a)
  | _ => none

def operations (ms : List Move) : List (Nat × Action) := ms.filterMap Move.operation?

/-- Whether a run that begins the given operations leads from one state to another. -/
def Leads (s : Resolver) (l : List (Nat × Action)) (s' : Resolver) : Prop :=
  ∃ ms, operations ms = l ∧ s.run ms = s'

variable {s s' s'' : Resolver} {l l' : List (Nat × Action)}

theorem started_eq (ms : List Move) : started ms = (operations ms).map Prod.fst := by
  induction ms with
  | nil => rfl
  | cons m ms ih =>
    cases m with
    | start id a => exact congrArg (id :: ·) ih
    | _ => exact ih

namespace Leads

theorem refl (s : Resolver) : Leads s [] s := ⟨[], rfl, rfl⟩

theorem move (m : Move) : Leads s m.operation?.toList (s.move m) := by
  refine ⟨[m], ?_, rfl⟩
  cases m <;> rfl

theorem trans (h : Leads s l s') (h' : Leads s' l' s'') : Leads s (l ++ l') s'' := by
  obtain ⟨ms, rfl, rfl⟩ := h
  obtain ⟨ms', rfl, rfl⟩ := h'
  exact ⟨ms ++ ms', List.filterMap_append, run_append s ms ms'⟩

theorem foldl {α : Type} (f : Resolver → α → Resolver) (hf : ∀ s a, Leads s [] (f s a))
    (as : List α) (s : Resolver) : Leads s [] (as.foldl f s) := by
  induction as generalizing s with
  | nil => exact refl s
  | cons a as ih => exact (hf s a).trans (ih (f s a))

theorem proceed (s : Resolver) : Leads s [] s.proceed := by
  have htake := foldl takeOver (fun s id => move (s := s) (.takeOver id))
    (s.registry.callers.map Inflight.Caller.id) s
  exact htake.trans (foldl collect (fun s id => move (s := s) (.collect id)) _ _)

theorem act (s : Resolver) (id : Nat) (a : Action) : Leads s [(id, a)] (s.act id a) :=
  (move (.start id a)).trans (proceed _)

theorem wake (s : Resolver) : Leads s [] s.wake := by
  rw [Resolver.wake]
  split
  · exact refl s
  · rename_i f hf
    have hland : (s.move (.wait f.due)).move (.land f) =
        (s.move (.wait f.due)).land f := if_pos (Clock.mem_of_soonest hf)
    have hmoves := (move (s := s) (.wait f.due)).trans (move (.land f))
    rw [hland] at hmoves
    exact hmoves.trans (proceed _)

theorem advanceFor (bound : Option Nat) (steps : Nat) (s : Resolver) :
    Leads s [] (clock.advanceFor bound steps s) :=
  clock.advanceFor_induction (fun _ h => h.trans (wake _)) bound steps (refl s)

theorem wait (s : Resolver) (time : Nat) :
    Leads s [] ((clock.advance time s).move (.wait time)) :=
  (advanceFor (some time) _ s).trans (move (.wait time))

theorem step (s : Resolver) (e : Event) : Leads s [(e.id, e.action)] (s.step e) :=
  ((wait s e.time).trans (act _ e.id e.action)).trans (advanceFor _ _ _)

theorem play (s : Resolver) (events : List Event) :
    Leads s (events.map fun e => (e.id, e.action)) (s.play events) := by
  induction events generalizing s with
  | nil => exact refl s
  | cons e events ih => exact (step s e).trans (ih (s.step e))

theorem complete (s : Resolver) (events : List Event) :
    Leads s (events.map fun e => (e.id, e.action)) (s.complete events) := by
  rw [← List.append_nil (events.map _)]
  exact (play s events).trans (advanceFor none _ (s.play events))

end Leads

theorem complete_around (s : Resolver) (past rest : List Event) (e : Event) :
    ∃ before wait after, s.play past = s.run before ∧
      s.complete (past ++ e :: rest) = s.run (before ++ wait ++ .start e.id e.action :: after) ∧
      operations before = past.map (fun e => (e.id, e.action)) ∧ operations wait = [] ∧
      operations after = rest.map fun e => (e.id, e.action) := by
  obtain ⟨before, hb, hbr⟩ := Leads.play s past
  obtain ⟨wait, hw, hwr⟩ := Leads.wait (s.play past) e.time
  have hafter : Leads (((s.run before).run wait).move (.start e.id e.action))
      (rest.map fun e => (e.id, e.action)) (s.complete (past ++ e :: rest)) := by
    have hplay : s.play (past ++ e :: rest) = ((s.play past).step e).play rest := by
      simp only [Resolver.play, List.foldl_append, List.foldl_cons]
    rw [hbr, hwr, Resolver.complete, hplay, ← List.append_nil (rest.map _)]
    exact ((Leads.proceed _).trans (Leads.advanceFor (some e.time) _ _)).trans
      ((Leads.play _ rest).trans (Leads.advanceFor none _ _))
  obtain ⟨after, ha, har⟩ := hafter
  refine ⟨before, wait, after, hbr.symm, ?_, hb, hw, ha⟩
  rw [run_append, run_append, run_cons, har]

end OrderLookup.Resolver
