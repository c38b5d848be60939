import OrderLookup.Proofs.Resolver.Saving

/-!
An operation that nothing else goes on beside. Nobody waits in the register, and the only store
call in flight is its own: so all that can happen is that this call ends.
-/

namespace OrderLookup.Resolver

def flightFor (s : Resolver) (id : Nat) (work : Work) : Flight :=
  ⟨id, work, .start s.script (s.callOf work) s.now (s.deadlineOf work)⟩

/-- A resolver whose operation has begun a store call, at the instant at which the call ends. -/
def awaited (s : Resolver) (id : Nat) (work : Work) : Resolver :=
  { s.launch id work with now := max s.now (s.flightFor id work).due }

variable {s s' : Resolver} {ids : List Nat} {id : Nat} {work : Work} {f : Flight}

theorem launch_flights (s : Resolver) (id : Nat) (work : Work) :
    (s.launch id work).flights = s.flights ++ [s.flightFor id work] := rfl

theorem flights_move (h : Coherent ids s) (m : Move) (hf : f ∈ (s.move m).flights) :
    f ∈ s.flights ∨ f = s.flightFor f.id f.work ∧
      ∀ o, f.work = .save o → m = .start f.id (.create o) := by
  -- A lookup that leads and a caller that takes over may both begin a fetch.
  have hfetch : ∀ {i : Nat} {uid : String}, f ∈ s.flights ++ [s.flightFor i (.fetch uid)] →
      f ∈ s.flights ∨ f = s.flightFor f.id f.work ∧
        ∀ o, f.work = .save o → m = .start f.id (.create o) := by
    intro i uid hf
    rcases List.mem_append.1 hf with hf | hf
    · exact .inl hf
    · rw [List.mem_singleton.1 hf]
      exact .inr ⟨rfl, fun o ho => by cases ho⟩
  cases m with
  | start i a =>
    cases a with
    | get uid =>
      rw [move, start, get_eq h.sound] at hf
      split at hf
      · exact .inl hf
      · dsimp only at hf
        split at hf
        · exact hfetch hf
        · exact .inl hf
    | create o =>
      rcases List.mem_append.1 hf with hf | hf
      · exact .inl hf
      · rw [List.mem_singleton.1 hf]
        refine .inr ⟨rfl, fun o' ho => ?_⟩
        cases ho
        rfl
    | refresh =>
      rcases List.mem_append.1 hf with hf | hf
      · exact .inl hf
      · rw [List.mem_singleton.1 hf]
        exact .inr ⟨rfl, fun o ho => by cases ho⟩
    | store o =>
      rw [move, start] at hf
      split at hf <;> exact .inl hf
    | abort target => exact .inl (mem_withoutFlight.1 hf).1
    | _ => exact .inl hf
  | land g =>
    rw [move] at hf
    split at hf
    · rw [land_flights] at hf
      exact .inl (mem_withoutFlight.1 hf).1
    · exact .inl hf
  | takeOver i =>
    rw [move, takeOver] at hf
    split at hf
    · exact .inl hf
    · split at hf
      · rw [lead] at hf
        split at hf
        · exact .inl hf
        · exact hfetch hf
      · exact .inl hf
  | collect i =>
    rw [move, collect] at hf
    split at hf <;> exact .inl hf
  | wait time => exact .inl hf

theorem reply?_of_fresh {f : Finish} (h : ∀ g ∈ s.finished, g.id ≠ id) (hi : f.id = id)
    (hf : s'.finished = s.finished ++ [f]) : s'.reply? id = some f.reply := by
  have hold : s.finished.find? (fun g => g.id = id) = none :=
    List.find?_eq_none.2 fun g hg => by simpa using h g hg
  rw [reply?, finish?, hf, List.find?_append, hold, Option.none_or, List.find?_singleton,
    if_pos (by simpa using hi), Option.map_some]

theorem proceed_of_callers_nil (h : s.registry.callers = []) : s.proceed = s := by
  rw [proceed, h]
  exact congrArg (fun cs : List Inflight.Caller => (cs.map Inflight.Caller.id).foldl collect s) h

theorem wake_alone (hf : s.flights = [f]) (hc : s.registry.callers = [])
    (hr : ∀ s : Resolver, (s.land f).registry = s.registry) :
    s.wake = { s with now := max s.now f.due }.land f := by
  rw [wake, hf]
  exact proceed_of_callers_nil ((congrArg _ (hr _)).trans hc)

theorem drain_alone (hf : s.flights = [f]) : clock.drain s = s.wake := by
  have hdue : clock.isDue none s = true := isDue_none_iff.2 (by simp [hf])
  change clock.advanceFor none s.flights.length s = _
  rw [hf, List.length_singleton, Clock.advanceFor, if_pos hdue]
  rfl

theorem advance_alone (hf : s.flights = [f]) (instant : Nat) :
    clock.advance instant s = s ∨ clock.advance instant s = s.wake := by
  change clock.advanceFor (some instant) s.flights.length s = _ ∨ _ = s.wake
  change _ ∨ clock.advanceFor (some instant) s.flights.length s = _
  rw [hf, List.length_singleton, Clock.advanceFor]
  split
  · exact .inr rfl
  · exact .inl rfl

theorem drain_launch (hf : s.flights = []) (hc : s.registry.callers = [])
    (hr : ∀ s' : Resolver, (s'.land (s.flightFor id work)).registry = s'.registry) :
    clock.drain (s.launch id work).proceed = (s.awaited id work).land (s.flightFor id work) := by
  have hflights : (s.launch id work).flights = [s.flightFor id work] := by
    rw [launch_flights, hf, List.nil_append]
  have hproceed : (s.launch id work).proceed = s.launch id work := proceed_of_callers_nil hc
  rw [hproceed, drain_alone hflights, wake_alone hflights hc hr]
  rfl

end OrderLookup.Resolver
