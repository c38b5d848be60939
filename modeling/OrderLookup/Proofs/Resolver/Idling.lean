import OrderLookup.Proofs.Clock
import OrderLookup.Proofs.Resolver.Draining

/-!
Stops on the way. Between two events of a timeline a resolver is `Quiet`: nobody can go on without
the clock. To let such a resolver come to an instant at which nothing begins is not seen by any
later event, and the end of the timeline shows it only in the reading of the clock.
-/

namespace OrderLookup.Resolver

/-- What holds between two events of a timeline that has begun the operations `ids`. -/
structure Quiet (ids : List Nat) (s : Resolver) : Prop where
  coherent : Coherent ids s
  nodup : ids.Nodup
  settled : Settled s

/-- Lets everything happen that falls due up to an instant, and comes to that instant. -/
def idle (s : Resolver) (time : Nat) : Resolver := (clock.advance time s).move (.wait time)

variable {s : Resolver} {ids : List Nat} {bound : Option Nat} {t u steps : Nat}
  {events : List Event} {e : Event}

theorem Settled.proceed_eq (hs : Settled s) : s.proceed = s := by
  rw [proceed, takeOvers_eq hs.unchosen]
  have hcollect (i : Nat) : s.collect i = s := by
    have hnone : s.registry.collect i = none := by
      rw [Inflight.Registry.collect]
      split
      · rfl
      · rename_i c hc
        rw [hs.unserved c (Inflight.Registry.mem_of_caller? hc).1, Option.map_none]
    rw [Resolver.collect, hnone]
  generalize s.registry.callers.map Inflight.Caller.id = is
  induction is with
  | nil => rfl
  | cons i is ih => rw [List.foldl_cons, hcollect, ih]

theorem play_append (s : Resolver) (events events' : List Event) :
    s.play (events ++ events') = (s.play events).play events' := List.foldl_append

theorem step_eq (s : Resolver) (e : Event) :
    s.step e = clock.advance e.time ((s.idle e.time).act e.id e.action) := rfl

namespace Quiet

theorem ofParts (settings : Settings) (capacity : Nat) (repository : Repository)
    (script : Script) : Quiet [] (ofParts settings capacity repository script) :=
  ⟨.ofParts .., List.nodup_nil, .ofParts ..⟩

theorem winds (ids : List Nat) : clock.Winds (Quiet ids) where
  keeps h := by
    have hwake := (Leads.wake _).stays_coherent h.coherent h.nodup
    exact ⟨hwake, h.nodup, (wake_settled h.coherent h.settled).1⟩
  lowers {s} h hd := by
    refine (wake_settled h.coherent h.settled).2 fun hf => hd ?_
    simp [clock, hf, Clock.soonest]

theorem advance (h : Quiet ids s) (t : Nat) : Quiet ids (clock.advance t s) :=
  clock.advanceFor_induction (fun _ hs => (winds ids).keeps hs) (some t) _ h

theorem wait (h : Quiet ids s) (t : Nat) : Quiet ids (s.move (.wait t)) :=
  ⟨(Leads.move (.wait t)).stays_coherent h.coherent h.nodup, h.nodup,
    h.settled.unchosen, h.settled.unserved⟩

theorem idle (h : Quiet ids s) (t : Nat) : Quiet ids (s.idle t) := (h.advance t).wait t

theorem play (h : Quiet ids s) (hn : (ids ++ events.map Event.id).Nodup) :
    Quiet (ids ++ events.map Event.id) (s.play events) := by
  have hcoherent := (Leads.play s events).coherent h.coherent
    (by simpa [Function.comp_def] using hn)
  exact ⟨by simpa [Function.comp_def] using hcoherent, hn, .play h.coherent h.settled hn⟩

end Quiet

theorem wake_wait (hdue : clock.isDue (some t) s = false) (hf : s.flights ≠ []) :
    (s.move (.wait t)).wake = s.wake := by
  rw [wake, wake]
  cases hs : Clock.soonest Flight.due s.flights with
  | none => exact absurd (Clock.eq_nil_of_soonest hs) hf
  | some f =>
    have hlater : t < f.due := by simpa [Clock.isDue, clock, hs] using hdue
    have hnow : max (max s.now t) f.due = max s.now f.due := by omega
    simp only [move, hs, hnow]

theorem advanceFor_wait (hdue : clock.isDue (some t) s = false)
    (h : clock.isDue bound s = true) :
    clock.advanceFor bound (steps + 1) (s.move (.wait t)) =
      clock.advanceFor bound (steps + 1) s := by
  have h' : clock.isDue bound (s.move (.wait t)) = true := h
  rw [Clock.advanceFor_of_isDue h', Clock.advanceFor_of_isDue h]
  exact congrArg (clock.advanceFor bound steps) (wake_wait hdue (isDue_flights h))

theorem Quiet.isDue_idle (h : Quiet ids s) (t : Nat) :
    clock.isDue (some t) (s.idle t) = false :=
  (Quiet.winds ids).isDue_advance h t

theorem Quiet.advance_idle (h : Quiet ids s) (t : Nat) :
    clock.advance t (s.idle t) = s.idle t :=
  Clock.advanceFor_of_not_isDue (h.isDue_idle t)

theorem Quiet.advanceFor_idle (h : Quiet ids s) (hb : ∀ u, bound = some u → t ≤ u) :
    clock.advanceFor bound (clock.load (s.idle t)) (s.idle t) =
        clock.advanceFor bound (clock.load s) s ∨
      clock.advanceFor bound (clock.load (s.idle t)) (s.idle t) =
        (clock.advanceFor bound (clock.load s) s).move (.wait t) := by
  have hdue := (Quiet.winds ids).isDue_advance h t
  rw [← (Quiet.winds ids).advanceFor_advance h hb, Resolver.idle]
  generalize clock.advance t s = s' at hdue
  have hload : clock.load (s'.move (.wait t)) = clock.load s' := rfl
  rw [hload]
  cases hd : clock.isDue bound s' with
  | false =>
    have hd' : clock.isDue bound (s'.move (.wait t)) = false := hd
    rw [Clock.advanceFor_of_not_isDue hd, Clock.advanceFor_of_not_isDue hd']
    exact Or.inr rfl
  | true =>
    obtain ⟨n, hn⟩ : ∃ n, clock.load s' = n + 1 :=
      Nat.exists_eq_succ_of_ne_zero fun hn => isDue_flights hd (List.length_eq_zero_iff.1 hn)
    rw [hn]
    exact Or.inl (advanceFor_wait hdue hd)

theorem Quiet.idle_idle (h : Quiet ids s) (ht : t ≤ u) : (s.idle t).idle u = s.idle u := by
  have hb : ∀ v, some u = some v → t ≤ v := fun v hv => Option.some.inj hv ▸ ht
  rw [Resolver.idle, Clock.advance, Resolver.idle, Clock.advance]
  rcases h.advanceFor_idle hb with heq | heq
  · exact congrArg (fun s => s.move (.wait u)) heq
  · refine (congrArg (fun s => s.move (.wait u)) heq).trans ?_
    have hnow (n : Nat) : max (max n t) u = max n u := by omega
    simp only [move, hnow]
    rfl

theorem Quiet.step_idle (h : Quiet ids s) (ht : t ≤ e.time) : (s.idle t).step e = s.step e := by
  rw [step_eq, step_eq, h.idle_idle ht]

theorem Quiet.idle_play_idle (h : Quiet ids s) (he : ∀ e ∈ events, t ≤ e.time) (ht : t ≤ u) :
    ((s.idle t).play events).idle u = (s.play events).idle u := by
  cases events with
  | nil => exact h.idle_idle ht
  | cons e events =>
    exact congrArg (fun s => (s.play events).idle u) (h.step_idle (he e (.head _)))

theorem Quiet.complete_idle (h : Quiet ids s) (he : ∀ e ∈ events, t ≤ e.time) :
    ∃ now, (s.idle t).complete events = { s.complete events with now := now } := by
  cases events with
  | nil =>
    have hb : ∀ u, none = some u → t ≤ u := by simp
    rcases h.advanceFor_idle hb with heq | heq
    · exact ⟨_, heq⟩
    · exact ⟨_, heq⟩
  | cons e events =>
    exact ⟨_, congrArg (fun s => s.complete events) (h.step_idle (he e (.head _)))⟩

end OrderLookup.Resolver
