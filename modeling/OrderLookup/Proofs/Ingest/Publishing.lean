import OrderLookup.Proofs.Ingest.Ending

/-!
Publishing to a loop that runs. Whoever publishes waits while the topic is full. Then the loop has
a message to take or a store call to wait for, and each call that returns leaves less to wait for,
so there is room in the end. All that is published gets into the topic, however little room it has,
and when everything has come to rest the loop has handled all of it.
-/

namespace OrderLookup.Ingest.Loop

def Move.Serves : Move → Prop
  | .turn | .wake | .publish _ => True
  | _ => False

/-- Whether the loop and a publisher alone lead from one loop to another, publishing `p`. -/
def Carries (l : Loop) (p : List Message) (l' : Loop) : Prop :=
  ∃ ms, (∀ m ∈ ms, m.Serves) ∧ l.published ms = p ∧ l.follow ms = l'

structure Open (l : Loop) : Prop where
  running : l.cancelled = false
  hasPublisher : l.source.hasPublisher = true
  hasReader : l.source.hasReader = true
  room : 0 < l.source.capacity

variable {l l' l'' : Loop} {p p' : List Message} {m : Message}

namespace Carries

theorem refl (l : Loop) : Carries l [] l := ⟨[], (fun _ hm => by cases hm), rfl, rfl⟩

theorem trans (h : Carries l p l') (h' : Carries l' p' l'') : Carries l (p ++ p') l'' := by
  obtain ⟨ms, hs, rfl, rfl⟩ := h
  obtain ⟨ms', hs', rfl, rfl⟩ := h'
  refine ⟨ms ++ ms', fun m hm => ?_, published_append l ms ms', follow_append l ms ms'⟩
  exact (List.mem_append.1 hm).elim (hs m) (hs' m)

theorem move (l : Loop) {m : Move} (hm : m.Serves) : Carries l (l.accepted m) (l.move m) :=
  ⟨[m], fun _ hd => List.mem_singleton.1 hd ▸ hm, List.append_nil _, rfl⟩

theorem run (l : Loop) : Carries l [] l.run := by
  apply run_induction (P := fun e => Carries l [] e) ?_ (refl l)
  intro e e' he ht
  have hmove := move e (m := .turn) trivial
  rw [Loop.move, ht, Option.getD_some] at hmove
  exact he.trans hmove

theorem wake (l : Loop) : Carries l [] l.wake := (move l (m := .wake) trivial).trans (run _)

theorem tidy (h : Carries l p' l') (ht : Tidy p l) : Tidy (p ++ p') l' := by
  obtain ⟨ms, -, rfl, rfl⟩ := h
  exact ht.follow ms

end Carries

namespace Open

theorem turn (h : l.Open) (ht : Turn l l') : l'.Open := by
  cases ht with
  | stopped _ hc => simp [h.running] at hc
  | failed _ _ _ hclosed => simp [h.hasPublisher] at hclosed
  | refused => exact ⟨h.running, h.hasPublisher, h.hasReader, h.room⟩
  | begun => exact ⟨h.running, h.hasPublisher, h.hasReader, h.room⟩
  | concluded => exact ⟨h.running, h.hasPublisher, h.hasReader, h.room⟩

theorem move (h : l.Open) {m : Move} (hm : m.Serves) : (l.move m).Open := by
  cases m with
  | turn =>
    rw [Loop.move]
    cases ht : l.turn with
    | none => exact h
    | some l' => exact h.turn (turn_cases ht)
  | publish m =>
    rw [Loop.move, Topic.publish]
    cases l.source.isFull with
    | true => simpa [h.hasReader] using h
    | false =>
      simp only [h.hasReader]
      exact ⟨h.running, h.hasPublisher, h.hasReader, h.room⟩
  | wake => exact ⟨h.running, h.hasPublisher, h.hasReader, h.room⟩
  | _ => cases hm

theorem carried (h : l.Open) (hc : Carries l p l') : l'.Open := by
  obtain ⟨ms, hs, -, rfl⟩ := hc
  exact follow_induction h fun _ m hm ho => ho.move (hs m hm)

end Open

theorem cancelled_move (h : l.cancelled = false) {m : Move} (hm : m ≠ .cancel) :
    (l.move m).cancelled = false := by
  cases m with
  | turn =>
    rw [move]
    cases ht : l.turn with
    | none => exact h
    | some l' => exact (turn_cases ht).cancelled_eq.trans h
  | publish m =>
    rw [move]
    split <;> exact h
  | ask a =>
    rw [move]
    split <;> exact h
  | cancel => exact absurd rfl hm
  | _ => exact h

theorem cancelled_follow (h : l.cancelled = false) {ms : List Move} (hms : .cancel ∉ ms) :
    (l.follow ms).cancelled = false :=
  follow_induction (P := fun l => l.cancelled = false) h
    fun _ _ hm hc => cancelled_move hc fun he => hms (he ▸ hm)

theorem Tidy.flights_of_full (h : Tidy p l) (ho : l.Open) (hr : l.turn = none)
    (hfull : l.source.isFull = true) : l.worker.resolver.flights ≠ [] := by
  intro hf
  have hst := h.stands
  rcases h.rests_cases hr hf with ⟨-, hq, -⟩ | hp | ⟨cause, hp⟩
  · have hroom := ho.room
    simp only [Topic.isFull, hq, List.length_nil, decide_eq_true_eq] at hfull
    omega
  · rw [hp] at hst
    simp [Stands, ho.running] at hst
  · rw [hp] at hst
    simp [Stands, ho.hasPublisher] at hst

theorem Tidy.handled_of_rests (h : Tidy p l) (hr : l.turn = none)
    (hf : l.worker.resolver.flights = []) (hc : l.cancelled = false) :
    l.handled.map Prod.fst = p ∧ ∀ m number, l.phase ≠ .storing m number := by
  have hst := h.stands
  have hcases := h.rests_cases hr hf
  have hphase : ∀ m number, l.phase ≠ .storing m number := by
    intro m number hp
    simp [hp] at hcases
  have htaken : l.taken = p := by
    rcases hcases with ⟨hp, hq, -⟩ | hp | ⟨cause, hp⟩
    · rw [hp, Stands, hq, List.append_nil] at hst
      exact hst
    · rw [hp] at hst
      simp [Stands, hc] at hst
    · rw [hp] at hst
      exact hst.2.2.2
  exact ⟨(taken_of_not_storing hphase).symm.trans htaken, hphase⟩

theorem Tidy.drain_handles (h : Tidy p l) (hc : l.cancelled = false) :
    (clock.drain l.run).handled.map Prod.fst = p ∧
      ∀ m number, (clock.drain l.run).phase ≠ .storing m number := by
  obtain ⟨hr, hf⟩ := h.run.drained (run_rests l) (Nat.le_refl _)
  exact h.drain.handled_of_rests hr hf ((drain_token l).1.trans hc)

/-- A message gets in when as many store calls may return as there is work left. -/
theorem publishWithin_succeeds (h : Tidy p l) (ho : l.Open)
    (hrest : l.source.isFull = true → l.turn = none) {returns : Nat}
    (hl : clock.load l < returns) (m : Message) :
    ∃ l', l.publishWithin returns m = (some (.ok ()), l') ∧ Carries l [m] l' := by
  induction returns generalizing p l with
  | zero => omega
  | succ returns ih =>
    have hmove := Carries.move l (m := .publish m) trivial
    rw [Loop.move, accepted] at hmove
    rw [publishWithin]
    cases hfull : l.source.isFull with
    | false =>
      have hroom : l.source.publish m = some (.ok (l.source.push m)) := by
        simp [Topic.publish, ho.hasReader, hfull]
      rw [hroom] at hmove ⊢
      exact ⟨_, rfl, hmove⟩
    | true =>
      -- The loop waits for the store, and the call that returns leaves less to wait for.
      have hwait : l.source.publish m = none := by simp [Topic.publish, ho.hasReader, hfull]
      have hless := h.wake_load_lt (h.flights_of_full ho (hrest hfull) hfull)
      rw [hwait]
      obtain ⟨l', he, hc⟩ := ih (h := h.wake.run) (ho.carried (.wake l)) (fun _ => run_rests _)
        (Nat.lt_of_lt_of_le hless (Nat.le_of_lt_succ hl))
      exact ⟨l', he, (Carries.wake l).trans hc⟩

theorem publish_succeeds (h : Tidy p l) (ho : l.Open) (m : Message) :
    ∃ l', l.publish m = (some (.ok ()), l') ∧ Carries l [m] l' := by
  rw [publish, ho.hasReader, Bool.true_and]
  cases hfull : l.source.isFull with
  | false =>
    apply publishWithin_succeeds h ho _ (Nat.lt_succ_self _)
    simp [hfull]
  | true =>
    obtain ⟨l', he, hc⟩ := publishWithin_succeeds h.run (ho.carried (.run l))
      (fun _ => run_rests l) (Nat.lt_succ_self _) m
    exact ⟨l', he, (Carries.run l).trans hc⟩

theorem publishAll_succeeds (h : Tidy p l) (ho : l.Open) (ms : List Message) :
    ∃ l', l.publishAll ms = (some (.ok ()), l') ∧ Carries l ms l' := by
  induction ms generalizing p l with
  | nil => exact ⟨l, rfl, .refl l⟩
  | cons m ms ih =>
    obtain ⟨l', he, hc⟩ := publish_succeeds h ho m
    obtain ⟨l'', he', hc'⟩ := ih (hc.tidy h) (ho.carried hc)
    refine ⟨l'', ?_, hc.trans hc'⟩
    rw [publishAll, he]
    exact he'

end OrderLookup.Ingest.Loop
