import OrderLookup.Proofs.Ingest.Session

/-!
The loop comes to its end. Each turn leaves fewer turns to take, and each store call that returns
leaves less to wait for, since a turn that starts a store call takes a message. So a loop that has
been cancelled, or whose topic has been closed, ends as soon as the store calls in flight have
returned, and then every message that it has taken has been handled.
-/

namespace OrderLookup.Ingest

theorem Worker.Steady.start_create_flights {w : Worker} (h : w.Steady) (o : Order) :
    (w.start (.create o)).resolver.flights.length ≤ w.resolver.flights.length + 1 := by
  obtain ⟨hc, hs⟩ := h.act (.create o)
  have hstart := h.coherent.start List.not_mem_range_self (.create o)
  have hadvance := Resolver.advanceFor_flights_le hc List.nodup_range hs
    (some w.resolver.now) (Resolver.clock.load (w.resolver.act w.operations (.create o)))
  have hact : (w.resolver.act w.operations (.create o)).flights.length =
      w.resolver.flights.length + 1 := by
    rw [Resolver.act, Resolver.proceed_flights hstart h.settled.unchosen]
    exact List.length_append
  exact Nat.le_trans hadvance (Nat.le_of_eq hact)

namespace Loop

variable {l l' : Loop} {p : List Message}

def turnsLeft (l : Loop) : Nat :=
  match l.phase with
  | .idle => 2 * l.source.queue.length + 1
  | .storing _ _ => 2 * l.source.queue.length + 2
  | .stopped | .failed _ => 0

theorem Turn.turnsLeft_lt (h : Turn l l') : l'.turnsLeft < l.turnsLeft := by
  cases h with
  | stopped hi => simp [turnsLeft, leave, hi]
  | failed hi => simp [turnsLeft, leave, hi]
  | refused hi _ hq =>
    simp only [turnsLeft, conclude, hi, hq, List.length_cons]
    omega
  | begun hi _ hq =>
    simp only [turnsLeft, hi, hq, List.length_cons]
    omega
  | concluded hp =>
    simp only [turnsLeft, conclude, hp]
    omega

theorem runFor_rests (turns : Nat) (h : l.turnsLeft ≤ turns) : (runFor turns l).turn = none := by
  induction turns generalizing l with
  | zero =>
    cases ht : l.turn with
    | none => exact ht
    | some l' =>
      have hlt := (turn_cases ht).turnsLeft_lt
      omega
  | succ turns ih =>
    rw [runFor]
    cases ht : l.turn with
    | none => exact ht
    | some l' =>
      have hlt := (turn_cases ht).turnsLeft_lt
      apply ih
      omega

theorem run_rests (l : Loop) : l.run.turn = none := by
  apply runFor_rests
  rw [turnsLeft]
  split <;> omega

theorem run_induction {P : Loop → Prop} (hturn : ∀ l l', P l → l.turn = some l' → P l')
    (hl : P l) : P l.run := by
  have hfor : ∀ turns, ∀ l, P l → P (runFor turns l) := by
    intro turns
    induction turns with
    | zero => exact fun l hl => hl
    | succ turns ih =>
      intro l hl
      rw [runFor]
      cases ht : l.turn with
      | none => exact hl
      | some l' => exact ih l' (hturn l l' hl ht)
  exact hfor _ l hl

/-- What turns and the returns of store calls keep holds until everything has come to rest. -/
theorem drain_induction {P : Loop → Prop} (hturn : ∀ l l', P l → l.turn = some l' → P l')
    (hwake : ∀ l, P l → P (l.move .wake)) (hl : P l) : P (clock.drain l.run) := by
  apply clock.advanceFor_induction _ none
  · exact run_induction hturn hl
  · exact fun l hl => run_induction hturn (hwake l hl)

theorem Turn.load_le (h : Turn l l') (hw : l.worker.Steady) : clock.load l' ≤ clock.load l := by
  cases h with
  | stopped => simp [clock, leave, Topic.closeReader]
  | failed => simp [clock, leave, Topic.closeReader]
  | refused _ _ hq => simp [clock, conclude, hq]
  | concluded => simp [clock, conclude]
  | @begun m queue o _ _ hq =>
    -- The message that is taken makes up for the store call that it starts.
    have hle := hw.start_create_flights o
    simp only [clock, hq, List.length_cons]
    omega

theorem Tidy.run_load_le (h : Tidy p l) : clock.load l.run ≤ clock.load l := by
  have hrun : Tidy p l.run ∧ clock.load l.run ≤ clock.load l := by
    apply run_induction (P := fun e => Tidy p e ∧ clock.load e ≤ clock.load l)
    · intro e e' he ht
      have hturn := turn_cases ht
      exact ⟨he.1.turn hturn, Nat.le_trans (hturn.load_le he.1.steady) he.2⟩
    · exact ⟨h, Nat.le_refl _⟩
  exact hrun.2

theorem Tidy.run (h : Tidy p l) : Tidy p l.run :=
  run_induction (fun _ _ h ht => h.turn (turn_cases ht)) h

theorem Tidy.drain (h : Tidy p l) : Tidy p (clock.drain l.run) :=
  drain_induction (fun _ _ h ht => h.turn (turn_cases ht)) (fun _ => Tidy.wake) h

theorem Tidy.wake_load_lt (h : Tidy p l) (hf : l.worker.resolver.flights ≠ []) :
    clock.load l.wake < clock.load l := by
  have hless := (Resolver.wake_settled h.steady.coherent h.steady.settled).2 hf
  have hwake : clock.load (l.move .wake) < clock.load l :=
    Nat.add_lt_add_right hless l.source.queue.length
  exact Nat.lt_of_le_of_lt h.wake.run_load_le hwake

theorem Tidy.drained (h : Tidy p l) (hr : l.turn = none) {steps : Nat}
    (hl : clock.load l ≤ steps) :
    (clock.advanceFor none steps l).turn = none ∧
      (clock.advanceFor none steps l).worker.resolver.flights = [] := by
  induction steps generalizing l with
  | zero =>
    have hnone : l.worker.resolver.flights.length = 0 := by
      simp only [clock] at hl
      omega
    exact ⟨hr, List.length_eq_zero_iff.1 hnone⟩
  | succ steps ih =>
    rw [Clock.advanceFor]
    have hdue : clock.isDue none l = Resolver.clock.isDue none l.worker.resolver := rfl
    split
    · rename_i hd
      have hf := Resolver.isDue_none_iff.1 (hdue ▸ hd)
      apply ih
      · exact h.wake.run
      · exact run_rests _
      · exact Nat.le_of_lt_succ (Nat.lt_of_lt_of_le (h.wake_load_lt hf) hl)
    · rename_i hd
      refine ⟨hr, ?_⟩
      by_contra hne
      exact hd (hdue ▸ Resolver.isDue_none_iff.2 hne)

theorem Tidy.rests_cases (h : Tidy p l) (hr : l.turn = none)
    (hf : l.worker.resolver.flights = []) :
    (l.phase = .idle ∧ l.source.queue = [] ∧ l.cancelled = false ∧
      l.source.hasPublisher = true) ∨ l.phase = .stopped ∨ ∃ cause, l.phase = .failed cause := by
  have hst := h.stands
  cases hp : l.phase with
  | stopped => exact .inr (.inl rfl)
  | failed cause => exact .inr (.inr ⟨cause, rfl⟩)
  | storing m number =>
    rw [hp] at hst
    obtain ⟨-, o, -, hs⟩ := hst
    obtain ⟨r, hstored⟩ := hs.exists_stored hf
    simp [Loop.turn, hp, hstored] at hr
  | idle =>
    rw [Loop.turn, hp] at hr
    cases hcancel : l.cancelled with
    | true => simp [hcancel] at hr
    | false =>
      cases hq : l.source.queue with
      | cons m queue => simp [hcancel, Topic.read, hq] at hr
      | nil =>
        cases hclosed : l.source.hasPublisher with
        | true => exact .inl ⟨rfl, rfl, rfl, rfl⟩
        | false => simp [hcancel, Topic.read, hq, hclosed] at hr

theorem ended_of_rests (h : Tidy p l) (hr : l.turn = none)
    (hf : l.worker.resolver.flights = [])
    (hc : l.cancelled = true ∨ l.source.hasPublisher = false) : l.isEnded = true := by
  rw [isEnded]
  rcases h.rests_cases hr hf with ⟨-, -, hrunning, hopen⟩ | hp | ⟨cause, hp⟩
  · simp [hrunning, hopen] at hc
  · rw [hp]
  · rw [hp]

theorem drain_token (l : Loop) :
    (clock.drain l.run).cancelled = l.cancelled ∧
      (clock.drain l.run).source.hasPublisher = l.source.hasPublisher := by
  apply drain_induction (P := fun e => e.cancelled = l.cancelled ∧
    e.source.hasPublisher = l.source.hasPublisher)
  · intro e e' he ht
    have hturn := turn_cases ht
    exact ⟨hturn.cancelled_eq.trans he.1, hturn.hasPublisher_eq.trans he.2⟩
  · exact fun e he => he
  · exact ⟨rfl, rfl⟩

theorem drain_ends (h : Tidy p l) (hc : l.cancelled = true ∨ l.source.hasPublisher = false) :
    (clock.drain l.run).isEnded = true := by
  obtain ⟨hr, hf⟩ := h.run.drained (run_rests l) (Nat.le_refl _)
  obtain ⟨hcancelled, hpublisher⟩ := drain_token l
  apply ended_of_rests h.drain hr hf
  rwa [hcancelled, hpublisher]

theorem drain_follows (l : Loop) :
    ∃ after, after ⊆ [.turn, .wake] ∧ l.follow after = clock.drain l.run := by
  have hadd : ∀ e m, m ∈ [Move.turn, Move.wake] →
      (∃ after, after ⊆ [.turn, .wake] ∧ l.follow after = e) →
      ∃ after, after ⊆ [.turn, .wake] ∧ l.follow after = e.move m := by
    intro e m hm ⟨after, ha, he⟩
    refine ⟨after ++ [m], List.append_subset.2 ⟨ha, by simpa using hm⟩, ?_⟩
    rw [follow_append, he]
    rfl
  apply drain_induction (P := fun e => ∃ after, after ⊆ [.turn, .wake] ∧ l.follow after = e)
  · intro e e' he ht
    have hturn := hadd e .turn (by simp) he
    rwa [move, ht, Option.getD_some] at hturn
  · exact fun e he => hadd e .wake (by simp) he
  · exact ⟨[], List.nil_subset _, rfl⟩

theorem taken_of_not_storing (hp : ∀ m number, l.phase ≠ .storing m number) :
    l.taken = l.handled.map Prod.fst := by
  rw [taken, current]
  cases hphase : l.phase with
  | storing m number => exact absurd hphase (hp m number)
  | _ => exact List.append_nil _

theorem taken_of_result {r : Except OrderError Counters} (h : l.result? = some r) :
    l.handled.map Prod.fst = l.taken := by
  symm
  apply taken_of_not_storing
  intro m number hp
  simp [result?, hp] at h

namespace Tidy

theorem taken_prefix (h : Tidy p l) : l.taken <+: p := by
  have hst := h.stands
  cases hp : l.phase with
  | idle => exact ⟨_, hp ▸ hst⟩
  | storing m number =>
    rw [hp] at hst
    exact ⟨_, hst.1⟩
  | stopped =>
    rw [hp] at hst
    exact hst.2.2
  | failed cause =>
    rw [hp] at hst
    exact ⟨[], by rw [hst.2.2.2, List.append_nil]⟩

theorem queued (h : Tidy p l) (he : l.isEnded = false) : l.taken ++ l.source.queue = p := by
  have hst := h.stands
  cases hp : l.phase with
  | idle =>
    rw [hp] at hst
    exact hst
  | storing m number =>
    rw [hp] at hst
    exact hst.1
  | _ => simp [isEnded, hp] at he

theorem stopped (h : Tidy p l) {c : Counters} (hr : l.result? = some (.ok c)) :
    l.cancelled = true ∧ l.handled.map Prod.fst = l.taken ∧ c = tally l.taken l.handled ∧
      c.received = l.taken.length ∧ c.received = c.committed + c.deadLettered ∧
      c.deadLetterFailures ≤ c.deadLettered := by
  have hall := taken_of_result hr
  have hst := h.stands
  rw [result?] at hr
  cases hp : l.phase with
  | stopped =>
    rw [hp] at hst
    simp only [hp, Option.some.injEq, Except.ok.injEq] at hr
    have htally : c = tally l.taken l.handled := hr ▸ h.counters
    have hsum : l.taken.length =
        (tally l.taken l.handled).committed + (tally l.taken l.handled).deadLettered := by
      rw [tally_handled, ← hall, List.length_map]
    rw [htally]
    exact ⟨hst.1, hall, rfl, rfl, hsum, tally_failures l.taken l.handled⟩
  | _ => simp [hp] at hr

theorem failed (h : Tidy p l) {cause : OrderError} (hr : l.result? = some (.error cause)) :
    cause = .source l.source.closedReason ∧ l.source.hasPublisher = false ∧
      l.handled.map Prod.fst = p := by
  have hall := taken_of_result hr
  have hst := h.stands
  rw [result?] at hr
  cases hp : l.phase with
  | failed e =>
    rw [hp] at hst
    obtain ⟨hcause, hclosed, -, htaken⟩ := hst
    simp only [hp, Option.some.injEq, Except.error.injEq] at hr
    exact ⟨hr ▸ hcause, hclosed, hall.trans htaken⟩
  | _ => simp [hp] at hr

theorem stops (h : Tidy p l) (hf : ∀ cause, l.result? ≠ some (.error cause)) :
    ∃ after c, after ⊆ [.turn, .wake] ∧ (l.move .cancel).follow after = l.shutDown ∧
      l.shutDown.result? = some (.ok c) ∧ l.shutDown.handled.map Prod.fst = l.taken := by
  have hended : l.shutDown.isEnded = true := drain_ends h.cancel (.inl rfl)
  have hnever : l.shutDown.cancelled = true ∧ ∀ cause, l.shutDown.phase ≠ .failed cause := by
    apply drain_induction (P := fun e => e.cancelled = true ∧ ∀ cause, e.phase ≠ .failed cause)
    · intro e e' he ht
      have hturn := turn_cases ht
      refine ⟨hturn.cancelled_eq.trans he.1, fun cause => ?_⟩
      cases hturn with
      | failed _ hrun => simp [he.1] at hrun
      | _ => simp [leave, Loop.conclude]
    · exact fun e he => he
    · exact ⟨rfl, fun cause hp => hf cause (by rw [result?, show l.phase = _ from hp])⟩
  obtain ⟨after, ha, hfollow⟩ := drain_follows (l.move .cancel)
  have htaken : l.shutDown.taken = l.taken := by
    rw [shutDown]
    exact hfollow ▸ taken_follow (l := l.move .cancel) rfl after
  cases hp : l.shutDown.phase with
  | stopped =>
    have hr : l.shutDown.result? = some (.ok l.shutDown.counters) := by rw [result?, hp]
    exact ⟨after, _, ha, hfollow, hr, (taken_of_result hr).trans htaken⟩
  | failed cause => exact absurd hp (hnever.2 cause)
  | _ => simp [isEnded, hp] at hended

theorem fails (h : Tidy p l) (hc : l.cancelled = false) :
    ∃ after cause, after ⊆ [.turn, .wake] ∧
      ((l.move .closeSource).follow after).result? = some (.error cause) ∧
      ((l.move .closeSource).follow after).handled.map Prod.fst = p := by
  obtain ⟨after, ha, hfollow⟩ := drain_follows (l.move .closeSource)
  have hended := drain_ends h.closeSource (.inr rfl)
  have htidy := h.closeSource.drain
  have htoken := (drain_token (l.move .closeSource)).1
  rw [← hfollow] at hended htidy htoken
  have hst := htidy.stands
  cases hp : ((l.move .closeSource).follow after).phase with
  | failed cause =>
    have hr : ((l.move .closeSource).follow after).result? = some (.error cause) := by
      rw [result?, hp]
    exact ⟨after, cause, ha, hr, (htidy.failed hr).2.2⟩
  | stopped =>
    rw [hp] at hst
    have hcancelled := hst.1
    rw [htoken] at hcancelled
    exact absurd hcancelled (by simp [Loop.move, hc])
  | _ => simp [isEnded, hp] at hended

/-- A loop that is shut down after a session has handled the first of the published messages. It
returns what it has counted, unless its topic was closed and it has handled them all. -/
theorem session (h : Tidy [] l) {as : List Action} (ha : ∀ n, .ask (.abort n) ∉ as) :
    let ended := (l.play as).2.shutDown
    ∃ p, p.Sublist (as.flatMap Action.messages) ∧ ended.handled.map Prod.fst = ended.taken ∧
      ended.taken <+: p ∧
      (ended.result? = some (.ok (tally ended.taken ended.handled)) ∨
        ended.result? = some (.error (.source ended.source.closedReason)) ∧ ended.taken = p) := by
  intro ended
  obtain ⟨p, hp, ms, rfl, hplay⟩ := Reaches.play l ha
  have hplayed : Tidy (l.published ms) (l.play as).2 := hplay ▸ h.follow ms
  have hend : Tidy (l.published ms) ended := hplayed.cancel.drain
  have hended : ended.isEnded = true := drain_ends hplayed.cancel (.inl rfl)
  refine ⟨_, hp, ?_⟩
  cases hphase : ended.phase with
  | stopped =>
    have hr : ended.result? = some (.ok ended.counters) := by rw [result?, hphase]
    exact ⟨taken_of_result hr, hend.taken_prefix, .inl (hend.counters ▸ hr)⟩
  | failed cause =>
    have hr : ended.result? = some (.error cause) := by rw [result?, hphase]
    obtain ⟨rfl, -, hall⟩ := hend.failed hr
    have htaken := taken_of_result hr
    exact ⟨htaken, hend.taken_prefix, .inr ⟨hr, htaken.symm.trans hall⟩⟩
  | _ => simp [isEnded, hphase] at hended

end Tidy

structure Accounted (l : Loop) (ms : List Move) : Prop where
  order : (l.follow ms).taken <+: l.published ms
  queued : (l.follow ms).isEnded = false →
    (l.follow ms).taken ++ (l.follow ms).source.queue = l.published ms
  once : (l.follow ms).worker.operations =
    l.worker.operations + l.asked ms + writes (l.follow ms).taken
  fits : ∀ e ∈ (l.follow ms).handled, Fits (l.follow ms).worker.resolver e.1 e.2
  stopped : ∀ c, (l.follow ms).result? = some (.ok c) →
    (l.follow ms).cancelled = true ∧ (l.follow ms).handled.map Prod.fst = (l.follow ms).taken ∧
      c = tally (l.follow ms).taken (l.follow ms).handled ∧
      c.received = (l.follow ms).taken.length ∧ c.received = c.committed + c.deadLettered ∧
      c.deadLetterFailures ≤ c.deadLettered
  failed : ∀ cause, (l.follow ms).result? = some (.error cause) →
    cause = .source (l.follow ms).source.closedReason ∧
      (l.follow ms).source.hasPublisher = false ∧
      (l.follow ms).handled.map Prod.fst = l.published ms
  deaf : ∀ after, (l.follow (ms ++ .cancel :: after)).taken = (l.follow ms).taken
  stops : (∀ cause, (l.follow ms).result? ≠ some (.error cause)) →
    ∃ after c, after ⊆ [.turn, .wake] ∧
      l.follow (ms ++ .cancel :: after) = (l.follow ms).shutDown ∧
      (l.follow ms).shutDown.result? = some (.ok c) ∧
      (l.follow ms).shutDown.handled.map Prod.fst = (l.follow ms).taken
  fails : (l.follow ms).cancelled = false →
    ∃ after cause, after ⊆ [.turn, .wake] ∧
      (l.follow (ms ++ .closeSource :: after)).result? = some (.error cause) ∧
      (l.follow (ms ++ .closeSource :: after)).handled.map Prod.fst = l.published ms

/-- The messages that a loop takes are the first published ones, in order. Each comes to one end,
which fits it, and a loop that returns its counters has handled all that it took. -/
theorem every_message_is_accounted_for (settings : Settings) (capacity : Nat)
    (repository : Repository) (script : Script) (name : String) (room : Nat)
    (sink : Option Topic) (time : Instant) (ms : List Move) :
    Accounted (ofParts (Resolver.ofParts settings capacity repository script)
      (Topic.ofCapacity name room) sink time) ms := by
  generalize hl : ofParts (Resolver.ofParts settings capacity repository script)
    (Topic.ofCapacity name room) sink time = l
  have h : Tidy (l.published ms) (l.follow ms) := by
    have hstart : Tidy [] l := hl ▸ .ofParts _ (.ofParts ..) (.ofParts ..) _ rfl sink time
    exact hstart.follow ms
  have hnext : ∀ m after, l.follow (ms ++ m :: after) = ((l.follow ms).move m).follow after :=
    fun m after => follow_append l ms (m :: after)
  constructor
  case order => exact h.taken_prefix
  case queued => exact h.queued
  case once =>
    have hops := operations_follow l ms
    have hfresh : writes l.taken = 0 := hl ▸ rfl
    omega
  case fits => exact h.fits
  case stopped => exact fun c hr => h.stopped hr
  case failed => exact fun cause hr => h.failed hr
  case deaf =>
    intro after
    rw [hnext]
    exact taken_follow (l := (l.follow ms).move .cancel) rfl after
  case stops =>
    intro hr
    obtain ⟨after, c, ha, hshut, hend⟩ := h.stops hr
    exact ⟨after, c, ha, (hnext .cancel after).trans hshut, hend⟩
  case fails =>
    intro hc
    obtain ⟨after, cause, ha, hend⟩ := h.fails hc
    refine ⟨after, cause, ha, ?_⟩
    rw [hnext]
    exact hend

example :
    let l := ofParts (Resolver.ofParts {} 1 Repository.empty {}) (Topic.ofCapacity "orders" 2) none
      Instant.epoch
    let m : Message := { value := [] }
    (l.follow [.publish m, .publish m, .publish m, .turn, .cancel, .turn]).result? =
      some (.ok ⟨1, 0, 1, 1⟩) := by
  decide +kernel

end Loop

end OrderLookup.Ingest
