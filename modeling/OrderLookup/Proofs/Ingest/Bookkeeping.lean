import OrderLookup.Proofs.Ingest.Moves

/-!
The books of the loop. What has been published has been taken, in order, or is still queued, as
long as the loop runs; each message that has been taken comes to one end, which fits it, and the
counters say how many came to which. Nothing is taken any more once the loop is cancelled.
-/

namespace OrderLookup.Ingest

open Resolver (Coherent Settled Saving Leads)

/-- Whether a message can end in this way: with what is wrong with it, or else as the store has
answered. -/
inductive Fits (s : Resolver) (m : Message) : Outcome → Prop
  | refused {reason : Reason} {cause : OrderError} (forwarded : Bool) :
      examine m = .error (reason, cause) → Fits s m (.diverted reason cause forwarded)
  | stored {o : Order} {f : Resolver.Finish} : examine m = .ok o → f ∈ s.finished →
      f.reply = .stored (.ok o.uid) → Fits s m (.committed o.uid)
  | failed {o : Order} {f : Resolver.Finish} {cause : OrderError} (forwarded : Bool) :
      examine m = .ok o → f ∈ s.finished → f.reply = .stored (.error cause) →
      Fits s m (.diverted .businessError cause forwarded)

theorem Fits.mono {s s' : Resolver} {m : Message} {outcome : Outcome} (h : Fits s m outcome)
    (hs : s.finished ⊆ s'.finished) : Fits s' m outcome := by
  cases h with
  | refused forwarded hx => exact .refused forwarded hx
  | stored hx hf hr => exact .stored hx (hs hf) hr
  | failed forwarded hx hf hr => exact .failed forwarded hx (hs hf) hr

namespace Outcome

def isCommitted : Outcome → Bool
  | .committed _ => true
  | .diverted .. => false

def isLost : Outcome → Bool
  | .committed _ => false
  | .diverted _ _ forwarded => !forwarded

end Outcome

def tally (taken : List Message) (handled : List (Message × Outcome)) : Counters where
  received := taken.length
  committed := handled.countP fun e => e.2.isCommitted
  deadLettered := handled.countP fun e => !e.2.isCommitted
  deadLetterFailures := handled.countP fun e => e.2.isLost

section Tally

variable {taken : List Message} {handled : List (Message × Outcome)}

theorem tally_receive (m : Message) :
    tally (taken ++ [m]) handled = (tally taken handled).receive := by
  simp [tally, Counters.receive]

theorem tally_record (m : Message) (outcome : Outcome) :
    tally taken (handled ++ [(m, outcome)]) = (tally taken handled).record outcome := by
  cases outcome with
  | committed uid => simp [tally, Counters.record, Outcome.isCommitted, Outcome.isLost]
  | diverted reason cause forwarded =>
    cases forwarded <;> simp [tally, Counters.record, Outcome.isCommitted, Outcome.isLost]

theorem tally_handled (taken : List Message) (handled : List (Message × Outcome)) :
    (tally taken handled).committed + (tally taken handled).deadLettered = handled.length := by
  rw [tally, List.length_eq_countP_add_countP fun e : Message × Outcome => e.2.isCommitted]
  simp

theorem tally_failures (taken : List Message) (handled : List (Message × Outcome)) :
    (tally taken handled).deadLetterFailures ≤ (tally taken handled).deadLettered := by
  apply List.countP_mono_left
  intro e _ hl
  cases h : e.2 <;> simp_all [Outcome.isCommitted, Outcome.isLost]

end Tally

namespace Loop

/-- How things stand in a phase, when the messages `p` have been published. -/
def Stands (p : List Message) (l : Loop) : Phase → Prop
  | .idle => l.taken ++ l.source.queue = p
  | .storing m number =>
    l.taken ++ l.source.queue = p ∧
      ∃ o, examine m = .ok o ∧ Saving l.worker.resolver number o
  | .stopped => l.cancelled = true ∧ l.source.hasReader = false ∧ l.taken <+: p
  | .failed cause =>
    cause = .source l.source.closedReason ∧ l.source.hasPublisher = false ∧
      l.source.hasReader = false ∧ l.taken = p

structure Tidy (p : List Message) (l : Loop) : Prop where
  steady : l.worker.Steady
  stands : Stands p l l.phase
  counters : l.counters = tally l.taken l.handled
  fits : ∀ e ∈ l.handled, Fits l.worker.resolver e.1 e.2

variable {l l' : Loop} {p : List Message} {ms : List Move} {m : Message}

theorem current_idle (h : l.phase = .idle) : l.current = [] := by rw [current, h]

theorem current_storing {number : Nat} (h : l.phase = .storing m number) : l.current = [m] := by
  rw [current, h]

theorem leave_taken {phase : Phase} (hi : l.phase = .idle) (hp : ∀ m n, phase ≠ .storing m n) :
    (l.leave phase).taken = l.taken := by
  rw [taken, taken, current_idle hi]
  cases phase with
  | storing m n => exact absurd rfl (hp m n)
  | _ => rfl

theorem conclude_taken (l : Loop) (m : Message) (e : Outcome × Worker) :
    (l.conclude m e).taken = l.handled.map Prod.fst ++ [m] := by
  simp [taken, conclude, current]

theorem fits_settle {w : Worker} {o : Order} {number : Nat} {r : Except OrderError String}
    (hx : examine m = .ok o) (hs : Saving w.resolver number o)
    (hr : w.resolver.stored? number = some r) : Fits w.resolver m (w.settle m r).1 := by
  obtain ⟨f, hf, -, hreply⟩ := Resolver.mem_of_stored hr
  cases r with
  | ok uid =>
    rw [hs.uid_eq hr] at hreply ⊢
    exact .stored hx hf hreply
  | error cause => exact .failed _ hx hf hreply

theorem conclude_counters (hc : l.counters = tally (l.handled.map Prod.fst ++ [m]) l.handled)
    (e : Outcome × Worker) :
    (l.conclude m e).counters = tally (l.conclude m e).taken (l.conclude m e).handled := by
  rw [conclude_taken]
  exact (congrArg (·.record e.1) hc).trans (tally_record m e.1).symm

theorem Turn.counters_eq (h : Turn l l') (hc : l.counters = tally l.taken l.handled) :
    l'.counters = tally l'.taken l'.handled := by
  cases h with
  | stopped hi =>
    rw [leave_taken hi (by simp)]
    exact hc
  | failed hi =>
    rw [leave_taken hi (by simp)]
    exact hc
  | @refused m queue reason cause hi =>
    rw [taken, current_idle hi, List.append_nil] at hc
    apply conclude_counters
    rw [tally_receive, ← hc]
  | @begun m queue o hi =>
    rw [taken, current_idle hi, List.append_nil] at hc
    change l.counters.receive = tally (l.handled.map Prod.fst ++ [m]) l.handled
    rw [tally_receive, ← hc]
  | @concluded m number r hp =>
    rw [taken, current_storing hp] at hc
    exact conclude_counters hc _

namespace Tidy

theorem ofParts (resolver : Resolver) (h : Coherent [] resolver) (hs : Settled resolver)
    (source : Topic) (hq : source.queue = []) (sink : Option Topic) (time : Instant) :
    Tidy [] (Loop.ofParts resolver source sink time) where
  steady := ⟨h, hs⟩
  stands := hq
  counters := rfl
  fits e he := by cases he

theorem conclude {e : Outcome × Worker} (hw : l.worker.Steady)
    (hr : e.2.resolver = l.worker.resolver) (ho : e.2.operations = l.worker.operations)
    (hf : ∀ d ∈ l.handled, Fits l.worker.resolver d.1 d.2) (hfit : Fits l.worker.resolver m e.1)
    (hp : l.handled.map Prod.fst ++ [m] ++ l.source.queue = p)
    (hc : (l.conclude m e).counters = tally (l.conclude m e).taken (l.conclude m e).handled) :
    Tidy p (l.conclude m e) := by
  have htaken := conclude_taken l m e
  constructor
  case steady =>
    have hsteady : e.2.Steady := by
      constructor
      · rw [hr, ho]
        exact hw.coherent
      · rw [hr]
        exact hw.settled
    exact hsteady
  case stands =>
    change (l.conclude m e).taken ++ l.source.queue = p
    rw [htaken]
    exact hp
  case counters => exact hc
  case fits =>
    intro d hd
    change Fits e.2.resolver d.1 d.2
    rw [hr]
    rcases List.mem_append.1 hd with hd | hd
    · exact hf d hd
    · rw [List.mem_singleton.1 hd]
      exact hfit

theorem turn (h : Tidy p l) (ht : Turn l l') : Tidy p l' := by
  have hst := h.stands
  have hc := ht.counters_eq h.counters
  cases ht with
  | stopped hi hcancel =>
    rw [hi] at hst
    have htaken : (l.leave .stopped).taken = l.taken := leave_taken hi (by simp)
    exact ⟨h.steady, ⟨hcancel, rfl, htaken ▸ ⟨_, hst⟩⟩, hc, h.fits⟩
  | failed hi hrun hq ho =>
    rw [hi] at hst
    have htaken : ∀ cause, (l.leave (.failed cause)).taken = l.taken :=
      fun cause => leave_taken hi (by simp)
    have hall : l.taken = p := by simpa [Stands, hq] using hst
    exact ⟨h.steady, ⟨rfl, ho, rfl, htaken _ ▸ hall⟩, hc, h.fits⟩
  | @refused m queue reason cause hi hrun hq hx =>
    rw [hi, Stands, taken, current_idle hi, List.append_nil, hq] at hst
    apply Tidy.conclude
    · exact h.steady
    · rfl
    · rfl
    · exact h.fits
    · exact .refused _ hx
    · simpa using hst
    · exact hc
  | @begun m queue o hi hrun hq hx =>
    rw [hi, Stands, taken, current_idle hi, List.append_nil, hq] at hst
    refine ⟨h.steady.start _, ⟨?_, o, hx, h.steady.saving o⟩, hc, fun e he => ?_⟩
    · simpa [taken, current] using hst
    · exact (h.fits e he).mono (l.worker.start_leads _).finished
  | @concluded m number r hp hr =>
    rw [hp, Stands, taken, current_storing hp] at hst
    obtain ⟨hall, o, hx, hs⟩ := hst
    exact Tidy.conclude h.steady (l.worker.settle_resolver r) (l.worker.settle_operations r) h.fits
      (fits_settle hx hs hr) hall hc

theorem withWorker (h : Tidy p l) {w : Worker} {ops : List (Nat × Resolver.Action)}
    (hw : w.Steady) (hl : Leads l.worker.resolver ops w.resolver)
    (hn : (List.range l.worker.operations ++ ops.map Prod.fst).Nodup)
    (hd : ∀ m number, l.phase = .storing m number → ∀ i, (i, .abort number) ∉ ops) :
    Tidy p { l with worker := w } where
  steady := hw
  stands := by
    -- The phase is also a part of the state, so the cases are taken of a phase beside it.
    have hstands : ∀ phase, l.phase = phase → Stands p l phase →
        Stands p { l with worker := w } phase := by
      intro phase hp hst
      cases phase with
      | storing m number =>
        obtain ⟨hall, o, hx, hs⟩ := hst
        exact ⟨hall, o, hx, hs.ofLeads h.steady.coherent hl hn (hd m number hp)⟩
      | idle => exact hst
      | stopped => exact hst
      | failed cause => exact hst
    exact hstands l.phase rfl h.stands
  counters := h.counters
  fits e he := (h.fits e he).mono hl.finished

theorem advance (h : Tidy p l) {w : Worker} (hw : w.Steady)
    (hl : Leads l.worker.resolver [] w.resolver) : Tidy p { l with worker := w } :=
  h.withWorker hw hl (by simpa using List.nodup_range) (by simp)

theorem setSink (h : Tidy p l) (sink : Option Topic) : Tidy p (l.setSink sink) :=
  h.advance ⟨h.steady.coherent, h.steady.settled⟩ (.refl _)

theorem wake (h : Tidy p l) : Tidy p (l.move .wake) := h.advance h.steady.wake (.wake _)

theorem wait (h : Tidy p l) (instant : Nat) : Tidy p (l.setNow instant) :=
  h.advance (h.steady.wait instant) (.move (.wait instant))

theorem ask (h : Tidy p l) (a : Resolver.Action) : Tidy p (l.move (.ask a)) := by
  rw [move]
  split
  · rename_i ha
    apply h.withWorker (h.steady.start a) (l.worker.start_leads a) (l.worker.nodup_operations a)
    intro m number hp i hi
    obtain ⟨-, rfl⟩ := Prod.mk.inj (List.mem_singleton.1 hi)
    simp [spares, hp] at ha
  · exact h

theorem cancel (h : Tidy p l) : Tidy p { l with cancelled := true } where
  steady := h.steady
  stands := by
    have hstands : ∀ phase, Stands p l phase → Stands p { l with cancelled := true } phase := by
      intro phase hst
      cases phase with
      | stopped => exact ⟨rfl, hst.2⟩
      | idle => exact hst
      | storing m number => exact hst
      | failed cause => exact hst
    exact hstands l.phase h.stands
  counters := h.counters
  fits := h.fits

theorem closeSource (h : Tidy p l) : Tidy p (l.move .closeSource) where
  steady := h.steady
  stands := by
    have hstands : ∀ phase, Stands p l phase → Stands p (l.move .closeSource) phase := by
      intro phase hst
      cases phase with
      | failed cause => exact ⟨hst.1, rfl, hst.2.2⟩
      | idle => exact hst
      | storing m number => exact hst
      | stopped => exact hst
    exact hstands l.phase h.stands
  counters := h.counters
  fits := h.fits

theorem push (h : Tidy p l) (hr : l.source.hasReader = true) (m : Message) :
    Tidy (p ++ [m]) { l with source := l.source.push m } where
  steady := h.steady
  stands := by
    have hstands : ∀ phase, Stands p l phase →
        Stands (p ++ [m]) { l with source := l.source.push m } phase := by
      intro phase hst
      cases phase with
      | idle =>
        rw [Stands] at hst
        rw [← hst, List.append_assoc]
        rfl
      | storing d number =>
        refine ⟨?_, hst.2⟩
        rw [← hst.1, List.append_assoc]
        rfl
      | stopped =>
        rw [hst.2.1] at hr
        cases hr
      | failed cause =>
        rw [hst.2.2.1] at hr
        cases hr
    exact hstands l.phase h.stands
  counters := h.counters
  fits := h.fits

theorem publish (h : Tidy p l) (m : Message) :
    Tidy (p ++ l.accepted (.publish m)) (l.move (.publish m)) := by
  rw [move, accepted, Topic.publish]
  cases hr : l.source.hasReader with
  | false => simpa using h
  | true =>
    cases hf : l.source.isFull with
    | true => simpa using h
    | false => simpa using h.push hr m

theorem move (h : Tidy p l) (m : Move) : Tidy (p ++ l.accepted m) (l.move m) := by
  have hquiet : l.accepted m = [] → Tidy p (l.move m) → Tidy (p ++ l.accepted m) (l.move m) := by
    intro ha hm
    rwa [ha, List.append_nil]
  cases m with
  | turn =>
    apply hquiet rfl
    rw [Loop.move]
    cases ht : l.turn with
    | none => exact h
    | some l' => exact h.turn (turn_cases ht)
  | publish m => exact h.publish m
  | wake => exact hquiet rfl h.wake
  | wait instant => exact hquiet rfl (h.wait instant)
  | cancel => exact hquiet rfl h.cancel
  | closeSource => exact hquiet rfl h.closeSource
  | closeSink => exact hquiet rfl (h.setSink _)
  | poll => exact hquiet rfl (h.setSink _)
  | ask a => exact hquiet rfl (h.ask a)

theorem follow (h : Tidy p l) (ms : List Move) : Tidy (p ++ l.published ms) (l.follow ms) := by
  induction ms generalizing p l with
  | nil =>
    rw [published, List.append_nil]
    exact h
  | cons m ms ih =>
    rw [published, ← List.append_assoc]
    exact ih (h.move m)

end Tidy

def writes (ms : List Message) : Nat := ms.countP fun m => (examine m).isOk

theorem writes_concat (ms : List Message) (m : Message) :
    writes (ms ++ [m]) = writes ms + if (examine m).isOk then 1 else 0 := by
  simp [writes, List.countP_cons]

theorem Turn.operations_eq (h : Turn l l') :
    l'.worker.operations + writes l.taken = l.worker.operations + writes l'.taken := by
  cases h with
  | stopped hi =>
    rw [leave_taken hi (by simp)]
    rfl
  | failed hi =>
    rw [leave_taken hi (by simp)]
    rfl
  | refused hi _ _ hx =>
    rw [conclude_taken, writes_concat, hx, taken, current_idle hi, List.append_nil]
    rfl
  | @begun m queue o hi _ _ hx =>
    have hwrites := writes_concat (l.handled.map Prod.fst) m
    rw [hx] at hwrites
    rw [taken, current_idle hi, List.append_nil]
    change l.worker.operations + 1 + writes (l.handled.map Prod.fst) =
      l.worker.operations + writes (l.handled.map Prod.fst ++ [m])
    rw [hwrites]
    simp only [Except.isOk, Except.toBool, if_true]
    omega
  | @concluded m number r hp =>
    rw [conclude_taken, taken, current_storing hp]
    exact congrArg (· + writes _) (l.worker.settle_operations r)

theorem operations_move (l : Loop) (m : Move) :
    (l.move m).worker.operations + writes l.taken =
      l.worker.operations + l.asks m + writes (l.move m).taken := by
  cases m with
  | turn =>
    rw [move]
    cases ht : l.turn with
    | none => rfl
    | some l' => exact (turn_cases ht).operations_eq
  | publish m =>
    rw [move]
    split <;> rfl
  | ask a =>
    rw [move, asks]
    split <;> rfl
  | _ => rfl

theorem operations_follow (l : Loop) (ms : List Move) :
    (l.follow ms).worker.operations + writes l.taken =
      l.worker.operations + l.asked ms + writes (l.follow ms).taken := by
  induction ms generalizing l with
  | nil => rfl
  | cons m ms ih =>
    have hmove := operations_move l m
    have hrest := ih (l.move m)
    change ((l.move m).follow ms).worker.operations + writes l.taken =
      l.worker.operations + (l.asks m + (l.move m).asked ms) + writes ((l.move m).follow ms).taken
    omega

theorem Turn.cancelled_eq (h : Turn l l') : l'.cancelled = l.cancelled := by
  cases h <;> rfl

theorem Turn.hasPublisher_eq (h : Turn l l') : l'.source.hasPublisher = l.source.hasPublisher := by
  cases h <;> rfl

theorem Turn.taken_eq (h : Turn l l') (hc : l.cancelled = true) : l'.taken = l.taken := by
  cases h with
  | stopped hi => exact leave_taken hi (by simp)
  | failed _ hrun => simp [hc] at hrun
  | refused _ hrun => simp [hc] at hrun
  | begun _ hrun => simp [hc] at hrun
  | concluded hp => rw [conclude_taken, taken, current_storing hp]

theorem taken_move (hc : l.cancelled = true) (m : Move) :
    (l.move m).taken = l.taken ∧ (l.move m).cancelled = true := by
  cases m with
  | turn =>
    rw [move]
    cases ht : l.turn with
    | none => exact ⟨rfl, hc⟩
    | some l' =>
      have hturn := turn_cases ht
      exact ⟨hturn.taken_eq hc, hturn.cancelled_eq.trans hc⟩
  | publish m =>
    rw [move]
    split <;> exact ⟨rfl, hc⟩
  | ask a =>
    rw [move]
    split <;> exact ⟨rfl, hc⟩
  | cancel => exact ⟨rfl, rfl⟩
  | _ => exact ⟨rfl, hc⟩

theorem taken_follow (hc : l.cancelled = true) (ms : List Move) :
    (l.follow ms).taken = l.taken := by
  have hkept : (l.follow ms).taken = l.taken ∧ (l.follow ms).cancelled = true := by
    refine follow_induction (P := fun l' => l'.taken = l.taken ∧ l'.cancelled = true) ⟨rfl, hc⟩ ?_
    intro l' m _ hkept
    obtain ⟨ht, hc⟩ := taken_move hkept.2 m
    exact ⟨ht.trans hkept.1, hc⟩
  exact hkept.1

end Loop

end OrderLookup.Ingest
