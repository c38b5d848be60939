import OrderLookup.Proofs.Ingest.Bookkeeping
import OrderLookup.Proofs.Ingest.Unseen

/-!
Dead letters on their way to somebody who takes them, now and then, and who may close the topic.
What has been taken and what is queued are the copies that the loop has forwarded, in the order of
the messages. A letter that is refused leaves the queue as it is.
-/

namespace OrderLookup.Ingest

/-- What can happen to a loop and to the taker of its dead letters: a move, a tick of the clock, or
that the taker closes the topic but stays for what is queued. -/
inductive Event
  | move (m : Loop.Move)
  | tick (time : Instant)
  | shut

namespace Loop

def undergo (l : Loop) : Event → Loop
  | .move m => l.move m
  | .tick time => { l with worker := { l.worker with time := time } }
  | .shut => l.setSink (l.worker.sink.map fun t => { t with hasReader := false })

def picked (l : Loop) : Event → List Message
  | .move .poll => (l.worker.sink.bind fun t => t.poll.1).toList
  | _ => []

end Loop

def Event.leaves : Event → Bool
  | .move .closeSink => true
  | _ => false

structure Post where
  loop : Loop
  /-- The messages that have come to their end, each with its outcome and the time of its end. -/
  log : List ((Message × Outcome) × Instant) := []
  taken : List Message := []
  gone : Bool := false

namespace Post

def step (p : Post) (e : Event) : Post where
  loop := p.loop.undergo e
  log := p.log ++ ((p.loop.undergo e).handled.drop p.loop.handled.length).map fun d =>
    (d, p.loop.worker.time)
  taken := p.taken ++ p.loop.picked e
  gone := p.gone || e.leaves

def follow (p : Post) (events : List Event) : Post := events.foldl step p

end Post

def Outcome.isForwarded : Outcome → Bool
  | .diverted _ _ forwarded => forwarded
  | .committed _ => false

/-- Whether a letter is the copy of a message that has been forwarded at a time: it is unmodified
but for three headers at the end. -/
inductive IsCopy (origin : String) (letter : Message) : (Message × Outcome) × Instant → Prop
  | intro {m : Message} {reason : Reason} {cause : OrderError} {time : Instant}
      (key : letter.key = m.key) (value : letter.value = m.value)
      (headers : letter.headers = m.headers ++
        [⟨"error", Text.Utf8.encode (reason.name ++ ": " ++ cause.message)⟩,
          ⟨"origin-topic", Text.Utf8.encode origin⟩,
          ⟨"timestamp", Text.Utf8.encode (String.ofList time.stamp)⟩]) :
      IsCopy origin letter ((m, .diverted reason cause true), time)

theorem deadLetter_isCopy (m : Message) (reason : Reason) (cause : OrderError) (origin : String)
    (time : Instant) :
    IsCopy origin (deadLetter m reason cause origin time)
      ((m, .diverted reason cause true), time) := by
  refine .intro rfl rfl ?_
  simp [deadLetter, Message.withHeader, errorHeader, originHeader, timestampHeader]

inductive Ends (w : Worker) : List (Message × Outcome) → Option Topic → Prop
  | nothing : Ends w [] w.sink
  | committed (m : Message) (uid : String) : Ends w [(m, .committed uid)] w.sink
  | refused (m : Message) (reason : Reason) (cause : OrderError)
      (no : ∀ t, w.sink = some t → t.hasReader = false ∨ t.isFull = true) :
      Ends w [(m, .diverted reason cause false)] w.sink
  | forwarded {t : Topic} (m : Message) (reason : Reason) (cause : OrderError)
      (sink : w.sink = some t) (reader : t.hasReader = true) (room : t.isFull = false) :
      Ends w [(m, .diverted reason cause true)]
        (some (t.push (deadLetter m reason cause w.origin w.time)))

theorem Ends.eq_nil_or_singleton {w : Worker} {ended : List (Message × Outcome)}
    {sink : Option Topic} (h : Ends w ended sink) :
    ended = [] ∨ ∃ m outcome, ended = [(m, outcome)] := by
  cases h with
  | nothing => exact .inl rfl
  | _ => exact .inr ⟨_, _, rfl⟩

theorem forward_cases (sink : Option Topic) (letter : Message) :
    (forward sink letter = (false, sink) ∧
        ∀ t, sink = some t → t.hasReader = false ∨ t.isFull = true) ∨
      ∃ t, sink = some t ∧ t.hasReader = true ∧ t.isFull = false ∧
        forward sink letter = (true, some (t.push letter)) := by
  cases sink with
  | none => exact .inl ⟨rfl, fun t ht => by cases ht⟩
  | some t =>
    cases hr : t.hasReader <;> cases hf : t.isFull <;> simp [forward, Topic.write, hr, hf]

namespace Worker

theorem divert_ends (w : Worker) (m : Message) (reason : Reason) (cause : OrderError) :
    Ends w [(m, (w.divert m reason cause).1)] (w.divert m reason cause).2.sink := by
  rw [divert]
  rcases forward_cases w.sink (deadLetter m reason cause w.origin w.time) with
    ⟨hw, hno⟩ | ⟨t, hs, hr, hf, hw⟩
  · rw [hw]
    exact .refused m reason cause hno
  · rw [hw]
    exact .forwarded m reason cause hs hr hf

theorem settle_ends (w : Worker) (m : Message) (r : Except OrderError String) :
    Ends w [(m, (w.settle m r).1)] (w.settle m r).2.sink := by
  cases r with
  | ok uid => exact .committed m uid
  | error cause => exact w.divert_ends m .businessError cause

end Worker

namespace Loop

variable {l l' : Loop}

theorem Turn.ends (h : Turn l l') :
    ∃ ended, l'.handled = l.handled ++ ended ∧ Ends l.worker ended l'.worker.sink := by
  cases h with
  | stopped => exact ⟨[], (List.append_nil _).symm, .nothing⟩
  | failed => exact ⟨[], (List.append_nil _).symm, .nothing⟩
  | begun => exact ⟨[], (List.append_nil _).symm, .nothing⟩
  | refused => exact ⟨_, rfl, l.worker.divert_ends _ _ _⟩
  | concluded => exact ⟨_, rfl, l.worker.settle_ends _ _⟩

theorem Turn.origin_eq (h : Turn l l') : l'.worker.origin = l.worker.origin := by
  cases h with
  | @concluded m number r => cases r <;> rfl
  | _ => rfl

theorem undergo_cases (l : Loop) (e : Event) :
    (e = .move .turn ∧ Turn l (l.undergo e)) ∨
      ((l.undergo e).handled = l.handled ∧ (l.undergo e).taken = l.taken ∧
        (l.undergo e).counters = l.counters ∧
        (l.undergo e).worker.origin = l.worker.origin) := by
  cases e with
  | tick time => exact .inr ⟨rfl, rfl, rfl, rfl⟩
  | shut => exact .inr ⟨rfl, rfl, rfl, rfl⟩
  | move m =>
    rw [undergo]
    cases m with
    | turn =>
      rw [move]
      cases ht : l.turn with
      | none => exact .inr ⟨rfl, rfl, rfl, rfl⟩
      | some l' => exact .inl ⟨rfl, turn_cases ht⟩
    | publish m =>
      rw [move]
      split <;> exact .inr ⟨rfl, rfl, rfl, rfl⟩
    | ask a =>
      rw [move]
      split <;> exact .inr ⟨rfl, rfl, rfl, rfl⟩
    | _ => exact .inr ⟨rfl, rfl, rfl, rfl⟩

theorem undergo_ends (l : Loop) (e : Event) :
    ∃ ended, (l.undergo e).handled = l.handled ++ ended ∧
      (ended = [] ∨ Ends l.worker ended (l.undergo e).worker.sink) := by
  rcases l.undergo_cases e with ⟨-, hturn⟩ | ⟨hhandled, -⟩
  · obtain ⟨ended, hhandled, hends⟩ := hturn.ends
    exact ⟨ended, hhandled, .inr hends⟩
  · exact ⟨[], hhandled.trans (List.append_nil _).symm, .inl rfl⟩

theorem undergo_counters (hc : l.counters = tally l.taken l.handled) (e : Event) :
    (l.undergo e).worker.origin = l.worker.origin ∧
      (l.undergo e).counters = tally (l.undergo e).taken (l.undergo e).handled := by
  rcases l.undergo_cases e with ⟨-, hturn⟩ | ⟨hhandled, htaken, hcounters, horigin⟩
  · exact ⟨hturn.origin_eq, hturn.counters_eq hc⟩
  · rw [hhandled, htaken, hcounters]
    exact ⟨horigin, hc⟩

theorem undergo_blind (h : l.blind = l'.blind) (e : Event) :
    (l.undergo e).blind = (l'.undergo e).blind := by
  cases e with
  | move m =>
    calc (l.move m).blind = (l.blind.move m).blind := (move_blind l m).symm
      _ = (l'.blind.move m).blind := by rw [h]
      _ = (l'.move m).blind := move_blind l' m
  | tick time => exact congrArg (fun b : Loop => b.undergo (.tick time)) h
  | shut => exact h

end Loop

variable {origin : String} {capacity : Nat} {t t' : Topic} {p : Post}

structure Booked (origin : String) (p : Post) : Prop where
  source : p.loop.worker.origin = origin
  log : p.log.map Prod.fst = p.loop.handled
  counters : p.loop.counters = tally p.loop.taken p.loop.handled

theorem Booked.step (h : Booked origin p) (e : Event) : Booked origin (p.step e) := by
  obtain ⟨ended, hhandled, -⟩ := p.loop.undergo_ends e
  obtain ⟨horigin, hcounters⟩ := Loop.undergo_counters h.counters e
  refine ⟨horigin.trans h.source, ?_, hcounters⟩
  change (p.log ++ _).map Prod.fst = (p.loop.undergo e).handled
  rw [List.map_append, h.log, hhandled, List.drop_left, List.map_map]
  simp [Function.comp_def]

theorem step_of_handled {e : Event} (hh : (p.loop.undergo e).handled = p.loop.handled) :
    p.step e =
      { p with
        loop := p.loop.undergo e
        taken := p.taken ++ p.loop.picked e
        gone := p.gone || e.leaves } := by
  simp [Post.step, hh]

/-- How the letters stand, with `t` as their topic. -/
structure Mailed (origin : String) (capacity : Nat) (t : Topic) (p : Post) : Prop where
  sink : p.loop.worker.sink = some t
  capacity : t.capacity = max capacity 1
  room : t.queue.length ≤ t.capacity
  staying : t.hasReader = true → p.gone = false
  letters : p.gone = false → List.Forall₂ (IsCopy origin) (p.taken ++ t.queue)
    (p.log.filter fun d => d.1.2.isForwarded)

namespace Mailed

theorem still (h : Mailed origin capacity t p) {e : Event}
    (hh : (p.loop.undergo e).handled = p.loop.handled) (hp : p.loop.picked e = [])
    (hl : e.leaves = false) (hs : (p.loop.undergo e).worker.sink = p.loop.worker.sink) :
    Mailed origin capacity t (p.step e) := by
  rw [step_of_handled hh, hp, hl, List.append_nil, Bool.or_false]
  exact ⟨hs.trans h.sink, h.capacity, h.room, h.staying, h.letters⟩

theorem turn (h : Mailed origin capacity t p) (hb : Booked origin p) :
    ∃ t', Mailed origin capacity t' (p.step (.move .turn)) := by
  cases ht : p.loop.turn with
  | none =>
    have hsame : p.loop.undergo (.move .turn) = p.loop := by
      rw [Loop.undergo, Loop.move, ht]
      rfl
    exact ⟨t, h.still (by rw [hsame]) rfl rfl (by rw [hsame])⟩
  | some l' =>
    obtain ⟨ended, hhandled, hends⟩ := (Loop.turn_cases ht).ends
    have hstep : p.step (.move .turn) =
        { p with loop := l', log := p.log ++ ended.map fun d => (d, p.loop.worker.time) } := by
      have hnext : p.loop.undergo (.move .turn) = l' := by
        rw [Loop.undergo, Loop.move, ht]
        rfl
      rw [Post.step, hnext, hhandled, List.drop_left]
      simp [Loop.picked, Event.leaves]
    rw [hstep]
    generalize hsink : l'.worker.sink = sink at hends
    cases hends with
    | nothing =>
      exact ⟨t, hsink.trans h.sink, h.capacity, h.room, h.staying, by simpa using h.letters⟩
    | committed m uid =>
      exact ⟨t, hsink.trans h.sink, h.capacity, h.room, h.staying,
        by simpa [Outcome.isForwarded] using h.letters⟩
    | refused m reason cause =>
      exact ⟨t, hsink.trans h.sink, h.capacity, h.room, h.staying,
        by simpa [Outcome.isForwarded] using h.letters⟩
    | @forwarded d m reason cause hs hr hf =>
      obtain rfl := Option.some.inj (hs.symm.trans h.sink)
      refine ⟨_, hsink, h.capacity, ?_, h.staying, fun hg => ?_⟩
      · have hroom : ¬d.capacity ≤ d.queue.length := by simpa [Topic.isFull] using hf
        simp only [Topic.push, List.length_append, List.length_singleton]
        omega
      · have hcopy := deadLetter_isCopy m reason cause p.loop.worker.origin p.loop.worker.time
        rw [hb.source] at hcopy ⊢
        rw [List.filter_append, Topic.push, ← List.append_assoc]
        exact List.rel_append (h.letters hg) (.cons hcopy .nil)

theorem poll (h : Mailed origin capacity t p) :
    ∃ t', Mailed origin capacity t' (p.step (.move .poll)) := by
  have hpicked : p.loop.picked (.move .poll) = t.poll.1.toList := by
    rw [Loop.picked, h.sink]
    rfl
  have hsink : (p.loop.undergo (.move .poll)).worker.sink = some t.poll.2 := by
    change p.loop.worker.sink.map (fun t => t.poll.2) = _
    rw [h.sink]
    rfl
  have hstays : (Event.move .poll).leaves = false := rfl
  rw [step_of_handled rfl, hpicked, hstays, Bool.or_false]
  have hroom := h.room
  have hletters := h.letters
  rw [Topic.poll] at hsink ⊢
  cases hq : t.queue with
  | nil =>
    rw [hq] at hsink hletters
    exact ⟨t, hsink, h.capacity, h.room, h.staying, by simpa [hq] using hletters⟩
  | cons letter queue =>
    rw [hq] at hsink hletters hroom
    refine ⟨{ t with queue := queue }, hsink, h.capacity, ?_, h.staying, ?_⟩
    · exact Nat.le_of_succ_le hroom
    · simpa using hletters

theorem leave (h : Mailed origin capacity t p) :
    ∃ t', Mailed origin capacity t' (p.step (.move .closeSink)) := by
  have hsink : (p.loop.undergo (.move .closeSink)).worker.sink = some t.closeReader := by
    change p.loop.worker.sink.map Topic.closeReader = _
    rw [h.sink]
    rfl
  rw [step_of_handled rfl]
  refine ⟨t.closeReader, hsink, h.capacity, Nat.zero_le _, fun hr => ?_, fun hg => ?_⟩
  · cases hr
  · simp [Event.leaves] at hg

theorem shut (h : Mailed origin capacity t p) : ∃ t', Mailed origin capacity t' (p.step .shut) := by
  have hsink : (p.loop.undergo .shut).worker.sink = some { t with hasReader := false } := by
    change p.loop.worker.sink.map (fun t => { t with hasReader := false }) = _
    rw [h.sink]
    rfl
  rw [step_of_handled rfl]
  refine ⟨_, hsink, h.capacity, h.room, fun hr => ?_, ?_⟩
  · cases hr
  · simpa [Loop.picked, Event.leaves] using h.letters

theorem step (h : Mailed origin capacity t p) (hb : Booked origin p) (e : Event) :
    ∃ t', Mailed origin capacity t' (p.step e) := by
  cases e with
  | tick time => exact ⟨t, h.still rfl rfl rfl rfl⟩
  | shut => exact h.shut
  | move m =>
    cases m with
    | turn => exact h.turn hb
    | poll => exact h.poll
    | closeSink => exact h.leave
    | publish m =>
      refine ⟨t, h.still ?_ rfl rfl ?_⟩ <;>
        · rw [Loop.undergo, Loop.move]
          split <;> rfl
    | ask a =>
      refine ⟨t, h.still ?_ rfl rfl ?_⟩ <;>
        · rw [Loop.undergo, Loop.move]
          split <;> rfl
    | _ => exact ⟨t, h.still rfl rfl rfl rfl⟩

theorem follow (h : Mailed origin capacity t p) (hb : Booked origin p) (events : List Event) :
    Booked origin (p.follow events) ∧ ∃ t', Mailed origin capacity t' (p.follow events) := by
  induction events generalizing p t with
  | nil => exact ⟨hb, t, h⟩
  | cons e events ih =>
    obtain ⟨t', h'⟩ := h.step hb e
    exact ih h' (hb.step e)

end Mailed

theorem tally_forwarded (taken : List Message) (handled : List (Message × Outcome)) :
    (tally taken handled).deadLettered =
      (tally taken handled).deadLetterFailures + handled.countP fun e => e.2.isForwarded := by
  induction handled using List.reverseRecOn with
  | nil => rfl
  | append_singleton handled e ih =>
    rw [tally_record, List.countP_append, List.countP_singleton]
    rcases e with ⟨m, uid | ⟨reason, cause, forwarded⟩⟩
    · simpa [Counters.record, Outcome.isForwarded] using ih
    · cases forwarded <;> simp only [Counters.record, Outcome.isForwarded, ih] <;> simp <;> omega

theorem follow_blind {p p' : Post} (h : p.loop.blind = p'.loop.blind) (events : List Event) :
    (p.follow events).loop.blind = (p'.follow events).loop.blind := by
  induction events generalizing p p' with
  | nil => exact h
  | cons e events ih => exact ih (Loop.undergo_blind h e)

structure Delivered (origin : String) (capacity : Nat) (t : Topic) (p : Post) : Prop where
  sink : p.loop.worker.sink = some t
  log : p.log.map Prod.fst = p.loop.handled
  staying : t.hasReader = true → p.gone = false
  letters : p.gone = false → List.Forall₂ (IsCopy origin) (p.taken ++ t.queue)
    (p.log.filter fun d => d.1.2.isForwarded)
  counters : p.gone = false → p.loop.counters.deadLettered =
    p.loop.counters.deadLetterFailures + (p.taken.length + t.queue.length)
  single : ∀ e, (p.step e).loop.handled = p.loop.handled ∨
    ∃ m outcome, (p.step e).loop.handled = p.loop.handled ++ [(m, outcome)]
  refused : ∀ e m reason cause forwarded,
    (p.step e).loop.handled = p.loop.handled ++ [(m, .diverted reason cause forwarded)] →
    (forwarded = false ↔ t.queue.length = max capacity 1 ∨ t.hasReader = false) ∧
      (forwarded = false → (p.step e).loop.worker.sink = some t) ∧
      (forwarded = true → (p.step e).loop.worker.sink =
        some (t.push (deadLetter m reason cause origin p.loop.worker.time)))
  unseen : ∀ sink after, (p.follow after).loop.blind =
    (Post.follow { p with loop := p.loop.setSink sink } after).loop.blind

namespace Mailed

theorem counters (h : Mailed origin capacity t p) (hb : Booked origin p) (hg : p.gone = false) :
    p.loop.counters.deadLettered =
      p.loop.counters.deadLetterFailures + (p.taken.length + t.queue.length) := by
  have hlength := (h.letters hg).length_eq
  rw [List.length_append, ← List.countP_eq_length_filter] at hlength
  have hcount : p.log.countP (fun d => d.1.2.isForwarded) =
      p.loop.handled.countP fun e => e.2.isForwarded := by
    rw [← hb.log, List.countP_map]
    rfl
  rw [hb.counters, tally_forwarded, hlength, hcount]

theorem refused (h : Mailed origin capacity t p) (hb : Booked origin p) {e : Event} {m : Message}
    {reason : Reason} {cause : OrderError} {forwarded : Bool}
    (hh : (p.step e).loop.handled = p.loop.handled ++ [(m, .diverted reason cause forwarded)]) :
    (forwarded = false ↔ t.queue.length = max capacity 1 ∨ t.hasReader = false) ∧
      (forwarded = false → (p.step e).loop.worker.sink = some t) ∧
      (forwarded = true → (p.step e).loop.worker.sink =
        some (t.push (deadLetter m reason cause origin p.loop.worker.time))) := by
  obtain ⟨ended, hhandled, hends⟩ := p.loop.undergo_ends e
  obtain rfl := List.append_cancel_left (hhandled.symm.trans hh)
  have hends := hends.resolve_left (by simp)
  have hfull : t.isFull = true ↔ t.queue.length = max capacity 1 := by
    have hroom := h.room
    rw [h.capacity] at hroom
    simp only [Topic.isFull, h.capacity, decide_eq_true_eq]
    omega
  change _ ∧ (_ → (p.loop.undergo e).worker.sink = some t) ∧
    (_ → (p.loop.undergo e).worker.sink = _)
  generalize (p.loop.undergo e).worker.sink = sink at hends
  cases hends with
  | refused _ _ _ hno =>
    have hwhy := hno t h.sink
    rw [hfull] at hwhy
    exact ⟨⟨fun _ => hwhy.symm, fun _ => rfl⟩, fun _ => h.sink, by simp⟩
  | @forwarded d _ _ _ hs hr hf =>
    obtain rfl := Option.some.inj (hs.symm.trans h.sink)
    have hyes : ¬(d.queue.length = max capacity 1 ∨ d.hasReader = false) := by
      rw [← hfull, hf, hr]
      simp
    refine ⟨⟨by simp, fun hno => absurd hno hyes⟩, by simp, fun _ => ?_⟩
    rw [hb.source]

end Mailed

/-- What the taker has and what is queued are the copies of the forwarded messages, in order and
each once. Only a full or a closed topic refuses one. -/
theorem dead_letters_are_delivered (resolver : Resolver) (source : Topic) (name : String)
    (capacity : Nat) (time : Instant) (events : List Event) :
    let start : Post := { loop := .ofParts resolver source (some (.ofCapacity name capacity)) time }
    ∃ t, Delivered source.name capacity t (start.follow events) := by
  intro start
  have hbooked : Booked source.name start := ⟨rfl, rfl, rfl⟩
  have hmailed : Mailed source.name capacity (.ofCapacity name capacity) start :=
    ⟨rfl, rfl, Nat.zero_le _, fun _ => rfl, fun _ => .nil⟩
  obtain ⟨hb, t, h⟩ := hmailed.follow hbooked events
  refine ⟨t, h.sink, hb.log, h.staying, h.letters, h.counters hb, fun e => ?_,
    fun e m reason cause forwarded hh => h.refused hb hh, fun sink after => follow_blind ?_ after⟩
  · obtain ⟨ended, hhandled, hends⟩ := (start.follow events).loop.undergo_ends e
    rcases hends.elim .inl Ends.eq_nil_or_singleton with rfl | ⟨m, outcome, rfl⟩
    · exact .inl (hhandled.trans (List.append_nil _))
    · exact .inr ⟨m, outcome, hhandled⟩
  · exact (Loop.setSink_blind _ sink).symm

example :
    let source : Topic :=
      { name := "orders"
        capacity := 3
        queue := [⟨none, [1], []⟩, ⟨none, [2], []⟩, ⟨none, [3], []⟩] }
    let start : Post :=
      { loop := .ofParts (Resolver.ofParts {} 1 Repository.empty {}) source
          (some (.ofCapacity "dead" 0)) Instant.epoch }
    let p := start.follow [.move .turn, .move .turn, .move .poll, .move .turn]
    p.taken.map Message.value = [[1]] ∧ p.loop.letters.map Message.value = [[3]] ∧
      p.loop.counters = ⟨3, 0, 3, 1⟩ := by
  decide +kernel

end OrderLookup.Ingest
