import OrderLookup.Proofs.Ingest.Moves
import OrderLookup.Proofs.Resolver.Closing

/-!
Dead letters that are published again. However often a message has been diverted, the letter bears
its headers and behind them those of all diversions, of which the last one counts. A worker reads
nothing but the payload, and so does a loop, whatever goes on beside it. So the letter comes to the
same end as the message and leaves the same store.
-/

namespace OrderLookup

namespace Message

theorem header_withHeader (m : Message) (name : String) (value : Bytes) (k : String) :
    (m.withHeader name value).header k = if name = k then some value else m.header k := by
  by_cases h : name = k <;> simp [header, withHeader, h]

def bare (m : Message) : Message := { m with headers := [] }

@[simp] theorem bare_bare (m : Message) : m.bare.bare = m.bare := rfl

end Message

namespace Topic

def bare (t : Topic) : Topic := { t with queue := t.queue.map Message.bare }

@[simp] theorem bare_bare (t : Topic) : t.bare.bare = t.bare := by
  simp [bare, Function.comp_def]

theorem isFull_bare (t : Topic) : t.bare.isFull = t.isFull := by
  simp [bare, isFull]

theorem push_bare (t : Topic) (m : Message) : t.bare.push m.bare = (t.push m).bare := by
  simp [bare, push]

theorem poll_bare (t : Topic) : t.bare.poll.2 = t.poll.2.bare := by
  rw [poll, poll, bare]
  cases h : t.queue <;> simp [bare, h]

end Topic

namespace Ingest

/-- Why, from where and when a message is diverted. -/
structure Diversion where
  reason : Reason
  cause : OrderError
  origin : String
  time : Instant

namespace Diversion

def apply (m : Message) (d : Diversion) : Message :=
  deadLetter m d.reason d.cause d.origin d.time

def error (d : Diversion) : Bytes := Text.Utf8.encode (d.reason.name ++ ": " ++ d.cause.message)

def source (d : Diversion) : Bytes := Text.Utf8.encode d.origin

def stamp (d : Diversion) : Bytes := Text.Utf8.encode (String.ofList d.time.stamp)

def headers (d : Diversion) : List Header :=
  [⟨"error", d.error⟩, ⟨"origin-topic", d.source⟩, ⟨"timestamp", d.stamp⟩]

def applyAll (m : Message) (ds : List Diversion) : Message := ds.foldl apply m

variable {m : Message} {d : Diversion} {ds : List Diversion}

theorem apply_headers (m : Message) (d : Diversion) :
    (apply m d).headers = m.headers ++ d.headers := by
  simp [apply, deadLetter, Message.withHeader, headers, error, source, stamp, errorHeader,
    originHeader, timestampHeader]

theorem header_apply (m : Message) (d : Diversion) :
    (apply m d).header "error" = some d.error ∧
      (apply m d).header "origin-topic" = some d.source ∧
      (apply m d).header "timestamp" = some d.stamp := by
  simp [apply, deadLetter, Message.header_withHeader, error, source, stamp, errorHeader,
    originHeader, timestampHeader]

theorem header_apply_other (m : Message) (d : Diversion) {name : String}
    (h : name ∉ ["error", "origin-topic", "timestamp"]) :
    (apply m d).header name = m.header name := by
  have hne : "error" ≠ name ∧ "origin-topic" ≠ name ∧ "timestamp" ≠ name := by
    simpa [eq_comm] using h
  simp [apply, deadLetter, Message.header_withHeader, errorHeader, originHeader, timestampHeader,
    hne]

theorem applyAll_bare (m : Message) (ds : List Diversion) : (applyAll m ds).bare = m.bare := by
  induction ds generalizing m with
  | nil => rfl
  | cons d ds ih => exact ih (apply m d)

theorem applyAll_headers (m : Message) (ds : List Diversion) :
    (applyAll m ds).headers = m.headers ++ ds.flatMap headers := by
  induction ds generalizing m with
  | nil => exact (List.append_nil _).symm
  | cons d ds ih =>
    have hrest := ih (apply m d)
    rw [apply_headers, List.append_assoc] at hrest
    exact hrest

theorem header_applyAll_other (m : Message) (ds : List Diversion) {name : String}
    (h : name ∉ ["error", "origin-topic", "timestamp"]) :
    (applyAll m ds).header name = m.header name := by
  induction ds generalizing m with
  | nil => rfl
  | cons d ds ih => exact (ih (apply m d)).trans (header_apply_other m d h)

theorem length_headers (ds : List Diversion) : (ds.flatMap headers).length = 3 * ds.length := by
  induction ds with
  | nil => rfl
  | cons d ds ih =>
    rw [List.flatMap_cons, List.length_append, ih, List.length_cons]
    change 3 + 3 * ds.length = _
    omega

structure Annotated (m : Message) (ds : List Diversion) (letter : Message) : Prop where
  key : letter.key = m.key
  value : letter.value = m.value
  headers : letter.headers = m.headers ++ ds.flatMap Diversion.headers
  three : (ds.flatMap Diversion.headers).length = 3 * ds.length
  last : ∀ before d, ds = before ++ [d] →
    letter.header "error" = some d.error ∧ letter.header "origin-topic" = some d.source ∧
      letter.header "timestamp" = some d.stamp
  others : ∀ name ∉ ["error", "origin-topic", "timestamp"], letter.header name = m.header name

theorem annotated_applyAll (m : Message) (ds : List Diversion) :
    Annotated m ds (applyAll m ds) := by
  have hbare := applyAll_bare m ds
  constructor
  case key =>
    have hkey : (applyAll m ds).bare.key = m.bare.key := by rw [hbare]
    exact hkey
  case value =>
    have hvalue : (applyAll m ds).bare.value = m.bare.value := by rw [hbare]
    exact hvalue
  case headers => exact applyAll_headers m ds
  case three => exact length_headers ds
  case last =>
    intro before d hd
    have hlast : applyAll m ds = apply (applyAll m before) d := by
      rw [hd]
      exact List.foldl_concat ..
    rw [hlast]
    exact header_apply _ d
  case others => exact fun name hname => header_applyAll_other m ds hname

end Diversion

theorem examine_congr {m m' : Message} (h : m'.bare = m.bare) : examine m' = examine m := by
  have hvalue : m'.bare.value = m.bare.value := by rw [h]
  rw [Message.bare, Message.bare] at hvalue
  rw [examine, examine, hvalue]

theorem forward_bare (sink : Option Topic) {letter letter' : Message}
    (h : letter'.bare = letter.bare) :
    (forward (sink.map Topic.bare) letter').1 = (forward sink letter).1 ∧
      (forward (sink.map Topic.bare) letter').2.map Topic.bare =
        (forward sink letter).2.map Topic.bare := by
  cases sink with
  | none => exact ⟨rfl, rfl⟩
  | some t =>
    have hreader : t.bare.hasReader = t.hasReader := rfl
    have hpush : (t.bare.push letter').bare = (t.push letter).bare := by
      rw [← Topic.push_bare, ← Topic.push_bare, Topic.bare_bare, h]
    simp only [forward, Option.map_some, Topic.write, t.isFull_bare, hreader]
    cases t.hasReader <;> cases t.isFull <;> simp [hpush]

namespace Worker

def bare (w : Worker) : Worker := { w with sink := w.sink.map Topic.bare }

variable {w : Worker} {m m' : Message}

theorem bare_bare (w : Worker) : w.bare.bare = w.bare := by
  simp [bare, Function.comp_def]

theorem divert_bare (w : Worker) (h : m'.bare = m.bare) (reason : Reason) (cause : OrderError) :
    (w.bare.divert m' reason cause).1 = (w.divert m reason cause).1 ∧
      (w.bare.divert m' reason cause).2.bare = (w.divert m reason cause).2.bare := by
  have hletter : (deadLetter m' reason cause w.origin w.time).bare =
      (deadLetter m reason cause w.origin w.time).bare := h
  obtain ⟨htaken, hsink⟩ := forward_bare w.sink hletter
  constructor
  · exact congrArg (Outcome.diverted reason cause) htaken
  · exact congrArg (fun sink => { w with sink := sink }) hsink

theorem settle_bare (w : Worker) (h : m'.bare = m.bare) (r : Except OrderError String) :
    (w.bare.settle m' r).1 = (w.settle m r).1 ∧
      (w.bare.settle m' r).2.bare = (w.settle m r).2.bare := by
  cases r with
  | ok uid => exact ⟨rfl, w.bare_bare⟩
  | error cause => exact w.divert_bare h .businessError cause

theorem process_bare (w : Worker) (h : m'.bare = m.bare) :
    (w.bare.process m').1 = (w.process m).1 ∧
      (w.bare.process m').2.bare = (w.process m).2.bare := by
  rw [process, process, examine_congr h]
  cases hx : examine m with
  | error refusal =>
    obtain ⟨houtcome, hworker⟩ := w.divert_bare h refusal.1 refusal.2
    exact ⟨congrArg some houtcome, hworker⟩
  | ok o =>
    have hanswer : (w.bare.perform (.create o)).resolver.stored? w.bare.operations =
        (w.perform (.create o)).resolver.stored? w.operations := rfl
    dsimp only
    rw [hanswer]
    cases (w.perform (.create o)).resolver.stored? w.operations with
    | none => exact ⟨rfl, (w.perform (.create o)).bare_bare⟩
    | some r =>
      obtain ⟨houtcome, hworker⟩ := (w.perform (.create o)).settle_bare h r
      exact ⟨congrArg some houtcome, hworker⟩

theorem process_congr (w : Worker) (h : m'.bare = m.bare) :
    (w.process m').1 = (w.process m).1 ∧ (w.process m').2.bare = (w.process m).2.bare := by
  obtain ⟨houtcome, hworker⟩ := w.process_bare h
  obtain ⟨hsame, hrest⟩ := w.process_bare (rfl : m'.bare = m'.bare)
  exact ⟨hsame.symm.trans houtcome, hrest.symm.trans hworker⟩

theorem Steady.process_ends (h : w.Steady) (m : Message) :
    ∃ outcome, (w.process m).1 = some outcome := by
  cases hx : examine m with
  | error refusal =>
    obtain ⟨forwarded, hprocess, -⟩ := process_of_refused hx w
    exact ⟨_, hprocess⟩
  | ok o =>
    obtain ⟨hstored, -⟩ := Resolver.perform_create h.coherent List.nodup_range h.settled
      List.not_mem_range_self o
    exact ⟨_, (process_of_stored hx hstored).1⟩

/-- The worker does with `m'` what it does with `m`, but for the headers of the dead letter. -/
structure Alike (w : Worker) (m m' : Message) : Prop where
  outcome : (w.process m').1 = (w.process m).1
  resolver : (w.process m').2.resolver = (w.process m).2.resolver
  sink : (w.process m').2.sink.map Topic.bare = (w.process m).2.sink.map Topic.bare
  ends : w.Steady → ∃ outcome, (w.process m').1 = some outcome

theorem alike_of_bare (w : Worker) (h : m'.bare = m.bare) : w.Alike m m' := by
  obtain ⟨houtcome, hworker⟩ := w.process_congr h
  constructor
  case outcome => exact houtcome
  case resolver =>
    have hresolver : (w.process m').2.bare.resolver = (w.process m).2.bare.resolver := by
      rw [hworker]
    exact hresolver
  case sink =>
    have hsink : (w.process m').2.bare.sink = (w.process m).2.bare.sink := by rw [hworker]
    exact hsink
  case ends => exact fun hsteady => hsteady.process_ends m'

end Worker

namespace Loop

def Phase.bare : Phase → Phase
  | .storing m number => .storing m.bare number
  | phase => phase

/-- A loop as it looks to somebody who sees no headers. -/
def bare (l : Loop) : Loop :=
  { l with
    worker := l.worker.bare
    source := l.source.bare
    phase := Phase.bare l.phase
    handled := l.handled.map fun e => (e.1.bare, e.2) }

def Move.bare : Move → Move
  | .publish m => .publish m.bare
  | m => m

theorem bare_bare (l : Loop) : l.bare.bare = l.bare := by
  have hphase : Phase.bare (Phase.bare l.phase) = Phase.bare l.phase := by
    cases l.phase <;> rfl
  simp [bare, Worker.bare, hphase, Function.comp_def]

theorem conclude_bare (l : Loop) (m : Message) {e e' : Outcome × Worker} (ho : e'.1 = e.1)
    (hw : e'.2.bare = e.2.bare) :
    (l.bare.conclude m.bare e').bare = (l.conclude m e).bare := by
  simp [bare, conclude, Phase.bare, ho, hw, Function.comp_def]

theorem accept_bare (l : Loop) (m : Message) :
    (l.bare.accept m.bare).bare = (l.accept m).bare := by
  rw [accept, accept, examine_congr m.bare_bare]
  cases examine m with
  | error refusal =>
    obtain ⟨houtcome, hworker⟩ := l.worker.divert_bare m.bare_bare refusal.1 refusal.2
    exact conclude_bare { l with counters := l.counters.receive } m houtcome hworker
  | ok o => simp [bare, Phase.bare, Worker.bare, Worker.start, Function.comp_def]

theorem leave_bare (l : Loop) (phase : Phase) :
    (l.bare.leave (Phase.bare phase)).bare = (l.leave phase).bare := by
  have hphase : Phase.bare (Phase.bare phase) = Phase.bare phase := by cases phase <;> rfl
  have hworker := l.worker.bare_bare
  simp [bare, leave, Topic.bare, Topic.closeReader, hphase, hworker]

theorem turn_bare (l : Loop) : l.bare.turn.map bare = l.turn.map bare := by
  -- A turn depends on the phase, on the head of the queue and on the reply of the store.
  rcases l with ⟨worker, source, phase, cancelled, counters, handled⟩
  cases phase with
  | idle =>
    cases cancelled with
    | true => exact congrArg some (leave_bare _ .stopped)
    | false =>
      rcases source with ⟨name, capacity, queue, hasPublisher, hasReader⟩
      cases queue with
      | nil =>
        cases hasPublisher with
        | true => rfl
        | false => exact congrArg some (leave_bare _ (.failed _))
      | cons m queue =>
        exact congrArg some
          (accept_bare ⟨worker, ⟨name, capacity, queue, _, _⟩, .idle, _, _, handled⟩ m)
  | storing m number =>
    have hanswer : worker.bare.resolver.stored? number = worker.resolver.stored? number := rfl
    simp only [turn, bare, Phase.bare, hanswer]
    cases worker.resolver.stored? number with
    | none => rfl
    | some r =>
      obtain ⟨houtcome, hworker⟩ := worker.settle_bare m.bare_bare r
      exact congrArg some (conclude_bare ⟨worker, source, _, _, _, handled⟩ m houtcome hworker)
  | stopped => rfl
  | failed cause => rfl

theorem publish_bare (t : Topic) (m : Message) :
    t.bare.publish m.bare = (t.publish m).map fun r => r.map Topic.bare := by
  have hreader : t.bare.hasReader = t.hasReader := rfl
  rw [Topic.publish, Topic.publish, t.isFull_bare, hreader, t.push_bare]
  cases t.hasReader <;> cases t.isFull <;> rfl

theorem setSink_bare (l : Loop) {f : Topic → Topic} (hf : ∀ t : Topic, f t.bare = (f t).bare) :
    (l.bare.setSink (l.bare.worker.sink.map f)).bare = (l.setSink (l.worker.sink.map f)).bare := by
  have hsink : l.bare.worker.sink.map f = (l.worker.sink.map f).map Topic.bare := by
    simp [bare, Worker.bare, hf, Function.comp_def]
  rw [hsink]
  exact bare_bare (l.setSink (l.worker.sink.map f))

theorem move_bare (l : Loop) (m : Move) : (l.bare.move m.bare).bare = (l.move m).bare := by
  cases m with
  | turn =>
    have hturn := turn_bare l
    change (l.bare.turn.getD l.bare).bare = (l.turn.getD l).bare
    cases ht : l.turn with
    | none =>
      rw [ht, Option.map_none, Option.map_eq_none_iff] at hturn
      rw [hturn]
      exact bare_bare l
    | some l' =>
      rw [ht] at hturn
      obtain ⟨l'', ht', he⟩ := Option.map_eq_some_iff.1 hturn
      rw [ht']
      exact he
  | publish m =>
    have hpublish : l.bare.source.publish m.bare = _ := publish_bare l.source m
    rw [Move.bare, move, move, hpublish]
    rcases l.source.publish m with _ | (cause | t)
    · exact bare_bare l
    · exact bare_bare l
    · exact bare_bare { l with source := t }
  | ask a =>
    have hspares : l.bare.spares a = l.spares a := by
      cases a <;> simp only [spares]
      cases h : l.phase <;> simp [bare, Phase.bare, h]
    change bare (if l.bare.spares a then { l.bare with worker := l.bare.worker.start a }
      else l.bare) = bare (if l.spares a then { l with worker := l.worker.start a } else l)
    rw [hspares]
    split
    · exact bare_bare { l with worker := l.worker.start a }
    · exact bare_bare l
  | wake => exact bare_bare (l.move .wake)
  | wait instant => exact bare_bare (l.move (.wait instant))
  | cancel => exact bare_bare (l.move .cancel)
  | closeSource => exact bare_bare (l.move .closeSource)
  | closeSink => exact l.setSink_bare fun _ => rfl
  | poll => exact l.setSink_bare Topic.poll_bare

theorem move_congr {l l' : Loop} {m m' : Move} (hl : l'.bare = l.bare) (hm : m'.bare = m.bare) :
    (l'.move m').bare = (l.move m).bare := by
  rw [← move_bare l', ← move_bare l, hl, hm]

theorem follow_congr {l l' : Loop} (hl : l'.bare = l.bare) (ms : List Move) :
    (l'.follow ms).bare = (l.follow ms).bare := by
  induction ms generalizing l l' with
  | nil => exact hl
  | cons m ms ih => exact ih (move_congr hl rfl)

theorem handled_of_bare {l l' : Loop} (h : l'.bare = l.bare) :
    l'.handled.map Prod.snd = l.handled.map Prod.snd := by
  have hbare : ∀ l : Loop, l.bare.handled.map Prod.snd = l.handled.map Prod.snd := by
    intro l
    simp [bare, Function.comp_def]
  rw [← hbare l', ← hbare l, h]

/-- Whether `m` or `m'` is published between `before` and `after`, the loop comes to the same
resolver, the same decisions and the same counters. -/
structure Alike (l : Loop) (before after : List Move) (m m' : Message) : Prop where
  resolver : (l.follow (before ++ .publish m' :: after)).worker.resolver =
    (l.follow (before ++ .publish m :: after)).worker.resolver
  decisions : (l.follow (before ++ .publish m' :: after)).handled.map Prod.snd =
    (l.follow (before ++ .publish m :: after)).handled.map Prod.snd
  counters : (l.follow (before ++ .publish m' :: after)).counters =
    (l.follow (before ++ .publish m :: after)).counters

theorem alike_of_bare (l : Loop) (before after : List Move) {m m' : Message}
    (h : m'.bare = m.bare) : l.Alike before after m m' := by
  have hpublish : ((l.follow before).move (.publish m')).bare =
      ((l.follow before).move (.publish m)).bare :=
    move_congr rfl (congrArg Move.publish h)
  have hsame : (l.follow (before ++ .publish m' :: after)).bare =
      (l.follow (before ++ .publish m :: after)).bare := by
    rw [follow_append, follow_append]
    exact follow_congr hpublish after
  constructor
  case resolver =>
    have hresolver := congrArg (fun l => l.worker.resolver) hsame
    exact hresolver
  case decisions => exact handled_of_bare hsame
  case counters =>
    have hcounters := congrArg counters hsame
    exact hcounters

end Loop

open Diversion (applyAll)

/-- However often a message has been diverted, whoever is given the letter does what he would do
with the message. -/
theorem dead_letters_can_be_replayed (m : Message) (ds : List Diversion) :
    Diversion.Annotated m ds (applyAll m ds) ∧
      (∀ w : Worker, w.Alike m (applyAll m ds)) ∧
      ∀ (l : Loop) (before after : List Loop.Move), l.Alike before after m (applyAll m ds) := by
  have hbare : (applyAll m ds).bare = m.bare := Diversion.applyAll_bare m ds
  refine ⟨Diversion.annotated_applyAll m ds, fun w => ?_, fun l before after => ?_⟩
  · exact w.alike_of_bare hbare
  · exact l.alike_of_bare before after hbare

theorem dead_letters_can_be_replayed_twice :
    let m : Message :=
      { value := [1], headers := [⟨"error", [2]⟩, ⟨"error", [3]⟩, ⟨"trace", [4]⟩] }
    let first : Diversion := ⟨.invalidPayload, .invalidPayload "broken", "orders", .epoch⟩
    let last : Diversion := ⟨.businessError, .store "down", "orders.DLQ", .epoch⟩
    let letter := applyAll m [first, last]
    let w : Worker := { resolver := .ofParts {} 1 .empty {}, origin := "orders" }
    letter.headers.length = 9 ∧ letter.header "error" = some last.error ∧
      "trace" ∉ ["error", "origin-topic", "timestamp"] ∧ letter.header "trace" = some [4] ∧
      w.Steady ∧
      ∃ outcome, (w.process letter).1 = some outcome ∧ (w.process m).1 = some outcome := by
  intro m first last letter w
  have hsteady : w.Steady := ⟨.ofParts {} 1 .empty {}, .ofParts {} 1 .empty {}⟩
  have htrace : "trace" ∉ ["error", "origin-topic", "timestamp"] := by decide
  obtain ⟨hletter, hprocess, -⟩ := dead_letters_can_be_replayed m [first, last]
  obtain ⟨outcome, hends⟩ := (hprocess w).ends hsteady
  have hlength : letter.headers.length = 9 := by
    rw [hletter.headers]
    rfl
  exact ⟨hlength, (hletter.last [first] last rfl).1, htrace, hletter.others "trace" htrace,
    hsteady, outcome, hends, (hprocess w).outcome.symm.trans hends⟩

end Ingest

end OrderLookup
