import OrderLookup.Proofs.Ingest.Moves
import OrderLookup.Proofs.Resolver.Writing
import OrderLookup.Proofs.Wire.Order

/-!
No message counts for another. What becomes of a message is known from the message, the settings
and the script; the store ends with the last stored order of each id, and all else in it is as it
was. So messages that are diverted might as well not have been there.
-/

namespace OrderLookup.Ingest

open Resolver (AtRest Frame Written Writing verdict written)

/-- What becomes of a message: the id of the order that is stored, or why the message is diverted
and with which error. It leaves out what becomes of the dead letter. -/
def Outcome.decision : Outcome → Except (Reason × OrderError) String
  | .committed uid => .ok uid
  | .diverted reason cause _ => .error (reason, cause)

def judge (settings : Settings) (script : Script) (m : Message) :
    Except (Reason × OrderError) Order :=
  match examine m with
  | .error refusal => .error refusal
  | .ok o =>
    match verdict settings script o with
    | .ok _ => .ok o
    | .error cause => .error (.businessError, cause)

def ruling (settings : Settings) (script : Script) (m : Message) :
    Except (Reason × OrderError) String :=
  (judge settings script m).map Order.uid

def stored (settings : Settings) (script : Script) (ms : List Message) : List Order :=
  ms.filterMap fun m => (judge settings script m).toOption

def Worker.processAll (w : Worker) : List Message → List (Option Outcome) × Worker
  | [] => ([], w)
  | m :: ms =>
    let (outcome, w) := w.process m
    let (outcomes, w) := w.processAll ms
    (outcome :: outcomes, w)

variable {settings : Settings} {script : Script} {s : Resolver} {w : Worker} {m : Message}
  {ms : List Message} {o : Order}

theorem stored_append (ms ms' : List Message) :
    stored settings script (ms ++ ms') = stored settings script ms ++ stored settings script ms' :=
  List.filterMap_append

theorem stored_singleton (m : Message) :
    stored settings script [m] = (judge settings script m).toOption.toList := by
  rw [stored, List.filterMap_cons]
  cases judge settings script m <;> rfl

theorem judge_of_refused {refusal : Reason × OrderError} (hx : examine m = .error refusal) :
    judge settings script m = .error refusal := by
  rw [judge, hx]

theorem judge_of_examined (hx : examine m = .ok o) :
    (verdict settings script o = .ok o.uid ∧ judge settings script m = .ok o) ∨
      ∃ cause, verdict settings script o = .error cause ∧
        judge settings script m = .error (.businessError, cause) := by
  rw [judge, hx]
  dsimp only
  cases hv : verdict settings script o with
  | ok uid => exact .inl ⟨by rw [Resolver.uid_of_verdict hv], rfl⟩
  | error cause => exact .inr ⟨cause, rfl, rfl⟩

theorem examine_of_invalid {cause : OrderError} (h : o.validate = .error cause) :
    examine (.ofOrder o) = .error (.schemaValidation, cause) := by
  simp only [examine, Message.ofOrder, Order.decode_wireBytes, h]

theorem examine_of_valid (h : o.validate = .ok ()) : examine (.ofOrder o) = .ok o := by
  simp only [examine, Message.ofOrder, Order.decode_wireBytes, h]

theorem written_of_examined (hx : examine m = .ok o) (r : Repository) :
    written settings script r o = r.putAll (stored settings script [m]) := by
  rw [written, stored_singleton]
  rcases judge_of_examined hx with ⟨hv, hj⟩ | ⟨cause, hv, hj⟩ <;> rw [hv, hj] <;> rfl

theorem putAll_of_refused {refusal : Reason × OrderError} (hx : examine m = .error refusal)
    (r : Repository) : r.putAll (stored settings script [m]) = r := by
  rw [stored_singleton, judge_of_refused hx]
  rfl

theorem settle_decision (hx : examine m = .ok o) (w : Worker) :
    (w.settle m (verdict settings script o)).1.decision = ruling settings script m := by
  rw [ruling]
  rcases judge_of_examined hx with ⟨hv, hj⟩ | ⟨cause, hv, hj⟩ <;> rw [hv, hj] <;> rfl

namespace Worker

abbrev Idle (w : Worker) : Prop := AtRest w.resolver w.operations

theorem process_spec (h : w.Idle) (m : Message) :
    let s := w.resolver
    (w.process m).1.map Outcome.decision = some (ruling s.settings s.script m) ∧
      (w.process m).2.Idle ∧ Frame s (w.process m).2.resolver ∧
      (w.process m).2.resolver.repository =
        s.repository.putAll (stored s.settings s.script [m]) := by
  cases hx : examine m with
  | error refusal =>
    obtain ⟨forwarded, hp, hresolver, hoperations⟩ := process_of_refused hx w
    rw [Idle, hp, hresolver, hoperations]
    refine ⟨?_, h, .refl _, (putAll_of_refused hx _).symm⟩
    rw [ruling, judge_of_refused hx]
    rfl
  | ok o =>
    obtain ⟨hw, hframe, hrest⟩ := AtRest.perform h o
    obtain ⟨hp, hresolver, hoperations⟩ := process_of_stored hx hw.answered
    rw [Idle, hp, hresolver, hoperations]
    refine ⟨?_, hrest, hframe, ?_⟩
    · rw [Option.map_some, settle_decision hx]
    · rw [← written_of_examined hx]
      exact hw.repository

theorem processAll_spec (h : w.Idle) (ms : List Message) :
    let s := w.resolver
    (w.processAll ms).1.map (Option.map Outcome.decision) =
        ms.map (fun m => some (ruling s.settings s.script m)) ∧
      Frame s (w.processAll ms).2.resolver ∧
      (w.processAll ms).2.resolver.repository =
        s.repository.putAll (stored s.settings s.script ms) := by
  induction ms generalizing w with
  | nil => exact ⟨rfl, .refl _, rfl⟩
  | cons m ms ih =>
    obtain ⟨hdecision, hidle, hframe, hrepository⟩ := process_spec h m
    obtain ⟨hdecisions, hrest, hall⟩ := ih hidle
    rw [hframe.settings, hframe.script] at hdecisions hall
    refine ⟨?_, hframe.trans hrest, ?_⟩
    · rw [processAll, List.map_cons, List.map_cons, hdecision, hdecisions]
    · rw [processAll]
      dsimp only
      rw [hall, hrepository, ← Repository.putAll_append, ← stored_append]
      rfl

end Worker

namespace Loop

def settledRepository (s : Resolver) (l : Loop) : Repository :=
  s.repository.putAll (stored s.settings s.script (l.handled.map Prod.fst))

/-- How the resolver of a loop stands in a phase, if it has begun with `s`. -/
def Keeps (s : Resolver) (l : Loop) : Phase → Prop
  | .storing m number =>
    l.worker.operations = number + 1 ∧ ∃ o, examine m = .ok o ∧
      Writing s.settings s.script (l.settledRepository s) number o l.worker.resolver
  | _ => l.worker.Idle ∧ l.worker.resolver.repository = l.settledRepository s

structure Isolated (s : Resolver) (l : Loop) : Prop where
  quiet : s.registry.callers = []
  frame : Frame s l.worker.resolver
  keeps : l.Keeps s l.phase
  rulings : ∀ e ∈ l.handled, e.2.decision = ruling s.settings s.script e.1

variable {l l' : Loop} {number : Nat}

namespace Isolated

theorem callers (h : l.Isolated s) : l.worker.resolver.registry.callers = [] :=
  (congrArg _ h.frame.registry).trans h.quiet

theorem conclude {e : Outcome × Worker} (h : l.Isolated s) (hframe : Frame s e.2.resolver)
    (hidle : e.2.Idle)
    (hr : e.2.resolver.repository =
      (l.settledRepository s).putAll (stored s.settings s.script [m]))
    (hd : e.1.decision = ruling s.settings s.script m) : (l.conclude m e).Isolated s where
  quiet := h.quiet
  frame := hframe
  keeps := by
    refine ⟨hidle, hr.trans ?_⟩
    rw [settledRepository, settledRepository, ← Repository.putAll_append, ← stored_append]
    simp [Loop.conclude]
  rulings := by
    intro d hmem
    rcases List.mem_append.1 hmem with hmem | hmem
    · exact h.rulings d hmem
    · rw [List.mem_singleton.1 hmem]
      exact hd

theorem turn (h : l.Isolated s) (ht : Turn l l') : l'.Isolated s := by
  have hkeeps := h.keeps
  cases ht with
  | stopped hi =>
    rw [hi] at hkeeps
    exact ⟨h.quiet, h.frame, hkeeps, h.rulings⟩
  | failed hi =>
    rw [hi] at hkeeps
    exact ⟨h.quiet, h.frame, hkeeps, h.rulings⟩
  | @refused m queue reason cause hi _ _ hx =>
    rw [hi] at hkeeps
    obtain ⟨hidle, hr⟩ := hkeeps
    have hnow : Isolated s { l with
        source := { l.source with queue := queue }
        counters := l.counters.receive } := ⟨h.quiet, h.frame, h.keeps, h.rulings⟩
    apply hnow.conclude
    · exact h.frame
    · exact hidle
    · rw [putAll_of_refused hx]
      exact hr
    · rw [ruling, judge_of_refused hx]
      rfl
  | @begun m queue o hi _ _ hx =>
    rw [hi] at hkeeps
    obtain ⟨hidle, hr⟩ := hkeeps
    obtain ⟨hwriting, hframe⟩ := hidle.advance o
    refine ⟨h.quiet, h.frame.trans hframe, ⟨rfl, o, hx, ?_⟩, h.rulings⟩
    rw [← h.frame.settings, ← h.frame.script]
    exact hr ▸ hwriting
  | @concluded m number r hp hr =>
    rw [hp] at hkeeps
    obtain ⟨hops, o, hx, hwriting⟩ := hkeeps
    obtain ⟨hw, rfl⟩ := hwriting.over_of_stored hr
    apply h.conclude
    · rw [Worker.settle_resolver]
      exact h.frame
    · rw [Worker.Idle, Worker.settle_resolver, Worker.settle_operations, hops]
      exact ⟨h.callers, hw.flights, fun f hf => Nat.lt_succ_of_le (hw.past f hf)⟩
    · rw [Worker.settle_resolver, ← written_of_examined hx]
      exact hw.repository
    · exact settle_decision hx _

theorem wake (h : l.Isolated s) : (l.move .wake).Isolated s := by
  have hstep : ∀ phase, l.Keeps s phase →
      Frame s l.worker.resolver.wake ∧ (l.move .wake).Keeps s phase := by
    intro phase hkeeps
    cases phase with
    | storing m number =>
      obtain ⟨hops, o, hx, hwriting⟩ := hkeeps
      obtain ⟨hwake, hframe⟩ := hwriting.wake h.callers
      exact ⟨h.frame.trans hframe, hops, o, hx, hwake⟩
    | _ =>
      obtain ⟨hidle, hr⟩ := hkeeps
      have hwake : l.worker.resolver.wake = l.worker.resolver := hidle.wake
      have hsame : l.move .wake = l := by rw [Loop.move, hwake]
      rw [hwake, hsame]
      exact ⟨h.frame, hidle, hr⟩
  obtain ⟨hframe, hkeeps⟩ := hstep l.phase h.keeps
  exact ⟨h.quiet, hframe, hkeeps, h.rulings⟩

theorem wait (h : l.Isolated s) (instant : Nat) : (l.setNow instant).Isolated s := by
  have hstep : ∀ phase, l.Keeps s phase → (l.setNow instant).Keeps s phase := by
    intro phase hkeeps
    cases phase with
    | storing m number =>
      obtain ⟨hops, o, hx, hwriting⟩ := hkeeps
      exact ⟨hops, o, hx, hwriting.wait instant⟩
    | _ => exact ⟨hkeeps.1.wait instant, hkeeps.2⟩
  refine ⟨h.quiet, ?_, hstep l.phase h.keeps, h.rulings⟩
  exact ⟨h.frame.settings, h.frame.script, h.frame.cache, h.frame.registry⟩

theorem of_eq (h : l.Isolated s) (hw : l'.worker.resolver = l.worker.resolver)
    (ho : l'.worker.operations = l.worker.operations) (hp : l'.phase = l.phase)
    (hh : l'.handled = l.handled) : l'.Isolated s where
  quiet := h.quiet
  frame := hw ▸ h.frame
  keeps := by
    have hkeeps := h.keeps
    rw [hp]
    cases hphase : l.phase <;> rw [hphase] at hkeeps <;>
      simpa only [Keeps, Worker.Idle, settledRepository, hw, ho, hh] using hkeeps
  rulings := hh ▸ h.rulings

theorem move (h : l.Isolated s) {m : Move} (ha : ∀ a, m ≠ .ask a) : (l.move m).Isolated s := by
  cases m with
  | turn =>
    rw [Loop.move]
    cases ht : l.turn with
    | none => exact h
    | some l' => exact h.turn (turn_cases ht)
  | publish m =>
    rw [Loop.move]
    split <;> exact h.of_eq rfl rfl rfl rfl
  | wake => exact h.wake
  | wait instant => exact h.wait instant
  | ask a => exact absurd rfl (ha a)
  | _ => exact h.of_eq rfl rfl rfl rfl

theorem follow (h : l.Isolated s) {ms : List Move} (ha : ∀ a, .ask a ∉ ms) :
    (l.follow ms).Isolated s :=
  follow_induction h fun _ _ hm hl => hl.move fun a he => ha a (he ▸ hm)

end Isolated

theorem Isolated.ofIdle (h : w.Idle) (source : Topic) :
    Isolated w.resolver { worker := w, source := source } where
  quiet := h.callers
  frame := .refl _
  keeps := ⟨h, rfl⟩
  rulings e he := by cases he

end Loop

theorem isOk_ruling (m : Message) :
    (ruling settings script m).isOk = (judge settings script m).isOk := by
  rw [ruling]
  cases judge settings script m <;> rfl

theorem stored_filter (ms : List Message) :
    stored settings script (ms.filter fun m => (ruling settings script m).isOk) =
      stored settings script ms := by
  rw [stored, stored, List.filterMap_filter]
  congr 1
  funext m
  rw [isOk_ruling]
  cases judge settings script m <;> rfl

/-- What becomes of a message depends on no other one, and without the diverted messages the rest
leaves the same store. -/
theorem messages_stand_alone (h : w.Idle) (ms : List Message) (source : Topic)
    (moves : List Loop.Move) (ha : ∀ a, .ask a ∉ moves) :
    let s := w.resolver
    let ruled := fun m => ruling s.settings s.script m
    let ended := w.processAll ms
    let kept := ms.filter fun m => (ruled m).isOk
    let l := Loop.follow { worker := w, source := source } moves
    ended.1.map (Option.map Outcome.decision) = ms.map (fun m => some (ruled m)) ∧
      (∀ uid, ended.2.resolver.repository.orders.get? uid =
        ((stored s.settings s.script ms).reverse.find? fun o => o.uid = uid).or
          (s.repository.orders.get? uid)) ∧
      ended.2.resolver.cache = s.cache ∧
      ((w.processAll kept).1.map (Option.map Outcome.decision) =
          kept.map (fun m => some (ruled m)) ∧
        (w.processAll kept).2.resolver.repository = ended.2.resolver.repository) ∧
      (∀ e ∈ l.handled, e.2.decision = ruled e.1) ∧ l.worker.resolver.cache = s.cache ∧
      ((∀ m number, l.phase ≠ .storing m number) → l.worker.resolver.repository =
        (w.processAll (l.handled.map Prod.fst)).2.resolver.repository) := by
  intro s ruled ended kept l
  obtain ⟨hdecisions, hframe, hrepository⟩ := Worker.processAll_spec h ms
  obtain ⟨hkept, -, hsame⟩ := Worker.processAll_spec h kept
  have hl : l.Isolated s := (Loop.Isolated.ofIdle h source).follow ha
  refine ⟨hdecisions, fun uid => ?_, hframe.cache, ⟨hkept, ?_⟩, hl.rulings, hl.frame.cache, ?_⟩
  · rw [hrepository, Repository.get?_putAll]
  · rw [hsame, hrepository, stored_filter]
  · intro hp
    obtain ⟨-, -, hall⟩ := Worker.processAll_spec h (l.handled.map Prod.fst)
    have hkeeps := hl.keeps
    rw [hall]
    cases hphase : l.phase with
    | storing m number => exact absurd hphase (hp m number)
    | _ =>
      rw [hphase] at hkeeps
      exact hkeeps.2

def parcel (uid track : String) : Order where
  uid := uid
  trackNumber := track
  entry := "entry"
  items := [{}]
  customerId := "customer"
  deliveryService := "post"
  shardKey := "1"
  dateCreated := Order.Sample.created 1
  oofShard := "1"

def choosy : Worker where
  resolver := .ofParts {} 2 .empty { failures := [(.upsertOrder, [("b", .store "refused")])] }
  origin := "orders"

theorem choosy_idle : choosy.Idle := ⟨rfl, rfl, fun f hf => by cases hf⟩

theorem judge_parcel (track : String) (hv : (parcel "a" track).validate = .ok ()) :
    judge choosy.resolver.settings choosy.resolver.script (.ofOrder (parcel "a" track)) =
      .ok (parcel "a" track) := by
  have hgood : verdict choosy.resolver.settings choosy.resolver.script (parcel "a" track) =
      .ok "a" := rfl
  rw [judge, examine_of_valid hv]
  simp only [hgood]

theorem judge_blank :
    judge choosy.resolver.settings choosy.resolver.script (.ofOrder (parcel "" "none")) =
      .error (.schemaValidation, .validation ["order_uid is required"]) := by
  have hblank : (parcel "" "none").validate = .error (.validation ["order_uid is required"]) := rfl
  rw [judge, examine_of_invalid hblank]

theorem messages_stand_alone_beside_poison :
    let ms := [.ofOrder (parcel "a" "first"), .ofOrder (parcel "" "none"),
      .ofOrder (parcel "b" "refused"), .ofOrder (parcel "a" "second")]
    choosy.Idle ∧ (choosy.processAll ms).1.map (Option.map Outcome.decision) =
        [some (.ok "a"),
          some (.error (.schemaValidation, .validation ["order_uid is required"])),
          some (.error (.businessError, .store "refused")), some (.ok "a")] ∧
      (choosy.processAll ms).2.resolver.repository.orders.get? "a" =
        some (parcel "a" "second") := by
  intro ms
  have hbad : verdict choosy.resolver.settings choosy.resolver.script (parcel "b" "refused") =
      .error (.store "refused") := rfl
  have hrefused : judge choosy.resolver.settings choosy.resolver.script
      (.ofOrder (parcel "b" "refused")) = .error (.businessError, .store "refused") := by
    rw [judge, examine_of_valid rfl]
    simp only [hbad]
  have hfirst := judge_parcel "first" rfl
  have hsecond := judge_parcel "second" rfl
  obtain ⟨hdecisions, hstore, -⟩ :=
    messages_stand_alone choosy_idle ms (.ofCapacity "orders" 1) [] fun a => List.not_mem_nil
  refine ⟨choosy_idle, ?_, ?_⟩
  · rw [hdecisions]
    change [some (ruling _ _ _), some (ruling _ _ _), some (ruling _ _ _), some (ruling _ _ _)] = _
    rw [ruling, ruling, ruling, ruling, hfirst, judge_blank, hrefused, hsecond]
    rfl
  · have hstored : stored choosy.resolver.settings choosy.resolver.script ms =
        [parcel "a" "first", parcel "a" "second"] := by
      rw [stored, List.filterMap_cons_some (by rw [hfirst]; rfl),
        List.filterMap_cons_none (by rw [judge_blank]; rfl),
        List.filterMap_cons_none (by rw [hrefused]; rfl),
        List.filterMap_cons_some (by rw [hsecond]; rfl), List.filterMap_nil]
    rw [hstore, hstored]
    rfl

end OrderLookup.Ingest
