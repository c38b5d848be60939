import OrderLookup.Proofs.Ingest.Moves

/-!
What becomes of dead letters shows nowhere else. To somebody who sees neither the sink of a loop
nor whether a letter was taken, a run looks the same with any sink.
-/

namespace OrderLookup.Ingest

def Outcome.blind : Outcome → Outcome
  | .committed uid => .committed uid
  | .diverted reason cause _ => .diverted reason cause false

@[simp] theorem Outcome.blind_blind (o : Outcome) : o.blind.blind = o.blind := by cases o <;> rfl

def Counters.blind (c : Counters) : Counters := { c with deadLetterFailures := 0 }

theorem Counters.record_blind (c : Counters) (o : Outcome) :
    (c.blind.record o.blind).blind = (c.record o).blind := by
  cases o with
  | committed uid => rfl
  | diverted reason cause forwarded => cases forwarded <;> rfl

def Worker.blind (w : Worker) : Worker := { w with sink := none }

theorem Worker.settle_blind (w : Worker) (m : Message) (r : Except OrderError String) :
    (w.blind.settle m r).1.blind = (w.settle m r).1.blind ∧
      (w.blind.settle m r).2.blind = (w.settle m r).2.blind := by
  cases r <;> exact ⟨rfl, rfl⟩

namespace Loop

/-- A loop as it looks to somebody who does not see its dead letters. -/
def blind (l : Loop) : Loop :=
  { l with
    worker := l.worker.blind
    counters := l.counters.blind
    handled := l.handled.map fun e => (e.1, e.2.blind) }

theorem blind_blind (l : Loop) : l.blind.blind = l.blind := by
  simp [blind, Worker.blind, Counters.blind]

theorem setSink_blind (l : Loop) (sink : Option Topic) : (l.setSink sink).blind = l.blind := rfl

theorem conclude_blind (l : Loop) (m : Message) {e e' : Outcome × Worker}
    (ho : e'.1.blind = e.1.blind) (hw : e'.2.blind = e.2.blind) :
    (l.blind.conclude m e').blind = (l.conclude m e).blind := by
  have hcounters : (l.counters.blind.record e'.1).blind = (l.counters.record e.1).blind := by
    rw [← Counters.record_blind l.counters.blind, ho, ← Counters.record_blind l.counters]
    rfl
  simp [blind, conclude, ho, hw, hcounters]

theorem accept_blind (l : Loop) (m : Message) : (l.blind.accept m).blind = (l.accept m).blind := by
  rw [accept, accept]
  cases examine m with
  | error refusal => exact conclude_blind { l with counters := l.counters.receive } m rfl rfl
  | ok o => simp [blind, Worker.blind, Worker.start, Counters.blind, Counters.receive]

theorem leave_blind (l : Loop) (phase : Phase) :
    (l.blind.leave phase).blind = (l.leave phase).blind :=
  blind_blind (l.leave phase)

theorem turn_blind (l : Loop) : l.blind.turn.map blind = l.turn.map blind := by
  rcases l with ⟨worker, source, phase, cancelled, counters, handled⟩
  cases phase with
  | idle =>
    cases cancelled with
    | true => exact congrArg some (leave_blind _ .stopped)
    | false =>
      simp only [turn, blind, Bool.false_eq_true, if_false]
      rcases source.read with _ | (cause | ⟨m, rest⟩)
      · rfl
      · exact congrArg some (leave_blind ⟨worker, source, .idle, _, _, handled⟩ (.failed cause))
      · exact congrArg some (accept_blind ⟨worker, rest, .idle, _, _, handled⟩ m)
  | storing m number =>
    simp only [turn, blind, Worker.blind]
    cases worker.resolver.stored? number with
    | none => rfl
    | some r =>
      obtain ⟨ho, hw⟩ := worker.settle_blind m r
      exact congrArg some (conclude_blind ⟨worker, source, _, _, _, handled⟩ m ho hw)
  | stopped => rfl
  | failed cause => rfl

theorem move_blind (l : Loop) (m : Move) : (l.blind.move m).blind = (l.move m).blind := by
  cases m with
  | turn =>
    have hturn := turn_blind l
    rw [move, move]
    cases ht : l.turn with
    | none =>
      rw [ht, Option.map_none, Option.map_eq_none_iff] at hturn
      rw [hturn]
      exact blind_blind l
    | some l' =>
      rw [ht] at hturn
      obtain ⟨l'', ht', he⟩ := Option.map_eq_some_iff.1 hturn
      rw [ht']
      exact he
  | publish m =>
    have hsource : l.blind.source = l.source := rfl
    rw [move, move, hsource]
    split <;> simp [blind, Worker.blind, Counters.blind]
  | ask a =>
    have hspares : l.blind.spares a = l.spares a := rfl
    rw [move, move, hspares]
    split <;> simp [blind, Worker.blind, Worker.start, Counters.blind]
  | _ => simp [move, setNow, setSink, now, blind, Worker.blind, Counters.blind]

end Loop

end OrderLookup.Ingest
