import OrderLookup.Proofs.Ingest.Bookkeeping

/-!
Sessions are runs. Whatever a neighbour does in a session, and whatever the loop does while its
neighbour waits, is a list of moves, and what these publish is taken in order from the messages of
the session. So what holds of all runs holds of all sessions.
-/

namespace OrderLookup.Ingest.Loop

/-- Whether a run that publishes the messages `p` leads from one loop to another. -/
def Reaches (l : Loop) (p : List Message) (l' : Loop) : Prop :=
  ∃ ms, l.published ms = p ∧ l.follow ms = l'

def Action.messages : Action → List Message
  | .publish ms => ms
  | _ => []

variable {l l' l'' : Loop} {p p' : List Message} {m : Message}

namespace Reaches

theorem refl (l : Loop) : Reaches l [] l := ⟨[], rfl, rfl⟩

theorem trans (h : Reaches l p l') (h' : Reaches l' p' l'') : Reaches l (p ++ p') l'' := by
  obtain ⟨ms, rfl, rfl⟩ := h
  obtain ⟨ms', rfl, rfl⟩ := h'
  exact ⟨ms ++ ms', published_append l ms ms', follow_append l ms ms'⟩

theorem move (l : Loop) (m : Move) : Reaches l (l.accepted m) (l.move m) :=
  ⟨[m], List.append_nil _, rfl⟩

theorem runFor (turns : Nat) (l : Loop) : Reaches l [] (runFor turns l) := by
  induction turns generalizing l with
  | zero => exact refl l
  | succ turns ih =>
    rw [Loop.runFor]
    cases ht : l.turn with
    | none => exact refl l
    | some l' =>
      have hmove := move l .turn
      rw [Loop.move, ht, Option.getD_some] at hmove
      exact hmove.trans (ih l')

theorem run (l : Loop) : Reaches l [] l.run := runFor _ l

theorem wake (l : Loop) : Reaches l [] l.wake := (move l .wake).trans (run _)

theorem advanceFor (bound : Option Nat) (steps : Nat) (l : Loop) :
    Reaches l [] (clock.advanceFor bound steps l) :=
  clock.advanceFor_induction (fun _ h => h.trans (wake _)) bound steps (refl l)

theorem wait (l : Loop) (ms : Nat) : Reaches l [] (l.wait ms) :=
  ((run l).trans (advanceFor _ _ _)).trans (move _ (.wait (l.now + ms)))

theorem publishWithin (returns : Nat) (l : Loop) (m : Message) :
    ∃ p, p <+: [m] ∧ Reaches l p (l.publishWithin returns m).2 := by
  induction returns generalizing l with
  | zero => exact ⟨[], List.nil_prefix, refl l⟩
  | succ returns ih =>
    have hmove := move l (.publish m)
    rw [Loop.publishWithin]
    rw [Loop.move, accepted] at hmove
    split
    · rename_i source hs
      rw [hs] at hmove
      exact ⟨[m], List.prefix_rfl, hmove⟩
    · exact ⟨[], List.nil_prefix, refl l⟩
    · obtain ⟨p, hp, hr⟩ := ih l.wake
      exact ⟨p, hp, (wake l).trans hr⟩

theorem publish (l : Loop) (m : Message) :
    ∃ p, p <+: [m] ∧ Reaches l p (l.publish m).2 := by
  rw [Loop.publish]
  split
  · obtain ⟨p, hp, hr⟩ := publishWithin (clock.load l.run + 1) l.run m
    exact ⟨p, hp, (run l).trans hr⟩
  · exact publishWithin _ l m

theorem publishAll (l : Loop) (ms : List Message) :
    ∃ p, p.Sublist ms ∧ Reaches l p (l.publishAll ms).2 := by
  induction ms generalizing l with
  | nil => exact ⟨[], .slnil, refl l⟩
  | cons m ms ih =>
    obtain ⟨p, hp, hr⟩ := publish l m
    rw [Loop.publishAll]
    split
    · rename_i l' heq
      rw [heq] at hr
      obtain ⟨p', hp', hr'⟩ := ih l'
      exact ⟨p ++ p', hp.sublist.append hp', hr.trans hr'⟩
    · exact ⟨p, hp.sublist.trans (List.singleton_sublist.2 (.head _)), hr⟩

theorem awaitReply (number returns : Nat) (l : Loop) :
    Reaches l [] (l.awaitReply number returns).2 := by
  induction returns generalizing l with
  | zero => exact refl l
  | succ returns ih =>
    rw [Loop.awaitReply]
    split
    · exact refl l
    · exact (wake l).trans (ih l.wake)

theorem ask (l : Loop) {a : Resolver.Action} (ha : ∀ n, a ≠ .abort n) :
    Reaches l [] (l.ask a).2 := by
  have hspares : l.spares a = true := by
    cases a with
    | abort n => exact absurd rfl (ha n)
    | _ => rfl
  have hmove := move l (.ask a)
  rw [Loop.move, if_pos hspares] at hmove
  rw [Loop.ask]
  dsimp only
  split
  · exact hmove
  · exact (hmove.trans (run _)).trans (awaitReply _ _ _)

theorem polls (t : Topic) {queue : List Message}
    (h : l.worker.sink = some { t with queue := queue }) :
    Reaches l [] (l.setSink (some { t with queue := [] })) := by
  induction queue generalizing l with
  | nil =>
    rw [← h]
    exact refl l
  | cons m queue ih =>
    have hmove := move l .poll
    rw [Loop.move, h] at hmove
    exact hmove.trans (ih rfl)

theorem takeLetters (l : Loop) : Reaches l [] l.takeLetters.2 := by
  rw [Loop.takeLetters]
  cases h : l.worker.sink with
  | none =>
    rw [Option.map_none, ← h]
    exact refl l
  | some t => exact polls t h

theorem act (l : Loop) {a : Action} (ha : ∀ n, a ≠ .ask (.abort n)) :
    ∃ p, p.Sublist a.messages ∧ Reaches l p (l.act a).2 := by
  cases a with
  | publish ms => exact publishAll l ms
  | wait ms => exact ⟨[], .slnil, wait l ms⟩
  | cancel => exact ⟨[], .slnil, move l .cancel⟩
  | closeSource => exact ⟨[], .slnil, move l .closeSource⟩
  | closeSink => exact ⟨[], .slnil, move l .closeSink⟩
  | take => exact ⟨[], .slnil, takeLetters l⟩
  | ask a => exact ⟨[], .slnil, ask l fun n hn => ha n (by rw [hn])⟩

/-- A session in which nobody drops an operation is a run that publishes its messages, as far as
there was room for them. -/
theorem play (l : Loop) {as : List Action} (ha : ∀ n, .ask (.abort n) ∉ as) :
    ∃ p, p.Sublist (as.flatMap Action.messages) ∧ Reaches l p (l.play as).2 := by
  induction as generalizing l with
  | nil => exact ⟨[], .slnil, refl l⟩
  | cons a as ih =>
    obtain ⟨p, hp, hr⟩ := act l fun n hn => ha n (hn ▸ .head _)
    obtain ⟨p', hp', hr'⟩ := ih (l.act a).2 fun n hn => ha n (.tail _ hn)
    exact ⟨p ++ p', hp.append hp', hr.trans hr'⟩

end Reaches

end OrderLookup.Ingest.Loop
