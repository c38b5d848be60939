import OrderLookup.Ingest.Session
import OrderLookup.Proofs.Resolver.Saving

/-!
The loop and its neighbours, one move at a time and in any order. Between any two turns of the loop
somebody may publish, cancel it, close its topic, take a dead letter, use its resolver, or let time
pass. `Turn` lists what a turn can be. A message that has been taken is either handled or the one
that is being stored.
-/

namespace OrderLookup.Ingest

open Resolver (Coherent Settled Saving Leads)

namespace Worker

structure Steady (w : Worker) : Prop where
  coherent : Coherent (List.range w.operations) w.resolver
  settled : Settled w.resolver

variable {w : Worker} {m : Message} {reason : Reason} {cause : OrderError}

@[simp] theorem divert_resolver : (w.divert m reason cause).2.resolver = w.resolver := rfl

@[simp] theorem settle_resolver (w : Worker) (r : Except OrderError String) :
    (w.settle m r).2.resolver = w.resolver := by
  cases r <;> rfl

@[simp] theorem settle_operations (w : Worker) (r : Except OrderError String) :
    (w.settle m r).2.operations = w.operations := by
  cases r <;> rfl

theorem process_of_refused (hx : examine m = .error (reason, cause)) (w : Worker) :
    ∃ forwarded, (w.process m).1 = some (.diverted reason cause forwarded) ∧
      (w.process m).2.resolver = w.resolver ∧ (w.process m).2.operations = w.operations := by
  rw [process, hx]
  exact ⟨_, rfl, rfl, rfl⟩

theorem process_of_stored {o : Order} {r : Except OrderError String} (hx : examine m = .ok o)
    (hr : (w.resolver.perform w.operations (.create o)).stored? w.operations = some r) :
    (w.process m).1 = some ((w.perform (.create o)).settle m r).1 ∧
      (w.process m).2.resolver = w.resolver.perform w.operations (.create o) ∧
      (w.process m).2.operations = w.operations + 1 := by
  have hanswer : (w.perform (.create o)).resolver.stored? w.operations = some r := hr
  rw [process, hx]
  dsimp only
  rw [hanswer]
  exact ⟨rfl, settle_resolver _ r, settle_operations _ r⟩

theorem start_leads (w : Worker) (a : Resolver.Action) :
    Leads w.resolver [(w.operations, a)] (w.start a).resolver :=
  (Leads.act _ w.operations a).trans (Leads.advanceFor _ _ _)

theorem nodup_operations (w : Worker) (a : Resolver.Action) :
    (List.range w.operations ++ [(w.operations, a)].map Prod.fst).Nodup := by
  rw [List.map_singleton, ← List.range_succ]
  exact List.nodup_range

namespace Steady

theorem act (h : w.Steady) (a : Resolver.Action) :
    Coherent (List.range (w.operations + 1)) (w.resolver.act w.operations a) ∧
      Settled (w.resolver.act w.operations a) := by
  rw [List.range_succ]
  exact h.coherent.act (w.nodup_operations a) a

theorem start (h : w.Steady) (a : Resolver.Action) : (w.start a).Steady := by
  obtain ⟨hc, hs⟩ := h.act a
  exact ⟨(Leads.advanceFor _ _ _).stays_coherent hc List.nodup_range,
    hs.advanceFor hc List.nodup_range _ _⟩

theorem wake (h : w.Steady) : Steady { w with resolver := w.resolver.wake } where
  coherent := (Leads.wake _).stays_coherent h.coherent List.nodup_range
  settled := (Resolver.wake_settled h.coherent h.settled).1

theorem wait (h : w.Steady) (instant : Nat) :
    Steady { w with resolver := { w.resolver with now := max w.resolver.now instant } } where
  coherent := (Leads.move (s := w.resolver) (.wait instant)).stays_coherent h.coherent
    List.nodup_range
  settled := ⟨h.settled.unchosen, h.settled.unserved⟩

theorem saving (h : w.Steady) (o : Order) :
    Saving (w.start (.create o)).resolver w.operations o := by
  have hid : w.operations ∉ List.range w.operations := List.not_mem_range_self
  have hstart := h.coherent.start hid (.create o)
  have hl : Leads (w.resolver.start w.operations (.create o)) []
      (w.start (.create o)).resolver := (Leads.proceed _).trans (Leads.advanceFor _ _ _)
  apply (Saving.ofStart h.coherent hid o).ofLeads hstart hl
  · simpa using w.nodup_operations (.create o)
  · simp

end Steady

end Worker

namespace Loop

inductive Move
  | turn
  | wake
  | wait (instant : Nat)
  | publish (m : Message)
  | cancel
  | closeSource
  | closeSink
  | poll
  | ask (a : Resolver.Action)

/-- Whether an operation leaves the store call of the loop alone: nobody else can drop it. -/
def spares (l : Loop) : Resolver.Action → Bool
  | .abort target =>
    match l.phase with
    | .storing _ number => target ≠ number
    | _ => true
  | _ => true

/-- A move that is not possible changes nothing. -/
def move (l : Loop) : Move → Loop
  | .turn => l.turn.getD l
  | .wake => { l with worker := { l.worker with resolver := l.worker.resolver.wake } }
  | .wait instant => l.setNow instant
  | .publish m =>
    match l.source.publish m with
    | some (.ok source) => { l with source := source }
    | _ => l
  | .cancel => { l with cancelled := true }
  | .closeSource => { l with source := l.source.closePublisher }
  | .closeSink => l.setSink (l.worker.sink.map Topic.closeReader)
  | .poll => l.setSink (l.worker.sink.map fun t => t.poll.2)
  | .ask a => if l.spares a then { l with worker := l.worker.start a } else l

def follow (l : Loop) (ms : List Move) : Loop := ms.foldl move l

def asks (l : Loop) : Move → Nat
  | .ask a => if l.spares a then 1 else 0
  | _ => 0

def accepted (l : Loop) : Move → List Message
  | .publish m =>
    match l.source.publish m with
    | some (.ok _) => [m]
    | _ => []
  | _ => []

def asked (l : Loop) : List Move → Nat
  | [] => 0
  | m :: ms => l.asks m + (l.move m).asked ms

def published (l : Loop) : List Move → List Message
  | [] => []
  | m :: ms => l.accepted m ++ (l.move m).published ms

def current (l : Loop) : List Message :=
  match l.phase with
  | .storing m _ => [m]
  | _ => []

def taken (l : Loop) : List Message := l.handled.map Prod.fst ++ l.current

variable {l l' : Loop} {m : Message} {ms ms' : List Move}

theorem follow_append (l : Loop) (ms ms' : List Move) :
    l.follow (ms ++ ms') = (l.follow ms).follow ms' := List.foldl_append

/-- What each move of a run keeps holds at its end. -/
theorem follow_induction {P : Loop → Prop} (h : P l)
    (hm : ∀ l, ∀ m ∈ ms, P l → P (l.move m)) : P (l.follow ms) := by
  induction ms generalizing l with
  | nil => exact h
  | cons m ms ih => exact ih (hm l m (.head _) h) fun l d hd => hm l d (.tail _ hd)

theorem published_append (l : Loop) (ms ms' : List Move) :
    l.published (ms ++ ms') = l.published ms ++ (l.follow ms).published ms' := by
  induction ms generalizing l with
  | nil => rfl
  | cons m ms ih =>
    rw [List.cons_append, published, published, ih, List.append_assoc]
    rfl

inductive Turn (l : Loop) : Loop → Prop
  | stopped (idle : l.phase = .idle) (cancelled : l.cancelled = true) : Turn l (l.leave .stopped)
  | failed (idle : l.phase = .idle) (running : l.cancelled = false) (empty : l.source.queue = [])
      (closed : l.source.hasPublisher = false) :
      Turn l (l.leave (.failed (.source l.source.closedReason)))
  | refused {m : Message} {queue : List Message} {reason : Reason} {cause : OrderError}
      (idle : l.phase = .idle) (running : l.cancelled = false)
      (next : l.source.queue = m :: queue) (examined : examine m = .error (reason, cause)) :
      Turn l (conclude
        { l with
          source := { l.source with queue := queue }
          counters := l.counters.receive } m (l.worker.divert m reason cause))
  | begun {m : Message} {queue : List Message} {o : Order} (idle : l.phase = .idle)
      (running : l.cancelled = false) (next : l.source.queue = m :: queue)
      (examined : examine m = .ok o) :
      Turn l
        { l with
          source := { l.source with queue := queue }
          counters := l.counters.receive
          worker := l.worker.start (.create o)
          phase := .storing m l.worker.operations }
  | concluded {m : Message} {number : Nat} {r : Except OrderError String}
      (storing : l.phase = .storing m number) (stored : l.worker.resolver.stored? number = some r) :
      Turn l (l.conclude m (l.worker.settle m r))

theorem turn_cases (h : l.turn = some l') : Turn l l' := by
  rw [turn] at h
  split at h
  · rename_i hp
    split at h
    · cases h
      rename_i hc
      exact .stopped hp hc
    · rename_i hc
      simp only [Bool.not_eq_true] at hc
      cases hq : l.source.queue with
      | nil =>
        rw [Topic.read, hq] at h
        cases ho : l.source.hasPublisher with
        | true => simp [ho] at h
        | false =>
          simp only [ho, Bool.false_eq_true, ↓reduceIte, Option.some.injEq] at h
          exact h ▸ .failed hp hc hq ho
      | cons m queue =>
        simp only [Topic.read, hq, Option.some.injEq] at h
        rw [← h, accept]
        split
        · rename_i hx
          exact .refused hp hc hq hx
        · rename_i hx
          exact .begun hp hc hq hx
  · rename_i m number hp
    obtain ⟨r, hr, rfl⟩ := Option.map_eq_some_iff.1 h
    exact .concluded hp hr
  · cases h
  · cases h

end Loop

end OrderLookup.Ingest
