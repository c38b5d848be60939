import OrderLookup.Proofs.Cache.Slots
import Mathlib.Data.List.Induction
import Mathlib.Order.Bounds.Basic

/-!
A first-in-first-out list as a queue. What has been put on and taken off, told from the operations
and their replies alone, is a log of entries that have gone and entries that are there. The list
takes entries off in the order in which they came, shows those that are there with the values that
they were given last, and has as many slots as there have been entries at one time.
-/

namespace OrderLookup.Cache.Fifo

variable {α : Type}

inductive Operation (α : Type)
  | push (key : String) (value : α)
  | pop
  | replace (slot : Nat) (value : α)

inductive Reply (α : Type)
  | slot (slot : Nat)
  | entry (e : Option (Entry α))
  | value (old : Option α)

def perform (f : Fifo α) : Operation α → Reply α × Fifo α
  | .push key value => (.slot (f.push key value).1, (f.push key value).2)
  | .pop =>
    match f.pop with
    | some (e, f') => (.entry (some e), f')
    | none => (.entry none, f)
  | .replace slot value =>
    match f.replace slot value with
    | some (old, f') => (.value (some old), f')
    | none => (.value none, f)

def run (f : Fifo α) (ops : List (Operation α)) : Fifo α :=
  ops.foldl (fun f op => (f.perform op).2) f

def transcript (f : Fifo α) : List (Operation α) → List (Operation α × Reply α)
  | [] => []
  | op :: ops => (op, (f.perform op).1) :: (f.perform op).2.transcript ops

/-- All entries that came in, oldest first: those that have gone, as they were then, and those that
are there. -/
structure Log (α : Type) where
  gone : List (Stop α) := []
  there : List (Stop α) := []

def Log.add (log : Log α) : Operation α × Reply α → Log α
  | (.push key value, .slot slot) => { log with there := log.there ++ [(slot, key, value)] }
  | (.push _ _, _) => log
  | (.pop, _) => ⟨log.gone ++ log.there.take 1, log.there.drop 1⟩
  | (.replace slot value, _) => { log with there := log.there.map (Stop.replaced slot value) }

def Log.of (steps : List (Operation α × Reply α)) : Log α := steps.foldl Log.add {}

def placed (steps : List (Operation α × Reply α)) : List (Nat × String) :=
  steps.filterMap fun
    | (.push key _, .slot slot) => some (slot, key)
    | _ => none

def taken (steps : List (Operation α × Reply α)) : List (String × α) :=
  steps.filterMap fun
    | (_, .entry (some e)) => some (e.key, e.value)
    | _ => none

variable {f : Fifo α} {l : List (Stop α)} {log : Log α} {steps : List (Operation α × Reply α)}
  {slot : Nat} {value : α}

theorem run_concat (f : Fifo α) (ops : List (Operation α)) (op : Operation α) :
    f.run (ops ++ [op]) = ((f.run ops).perform op).2 := by
  rw [run, List.foldl_append]
  rfl

theorem transcript_concat (f : Fifo α) (ops : List (Operation α)) (op : Operation α) :
    f.transcript (ops ++ [op]) = f.transcript ops ++ [(op, ((f.run ops).perform op).1)] := by
  induction ops generalizing f with
  | nil => rfl
  | cons first ops ih => exact congrArg (List.cons _) (ih (f.perform first).2)

theorem Log.of_concat (steps : List (Operation α × Reply α)) (p : Operation α × Reply α) :
    Log.of (steps ++ [p]) = (Log.of steps).add p := by
  rw [Log.of, List.foldl_append]
  rfl

theorem placed_concat (steps : List (Operation α × Reply α)) (p : Operation α × Reply α) :
    placed (steps ++ [p]) = placed steps ++ placed [p] := List.filterMap_append

theorem taken_concat (steps : List (Operation α × Reply α)) (p : Operation α × Reply α) :
    taken (steps ++ [p]) = taken steps ++ taken [p] := List.filterMap_append

theorem pop_eq (h : Holds f l) :
    (f.pop.map fun p => (p.1.key, p.1.value)) = l.head?.map Prod.snd := by
  cases l with
  | nil => rw [h.pop_nil]; rfl
  | cons x rest =>
    obtain ⟨slot, key, value⟩ := x
    obtain ⟨after, f', hpop, -⟩ := h.pop_cons
    rw [hpop]
    rfl

theorem pop_eq_none_iff (h : Holds f l) : f.pop = none ↔ f.len = 0 := by
  have hpop := pop_eq h
  have hlen := h.len
  cases l with
  | nil => simpa [hlen] using hpop
  | cons x rest =>
    constructor
    · intro hnone
      rw [hnone] at hpop
      cases hpop
    · intro hzero
      rw [hlen] at hzero
      cases hzero

theorem replace_eq_none (h : Holds f l) (hs : slot ∉ slotsOf l) (value : α) :
    f.replace slot value = none := by
  rw [Fifo.replace, h.get?_eq_none_iff.2 hs]

theorem size_perform (h : Holds f l) (op : Operation α) :
    (f.perform op).2.slots.size = max f.slots.size (f.perform op).2.len := by
  have hle := h.length_le
  cases op with
  | push key value =>
    obtain ⟨slot, f', hpush, -, hholds⟩ := h.push key value
    have hsize := h.size_push key value
    have hlen := hholds.len
    rw [List.length_append, List.length_singleton] at hlen
    simp only [hpush] at hsize
    simp only [perform, hpush]
    omega
  | pop =>
    rw [perform]
    cases l with
    | nil =>
      have hlen := h.len
      rw [h.pop_nil]
      dsimp only
      omega
    | cons x rest =>
      obtain ⟨slot, key, value⟩ := x
      obtain ⟨after, f', hpop, hholds⟩ := h.pop_cons
      have hsize := size_pop hpop
      have hlen := hholds.len
      rw [List.length_cons] at hle
      rw [hpop]
      dsimp only
      omega
  | replace slot value =>
    rw [perform]
    by_cases hs : slot ∈ slotsOf l
    · obtain ⟨old, f', hrep, hholds⟩ := h.replace hs value
      have hsize := size_replace hrep
      have hlen := hholds.len
      rw [List.length_map] at hlen
      rw [hrep]
      dsimp only
      omega
    · have hlen := h.len
      rw [replace_eq_none h hs]
      dsimp only
      omega

structure Recorded (f : Fifo α) (steps : List (Operation α × Reply α)) (log : Log α) : Prop where
  holds : f.Holds log.there
  placed : placed steps = (log.gone ++ log.there).map fun x => (x.1, x.2.1)
  taken : taken steps = log.gone.map Prod.snd

namespace Recorded

theorem empty : Recorded (Fifo.empty : Fifo α) [] {} where
  holds := .empty
  placed := rfl
  taken := rfl

theorem push (h : Recorded f steps log) (key : String) (value : α) :
    let p := f.perform (.push key value)
    Recorded p.2 (steps ++ [(.push key value, p.1)]) (log.add (.push key value, p.1)) := by
  obtain ⟨slot, f', hpush, -, hholds⟩ := h.holds.push key value
  simp only [perform, hpush]
  constructor
  case holds => exact hholds
  case placed =>
    rw [placed_concat, h.placed]
    simp [Log.add, Fifo.placed]
  case taken =>
    rw [taken_concat, h.taken]
    exact List.append_nil _

theorem pop (h : Recorded f steps log) :
    let p := f.perform .pop
    Recorded p.2 (steps ++ [(.pop, p.1)]) (log.add (.pop, p.1)) := by
  obtain ⟨gone, there⟩ := log
  have hholds : f.Holds there := h.holds
  cases there with
  | nil =>
    simp only [perform, hholds.pop_nil]
    constructor
    case holds => exact hholds
    case placed =>
      rw [placed_concat, h.placed]
      simp [Log.add, Fifo.placed]
    case taken =>
      rw [taken_concat, h.taken]
      simp [Log.add, Fifo.taken]
  | cons x rest =>
    obtain ⟨slot, key, value⟩ := x
    obtain ⟨after, f', hpop, hrest⟩ := hholds.pop_cons
    simp only [perform, hpop]
    constructor
    case holds => exact hrest
    case placed =>
      rw [placed_concat, h.placed]
      simp [Log.add, Fifo.placed]
    case taken =>
      rw [taken_concat, h.taken, Log.add, List.map_append]
      rfl

theorem replace (h : Recorded f steps log) (slot : Nat) (value : α) :
    let p := f.perform (.replace slot value)
    Recorded p.2 (steps ++ [(.replace slot value, p.1)]) (log.add (.replace slot value, p.1)) := by
  have hsame : (log.there.map (Stop.replaced slot value)).map (fun x => (x.1, x.2.1)) =
      log.there.map fun x => (x.1, x.2.1) := by
    rw [List.map_map]
    refine List.map_congr_left fun x _ => ?_
    by_cases hx : x.1 = slot <;> simp [Stop.replaced, hx]
  have hlog (r : Reply α) : Fifo.placed (steps ++ [(.replace slot value, r)]) =
      (log.gone ++ log.there.map (Stop.replaced slot value)).map fun x => (x.1, x.2.1) := by
    rw [placed_concat, h.placed, List.map_append, List.map_append, hsame]
    exact List.append_nil _
  have hnone (old : Option α) : Fifo.taken (steps ++ [(.replace slot value, .value old)]) =
      log.gone.map Prod.snd := by
    rw [taken_concat, h.taken]
    exact List.append_nil _
  by_cases hs : slot ∈ slotsOf log.there
  · obtain ⟨old, f', hrep, hholds⟩ := h.holds.replace hs value
    simp only [perform, hrep]
    exact ⟨hholds, hlog _, hnone _⟩
  · have hholds : f.Holds (log.there.map (Stop.replaced slot value)) := by
      rw [map_replaced_of_not_mem hs]
      exact h.holds
    simp only [perform, replace_eq_none h.holds hs]
    exact ⟨hholds, hlog _, hnone _⟩

theorem perform (h : Recorded f steps log) (op : Operation α) :
    Recorded (f.perform op).2 (steps ++ [(op, (f.perform op).1)])
      (log.add (op, (f.perform op).1)) := by
  cases op with
  | push key value => exact h.push key value
  | pop => exact h.pop
  | replace slot value => exact h.replace slot value

theorem run (ops : List (Operation α)) :
    Recorded ((Fifo.empty : Fifo α).run ops) (Fifo.empty.transcript ops)
      (Log.of (Fifo.empty.transcript ops)) := by
  induction ops using List.reverseRecOn with
  | nil => exact .empty
  | append_singleton ops op ih =>
    rw [run_concat, transcript_concat, Log.of_concat]
    exact ih.perform op

end Recorded

theorem size_run (ops : List (Operation α)) :
    IsGreatest {n | ∃ before, before <+: ops ∧ ((Fifo.empty : Fifo α).run before).len = n}
      ((Fifo.empty : Fifo α).run ops).slots.size := by
  induction ops using List.reverseRecOn with
  | nil =>
    refine ⟨⟨[], List.prefix_refl _, rfl⟩, fun n hn => ?_⟩
    obtain ⟨before, hb, rfl⟩ := hn
    rw [List.prefix_nil.1 hb]
    exact Nat.le_refl 0
  | append_singleton ops op ih =>
    obtain ⟨⟨before, hb, hlen⟩, hbound⟩ := ih
    have hsize := size_perform (Recorded.run ops).holds op
    rw [run_concat, hsize]
    constructor
    · rcases Nat.le_total (((Fifo.empty : Fifo α).run ops).perform op).2.len
        ((Fifo.empty : Fifo α).run ops).slots.size with hle | hle
      · exact ⟨before, hb.trans (List.prefix_append ..), by rw [hlen, Nat.max_eq_left hle]⟩
      · exact ⟨ops ++ [op], List.prefix_refl _, by rw [run_concat, Nat.max_eq_right hle]⟩
    · intro n hn
      obtain ⟨earlier, he, rfl⟩ := hn
      rcases List.prefix_concat_iff.1 he with rfl | he
      · rw [run_concat]
        exact Nat.le_max_right _ _
      · exact (hbound ⟨earlier, he, rfl⟩).trans (Nat.le_max_left _ _)

/-- A first-in-first-out list is a queue whose entries stay in their slots, and there are as many
slots as there have ever been entries at one time. -/
theorem slots_form_a_queue (ops : List (Operation α)) :
    let f := (Fifo.empty : Fifo α).run ops
    let steps := (Fifo.empty : Fifo α).transcript ops
    let log := Log.of steps
    f.Linked (slotsOf log.there) ∧
      (∀ more, f.walk (f.len + more) f.head = f.entries) ∧
      f.keys = log.there.map (fun x => x.2.1) ∧
      placed steps = (log.gone ++ log.there).map (fun x => (x.1, x.2.1)) ∧
      taken steps = log.gone.map Prod.snd ∧
      (f.pop.map fun p => (p.1.key, p.1.value)) = log.there.head?.map Prod.snd ∧
      (f.pop = none ↔ f.len = 0) ∧
      (∀ key value, f.get? (f.push key value).1 = none) ∧
      (∀ slot, (f.get? slot).map (fun e => (e.key, e.value)) = Table.valueOf slot log.there) ∧
      IsGreatest {n | ∃ before, before <+: ops ∧ ((Fifo.empty : Fifo α).run before).len = n}
        f.slots.size := by
  intro f steps log
  have h : Recorded f steps log := .run ops
  refine ⟨h.holds.linked, h.holds.walk_eq, h.holds.keys, h.placed, h.taken, pop_eq h.holds,
    pop_eq_none_iff h.holds, fun key value => ?_, h.holds.get?_eq, size_run ops⟩
  obtain ⟨slot, f', hpush, hnew, -⟩ := h.holds.push key value
  rw [hpush]
  exact h.holds.get?_eq_none_iff.2 hnew

example :
    let f := (Fifo.empty : Fifo Nat).run
      [.push "a" 1, .push "b" 2, .replace 1 3, .pop, .push "c" 4]
    f.keys = ["b", "c"] ∧ f.slots.size = 2 ∧
      f.get? 0 = some ⟨"c", 4, some 1, none⟩ ∧ f.get? 1 = some ⟨"b", 3, none, some 0⟩ := by
  decide

end OrderLookup.Cache.Fifo
