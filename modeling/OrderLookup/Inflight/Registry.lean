import OrderLookup.Table

/-!
Fetches that callers of one key share. A key is registered with a handle while its fetch is under
way. Of the callers on a handle one owns the turn to fetch and the others wait. A produced value
takes the key off the register in the same step, so nobody who comes later sees it; the callers
who were waiting collect it. When an owner is dropped, its turn goes to the caller who has waited
longest; the key stays registered even if nobody is left.
-/

namespace OrderLookup.Inflight

inductive Stage
  | waiting
  | chosen
  | leading
deriving DecidableEq, Repr

structure Caller where
  id : Nat
  key : String
  handle : Nat
  stage : Stage
deriving DecidableEq, Repr

structure Registry (α : Type) where
  pending : Table String Nat := Table.empty
  values : Table Nat α := Table.empty
  callers : List Caller := []
  fresh : Nat := 0

inductive Admission (α : Type)
  | lead
  | wait
  | value (v : α)
deriving DecidableEq

namespace Registry

variable {α : Type}

def empty : Registry α := {}

def caller? (r : Registry α) (id : Nat) : Option Caller := r.callers.find? fun c => c.id = id

def isOwned (r : Registry α) (handle : Nat) : Bool :=
  r.callers.any fun c => c.handle = handle && c.stage ≠ .waiting

def waiters (r : Registry α) (handle : Nat) : List Caller :=
  r.callers.filter fun c => c.handle = handle && c.stage = .waiting

def without (r : Registry α) (id : Nat) : Registry α :=
  { r with callers := r.callers.filter fun c => c.id ≠ id }

def register (r : Registry α) (key : String) : Nat × Registry α :=
  match r.pending.get? key with
  | some h => (h, r)
  | none => (r.fresh, { r with pending := r.pending.insert key r.fresh, fresh := r.fresh + 1 })

/-- A new caller leads if nobody owns the turn of its handle, and waits otherwise. -/
def join (r : Registry α) (id : Nat) (key : String) : Admission α × Registry α :=
  let (h, r) := r.register key
  match r.values.get? h with
  | some v => (.value v, r)
  | none =>
    if r.isOwned h then (.wait, { r with callers := r.callers ++ [⟨id, key, h, .waiting⟩] })
    else (.lead, { r with callers := r.callers ++ [⟨id, key, h, .leading⟩] })

def setStage (r : Registry α) (id : Nat) (stage : Stage) : Registry α :=
  { r with callers := r.callers.map fun c => if c.id = id then { c with stage := stage } else c }

def start (r : Registry α) (id : Nat) : Registry α := r.setStage id .leading

def unregister (r : Registry α) (key : String) (handle : Nat) : Registry α :=
  if r.pending.get? key = some handle then { r with pending := r.pending.erase key } else r

def complete (r : Registry α) (id : Nat) (v : α) : Registry α :=
  match r.caller? id with
  | none => r
  | some c =>
    let r := r.unregister c.key c.handle
    { r with values := r.values.insert c.handle v }.without id

def collect (r : Registry α) (id : Nat) : Option (α × Registry α) :=
  match r.caller? id with
  | none => none
  | some c => (r.values.get? c.handle).map fun v => (v, r.without id)

def handOver (r : Registry α) (handle : Nat) : Registry α :=
  match r.waiters handle with
  | [] => r
  | c :: _ => r.setStage c.id .chosen

/-- Drops a caller, and hands its turn on if it owned one. -/
def drop (r : Registry α) (id : Nat) : Registry α :=
  match r.caller? id with
  | none => r
  | some c => if c.stage = .waiting then r.without id else (r.without id).handOver c.handle

theorem caller?_eq_none_iff {r : Registry α} {id : Nat} :
    r.caller? id = none ↔ ∀ c ∈ r.callers, c.id ≠ id := by
  simp [caller?]

theorem mem_of_caller? {r : Registry α} {id : Nat} {c : Caller} (h : r.caller? id = some c) :
    c ∈ r.callers ∧ c.id = id := by
  have hp := List.find?_some h
  exact ⟨List.mem_of_find?_eq_some h, by simpa using hp⟩

theorem mem_without {r : Registry α} {id : Nat} {c : Caller} :
    c ∈ (r.without id).callers ↔ c ∈ r.callers ∧ c.id ≠ id := by
  simp [without]

theorem mem_setStage {r : Registry α} {id : Nat} {stage : Stage} {c : Caller} :
    c ∈ (r.setStage id stage).callers ↔
      (c ∈ r.callers ∧ c.id ≠ id) ∨ ∃ d ∈ r.callers, d.id = id ∧ { d with stage := stage } = c := by
  simp only [setStage, List.mem_map]
  constructor
  · rintro ⟨d, hd, rfl⟩
    by_cases hi : d.id = id
    · exact Or.inr ⟨d, hd, hi, by rw [if_pos hi]⟩
    · rw [if_neg hi]
      exact Or.inl ⟨hd, hi⟩
  · rintro (⟨hc, hi⟩ | ⟨d, hd, hi, rfl⟩)
    · exact ⟨c, hc, by rw [if_neg hi]⟩
    · exact ⟨d, hd, by rw [if_pos hi]⟩

theorem mem_start {r : Registry α} {c : Caller} (h : c ∈ r.callers) :
    { c with stage := .leading } ∈ (r.start c.id).callers :=
  mem_setStage.2 (Or.inr ⟨c, h, rfl, rfl⟩)

theorem ids_setStage (r : Registry α) (id : Nat) (stage : Stage) :
    (r.setStage id stage).callers.map Caller.id = r.callers.map Caller.id := by
  simp only [setStage, List.map_map]
  apply List.map_congr_left
  intro c _
  by_cases h : c.id = id <;> simp [h]

theorem mem_waiters {r : Registry α} {handle : Nat} {c : Caller} :
    c ∈ r.waiters handle ↔ c ∈ r.callers ∧ c.handle = handle ∧ c.stage = .waiting := by
  simp [waiters]

theorem isOwned_iff {r : Registry α} {handle : Nat} :
    r.isOwned handle = true ↔ ∃ c ∈ r.callers, c.handle = handle ∧ c.stage ≠ .waiting := by
  simp [isOwned]

theorem join_eq {r r₁ : Registry α} {id h : Nat} {key : String} (hr : r.register key = (h, r₁))
    (hv : r₁.values.get? h = none) :
    (r.join id key).2 = { r₁ with callers := r₁.callers ++
      [⟨id, key, h, if r₁.isOwned h then .waiting else .leading⟩] } ∧
    ∀ v, (r.join id key).1 ≠ .value v := by
  simp only [join, hr, hv]
  split <;> simp

theorem complete_eq {r : Registry α} {id : Nat} {c : Caller} (v : α) (h : r.caller? id = some c) :
    r.complete id v =
      { r.unregister c.key c.handle with values := r.values.insert c.handle v }.without id := by
  simp only [complete, h, unregister]
  split <;> rfl

theorem collect_eq_some_iff {r r' : Registry α} {id : Nat} {v : α} :
    r.collect id = some (v, r') ↔
      ∃ c, r.caller? id = some c ∧ r.values.get? c.handle = some v ∧ r.without id = r' := by
  cases h : r.caller? id with
  | none => simp [collect, h]
  | some c =>
    simp only [collect, h, Option.map_eq_some_iff, Prod.mk.injEq, Option.some.injEq,
      exists_eq_left']
    constructor
    · rintro ⟨w, hw, rfl, hr⟩
      exact ⟨hw, hr⟩
    · rintro ⟨hw, hr⟩
      exact ⟨v, hw, rfl, hr⟩

end Registry

end OrderLookup.Inflight
