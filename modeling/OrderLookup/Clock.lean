/-!
Work that falls due by itself. A clocked state knows when its next work falls due, and how that
work changes it; advancing the clock lets everything happen that falls due, the earliest first.
-/

namespace OrderLookup

structure Clock (σ : Type) where
  due : σ → Option Nat
  /-- Lets the earliest work happen, at its instant. -/
  wake : σ → σ
  /-- Bounds how often work can still fall due. -/
  load : σ → Nat

namespace Clock

variable {σ : Type}

def isDue (m : Clock σ) (bound : Option Nat) (s : σ) : Bool :=
  match m.due s, bound with
  | none, _ => false
  | some _, none => true
  | some t, some u => t ≤ u

def advanceFor (m : Clock σ) (bound : Option Nat) : Nat → σ → σ
  | 0, s => s
  | steps + 1, s => if m.isDue bound s then m.advanceFor bound steps (m.wake s) else s

/-- Lets everything happen that falls due up to an instant, that instant included. -/
def advance (m : Clock σ) (instant : Nat) (s : σ) : σ := m.advanceFor (some instant) (m.load s) s

def drain (m : Clock σ) (s : σ) : σ := m.advanceFor none (m.load s) s

/-- The element that falls due first; of several due at once the one in front. -/
def soonest {α : Type} (due : α → Nat) : List α → Option α
  | [] => none
  | a :: r =>
    match soonest due r with
    | none => some a
    | some b => if due a ≤ due b then some a else some b

theorem mem_of_soonest {α : Type} {due : α → Nat} {l : List α} {a : α}
    (h : soonest due l = some a) : a ∈ l := by
  induction l with
  | nil => cases h
  | cons b l ih =>
    rw [soonest] at h
    split at h
    · cases h
      exact List.mem_cons_self ..
    · rename_i c hc
      split at h <;> cases h
      · exact List.mem_cons_self ..
      · exact List.mem_cons_of_mem _ (ih hc)

theorem eq_nil_of_soonest {α : Type} {due : α → Nat} {l : List α} (h : soonest due l = none) :
    l = [] := by
  cases l with
  | nil => rfl
  | cons a l =>
    rw [soonest] at h
    split at h
    · cases h
    · split at h <;> cases h

theorem soonest_le {α : Type} {due : α → Nat} {l : List α} {a b : α}
    (h : soonest due l = some a) (hb : b ∈ l) : due a ≤ due b := by
  induction l generalizing a with
  | nil => cases hb
  | cons c l ih =>
    rw [soonest] at h
    split at h
    · rename_i hnone
      cases h
      rw [eq_nil_of_soonest hnone] at hb
      exact Nat.le_of_eq (congrArg due (List.mem_singleton.1 hb).symm)
    · rename_i d hd
      rcases List.mem_cons.1 hb with rfl | hb
      · split at h <;> cases h <;> omega
      · have hdb := ih hd hb
        split at h <;> cases h <;> omega

theorem advanceFor_induction (m : Clock σ) {P : σ → Prop} (h : ∀ s, P s → P (m.wake s))
    (bound : Option Nat) (steps : Nat) {s : σ} (hs : P s) : P (m.advanceFor bound steps s) := by
  induction steps generalizing s with
  | zero => exact hs
  | succ n ih =>
    rw [advanceFor]
    split
    · exact ih (h s hs)
    · exact hs

end Clock

end OrderLookup
