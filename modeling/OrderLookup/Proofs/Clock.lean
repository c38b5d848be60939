import OrderLookup.Clock

/-!
How far a clock goes. Where everything that falls due leaves less work behind, a clock comes to the
end of what is due: to let it go on for longer changes nothing, and neither does a stop on the way.
-/

namespace OrderLookup.Clock

variable {σ : Type} {m : Clock σ} {P : σ → Prop} {s : σ} {bound : Option Nat} {steps t : Nat}

/-- Whether everything that falls due leaves less work, wherever the clock stands. -/
structure Winds (m : Clock σ) (P : σ → Prop) : Prop where
  keeps : ∀ {s}, P s → P (m.wake s)
  lowers : ∀ {s}, P s → m.due s ≠ none → m.load (m.wake s) < m.load s

theorem due_of_isDue (h : m.isDue bound s = true) : m.due s ≠ none := by
  intro hd
  simp [isDue, hd] at h

theorem isDue_of_le (hb : ∀ u, bound = some u → t ≤ u) (h : m.isDue (some t) s = true) :
    m.isDue bound s = true := by
  cases hd : m.due s with
  | none => exact absurd hd (due_of_isDue h)
  | some d =>
    have hdt : d ≤ t := by simpa [isDue, hd] using h
    cases bound with
    | none => simp [isDue, hd]
    | some u => simpa [isDue, hd] using Nat.le_trans hdt (hb u rfl)

theorem advanceFor_of_not_isDue (h : m.isDue bound s = false) :
    m.advanceFor bound steps s = s := by
  cases steps with
  | zero => rfl
  | succ steps => rw [advanceFor, h, if_neg Bool.false_ne_true]

theorem advanceFor_of_isDue (h : m.isDue bound s = true) :
    m.advanceFor bound (steps + 1) s = m.advanceFor bound steps (m.wake s) := by
  rw [advanceFor, h, if_pos rfl]

namespace Winds

theorem isDue_load (hm : m.Winds P) (hs : P s) (h : m.isDue bound s = true) :
    m.load (m.wake s) < m.load s :=
  hm.lowers hs (due_of_isDue h)

theorem advanceFor_succ (hm : m.Winds P) (hs : P s) (hl : m.load s ≤ steps) :
    m.advanceFor bound (steps + 1) s = m.advanceFor bound steps s := by
  cases hd : m.isDue bound s with
  | false => rw [advanceFor_of_not_isDue hd, advanceFor_of_not_isDue hd]
  | true =>
    have hless := hm.isDue_load hs hd
    induction steps generalizing s with
    | zero => omega
    | succ steps ih =>
      rw [advanceFor_of_isDue hd, advanceFor_of_isDue hd]
      cases hd' : m.isDue bound (m.wake s) with
      | false => rw [advanceFor_of_not_isDue hd', advanceFor_of_not_isDue hd']
      | true =>
        exact ih (hm.keeps hs) (by omega) hd' (hm.isDue_load (hm.keeps hs) hd')

theorem advanceFor_of_le (hm : m.Winds P) (hs : P s) (hl : m.load s ≤ steps) :
    m.advanceFor bound steps s = m.advanceFor bound (m.load s) s := by
  obtain ⟨more, rfl⟩ := Nat.exists_eq_add_of_le hl
  induction more with
  | zero => rfl
  | succ more ih =>
    rw [← Nat.add_assoc, hm.advanceFor_succ hs (Nat.le_add_right _ _)]
    exact ih (Nat.le_add_right _ _)

theorem isDue_advanceFor (hm : m.Winds P) (hs : P s) (hl : m.load s ≤ steps) :
    m.isDue bound (m.advanceFor bound steps s) = false := by
  induction steps generalizing s with
  | zero =>
    cases hd : m.isDue bound s with
    | false => rwa [advanceFor_of_not_isDue hd]
    | true =>
      have hless := hm.isDue_load hs hd
      omega
  | succ steps ih =>
    cases hd : m.isDue bound s with
    | false => rwa [advanceFor_of_not_isDue hd]
    | true =>
      have hless := hm.isDue_load hs hd
      rw [advanceFor_of_isDue hd]
      exact ih (hm.keeps hs) (by omega)

theorem isDue_advance (hm : m.Winds P) (hs : P s) (t : Nat) :
    m.isDue (some t) (m.advance t s) = false :=
  hm.isDue_advanceFor hs (Nat.le_refl _)

theorem advanceFor_advance (hm : m.Winds P) (hs : P s) (hb : ∀ u, bound = some u → t ≤ u) :
    m.advanceFor bound (m.load (m.advance t s)) (m.advance t s) =
      m.advanceFor bound (m.load s) s := by
  rw [advance]
  generalize hk : m.load s = steps
  have hl : m.load s ≤ steps := Nat.le_of_eq hk
  clear hk
  induction steps generalizing s with
  | zero =>
    rw [advanceFor, Nat.le_zero.1 hl]
  | succ steps ih =>
    cases hd : m.isDue (some t) s with
    | false => rw [advanceFor_of_not_isDue hd, hm.advanceFor_of_le hs hl]
    | true =>
      have hless := hm.isDue_load hs hd
      rw [advanceFor_of_isDue hd, advanceFor_of_isDue (isDue_of_le hb hd)]
      exact ih (hm.keeps hs) (by omega)

end Winds

end OrderLookup.Clock
