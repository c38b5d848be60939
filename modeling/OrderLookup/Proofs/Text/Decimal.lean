import OrderLookup.Text.Decimal

/-!
Decimal digits as they are read back: their value, that there are nothing but digits, and how many.
-/

namespace OrderLookup.Text

variable {n w : Nat}

theorem isDigit_iff {c : Char} : isDigit c = true ↔ 48 ≤ c.toNat ∧ c.toNat ≤ 57 := by
  simp only [isDigit, Bool.and_eq_true, decide_eq_true_eq, Char.le_def, UInt32.le_iff_toNat_le]
  rfl

/-- Numbers below ten have one digit, and every other one has the digits of its tenth and one
more. -/
theorem digits_induction {P : Nat → Prop} (one : ∀ n < 10, P n)
    (more : ∀ n, 10 ≤ n → P (n / 10) → P n) (n : Nat) : P n := by
  induction n using Nat.strongRecOn with
  | ind n ih =>
    by_cases h : n < 10
    · exact one n h
    · exact more n (by omega) (ih (n / 10) (by omega))

theorem valueFrom_append (n : Nat) (a b : List Char) :
    valueFrom n (a ++ b) = valueFrom (valueFrom n a) b := List.foldl_append

theorem value_digits (n : Nat) : value (digits n) = n := by
  induction n using digits_induction with
  | one n h =>
    simp [digits_of_lt h, value, valueFrom]
    omega
  | more n h ih =>
    rw [value] at ih
    rw [digits_of_ge h, value, valueFrom_append, ih]
    simp [valueFrom]
    omega

theorem isDigit_digits (n : Nat) : ∀ c ∈ digits n, isDigit c = true := by
  induction n using digits_induction with
  | one n h => simp [digits_of_lt h]
  | more n h ih =>
    rw [digits_of_ge h]
    intro c hc
    rcases List.mem_append.1 hc with hc | hc
    · exact ih c hc
    · rw [List.mem_singleton.1 hc, isDigit_digit]

theorem digits_ne_nil (n : Nat) : digits n ≠ [] := by
  induction n using digits_induction with
  | one n h => simp [digits_of_lt h]
  | more n h ih => simp [digits_of_ge h]

theorem length_digits_le (h : n < Nat.pow 10 w) (hw : 0 < w) : (digits n).length ≤ w := by
  induction w generalizing n with
  | zero => cases hw
  | succ w ih =>
    by_cases hn : n < 10
    · simp [digits_of_lt hn]
    · rw [digits_of_ge (by omega), List.length_append, List.length_singleton]
      cases w with
      | zero => exact absurd h hn
      | succ w =>
        have hlt : n / 10 < Nat.pow 10 (w + 1) := Nat.div_lt_of_lt_mul (Nat.mul_comm .. ▸ h)
        have hle := ih hlt (by omega)
        omega

theorem length_padded (h : n < Nat.pow 10 w) (hw : 0 < w) : (padded w n).length = w := by
  have hle := length_digits_le h hw
  simp only [padded, List.length_append, List.length_replicate]
  omega

theorem isDigit_padded (w n : Nat) : ∀ c ∈ padded w n, isDigit c = true := by
  intro c hc
  rcases List.mem_append.1 hc with hc | hc
  · rw [(List.mem_replicate.1 hc).2]
    rfl
  · exact isDigit_digits n c hc

theorem padded_ne_nil (w n : Nat) : padded w n ≠ [] := by
  simp [padded, digits_ne_nil]

theorem valueFrom_zeros (k : Nat) : valueFrom 0 (List.replicate k '0') = 0 := by
  induction k with
  | zero => rfl
  | succ k ih => exact ih

theorem value_padded (w n : Nat) : value (padded w n) = n := by
  have hn := value_digits n
  rw [value] at hn
  rw [value, padded, valueFrom_append, valueFrom_zeros, hn]

end OrderLookup.Text
