/-!
Whole numbers in decimal digits, and in fixed or signed forms.
-/

namespace OrderLookup.Text

def digit (n : Nat) : Char := Char.ofNat (48 + n % 10)

/-- The last `fuel` digits of `n`, in front of `tail`, without leading zeros. -/
def digitsBefore : Nat → Nat → List Char → List Char
  | 0, _, tail => tail
  | fuel + 1, n, tail =>
    if n < 10 then digit n :: tail else digitsBefore fuel (n / 10) (digit n :: tail)

def digits (n : Nat) : List Char := digitsBefore (n + 1) n []

def padded (width n : Nat) : List Char :=
  let d := digits n
  List.replicate (width - d.length) '0' ++ d

def signed : Int → List Char
  | .ofNat n => digits n
  | .negSucc n => '-' :: digits (n + 1)

def isDigit (c : Char) : Bool := '0' ≤ c && c ≤ '9'

def digitValue (c : Char) : Nat := c.toNat - 48

def valueFrom (n : Nat) (cs : List Char) : Nat := cs.foldl (fun n c => n * 10 + digitValue c) n

def value (cs : List Char) : Nat := valueFrom 0 cs

theorem digit_toNat (n : Nat) : (digit n).toNat = 48 + n % 10 := by
  have h : ∀ k < 10, (Char.ofNat (48 + k)).toNat = 48 + k := by decide
  exact h _ (Nat.mod_lt _ (by decide))

@[simp] theorem digitValue_digit (n : Nat) : digitValue (digit n) = n % 10 := by
  rw [digitValue, digit_toNat]
  omega

@[simp] theorem isDigit_digit (n : Nat) : isDigit (digit n) = true := by
  have h := digit_toNat n
  have hm : n % 10 < 10 := Nat.mod_lt _ (by decide)
  simp only [isDigit, Bool.and_eq_true, decide_eq_true_eq, Char.le_def, UInt32.le_iff_toNat_le]
  change (48 ≤ (digit n).toNat) ∧ (digit n).toNat ≤ 57
  omega

theorem digitsBefore_append (fuel n : Nat) (tail : List Char) :
    digitsBefore fuel n tail = digitsBefore fuel n [] ++ tail := by
  induction fuel generalizing n tail with
  | zero => rfl
  | succ f ih =>
    simp only [digitsBefore]
    split
    · rfl
    · rw [ih, ih _ [digit n], List.append_assoc]
      rfl

theorem digitsBefore_fuel {f g n : Nat} (hf : n < f) (hg : n < g) (tail : List Char) :
    digitsBefore f n tail = digitsBefore g n tail := by
  induction f generalizing g n tail with
  | zero => omega
  | succ f ih =>
    cases g with
    | zero => omega
    | succ g =>
      simp only [digitsBefore]
      split
      · rfl
      · exact ih (by omega) (by omega) _

theorem digits_of_ge {n : Nat} (h : 10 ≤ n) : digits n = digits (n / 10) ++ [digit n] := by
  rw [digits, digitsBefore, if_neg (by omega), digitsBefore_append]
  rw [digitsBefore_fuel (f := n) (g := n / 10 + 1) (by omega) (by omega)]
  rfl

theorem digits_of_lt {n : Nat} (h : n < 10) : digits n = [digit n] := by
  simp [digits, digitsBefore, h]

end OrderLookup.Text
