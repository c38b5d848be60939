import OrderLookup.Proofs.Text.Decimal
import OrderLookup.Proofs.Text.Utf8
import OrderLookup.Wire.Shape

/-!
Written whole numbers are read back, whatever ends them. All machine words are written with at
most nineteen digits, so the digits never outgrow an unsigned word.
-/

namespace OrderLookup.Wire

open Text

/-- What may stand behind a value: the end of the document, or a mark that ends a member. -/
def Delimited : Bytes → Prop
  | [] => True
  | b :: _ => b = ascii ',' ∨ b = ascii '\x7d' ∨ b = ascii ']'

variable {n m k : Nat} {l l' rest : Bytes}

theorem encodeChar_ascii {c : Char} (h : c.toNat < 0x80) : Utf8.encodeChar c = [ascii c] := by
  rw [Utf8.encodeChar, Utf8.encodeCode, if_pos h, ascii]

theorem encode_ascii {cs : List Char} (h : ∀ c ∈ cs, c.toNat < 0x80) :
    cs.flatMap Utf8.encodeChar = cs.map ascii := by
  induction cs with
  | nil => rfl
  | cons c cs ih =>
    obtain ⟨hc, hcs⟩ := List.forall_mem_cons.1 h
    rw [List.flatMap_cons, encodeChar_ascii hc, ih hcs, List.map_cons, List.singleton_append]

theorem ascii_toNat {c : Char} (h : c.toNat < 0x80) : (ascii c).toNat = c.toNat :=
  Utf8.toNat_ofNat_byte (by omega)

theorem ascii_inj {c d : Char} (hc : c.toNat < 0x80) (hd : d.toNat < 0x80)
    (h : ascii c = ascii d) : c = d := by
  have hn := congrArg UInt8.toNat h
  rw [ascii_toNat hc, ascii_toNat hd] at hn
  exact Char.toNat_inj.1 hn

theorem isDigitByte_ascii {c : Char} (h : isDigit c = true) : isDigitByte (ascii c) = true := by
  have hd := isDigit_iff.1 h
  simp only [isDigitByte, UInt8.le_iff_toNat_le, ascii_toNat (c := c) (by omega),
    Bool.and_eq_true, decide_eq_true_eq]
  exact hd

theorem digitOf_digit (n : Nat) : digitOf (ascii (digit n)) = n % 10 := by
  have hd := digit_toNat n
  rw [digitOf, ascii_toNat (by omega), hd]
  omega

theorem Delimited.not_digit {b : UInt8} {r : Bytes} (h : Delimited (b :: r)) :
    isDigitByte b = false ∧ b ≠ ascii '.' ∧ isExponentMark b = false := by
  rcases h with rfl | rfl | rfl <;> decide

theorem accumulate_append (h : accumulate m l = (k, 0)) :
    accumulate m (l ++ l') = accumulate k l' := by
  induction l generalizing m with
  | nil =>
    cases h
    rfl
  | cons b l ih =>
    rw [accumulate] at h
    rw [List.cons_append, accumulate]
    split at h
    · cases h
    · rename_i hm
      rw [if_neg hm, ih h]

theorem accumulate_digits (h : n ≤ maxUnsigned) :
    accumulate 0 ((digits n).map ascii) = (n, 0) := by
  induction n using digits_induction with
  | one n hn =>
    have hd : n % 10 = n := by omega
    have hle : ¬maxUnsigned < n := by omega
    simp [digits_of_lt hn, accumulate, digitOf_digit, hd, hle]
  | more n hn ih =>
    have hd : n / 10 * 10 + n % 10 = n := by omega
    have hle : ¬maxUnsigned < n := by omega
    rw [digits_of_ge hn, List.map_append, accumulate_append (ih (by omega))]
    simp [accumulate, digitOf_digit, hd, hle]

theorem digits_head (h : n ≠ 0) : ∃ c cs, digits n = c :: cs ∧ c ≠ '0' := by
  induction n using digits_induction with
  | one n hn =>
    refine ⟨digit n, [], digits_of_lt hn, fun hc => ?_⟩
    have hv := digitValue_digit n
    rw [hc] at hv
    change 0 = n % 10 at hv
    omega
  | more n hn ih =>
    obtain ⟨c, cs, hcs, hc⟩ := ih (by omega)
    exact ⟨c, cs ++ [digit n], by rw [digits_of_ge hn, hcs]; rfl, hc⟩

theorem span_digits {cs : List Char} (h : ∀ c ∈ cs, isDigit c = true) (hr : Delimited rest) :
    (cs.map ascii ++ rest).takeWhile isDigitByte = cs.map ascii ∧
      (cs.map ascii ++ rest).dropWhile isDigitByte = rest := by
  induction cs with
  | nil =>
    cases rest with
    | nil => exact ⟨rfl, rfl⟩
    | cons b r => simp [hr.not_digit.1]
  | cons c cs ih =>
    obtain ⟨hc, hcs⟩ := List.forall_mem_cons.1 h
    simpa [isDigitByte_ascii hc] using ih hcs

theorem magnitude_digits (positive : Bool) (h : n ≤ maxUnsigned) (hr : Delimited rest) :
    magnitude positive ((digits n).map ascii ++ rest) = afterDigits positive n 0 rest := by
  by_cases hz : n = 0
  · subst hz
    change magnitude positive (ascii '0' :: rest) = _
    cases rest with
    | nil => rfl
    | cons d r => simp only [magnitude, hr.not_digit.1, if_true, Bool.false_eq_true, if_false]
  · obtain ⟨c, cs, hcs, hc⟩ := digits_head hz
    have hall := isDigit_digits n
    have hacc := accumulate_digits h
    rw [hcs] at hall hacc ⊢
    obtain ⟨hcd, hcsd⟩ := List.forall_mem_cons.1 hall
    obtain ⟨htake, hdrop⟩ := span_digits hcsd hr
    have hd := isDigit_iff.1 hcd
    have hne : ascii c ≠ ascii '0' := fun he => hc (ascii_inj (by omega) (by decide) he)
    rw [List.map_cons] at hacc
    rw [List.map_cons, List.cons_append]
    simp only [magnitude, if_neg hne, isDigitByte_ascii hcd, if_true, htake, hdrop, hacc]

theorem afterDigits_delimited (positive : Bool) (n : Nat) (hr : Delimited rest) :
    afterDigits positive n 0 rest =
      if positive then .ok (.integer n, rest)
      else if n = 0 || maxSigned + 1 < n then
        .ok (floatOf false (UInt64.ofNat n).toFloat, rest)
      else .ok (.integer (-n), rest) := by
  cases rest with
  | nil => rfl
  | cons b r =>
    obtain ⟨-, hpoint, hmark⟩ := hr.not_digit
    simp only [afterDigits, if_neg hpoint, hmark, Bool.false_eq_true, if_false, Nat.lt_irrefl]

theorem readNumeral_signed {i : Int} (h : -(maxSigned + 1 : Int) ≤ i) (h' : i ≤ maxSigned)
    (hr : Delimited rest) :
    readNumeral ((signed i).map ascii ++ rest) = .ok (.integer i, rest) := by
  have hmax : maxSigned + 1 ≤ maxUnsigned := by decide
  cases i with
  | ofNat n =>
    have hn : n ≤ maxUnsigned := by
      simp only [Int.ofNat_eq_natCast] at h'
      omega
    have hread := magnitude_digits true hn hr
    rw [afterDigits_delimited true n hr, if_pos rfl] at hread
    rw [signed]
    obtain ⟨c, cs, hcs⟩ := List.exists_cons_of_ne_nil (digits_ne_nil n)
    have hd := isDigit_iff.1 (isDigit_digits n c (hcs ▸ .head _))
    have hne : ascii c ≠ ascii '-' := fun he => by
      rw [ascii_inj (by omega) (by decide) he] at hd
      exact absurd hd (by decide)
    rw [hcs, List.map_cons, List.cons_append] at hread ⊢
    rw [readNumeral, if_neg hne, hread]
    rfl
  | negSucc n =>
    have hn : n + 1 ≤ maxUnsigned := by omega
    have hread := magnitude_digits false hn hr
    rw [afterDigits_delimited false (n + 1) hr, if_neg Bool.false_ne_true] at hread
    have hfits : ¬(n + 1 = 0 || maxSigned + 1 < n + 1) = true := by
      simp only [Bool.or_eq_true, decide_eq_true_eq]
      omega
    rw [if_neg hfits] at hread
    rw [signed, List.map_cons, List.cons_append, readNumeral, if_pos rfl, hread]
    rfl

theorem signed_ascii (i : Int) : ∀ c ∈ signed i, c.toNat < 0x80 := by
  have hdigits : ∀ n, ∀ c ∈ digits n, c.toNat < 0x80 := by
    intro n c hc
    have hd := isDigit_iff.1 (isDigit_digits n c hc)
    omega
  cases i with
  | ofNat n => exact hdigits n
  | negSucc n =>
    intro c hc
    rcases List.mem_cons.1 hc with rfl | hc
    · decide
    · exact hdigits (n + 1) c hc

end OrderLookup.Wire
