import OrderLookup.Proofs.Wire.Spelling

/-!
Numbers by their spelling. A number that can be passed over is spelled as a number, and so is one
that is read as a machine word; which word it is, if any, hangs on the spelling alone.
-/

namespace OrderLookup.Wire

variable {bs r s rest : Bytes} {b : UInt8} {positive : Bool}

def NoDigit (bs : Bytes) : Prop := ∀ b ∈ bs.head?, isDigitByte b = false

theorem Cut.noDigit (h : Cut r) : NoDigit r := fun b hb => (h b hb).1

namespace Digits

theorem takeWhile_append (d : Digits) (h : NoDigit r) :
    (d.bytes ++ r).takeWhile isDigitByte = d.bytes := by
  rw [List.takeWhile_append_of_pos d.isDigit]
  cases r with
  | nil => exact List.append_nil _
  | cons b r => rw [List.takeWhile_cons_of_neg (by simp [h b rfl]), List.append_nil]

theorem dropWhile_append (d : Digits) (h : NoDigit r) :
    (d.bytes ++ r).dropWhile isDigitByte = r := by
  rw [List.dropWhile_append_of_pos d.isDigit]
  cases r with
  | nil => rfl
  | cons b r => rw [List.dropWhile_cons_of_neg (by simp [h b rfl])]

theorem opens (d : Digits) : ∃ b r, d.bytes = b :: r ∧ isDigitByte b = true := by
  obtain ⟨b, r, hb⟩ := List.exists_cons_of_ne_nil d.ne_nil
  exact ⟨b, r, hb, d.isDigit b (hb ▸ .head _)⟩

theorem exists_front (h : bs.takeWhile isDigitByte ≠ []) :
    ∃ d : Digits, d.bytes = bs.takeWhile isDigitByte ∧
      bs = d.bytes ++ bs.dropWhile isDigitByte :=
  ⟨⟨_, fun _ hb => List.mem_takeWhile_imp hb, h⟩, rfl, List.takeWhile_append_dropWhile.symm⟩

theorem exists_front_cons (hb : isDigitByte b = true) (r : Bytes) :
    ∃ d : Digits, d.bytes = b :: r.takeWhile isDigitByte ∧
      b :: r = d.bytes ++ r.dropWhile isDigitByte := by
  have ht : (b :: r).takeWhile isDigitByte = b :: r.takeWhile isDigitByte :=
    List.takeWhile_cons_of_pos hb
  have hd : (b :: r).dropWhile isDigitByte = r.dropWhile isDigitByte :=
    List.dropWhile_cons_of_pos hb
  rw [← ht, ← hd]
  exact exists_front (by rw [ht]; exact List.cons_ne_nil _ _)

end Digits

/-! ## Passing over a number -/

theorem exponentSign_bytes (e : Exponent) (r : Bytes) :
    (exponentSign (e.sign ++ (e.digits.bytes ++ r))).2 = e.digits.bytes ++ r := by
  rcases e.isSign with hs | hs | hs
  · obtain ⟨b, s, hb, hd⟩ := e.digits.opens
    have hplus : b ≠ ascii '+' := by rintro rfl; exact absurd hd (by decide)
    have hminus : b ≠ ascii '-' := by rintro rfl; exact absurd hd (by decide)
    rw [hs, hb, List.nil_append, List.cons_append, exponentSign, if_neg hplus, if_neg hminus]
  · rw [hs]
    rfl
  · rw [hs]
    rfl

theorem skipExponent_bytes (e : Exponent) (h : NoDigit rest) :
    skipExponent (e.sign ++ (e.digits.bytes ++ rest)) = .ok ((), rest) := by
  have hdrop := e.digits.dropWhile_append h
  obtain ⟨b, s, hb, hd⟩ := e.digits.opens
  rw [skipExponent, exponentSign_bytes]
  rw [hb, List.cons_append] at hdrop ⊢
  rw [List.dropWhile_cons_of_pos hd] at hdrop
  simp only [hd, if_true, hdrop]

theorem isExponentMark_spec (h : isExponentMark b = true) :
    isDigitByte b = false ∧ b ≠ ascii '.' := by
  simp only [isExponentMark, Bool.or_eq_true, beq_iff_eq] at h
  rcases h with rfl | rfl <;> decide

theorem Exponent.noDigit (e : Exponent) (r : Bytes) : NoDigit (e.bytes ++ r) := by
  intro b hb
  cases hb
  exact (isExponentMark_spec e.isMark).1

theorem noDigit_tail (fraction : Option Digits) (exponent : Option Exponent) (h : Cut rest) :
    NoDigit (tailOf fraction exponent ++ rest) := by
  cases fraction with
  | some d =>
    intro b hb
    cases hb
    decide
  | none =>
    cases exponent with
    | some e => exact e.noDigit rest
    | none => exact h.noDigit

theorem skipAfterDigits_tail (fraction : Option Digits) (exponent : Option Exponent)
    (h : Cut rest) : skipAfterDigits (tailOf fraction exponent ++ rest) = .ok ((), rest) := by
  cases fraction with
  | none =>
    cases exponent with
    | none =>
      cases rest with
      | nil => rfl
      | cons b r =>
        obtain ⟨-, hpoint, hmark⟩ := h b rfl
        simp [tailOf, skipAfterDigits, hpoint, hmark]
    | some e =>
      have hpoint := (isExponentMark_spec e.isMark).2
      have hskip := skipExponent_bytes e h.noDigit
      simp only [tailOf, Option.map_none, Option.map_some, Option.getD_none, Option.getD_some,
        List.nil_append, Exponent.bytes, List.cons_append, List.append_assoc, skipAfterDigits,
        if_neg hpoint, e.isMark, if_true, hskip]
  | some d =>
    have hne : (d.bytes.isEmpty) = false := by simpa using d.ne_nil
    cases exponent with
    | none =>
      have htake := d.takeWhile_append h.noDigit
      have hdrop := d.dropWhile_append h.noDigit
      simp only [tailOf, Option.map_none, Option.map_some, Option.getD_none, Option.getD_some,
        List.append_nil, List.cons_append, skipAfterDigits, if_true, skipDecimals, htake, hne,
        Bool.false_eq_true, if_false, hdrop]
      cases rest with
      | nil => rfl
      | cons b r => simp only [(h b rfl).2.2, Bool.false_eq_true, if_false]
    | some e =>
      have htake := d.takeWhile_append (e.noDigit rest)
      have hdrop := d.dropWhile_append (e.noDigit rest)
      have hskip := skipExponent_bytes e h.noDigit
      simp only [tailOf, Option.map_some, Option.getD_some, List.cons_append, List.append_assoc,
        skipAfterDigits, if_true, skipDecimals, htake, hne, Bool.false_eq_true, if_false, hdrop]
      simp only [Exponent.bytes, List.cons_append, List.append_assoc, e.isMark, if_true, hskip]

theorem skipMagnitude_whole (d : Digits) (hzero : ∀ s, d.bytes = ascii '0' :: s → s = [])
    (h : NoDigit r) : skipMagnitude (d.bytes ++ r) = skipAfterDigits r := by
  have hdrop := d.dropWhile_append h
  obtain ⟨b, s, hb, hd⟩ := d.opens
  rw [hb, List.cons_append] at hdrop ⊢
  rw [List.dropWhile_cons_of_pos hd] at hdrop
  by_cases hz : b = ascii '0'
  · obtain rfl := hzero s (by rw [hb, hz])
    rw [List.nil_append]
    cases r with
    | nil => exact if_pos hz
    | cons c r => simp only [skipMagnitude, if_pos hz, h c rfl, Bool.false_eq_true, if_false]
  · simp only [skipMagnitude, if_neg hz, hd, if_true, hdrop]

theorem skipMagnitude_figure (n : Figure) (h : Cut rest) :
    skipMagnitude (n.whole.bytes ++ (n.tail ++ rest)) = .ok ((), rest) := by
  have hno : NoDigit (n.tail ++ rest) := noDigit_tail n.fraction n.exponent h
  rw [skipMagnitude_whole n.whole n.noZero hno]
  exact skipAfterDigits_tail n.fraction n.exponent h

theorem exists_sign (bs : Bytes) : ∃ sign, (sign = [] ∨ sign = [ascii '+'] ∨ sign = [ascii '-']) ∧
    bs = sign ++ (exponentSign bs).2 := by
  cases bs with
  | nil => exact ⟨[], .inl rfl, rfl⟩
  | cons b r =>
    rw [exponentSign]
    split
    · rename_i hb
      exact ⟨[b], .inr (.inl (by rw [hb])), rfl⟩
    · split
      · rename_i hb
        exact ⟨[b], .inr (.inr (by rw [hb])), rfl⟩
      · exact ⟨[], .inl rfl, rfl⟩

theorem exists_exponent (hb : isExponentMark b = true) (h : skipExponent bs = .ok ((), r)) :
    ∃ e : Exponent, b :: bs = e.bytes ++ r := by
  obtain ⟨sign, hsign, hbs⟩ := exists_sign bs
  rw [skipExponent] at h
  split at h
  · cases h
  · rename_i c s hc
    split at h
    · rename_i hd
      cases h
      obtain ⟨d, -, hcut⟩ := Digits.exists_front_cons hd s
      refine ⟨⟨b, sign, d, hb, hsign⟩, ?_⟩
      rw [hc, hcut] at hbs
      simp [Exponent.bytes, hbs]
    · cases h

theorem exists_tail (h : skipAfterDigits bs = .ok ((), r)) :
    ∃ fraction exponent, bs = tailOf fraction exponent ++ r := by
  cases bs with
  | nil =>
    cases h
    exact ⟨none, none, rfl⟩
  | cons b bs =>
    rw [skipAfterDigits] at h
    split at h
    · rename_i hb
      rw [skipDecimals] at h
      split at h
      · cases h
      · rename_i hne
        obtain ⟨d, -, hcut⟩ := Digits.exists_front (by simpa using hne)
        split at h
        · rename_i c s hc
          rw [hc] at hcut
          split at h
          · rename_i hmark
            obtain ⟨e, he⟩ := exists_exponent hmark h
            exact ⟨some d, some e, by simp [tailOf, hb, hcut, he]⟩
          · cases h
            exact ⟨some d, none, by simp [tailOf, hb, hcut]⟩
        · rename_i hnil
          cases h
          rw [hnil] at hcut
          exact ⟨some d, none, by simp [tailOf, hb, hcut]⟩
    · split at h
      · rename_i hmark
        obtain ⟨e, he⟩ := exists_exponent hmark h
        exact ⟨none, some e, he⟩
      · cases h
        exact ⟨none, none, rfl⟩

/-- Either digits come first, of which a zero stands alone, or no number can be read. -/
theorem digits_or_fault (bs : Bytes) :
    (∃ (d : Digits) (r : Bytes), (∀ s, d.bytes = ascii '0' :: s → s = []) ∧ NoDigit r ∧
      bs = d.bytes ++ r) ∨
    (∃ f, skipMagnitude bs = .error f) ∧ ∀ positive, ∃ f, magnitude positive bs = .error f := by
  cases bs with
  | nil => exact .inr ⟨⟨_, rfl⟩, fun _ => ⟨_, rfl⟩⟩
  | cons b bs =>
    rw [skipMagnitude.eq_def]
    simp only [magnitude.eq_def]
    by_cases hd : isDigitByte b = true
    · by_cases hz : b = ascii '0'
      · have hzero : ∀ c ∈ [b], isDigitByte c = true := by simpa using hd
        by_cases hno : NoDigit bs
        · exact .inl ⟨⟨[b], hzero, List.cons_ne_nil _ _⟩, bs,
            fun s hs => (List.cons.inj hs).2.symm, hno, rfl⟩
        · cases bs with
          | nil => exact absurd (fun _ hc => nomatch hc) hno
          | cons c bs =>
            have hc : isDigitByte c = true := by simpa [NoDigit] using hno
            simp only [if_pos hz, if_pos hc]
            exact .inr ⟨⟨_, rfl⟩, fun _ => ⟨_, rfl⟩⟩
      · obtain ⟨d, hb, hcut⟩ := Digits.exists_front_cons hd bs
        refine .inl ⟨d, _, fun s hs => ?_, fun x hx => ?_, hcut⟩
        · rw [hb] at hs
          exact absurd (List.cons.inj hs).1 hz
        · have hhead := List.head?_dropWhile_not isDigitByte bs
          rwa [Option.mem_def.1 hx] at hhead
    · have hz : b ≠ ascii '0' := by rintro rfl; exact hd (by decide)
      simp only [if_neg hz, if_neg hd]
      exact .inr ⟨⟨_, rfl⟩, fun _ => ⟨_, rfl⟩⟩

theorem exists_figure (negative : Bool) (h : skipMagnitude bs = .ok ((), r)) :
    ∃ n : Figure, n.negative = negative ∧ bs = n.whole.bytes ++ (n.tail ++ r) := by
  rcases digits_or_fault bs with ⟨d, s, hzero, hs, rfl⟩ | ⟨⟨f, hf⟩, -⟩
  · rw [skipMagnitude_whole d hzero hs] at h
    obtain ⟨fraction, exponent, ht⟩ := exists_tail h
    exact ⟨⟨negative, d, fraction, exponent, hzero⟩, rfl, by rw [ht]; rfl⟩
  · rw [hf] at h
    cases h

/-! ## Reading a machine word -/

def Floating (result : Except Fault (Numeral × Bytes)) : Prop :=
  ∀ i r, result ≠ .ok (.integer i, r)

theorem floating_parts (positive : Bool) (n : Nat) (e : Int) (bs : Bytes) :
    Floating (parts positive n e bs) := by
  intro i r h
  rw [parts] at h
  split at h <;> cases h

theorem floating_exponent (positive : Bool) (n : Nat) (start : Int) (bs : Bytes) :
    Floating (exponent positive n start bs) := by
  intro i r h
  rw [exponent] at h
  split at h
  · cases h
  · split at h
    · split at h
      · exact floating_parts _ _ _ _ i r h
      · split at h <;> cases h
    · cases h

theorem floating_decimals (positive : Bool) (n : Nat) (start : Int) (bs : Bytes) :
    Floating (decimals positive n start bs) := by
  intro i r h
  rw [decimals] at h
  split at h
  · cases h
  · dsimp only at h
    split at h
    · split at h
      · exact floating_exponent _ _ _ _ i r h
      · exact floating_parts _ _ _ _ i r h
    · exact floating_parts _ _ _ _ i r h

def wholeNumber? (positive : Bool) (n dropped : Nat) : Option Int :=
  if 0 < dropped then none
  else if positive then some n
  else if n = 0 || maxSigned + 1 < n then none
  else some (-n)

theorem wholeNumber?_eq_some_iff {n dropped : Nat} {i : Int} :
    (if 0 < dropped then parts positive n dropped bs
      else if positive then .ok (.integer n, bs)
      else if n = 0 || maxSigned + 1 < n then .ok (floatOf false (UInt64.ofNat n).toFloat, bs)
      else .ok (.integer (-n), bs)) = Except.ok (.integer i, r) ↔
      r = bs ∧ wholeNumber? positive n dropped = some i := by
  rw [wholeNumber?]
  split
  · exact ⟨fun h => absurd h (floating_parts _ _ _ _ i r), fun h => absurd h.2 (by simp)⟩
  split
  · simp [eq_comm, and_comm]
  split
  · simp [floatOf]
  · simp [eq_comm, and_comm]

theorem afterDigits_integer {n dropped : Nat} {i : Int}
    (h : afterDigits positive n dropped bs = .ok (.integer i, r)) :
    r = bs ∧ wholeNumber? positive n dropped = some i := by
  cases bs with
  | nil => exact wholeNumber?_eq_some_iff.1 h
  | cons b bs =>
    rw [afterDigits] at h
    split at h
    · exact absurd h (floating_decimals _ _ _ _ i r)
    · split at h
      · exact absurd h (floating_exponent _ _ _ _ i r)
      · exact wholeNumber?_eq_some_iff.1 h

theorem afterDigits_cut {n dropped : Nat} {i : Int} (h : Cut rest)
    (hi : wholeNumber? positive n dropped = some i) :
    afterDigits positive n dropped rest = .ok (.integer i, rest) := by
  have hwhole := wholeNumber?_eq_some_iff.2 ⟨(rfl : rest = rest), hi⟩
  cases rest with
  | nil => exact hwhole
  | cons b r =>
    obtain ⟨-, hpoint, hmark⟩ := h b rfl
    simp only [afterDigits, if_neg hpoint, hmark, Bool.false_eq_true, if_false]
    exact hwhole

theorem floating_tail {n dropped : Nat} {fraction : Option Digits} {exponent : Option Exponent}
    (h : tailOf fraction exponent ≠ []) :
    Floating (afterDigits positive n dropped (tailOf fraction exponent ++ rest)) := by
  cases fraction with
  | some d => exact floating_decimals positive n dropped _
  | none =>
    cases exponent with
    | none => exact absurd rfl h
    | some e =>
      have hpoint := (isExponentMark_spec e.isMark).2
      simp only [tailOf, Option.map_none, Option.map_some, Option.getD_none, Option.getD_some,
        List.nil_append, Exponent.bytes, List.cons_append, afterDigits, if_neg hpoint, e.isMark,
        if_true]
      exact floating_exponent positive n dropped _

theorem magnitude_whole (d : Digits) (hzero : ∀ s, d.bytes = ascii '0' :: s → s = [])
    (h : NoDigit r) : magnitude positive (d.bytes ++ r) =
      afterDigits positive (accumulate 0 d.bytes).1 (accumulate 0 d.bytes).2 r := by
  have htake := d.takeWhile_append h
  have hdrop := d.dropWhile_append h
  obtain ⟨b, s, hb, hd⟩ := d.opens
  rw [hb, List.cons_append] at htake hdrop ⊢
  rw [List.takeWhile_cons_of_pos hd] at htake
  rw [List.dropWhile_cons_of_pos hd] at hdrop
  by_cases hz : b = ascii '0'
  · obtain rfl := hzero s (by rw [hb, hz])
    have hacc : accumulate 0 [b] = (0, 0) := by rw [hz]; decide
    rw [hacc, List.nil_append]
    cases r with
    | nil => exact if_pos hz
    | cons c r => simp only [magnitude, if_pos hz, h c rfl, Bool.false_eq_true, if_false]
  · simp only [magnitude, if_neg hz, hd, if_true, htake, hdrop]

theorem readNumeral_bytes (n : Figure) (h : Cut rest) :
    readNumeral (n.bytes ++ rest) = afterDigits (!n.negative) (accumulate 0 n.whole.bytes).1
      (accumulate 0 n.whole.bytes).2 (n.tail ++ rest) := by
  have hmag : ∀ positive, magnitude positive (n.whole.bytes ++ (n.tail ++ rest)) = _ :=
    fun positive => magnitude_whole n.whole n.noZero (noDigit_tail n.fraction n.exponent h)
  rw [Figure.bytes, Figure.sign, List.append_assoc, List.append_assoc]
  cases n.negative with
  | true => exact hmag false
  | false =>
    rw [if_neg Bool.false_ne_true, List.nil_append, ← hmag]
    obtain ⟨b, s, hb, hd⟩ := n.whole.opens
    have hminus : b ≠ ascii '-' := by rintro rfl; exact absurd hd (by decide)
    rw [hb, List.cons_append, readNumeral, if_neg hminus, Bool.not_false]

def Figure.word? (n : Figure) : Option Int64 :=
  let (m, dropped) := accumulate 0 n.whole.bytes
  if n.tail = [] then
    (wholeNumber? (!n.negative) m dropped).bind fun i =>
      if i ≤ maxSigned then some (Int64.ofInt i) else none
  else none

theorem readWord_integer {i : Int} (hs : skipSpace bs = b :: r) (hb : startsNumber b = true)
    (h : readNumeral (b :: r) = .ok (.integer i, rest)) :
    readWord bs = if i ≤ maxSigned then .ok (Int64.ofInt i, rest)
      else failBehind (.tooLarge i "i64") rest := by
  rw [readWord, atValue, hs]
  simp only [if_pos hb, h, Bind.bind, Except.bind]
  rfl

theorem readWord_floating (hs : skipSpace bs = b :: r) (hb : startsNumber b = true)
    (h : Floating (readNumeral (b :: r))) : ∃ f, readWord bs = .error f := by
  rw [readWord, atValue, hs]
  simp only [if_pos hb]
  rcases hr : readNumeral (b :: r) with f | ⟨i | x, s⟩
  · exact ⟨f, rfl⟩
  · exact absurd hr (h i s)
  · exact ⟨_, rfl⟩

theorem readWord_figure {n : Figure} (h : Cut rest) (hs : skipSpace bs = n.bytes ++ rest) :
    Yields n.word? rest (readWord bs) := by
  have hread := readNumeral_bytes n h
  obtain ⟨b, r, hb, hstart⟩ := n.opens
  rw [hb, List.cons_append] at hs hread
  rw [Figure.word?]
  dsimp only
  by_cases ht : n.tail = []
  · rw [ht, List.nil_append] at hread
    rw [if_pos ht]
    cases hw : wholeNumber? (!n.negative) (accumulate 0 n.whole.bytes).1
        (accumulate 0 n.whole.bytes).2 with
    | none =>
      refine readWord_floating hs hstart fun i s hi => ?_
      rw [hread] at hi
      rw [(afterDigits_integer hi).2] at hw
      cases hw
    | some i =>
      rw [afterDigits_cut h hw] at hread
      rw [readWord_integer hs hstart hread, Option.bind_some]
      split
      · exact rfl
      · exact ⟨_, rfl⟩
  · rw [if_neg ht]
    exact readWord_floating hs hstart (hread ▸ floating_tail ht)

theorem exists_integer (negative : Bool) {i : Int}
    (h : magnitude positive bs = .ok (.integer i, r)) :
    ∃ n : Figure, n.negative = negative ∧ n.tail = [] ∧ bs = n.whole.bytes ++ r := by
  rcases digits_or_fault bs with ⟨d, s, hzero, hs, rfl⟩ | ⟨-, hf⟩
  · rw [magnitude_whole d hzero hs] at h
    rw [(afterDigits_integer h).1]
    exact ⟨⟨negative, d, none, none, hzero⟩, rfl, rfl, rfl⟩
  · obtain ⟨f, hf⟩ := hf positive
    rw [hf] at h
    cases h

theorem exists_numeral {i : Int} (h : readNumeral bs = .ok (.integer i, r)) :
    ∃ n : Figure, bs = n.bytes ++ r := by
  cases bs with
  | nil => cases h
  | cons b bs =>
    rw [readNumeral] at h
    split at h
    · rename_i hb
      obtain ⟨n, hn, ht, hbs⟩ := exists_integer true h
      exact ⟨n, by rw [Figure.bytes, Figure.sign, hn, ht, hb, hbs, List.append_nil]; rfl⟩
    · obtain ⟨n, hn, ht, hbs⟩ := exists_integer false h
      exact ⟨n, by rw [Figure.bytes, Figure.sign, hn, ht, hbs, List.append_nil]; rfl⟩

theorem exists_word {a : Int64} (hs : skipSpace bs = b :: s) (hb : startsNumber b = true)
    (h : readWord bs = .ok (a, r)) : ∃ n : Figure, b :: s = n.bytes ++ r := by
  rcases hr : readNumeral (b :: s) with f | ⟨i | x, t⟩
  · obtain ⟨f, hf⟩ := readWord_floating hs hb (hr ▸ fun _ _ hi => nomatch hi)
    rw [hf] at h
    cases h
  · rw [readWord_integer hs hb hr] at h
    split at h
    · cases h
      exact exists_numeral hr
    · cases h
  · obtain ⟨f, hf⟩ := readWord_floating hs hb (hr ▸ fun _ _ hi => nomatch hi)
    rw [hf] at h
    cases h

end OrderLookup.Wire
