import OrderLookup.Proofs.Wire.Numeral

/-!
Written texts are read back. A character is written as it is or as an escape, and both bring its
bytes back, so the content of a literal is the bytes of its text.
-/

namespace OrderLookup.Wire

open Text

def Plain (b : UInt8) : Prop := b ≠ ascii '"' ∧ b ≠ ascii '\\' ∧ ¬b < 0x20

def escapedBytes (c : Char) : Bytes := (Json.escaped c).flatMap Utf8.encodeChar

variable {bound seen p r rest e : Bytes} {c : Char}

theorem contentFrom_plain (hp : ∀ b ∈ p, Plain b) (h : (p ++ r).length < bound.length) :
    contentFrom bound seen (p ++ r) = contentFrom (bound.drop p.length) (p.reverse ++ seen) r := by
  induction p generalizing bound seen with
  | nil => rfl
  | cons b p ih =>
    obtain ⟨⟨hq, hs, hc⟩, hp⟩ := List.forall_mem_cons.1 hp
    cases bound with
    | nil => cases h
    | cons x bound =>
      rw [List.cons_append, contentFrom, if_neg hq, if_neg hs, if_neg hc,
        ih hp (Nat.lt_of_succ_lt_succ h), List.reverse_cons, List.append_assoc]
      rfl

theorem contentFrom_escape (he : escape (p ++ r) = .ok (e, r))
    (h : (ascii '\\' :: (p ++ r)).length < bound.length) :
    contentFrom bound seen (ascii '\\' :: (p ++ r)) =
      contentFrom (bound.drop 1) (e.reverse ++ seen) r := by
  cases bound with
  | nil => cases h
  | cons x bound =>
    rw [contentFrom, if_neg (by decide), if_pos rfl, he]
    rfl

theorem shortEscape_eq {d : Char} {b : UInt8} (h : shortEscape (ascii d) = some b) :
    escape ([ascii d] ++ r) = .ok ([b], r) := by
  rw [List.singleton_append, escape, h]

theorem hexDigit_lt (n : Nat) : (hexDigit n).toNat < 0x80 := by
  have h : ∀ k < 16, (Char.ofNat (if k < 10 then 48 + k else 87 + k)).toNat < 0x80 := by decide
  exact h _ (Nat.mod_lt _ (by decide))

theorem hexEscape_control {n : Nat} (h : n < 0x20) :
    hexEscape ([ascii '0', ascii '0', ascii (hexDigit (n / 16)), ascii (hexDigit n)] ++ r) =
      .ok (n, r) := by
  have hzero : hexValue (ascii '0') = some 0 := by decide
  have hhigh : hexValue (ascii (hexDigit (n / 16))) = some (n / 16 % 16) := hexValue_hexDigit _
  have hlow : hexValue (ascii (hexDigit n)) = some (n % 16) := hexValue_hexDigit _
  have hn : 0 * 4096 + 0 * 256 + n / 16 % 16 * 16 + n % 16 = n := by omega
  simp only [List.cons_append, List.nil_append, hexEscape, hzero, hhigh, hlow, hn]

theorem escape_control {n : Nat} (h : n < 0x20) :
    escape ([ascii 'u', ascii '0', ascii '0', ascii (hexDigit (n / 16)), ascii (hexDigit n)] ++ r) =
      .ok (Utf8.encodeCode n, r) := by
  have hhex := hexEscape_control (r := r) h
  have hlow : isLow n = false := by
    simp only [isLow, Bool.and_eq_false_iff, decide_eq_false_iff_not]
    omega
  have hhigh : isHigh n = false := by
    simp only [isHigh, Bool.and_eq_false_iff, decide_eq_false_iff_not]
    omega
  have hshort : shortEscape (ascii 'u') = none := by decide
  rw [List.cons_append, escape, hshort]
  simp only [if_true, codeEscape, hhex]
  simp [Bind.bind, Except.bind, hlow, hhigh, pure, Except.pure]

theorem plain_encodeCode {n : Nat} (hq : n ≠ 0x22) (hs : n ≠ 0x5C) (hc : 0x20 ≤ n)
    (hn : n < 0x110000) : ∀ b ∈ Utf8.encodeCode n, Plain b := by
  have hplain : ∀ b : UInt8, b.toNat ≠ 0x22 → b.toNat ≠ 0x5C → 0x20 ≤ b.toNat → Plain b := by
    intro b h₁ h₂ h₃
    refine ⟨fun h => h₁ (by rw [h]; rfl), fun h => h₂ (by rw [h]; rfl), ?_⟩
    rw [UInt8.lt_iff_toNat_lt]
    exact Nat.not_lt.2 h₃
  have htrail : ∀ k, Plain (Utf8.trail k) := by
    intro k
    have ht := Utf8.trail_toNat k
    exact hplain _ (by omega) (by omega) (by omega)
  have hlead : ∀ k, 0x20 ≤ k → k < 256 → k ≠ 0x22 → k ≠ 0x5C → Plain (UInt8.ofNat k) := by
    intro k h₁ h₂ h₃ h₄
    have hk := Utf8.toNat_ofNat_byte h₂
    exact hplain _ (by omega) (by omega) (by omega)
  rw [Utf8.encodeCode]
  split
  · intro b hb
    rw [List.mem_singleton.1 hb]
    exact hlead n hc (by omega) hq hs
  · split
    · simp only [List.forall_mem_cons, List.not_mem_nil, false_implies, implies_true, and_true]
      exact ⟨hlead _ (by omega) (by omega) (by omega) (by omega), htrail _⟩
    · split
      · simp only [List.forall_mem_cons, List.not_mem_nil, false_implies, implies_true, and_true]
        exact ⟨hlead _ (by omega) (by omega) (by omega) (by omega), htrail _, htrail _⟩
      · simp only [List.forall_mem_cons, List.not_mem_nil, false_implies, implies_true, and_true]
        exact ⟨hlead _ (by omega) (by omega) (by omega) (by omega), htrail _, htrail _, htrail _⟩

theorem escapedBytes_cases (c : Char) :
    (escapedBytes c = Utf8.encodeChar c ∧ ∀ b ∈ Utf8.encodeChar c, Plain b) ∨
      ∃ p, escapedBytes c = ascii '\\' :: p ∧
        ∀ r, escape (p ++ r) = .ok (Utf8.encodeChar c, r) := by
  by_cases hspecial :
    c = '"' ∨ c = '\\' ∨ c = '\x08' ∨ c = '\t' ∨ c = '\n' ∨ c = '\x0c' ∨ c = '\r'
  · right
    rcases hspecial with rfl | rfl | rfl | rfl | rfl | rfl | rfl
    · exact ⟨[ascii '"'], by decide, fun r => shortEscape_eq (by decide)⟩
    · exact ⟨[ascii '\\'], by decide, fun r => shortEscape_eq (by decide)⟩
    · exact ⟨[ascii 'b'], by decide, fun r => shortEscape_eq (by decide)⟩
    · exact ⟨[ascii 't'], by decide, fun r => shortEscape_eq (by decide)⟩
    · exact ⟨[ascii 'n'], by decide, fun r => shortEscape_eq (by decide)⟩
    · exact ⟨[ascii 'f'], by decide, fun r => shortEscape_eq (by decide)⟩
    · exact ⟨[ascii 'r'], by decide, fun r => shortEscape_eq (by decide)⟩
  · simp only [not_or] at hspecial
    obtain ⟨hq, hs, hb, ht, hn, hf, hr⟩ := hspecial
    by_cases hc : c.toNat < 0x20
    · right
      refine ⟨[ascii 'u', ascii '0', ascii '0', ascii (hexDigit (c.toNat / 16)),
        ascii (hexDigit c.toNat)], ?_, fun r => escape_control hc⟩
      have hesc : Json.escaped c =
          ['\\', 'u', '0', '0', hexDigit (c.toNat / 16), hexDigit c.toNat] := by
        simp [Json.escaped, hq, hs, hb, ht, hn, hf, hr, hc]
      rw [escapedBytes, hesc, encode_ascii]
      · rfl
      · simp [hexDigit_lt]
    · left
      have hesc : Json.escaped c = [c] := by
        simp [Json.escaped, hq, hs, hb, ht, hn, hf, hr, hc]
      have hv := Utf8.toNat_valid c
      refine ⟨by rw [escapedBytes, hesc, List.flatMap_singleton], ?_⟩
      apply plain_encodeCode _ _ (by omega) (by omega)
      · exact fun h => hq (Char.toNat_inj.1 h)
      · exact fun h => hs (Char.toNat_inj.1 h)

theorem contentFrom_escaped (c : Char) (h : (escapedBytes c ++ r).length < bound.length) :
    ∃ bound', r.length < bound'.length ∧
      contentFrom bound seen (escapedBytes c ++ r) =
        contentFrom bound' ((Utf8.encodeChar c).reverse ++ seen) r := by
  rcases escapedBytes_cases c with ⟨hc, hp⟩ | ⟨p, hc, he⟩
  · rw [hc] at h ⊢
    refine ⟨bound.drop (Utf8.encodeChar c).length, ?_, contentFrom_plain hp h⟩
    rw [List.length_append] at h
    rw [List.length_drop]
    omega
  · rw [hc] at h ⊢
    refine ⟨bound.drop 1, ?_, contentFrom_escape (he r) h⟩
    rw [List.length_append, List.length_cons] at h
    rw [List.length_drop]
    omega

theorem contentFrom_literal (cs : List Char)
    (h : (cs.flatMap escapedBytes ++ ascii '"' :: rest).length < bound.length) :
    contentFrom bound seen (cs.flatMap escapedBytes ++ ascii '"' :: rest) =
      .ok (seen.reverse ++ cs.flatMap Utf8.encodeChar, rest) := by
  induction cs generalizing bound seen with
  | nil =>
    cases bound with
    | nil => cases h
    | cons x bound => simp [contentFrom]
  | cons c cs ih =>
    rw [List.flatMap_cons, List.append_assoc] at h ⊢
    obtain ⟨bound', hb, hc⟩ := contentFrom_escaped c h
    rw [hc, ih hb]
    simp

theorem readText_literal (s : String) (rest : Bytes) :
    readText (s.toList.flatMap escapedBytes ++ ascii '"' :: rest) = .ok (s, rest) := by
  have hc : content (s.toList.flatMap escapedBytes ++ ascii '"' :: rest) =
      .ok (s.toList.flatMap Utf8.encodeChar, rest) := contentFrom_literal s.toList (by simp)
  have hd : Utf8.decode (s.toList.flatMap Utf8.encodeChar) = some s := Utf8.decode_encode s
  rw [readText, hc]
  simp [Bind.bind, Except.bind, hd, pure, Except.pure]

end OrderLookup.Wire
