import OrderLookup.Text.Utf8

/-!
Written characters are read back. The first piece of a byte string that starts with an encoded
character is that character, so a text comes back from its bytes.
-/

namespace OrderLookup.Text.Utf8

theorem toNat_valid (c : Char) : c.toNat < 0xD800 ∨ (0xDFFF < c.toNat ∧ c.toNat < 0x110000) :=
  c.valid

theorem toNat_ofNat_byte {n : Nat} (h : n < 256) : (UInt8.ofNat n).toNat = n := by
  rw [UInt8.toNat_ofNat']
  omega

@[simp] theorem trail_toNat (n : Nat) : (trail n).toNat = 0x80 + n % 64 :=
  toNat_ofNat_byte (by omega)

@[simp] theorem isTrail_trail (n : Nat) : isTrail (trail n) = true := by
  simp only [isTrail, UInt8.le_iff_toNat_le, trail_toNat, Bool.and_eq_true, decide_eq_true_eq]
  change 0x80 ≤ _ ∧ _ ≤ 0xBF
  omega

@[simp] theorem bits_trail (n : Nat) : bits (trail n) = n % 64 := by
  rw [bits, trail_toNat]
  omega

theorem width_eq (a : UInt8) :
    width a =
      if a.toNat < 0x80 then some 1
      else if a.toNat < 0xC2 then none
      else if a.toNat < 0xE0 then some 2
      else if a.toNat < 0xF0 then some 3
      else if a.toNat < 0xF5 then some 4
      else none := by
  simp only [width, UInt8.lt_iff_toNat_lt]
  rfl

theorem follows_eq (a b : UInt8) :
    follows a b =
      if a.toNat = 0xE0 then decide (0xA0 ≤ b.toNat ∧ b.toNat ≤ 0xBF)
      else if a.toNat = 0xED then decide (0x80 ≤ b.toNat ∧ b.toNat ≤ 0x9F)
      else if a.toNat = 0xF0 then decide (0x90 ≤ b.toNat ∧ b.toNat ≤ 0xBF)
      else if a.toNat = 0xF4 then decide (0x80 ≤ b.toNat ∧ b.toNat ≤ 0x8F)
      else decide (0x80 ≤ b.toNat ∧ b.toNat ≤ 0xBF) := by
  simp only [follows, isTrail, beq_iff_eq, ← UInt8.toNat_inj, UInt8.le_iff_toNat_le,
    Bool.decide_and]
  rfl

variable {n : Nat} {a : UInt8}

theorem front_one (ha : a.toNat = n) (h : n < 0x80) (r : Bytes) :
    front a r = .char (Char.ofNat n) := by
  simp only [front, width_eq, ha, if_pos h]

theorem front_two (ha : a.toNat = 0xC0 + n / 64) (h : 0x80 ≤ n) (h' : n < 0x800) (r : Bytes) :
    front a (trail n :: r) = .char (Char.ofNat n) := by
  have hw : width a = some 2 := by
    rw [width_eq, ha, if_neg (by omega), if_neg (by omega), if_pos (by omega)]
  have hf : follows a (trail n) = true := by
    rw [follows_eq, ha, if_neg (by omega), if_neg (by omega), if_neg (by omega),
      if_neg (by omega), trail_toNat]
    exact decide_eq_true (by omega)
  have hn : (0xC0 + n / 64) % 32 * 64 + n % 64 = n := by omega
  simp [front, hw, hf, char2, ha, hn]

/-- A surrogate would not get through: its first trailing byte is cut off. -/
theorem front_three (ha : a.toNat = 0xE0 + n / 4096) (h : 0x800 ≤ n) (h' : n < 0x10000)
    (hv : n < 0xD800 ∨ 0xDFFF < n) (r : Bytes) :
    front a (trail (n / 64) :: trail n :: r) = .char (Char.ofNat n) := by
  have hw : width a = some 3 := by
    rw [width_eq, ha, if_neg (by omega), if_neg (by omega), if_neg (by omega), if_pos (by omega)]
  have hf : follows a (trail (n / 64)) = true := by
    rw [follows_eq, ha, trail_toNat]
    split
    · exact decide_eq_true (by omega)
    · split
      · exact decide_eq_true (by omega)
      · rw [if_neg (by omega), if_neg (by omega)]
        exact decide_eq_true (by omega)
  have hn : (0xE0 + n / 4096) % 16 * 4096 + n / 64 % 64 * 64 + n % 64 = n := by omega
  simp [front, hw, hf, char3, ha, hn]

theorem front_four (ha : a.toNat = 0xF0 + n / 262144) (h : 0x10000 ≤ n) (h' : n < 0x110000)
    (r : Bytes) :
    front a (trail (n / 4096) :: trail (n / 64) :: trail n :: r) = .char (Char.ofNat n) := by
  have hw : width a = some 4 := by
    rw [width_eq, ha, if_neg (by omega), if_neg (by omega), if_neg (by omega), if_neg (by omega),
      if_pos (by omega)]
  have hf : follows a (trail (n / 4096)) = true := by
    rw [follows_eq, ha, trail_toNat, if_neg (by omega), if_neg (by omega)]
    split
    · exact decide_eq_true (by omega)
    · split <;> exact decide_eq_true (by omega)
  have hn : (0xF0 + n / 262144) % 8 * 262144 + n / 4096 % 64 * 4096 + n / 64 % 64 * 64 + n % 64 =
      n := by omega
  simp [front, hw, hf, char4, ha, hn]

theorem front_encodeChar (c : Char) {t : Bytes} (h : encodeChar c = a :: t) (r : Bytes) :
    front a (t ++ r) = .char c := by
  have hv := toNat_valid c
  rw [← Char.ofNat_toNat c]
  rw [encodeChar, encodeCode] at h
  generalize c.toNat = n at h hv
  split at h
  · obtain ⟨rfl, rfl⟩ := List.cons.inj h
    exact front_one (toNat_ofNat_byte (by omega)) (by omega) r
  · split at h
    · obtain ⟨rfl, rfl⟩ := List.cons.inj h
      exact front_two (toNat_ofNat_byte (by omega)) (by omega) (by omega) r
    · split at h
      · obtain ⟨rfl, rfl⟩ := List.cons.inj h
        exact front_three (toNat_ofNat_byte (by omega)) (by omega) (by omega) (by omega) r
      · obtain ⟨rfl, rfl⟩ := List.cons.inj h
        exact front_four (toNat_ofNat_byte (by omega)) (by omega) (by omega) r

theorem encodeCode_ne_nil (n : Nat) : encodeCode n ≠ [] := by
  rw [encodeCode]
  split
  · simp
  · split
    · simp
    · split <;> simp

theorem piecesAfter_append (b r : Bytes) : piecesAfter b.length (b ++ r) = pieces r := by
  induction b with
  | nil => rfl
  | cons a b ih => exact ih

theorem pieces_encodeChar (c : Char) (r : Bytes) :
    pieces (encodeChar c ++ r) = .char c :: pieces r := by
  rcases h : encodeChar c with _ | ⟨a, t⟩
  · exact absurd h (encodeCode_ne_nil c.toNat)
  · have hsize : (Piece.char c).size - 1 = t.length := by simp [Piece.size, h]
    rw [List.cons_append, pieces, piecesAfter, front_encodeChar c h r, hsize, piecesAfter_append]

theorem chars?_pieces (cs : List Char) : chars? (pieces (cs.flatMap encodeChar)) = some cs := by
  induction cs with
  | nil => rfl
  | cons c cs ih => rw [List.flatMap_cons, pieces_encodeChar, chars?, ih, Option.map_some]

theorem length_encodeChar_le (c : Char) : (encodeChar c).length ≤ 4 := by
  rw [encodeChar, encodeCode]
  split
  · simp
  · split
    · simp
    · split <;> simp

theorem length_encode_le (cs : List Char) :
    (encode (String.ofList cs)).length ≤ 4 * cs.length := by
  rw [encode, String.toList_ofList]
  induction cs with
  | nil => simp
  | cons c cs ih =>
    have hc := length_encodeChar_le c
    rw [List.flatMap_cons, List.length_append, List.length_cons]
    omega

theorem decode_encode (s : String) : decode (encode s) = some s := by
  rw [decode, encode, chars?_pieces, Option.map_some, String.ofList_toList]

end OrderLookup.Text.Utf8
