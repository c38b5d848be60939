import OrderLookup.Proofs.Wire.Grammar

/-!
Texts are read by their spelling. What stands between the quotation marks is a spelling if the text
can be passed over, and it can be read if, besides, the spelling stands for a text.
-/

namespace OrderLookup.Wire

open Text

variable {α β : Type} {bound seen bs r rest : Bytes} {t : List Glyph}

/-- Whether reading gives what is expected and leaves the rest, or fails if nothing is expected. -/
def Yields (x : Option α) (rest : Bytes) (result : Except Fault (α × Bytes)) : Prop :=
  match x with
  | some a => result = .ok (a, rest)
  | none => ∃ f, result = .error f

theorem exists_of_bind {x : Except Fault α} {f : α → Except Fault β} {b : β}
    (h : x >>= f = .ok b) : ∃ a, x = .ok a ∧ f a = .ok b := by
  cases x with
  | error e => cases h
  | ok a => exact ⟨a, rfl, h⟩

@[simp] theorem spelled_nil : spelled [] = [] := rfl

@[simp] theorem spelled_cons (g : Glyph) (t : List Glyph) :
    spelled (g :: t) = g.bytes ++ spelled t := rfl

theorem hexEscape_code (c : Code) (r : Bytes) : hexEscape (c.bytes ++ r) = .ok (c.value, r) := by
  simp only [Code.bytes, List.cons_append, List.nil_append, hexEscape, c.a.reads, c.b.reads,
    c.c.reads, c.d.reads, Code.value]

theorem exists_code {n : Nat} (h : hexEscape bs = .ok (n, r)) : ∃ c : Code, bs = c.bytes ++ r := by
  rcases bs with _ | ⟨a, _ | ⟨b, _ | ⟨c, _ | ⟨d, bs⟩⟩⟩⟩
  case cons.cons.cons.cons =>
    rw [hexEscape] at h
    split at h
    · rename_i ha hb hc hd
      cases h
      exact ⟨⟨⟨a, _, ha⟩, ⟨b, _, hb⟩, ⟨c, _, hc⟩, ⟨d, _, hd⟩⟩, rfl⟩
    · cases h
  all_goals cases h

theorem shortEscape_u : shortEscape (ascii 'u') = none := by decide

/-! ## Passing over a text -/

theorem skipTextFrom_spelled (t : List Glyph)
    (h : (spelled t ++ ascii '"' :: rest).length ≤ bound.length) :
    skipTextFrom bound (spelled t ++ ascii '"' :: rest) = .ok ((), rest) := by
  induction t generalizing bound with
  | nil =>
    cases bound with
    | nil => cases h
    | cons x bound => exact if_pos rfl
  | cons g t ih =>
    rw [spelled_cons, List.append_assoc] at h ⊢
    cases bound with
    | nil =>
      cases g <;> simp [Glyph.bytes] at h
    | cons x bound =>
      cases g with
      | plain b hb =>
        obtain ⟨hq, hs, hc⟩ := hb
        simp only [Glyph.bytes, List.singleton_append, skipTextFrom, if_neg hq, if_neg hs,
          if_neg hc]
        exact ih (Nat.le_of_succ_le_succ h)
      | short letter b hb =>
        have hsome : (shortEscape letter).isSome = true := by rw [hb]; rfl
        have hskip : ∀ r, skipEscape (letter :: r) = .ok ((), r) := fun r => if_pos hsome
        simp only [Glyph.bytes, List.cons_append, List.nil_append, skipTextFrom,
          if_neg (by decide : ¬ascii '\\' = ascii '"'), if_true, hskip]
        refine ih ?_
        simp only [Glyph.bytes, List.cons_append, List.nil_append, List.length_cons] at h
        omega
      | code c =>
        have hskip : ∀ r, skipEscape (ascii 'u' :: (c.bytes ++ r)) = .ok ((), r) := by
          intro r
          simp only [skipEscape, shortEscape_u, Option.isSome_none, Bool.false_eq_true, if_false,
            if_true, hexEscape_code]
          rfl
        simp only [Glyph.bytes, List.cons_append, skipTextFrom,
          if_neg (by decide : ¬ascii '\\' = ascii '"'), if_true, hskip]
        refine ih ?_
        simp only [Glyph.bytes, List.cons_append, List.length_cons] at h
        rw [List.length_append] at h
        omega

theorem skipText_spelled (t : List Glyph) (rest : Bytes) :
    skipText (spelled t ++ ascii '"' :: rest) = .ok ((), rest) :=
  skipTextFrom_spelled t (Nat.le_succ _)

theorem exists_glyph_of_skipEscape (h : skipEscape bs = .ok ((), r)) :
    ∃ g : Glyph, ascii '\\' :: bs = g.bytes ++ r := by
  cases bs with
  | nil => cases h
  | cons b bs =>
    rw [skipEscape] at h
    split at h
    · rename_i hs
      obtain ⟨c, hc⟩ := Option.isSome_iff_exists.1 hs
      cases h
      exact ⟨.short b c hc, rfl⟩
    · split at h
      · rename_i hu
        cases hx : hexEscape bs with
        | error f =>
          rw [hx] at h
          cases h
        | ok p =>
          rw [hx] at h
          cases h
          obtain ⟨c, hc⟩ := exists_code hx
          exact ⟨.code c, by rw [hu, hc]; rfl⟩
      · cases h

theorem exists_spelling_of_skip (h : skipTextFrom bound bs = .ok ((), r)) :
    ∃ t, bs = spelled t ++ ascii '"' :: r := by
  induction bound generalizing bs with
  | nil => cases h
  | cons x bound ih =>
    cases bs with
    | nil => cases h
    | cons b bs =>
      rw [skipTextFrom] at h
      split at h
      · rename_i hq
        cases h
        exact ⟨[], by rw [hq]; rfl⟩
      · rename_i hq
        split at h
        · rename_i hs
          obtain ⟨p, hx, hp⟩ := exists_of_bind h
          obtain ⟨g, hg⟩ := exists_glyph_of_skipEscape hx
          obtain ⟨t, ht⟩ := ih hp
          exact ⟨g :: t, by rw [hs, hg, ht, spelled_cons, List.append_assoc]⟩
        · rename_i hs
          split at h
          · cases h
          · rename_i hc
            obtain ⟨t, ht⟩ := ih h
            exact ⟨.plain b ⟨hq, hs, hc⟩ :: t, by rw [ht]; rfl⟩

/-! ## Reading a text -/

theorem escape_code (c : Code) (r : Bytes) :
    escape (ascii 'u' :: (c.bytes ++ r)) =
      if isLow c.value then failBehind .loneSurrogate r
      else if isHigh c.value then do
        let (m, r) ← lowHalf r
        if isLow m then
          return (Utf8.encodeCode ((c.value - 0xD800) * 1024 + (m - 0xDC00) + 0x10000), r)
        else failBehind .loneSurrogate r
      else .ok (Utf8.encodeCode c.value, r) := by
  rw [escape, shortEscape_u]
  simp only [if_true, codeEscape, hexEscape_code, Bind.bind, Except.bind]
  rfl

theorem lowHalf_code (d : Code) (r : Bytes) :
    lowHalf (ascii '\\' :: ascii 'u' :: (d.bytes ++ r)) = .ok (d.value, r) := by
  rw [lowHalf, if_pos rfl]
  exact (if_pos rfl).trans (hexEscape_code d r)

theorem lowHalf_fails (ht : ∀ d t', t ≠ .code d :: t') (rest : Bytes) :
    ∃ f, lowHalf (spelled t ++ ascii '"' :: rest) = .error f := by
  rcases t with _ | ⟨⟨b, hb⟩ | ⟨letter, b, hb⟩ | d, t⟩
  · exact ⟨_, rfl⟩
  · exact ⟨_, if_neg hb.2.1⟩
  · have hu : letter ≠ ascii 'u' := by
      rintro rfl
      rw [shortEscape_u] at hb
      cases hb
    exact ⟨_, by
      rw [spelled_cons, Glyph.bytes, List.append_assoc, List.cons_append, List.singleton_append,
        lowHalf, if_pos rfl]
      exact if_neg hu⟩
  · exact absurd rfl (ht d t)

theorem contentFrom_escape_fails {f : Fault} (he : escape r = .error f)
    (h : (ascii '\\' :: r).length < bound.length) :
    ∃ f, contentFrom bound seen (ascii '\\' :: r) = .error f := by
  cases bound with
  | nil => cases h
  | cons x bound =>
    rw [contentFrom, if_neg (by decide), if_pos rfl, he]
    exact ⟨f, rfl⟩

theorem yields_append {x : Option Bytes} {result : Except Fault (Bytes × Bytes)} (e : Bytes)
    (h : Yields (x.map ((e.reverse ++ seen).reverse ++ ·)) rest result) :
    Yields ((x.map (e ++ ·)).map (seen.reverse ++ ·)) rest result := by
  cases x with
  | none => exact h
  | some c => simpa using h

theorem yields_escape {e p : Bytes} {x : Option Bytes} (he : escape (p ++ r) = .ok (e, r))
    (h : (ascii '\\' :: (p ++ r)).length < bound.length)
    (ih : ∀ {bound seen}, r.length < bound.length →
      Yields (x.map (seen.reverse ++ ·)) rest (contentFrom bound seen r)) :
    Yields ((x.map (e ++ ·)).map (seen.reverse ++ ·)) rest
      (contentFrom bound seen (ascii '\\' :: (p ++ r))) := by
  refine yields_append e ?_
  rw [contentFrom_escape he h]
  refine ih ?_
  rw [List.length_cons, List.length_append] at h
  rw [List.length_drop]
  omega

theorem contentFrom_spelled (t : List Glyph)
    (h : (spelled t ++ ascii '"' :: rest).length < bound.length) :
    Yields ((unescaped t).map (seen.reverse ++ ·)) rest
      (contentFrom bound seen (spelled t ++ ascii '"' :: rest)) := by
  fun_induction unescaped t generalizing bound seen with
  | case1 =>
    cases bound with
    | nil => cases h
    | cons x bound => simp [Yields, contentFrom]
  | case2 b hb t ih =>
    have hplain : ∀ c ∈ [b], Plain c := by simpa using hb
    rw [spelled_cons, List.append_assoc, Glyph.bytes] at h ⊢
    refine yields_append [b] ?_
    rw [contentFrom_plain hplain h]
    refine ih ?_
    rw [List.length_append] at h
    rw [List.length_drop]
    omega
  | case3 letter b hb t ih =>
    rw [spelled_cons, List.append_assoc, Glyph.bytes] at h ⊢
    have he : ∀ r, escape ([letter] ++ r) = .ok ([b], r) := by
      intro r
      rw [List.singleton_append, escape, hb]
    exact yields_escape (he _) h ih
  | case4 c t hlow =>
    rw [spelled_cons, List.append_assoc, Glyph.bytes] at h ⊢
    have he : ∀ r, escape (ascii 'u' :: (c.bytes ++ r)) = failBehind .loneSurrogate r := by
      intro r
      rw [escape_code, if_pos hlow]
    exact contentFrom_escape_fails (he _) h
  | case5 c hlow hhigh d t hd ih =>
    let p := ascii 'u' :: (c.bytes ++ ascii '\\' :: ascii 'u' :: d.bytes)
    have he : ∀ r, escape (p ++ r) = .ok (Utf8.encodeCode
        ((c.value - 0xD800) * 1024 + (d.value - 0xDC00) + 0x10000), r) := by
      intro r
      rw [List.cons_append, List.append_assoc, List.cons_append, List.cons_append, escape_code,
        if_neg hlow, if_pos hhigh, lowHalf_code]
      exact if_pos hd
    have hp : spelled (.code c :: .code d :: t) ++ ascii '"' :: rest =
        ascii '\\' :: (p ++ (spelled t ++ ascii '"' :: rest)) := by
      simp [p, Glyph.bytes]
    rw [hp] at h ⊢
    exact yields_escape (he _) h ih
  | case6 c hlow hhigh d t hd =>
    rw [spelled_cons, spelled_cons, List.append_assoc, List.append_assoc, Glyph.bytes,
      Glyph.bytes] at h ⊢
    have he : ∀ r, escape (ascii 'u' :: (c.bytes ++
        ascii '\\' :: ascii 'u' :: (d.bytes ++ r))) = failBehind .loneSurrogate r := by
      intro r
      rw [escape_code, if_neg hlow, if_pos hhigh, lowHalf_code]
      exact if_neg hd
    exact contentFrom_escape_fails (he _) h
  | case7 c t hlow hhigh ht =>
    rw [spelled_cons, List.append_assoc, Glyph.bytes] at h ⊢
    obtain ⟨f, hf⟩ := lowHalf_fails ht rest
    have he : escape (ascii 'u' :: (c.bytes ++ (spelled t ++ ascii '"' :: rest))) = .error f := by
      rw [escape_code, if_neg hlow, if_pos hhigh, hf]
      rfl
    exact contentFrom_escape_fails he h
  | case8 c t hlow hhigh ih =>
    rw [spelled_cons, List.append_assoc, Glyph.bytes] at h ⊢
    have he : ∀ r, escape ((ascii 'u' :: c.bytes) ++ r) =
        .ok (Utf8.encodeCode c.value, r) := by
      intro r
      rw [List.cons_append, escape_code, if_neg hlow, if_neg hhigh]
    exact yields_escape (he _) h ih

theorem readText_spelled (t : List Glyph) (rest : Bytes) :
    Yields (meant t) rest (readText (spelled t ++ ascii '"' :: rest)) := by
  have hc : Yields ((unescaped t).map (([] : Bytes).reverse ++ ·)) rest
      (content (spelled t ++ ascii '"' :: rest)) := contentFrom_spelled t (Nat.lt_succ_self _)
  rw [readText, meant]
  cases hu : unescaped t with
  | none =>
    rw [hu] at hc
    obtain ⟨f, hf⟩ := hc
    rw [hf]
    exact ⟨f, rfl⟩
  | some c =>
    rw [hu] at hc
    have hok : content (spelled t ++ ascii '"' :: rest) = .ok (c, rest) := hc
    rw [hok, Option.bind_some]
    simp only [Bind.bind, Except.bind]
    cases Utf8.decode c with
    | none => exact ⟨_, rfl⟩
    | some s => exact rfl

theorem exists_code_of_lowHalf {n : Nat} (h : lowHalf bs = .ok (n, r)) :
    ∃ d : Code, bs = (Glyph.code d).bytes ++ r := by
  rcases bs with _ | ⟨b, _ | ⟨c, bs⟩⟩
  · cases h
  · rw [lowHalf] at h
    split at h <;> cases h
  · rw [lowHalf] at h
    split at h
    · rename_i hb
      split at h
      · rename_i hc
        obtain ⟨d, hd⟩ := exists_code h
        exact ⟨d, by rw [hb, hc, hd]; rfl⟩
      · cases h
    · cases h

theorem exists_glyphs_of_escape {e : Bytes} (h : escape bs = .ok (e, r)) :
    ∃ t, ascii '\\' :: bs = spelled t ++ r := by
  cases bs with
  | nil => cases h
  | cons b bs =>
    rw [escape] at h
    split at h
    · rename_i c hc
      cases h
      exact ⟨[.short b c hc], rfl⟩
    · split at h
      · rename_i hu
        rw [codeEscape] at h
        obtain ⟨⟨n, s⟩, hx, hn⟩ := exists_of_bind h
        obtain ⟨c, hc⟩ := exists_code hx
        dsimp only at hn
        split at hn
        · cases hn
        · split at hn
          · obtain ⟨⟨m, s'⟩, hl, hm⟩ := exists_of_bind hn
            obtain ⟨d, hd⟩ := exists_code_of_lowHalf hl
            dsimp only at hm
            split at hm
            · obtain rfl : s' = r := congrArg Prod.snd (Except.ok.inj hm)
              exact ⟨[.code c, .code d], by simp [hu, hc, hd, Glyph.bytes]⟩
            · cases hm
          · cases hn
            exact ⟨[.code c], by simp [hu, hc, Glyph.bytes]⟩
      · cases h

theorem exists_spelling_of_content {c : Bytes} (h : contentFrom bound seen bs = .ok (c, r)) :
    ∃ t, bs = spelled t ++ ascii '"' :: r := by
  induction bound generalizing seen bs with
  | nil => cases h
  | cons x bound ih =>
    cases bs with
    | nil => cases h
    | cons b bs =>
      rw [contentFrom] at h
      split at h
      · rename_i hq
        cases h
        exact ⟨[], by rw [hq]; rfl⟩
      · rename_i hq
        split at h
        · rename_i hs
          obtain ⟨p, hx, hp⟩ := exists_of_bind h
          obtain ⟨g, hg⟩ := exists_glyphs_of_escape hx
          obtain ⟨t, ht⟩ := ih hp
          exact ⟨g ++ t, by rw [hs, hg, ht, spelled, spelled, spelled, List.flatMap_append,
            List.append_assoc]⟩
        · rename_i hs
          split at h
          · cases h
          · rename_i hc
            obtain ⟨t, ht⟩ := ih h
            exact ⟨.plain b ⟨hq, hs, hc⟩ :: t, by rw [ht]; rfl⟩

theorem exists_spelling {x : String} (h : readText bs = .ok (x, r)) :
    ∃ t, bs = spelled t ++ ascii '"' :: r := by
  rw [readText] at h
  obtain ⟨⟨c, s⟩, hc, hd⟩ := exists_of_bind h
  dsimp only at hd
  split at hd
  · cases hd
    exact exists_spelling_of_content hc
  · cases hd

/-! ## A spelling for every text -/

def Hex.ofNat (n : Nat) : Hex := ⟨ascii (hexDigit n), n % 16, hexValue_hexDigit n⟩

def Code.ofByte (b : UInt8) : Code :=
  ⟨.ofNat 0, .ofNat 0, .ofNat (b.toNat / 16), .ofNat b.toNat⟩

instance : DecidablePred Plain := fun b => inferInstanceAs (Decidable (_ ∧ _ ∧ ¬b < 0x20))

def Glyph.ofByte (b : UInt8) : Glyph := if h : Plain b then .plain b h else .code (.ofByte b)

/-- A spelling that escapes what has to be escaped. -/
def spell (s : String) : List Glyph := (Utf8.encode s).map Glyph.ofByte

theorem value_ofByte (b : UInt8) : (Code.ofByte b).value = b.toNat := by
  have hb := b.toNat_lt
  simp only [Code.ofByte, Code.value, Hex.ofNat]
  omega

theorem toNat_of_not_plain {b : UInt8} (h : ¬Plain b) : b.toNat < 0x80 := by
  by_contra hb
  have hne : ∀ {c : UInt8}, c.toNat < 0x80 → b ≠ c := by
    rintro c hc rfl
    exact hb hc
  refine h ⟨hne (by decide), hne (by decide), fun hlt => ?_⟩
  have hlt : b.toNat < 0x20 := UInt8.lt_iff_toNat_lt.1 hlt
  omega

theorem unescaped_ofByte (b : UInt8) (t : List Glyph) :
    unescaped (.ofByte b :: t) = (unescaped t).map (b :: ·) := by
  rw [Glyph.ofByte]
  split
  · rfl
  · rename_i h
    have hb := toNat_of_not_plain h
    have hlow : ¬isLow b.toNat = true := by
      simp only [isLow, Bool.and_eq_true, decide_eq_true_eq]
      omega
    have hhigh : ¬isHigh b.toNat = true := by
      simp only [isHigh, Bool.and_eq_true, decide_eq_true_eq]
      omega
    have hcode : Utf8.encodeCode b.toNat = [b] := by
      rw [Utf8.encodeCode, if_pos hb, UInt8.ofNat_toNat]
    rw [unescaped.eq_def]
    simp only [value_ofByte, if_neg hlow, if_neg hhigh, hcode]
    rfl

theorem meant_spell (s : String) : meant (spell s) = some s := by
  have hbytes : ∀ bs : Bytes, unescaped (bs.map Glyph.ofByte) = some bs := by
    intro bs
    induction bs with
    | nil => rfl
    | cons b bs ih => rw [List.map_cons, unescaped_ofByte, ih, Option.map_some]
  rw [meant, spell, hbytes, Option.bind_some, Utf8.decode_encode]

end OrderLookup.Wire
