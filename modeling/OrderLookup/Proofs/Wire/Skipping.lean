import OrderLookup.Proofs.Wire.Figures

/-!
A value that nobody wants to know is passed over whatever it is, and nothing else is: the bytes
that are passed over lay out the tokens of a value. The brackets that are still open say which
tokens must follow.
-/

namespace OrderLookup.Wire

variable {α β : Type} {bound bs r s rest : Bytes} {b x : UInt8} {t : Token} {ts cs : List Token}
  {first fresh : Bool} {top : Bracket} {opened outer : List Bracket} {n : Nesting}

theorem exists_of_map {p : Except Fault α} {f : α → β} {c : β} (h : p.map f = .ok c) :
    ∃ a, p = .ok a ∧ f a = c := by
  cases p with
  | error e => cases h
  | ok a => exact ⟨a, rfl, Except.ok.inj h⟩

theorem eq_of_word {cs : List Char} (h : word cs bs = .ok ((), r)) : bs = cs.map ascii ++ r := by
  induction cs generalizing bs with
  | nil =>
    cases h
    rfl
  | cons c cs ih =>
    cases bs with
    | nil => cases h
    | cons b bs =>
      rw [word] at h
      split at h
      · rename_i hb
        rw [hb, ih h]
        rfl
      · cases h

theorem colon_layout (h : Layout (.mark .colon :: ts) bs) :
    ∃ r, colon bs = .ok ((), r) ∧ Layout ts r ∧ r.length < bs.length := by
  obtain ⟨r, hr, hts, hlt⟩ := h.skipSpace_cons
  exact ⟨r, by rw [colon, hr]; rfl, hts, hlt⟩

theorem passes_colon (h : colon bs = .ok ((), r)) : Passes [.mark .colon] bs r := by
  rw [colon] at h
  split at h
  · cases h
  · rename_i b s hs
    split at h
    · rename_i hb
      cases h
      exact .mark .colon hs hb
    · cases h

/-! ## Every value is passed over -/

/-- Whether a value is passed over, whatever is open around it and whatever stands behind it. -/
def Skipped (v : Value) : Prop :=
  ∀ opened bound {ts bs}, Closed ts → Layout (v.tokens ++ ts) bs → bs.length ≤ bound.length + 1 →
    ∃ r bound', Layout ts r ∧ r.length < bs.length ∧ r.length ≤ bound'.length ∧
      (enterValue opened bs >>= fun p => skipFrom bound p.1 p.2) =
        skipFrom bound' ⟨false, opened⟩ r

theorem closed_nil : Closed [] := fun _ ht => nomatch ht

theorem closed_mark (m : Mark) (ts : List Token) : Closed (.mark m :: ts) := by
  intro t ht
  cases ht
  exact ⟨m, rfl⟩

theorem closed_elements (es : List Value) (m : Mark) (ts : List Token) :
    Closed (Value.elementTokens false es ++ .mark m :: ts) := by
  cases es with
  | nil => exact closed_mark m ts
  | cons e es => exact closed_mark .comma _

theorem closed_members (ms : List (List Glyph × Value)) (m : Mark) (ts : List Token) :
    Closed (Value.memberTokens false ms ++ .mark m :: ts) := by
  cases ms with
  | nil => exact closed_mark m ts
  | cons e ms => exact closed_mark .comma _

theorem skipped_scalar {v : Value} (hv : v.tokens = [t])
    (h : ∀ {opened bs r}, Cut r → skipSpace bs = t.bytes ++ r →
      enterValue opened bs = .ok (⟨false, opened⟩, r)) : Skipped v := by
  intro opened bound ts bs hts hbs hbound
  rw [hv, List.singleton_append] at hbs
  obtain ⟨r, hr, htr, hlt⟩ := hbs.skipSpace_cons
  exact ⟨r, bound, htr, hlt, by omega, by rw [h (htr.cut hts) hr]; rfl⟩

theorem skipFrom_close (top : Bracket) (hs : skipSpace bs = top.closer :: r) :
    skipFrom (x :: bound) ⟨fresh, top :: outer⟩ bs = skipFrom bound ⟨false, outer⟩ r := by
  rw [skipFrom, hs]
  exact if_pos rfl

theorem skipFrom_next (x : UInt8) (bound : List UInt8) (top : Bracket) (outer : List Bracket)
    (h : Layout (separator first ++ ts) bs)
    (hopen : ∀ s, Layout ts s → ∃ b r, skipSpace s = b :: r ∧ b ≠ top.closer) :
    ∃ s, Layout ts s ∧ s.length ≤ bs.length ∧
      skipFrom (x :: bound) ⟨first, top :: outer⟩ bs =
        enterMember top outer s >>= fun p => skipFrom bound p.1 p.2 := by
  cases first with
  | true =>
    obtain ⟨b, r, hs, hb⟩ := hopen bs h
    refine ⟨b :: r, hs ▸ h.skip, hs ▸ length_skipSpace_le bs, ?_⟩
    rw [skipFrom, hs]
    exact (if_neg hb).trans (if_pos rfl)
  | false =>
    obtain ⟨r, hs, hts, hlt⟩ := h.skipSpace_cons
    refine ⟨r, hts, hlt.le, ?_⟩
    have hb : Mark.comma.byte ≠ top.closer := by cases top <;> decide
    rw [skipFrom, hs]
    exact (if_neg hb).trans ((if_neg Bool.false_ne_true).trans (if_pos rfl))

theorem value_opens {v : Value} (h : Layout (v.tokens ++ ts) bs) (hb : kindOf x = none) :
    ∃ b r, skipSpace bs = b :: r ∧ b ≠ x := by
  obtain ⟨b, r, hs, hkind⟩ := h.value
  refine ⟨b, r, hs, ?_⟩
  rintro rfl
  rw [hb] at hkind
  cases hkind

theorem length_pos_of_layout (h : Layout ts bs) (hts : ts ≠ []) : 0 < bs.length := by
  cases ts with
  | nil => exact absurd rfl hts
  | cons t ts =>
    obtain ⟨r, -, -, hlt⟩ := h.skipSpace_cons
    omega

theorem skipFrom_elements (outer : List Bracket) {es : List Value} (hes : ∀ e ∈ es, Skipped e)
    (h : Layout (Value.elementTokens first es ++ .mark .closeList :: ts) bs)
    (hbound : bs.length ≤ bound.length) :
    ∃ r bound', Layout ts r ∧ r.length < bs.length ∧ r.length ≤ bound'.length ∧
      skipFrom bound ⟨first, .square :: outer⟩ bs = skipFrom bound' ⟨false, outer⟩ r := by
  induction es generalizing first bs bound with
  | nil =>
    obtain ⟨r, hs, hr, hlt⟩ := h.skipSpace_cons
    obtain ⟨x, bound, rfl⟩ := List.exists_cons_of_length_pos (by omega : 0 < bound.length)
    simp only [List.length_cons] at hbound
    exact ⟨r, bound, hr, hlt, by omega, skipFrom_close .square hs⟩
  | cons e es ih =>
    obtain ⟨he, hes⟩ := List.forall_mem_cons.1 hes
    have hpos := length_pos_of_layout h (by simp)
    obtain ⟨x, bound, rfl⟩ := List.exists_cons_of_length_pos (by omega : 0 < bound.length)
    rw [Value.elementTokens, List.append_assoc, List.append_assoc] at h
    obtain ⟨s, hs, hle, heq⟩ := skipFrom_next x bound .square outer h fun s hs =>
      value_opens hs (by decide)
    simp only [List.length_cons] at hbound
    obtain ⟨r, bound', hr, hlt, hb, hskip⟩ :=
      he (.square :: outer) bound (closed_elements es .closeList ts) hs (by omega)
    obtain ⟨r', bound'', hr', hlt', hb', hrest⟩ := ih hes hr hb
    exact ⟨r', bound'', hr', by omega, hb', heq.trans (hskip.trans hrest)⟩

theorem skipKey_layout {k : List Glyph} (h : Layout (.text k :: .mark .colon :: ts) bs) :
    ∃ r, skipKey bs = .ok ((), r) ∧ Layout ts r ∧ r.length < bs.length := by
  obtain ⟨r, hs, hr, hlt⟩ := h.skipSpace_cons
  obtain ⟨s, hcolon, hts, hlt'⟩ := colon_layout hr
  refine ⟨s, ?_, hts, by omega⟩
  rw [Token.text_append] at hs
  rw [skipKey, hs]
  simp only [if_true, skipText_spelled, Bind.bind, Except.bind]
  exact hcolon

theorem skipFrom_members (outer : List Bracket) {ms : List (List Glyph × Value)}
    (hms : ∀ m ∈ ms, Skipped m.2)
    (h : Layout (Value.memberTokens first ms ++ .mark .closeObject :: ts) bs)
    (hbound : bs.length ≤ bound.length) :
    ∃ r bound', Layout ts r ∧ r.length < bs.length ∧ r.length ≤ bound'.length ∧
      skipFrom bound ⟨first, .curly :: outer⟩ bs = skipFrom bound' ⟨false, outer⟩ r := by
  induction ms generalizing first bs bound with
  | nil =>
    obtain ⟨r, hs, hr, hlt⟩ := h.skipSpace_cons
    obtain ⟨x, bound, rfl⟩ := List.exists_cons_of_length_pos (by omega : 0 < bound.length)
    simp only [List.length_cons] at hbound
    exact ⟨r, bound, hr, hlt, by omega, skipFrom_close .curly hs⟩
  | cons m ms ih =>
    obtain ⟨k, v⟩ := m
    obtain ⟨hv, hms⟩ := List.forall_mem_cons.1 hms
    have hpos := length_pos_of_layout h (by simp)
    obtain ⟨x, bound, rfl⟩ := List.exists_cons_of_length_pos (by omega : 0 < bound.length)
    simp only [Value.memberTokens, List.append_assoc, List.cons_append] at h
    obtain ⟨s, hs, hle, heq⟩ := skipFrom_next x bound .curly outer h fun s hs => by
        obtain ⟨r, hr, -⟩ := hs.skipSpace_cons
        exact ⟨_, _, hr, by decide⟩
    obtain ⟨q, hkey, hq, hlt⟩ := skipKey_layout hs
    simp only [List.length_cons] at hbound
    obtain ⟨r, bound', hr, hlt', hb, hskip⟩ :=
      hv (.curly :: outer) bound (closed_members ms .closeObject ts) hq (by omega)
    obtain ⟨r', bound'', hr', hlt'', hb', hrest⟩ := ih hms hr hb
    refine ⟨r', bound'', hr', by omega, hb', heq.trans (Eq.trans ?_ (hskip.trans hrest))⟩
    rw [enterMember, hkey]
    rfl

theorem enterValue_figure {n : Figure} (h : Cut r) (hs : skipSpace bs = n.bytes ++ r) :
    enterValue opened bs = .ok (⟨false, opened⟩, r) := by
  have hskip := skipMagnitude_figure n h
  rw [Figure.bytes, Figure.sign, List.append_assoc, List.append_assoc] at hs
  cases hn : n.negative with
  | true =>
    rw [hn] at hs
    rw [enterValue, hs]
    exact congrArg (Except.map fun q => ((⟨false, opened⟩ : Nesting), q.2)) hskip
  | false =>
    obtain ⟨b, s, hb, hd⟩ := n.whole.opens
    have hne : ∀ {c : UInt8}, isDigitByte c = false → b ≠ c := by
      rintro c hc rfl
      rw [hd] at hc
      cases hc
    rw [hn, hb] at hs
    rw [hb] at hskip
    rw [enterValue, hs]
    refine (if_neg (hne (by decide))).trans <| (if_neg (hne (by decide))).trans <|
      (if_neg (hne (by decide))).trans <| (if_neg (hne (by decide))).trans <|
      (if_neg (hne (by decide))).trans <| (if_neg (hne (by decide))).trans <|
      (if_neg (hne (by decide))).trans <| (if_pos hd).trans ?_
    exact congrArg (Except.map fun q => ((⟨false, opened⟩ : Nesting), q.2)) hskip

theorem skipped (v : Value) : Skipped v := by
  induction v using Value.induction with
  | null =>
    refine skipped_scalar rfl fun {opened bs r} _ hs => ?_
    rw [enterValue, hs]
    rfl
  | bool b =>
    refine skipped_scalar rfl fun {opened bs r} _ hs => ?_
    cases b <;> (rw [enterValue, hs]; rfl)
  | number n =>
    refine skipped_scalar rfl fun {opened bs r} hcut hs => ?_
    exact enterValue_figure hcut hs
  | text t =>
    refine skipped_scalar rfl fun {opened bs r} _ hs => ?_
    rw [Token.text_append] at hs
    rw [enterValue, hs]
    simp only [skipText_spelled]
    rfl
  | array es ih =>
    intro opened bound ts bs _ hbs hbound
    obtain ⟨r, hs, hr, hlt⟩ := hbs.array
    obtain ⟨r', bound', hr', hlt', hb, hskip⟩ :=
      skipFrom_elements opened ih hr (by omega : r.length ≤ bound.length)
    refine ⟨r', bound', hr', by omega, hb, Eq.trans ?_ hskip⟩
    rw [enterValue, hs]
    rfl
  | object ms ih =>
    intro opened bound ts bs _ hbs hbound
    obtain ⟨r, hs, hr, hlt⟩ := hbs.object
    obtain ⟨r', bound', hr', hlt', hb, hskip⟩ :=
      skipFrom_members opened ih hr (by omega : r.length ≤ bound.length)
    refine ⟨r', bound', hr', by omega, hb, Eq.trans ?_ hskip⟩
    rw [enterValue, hs]
    rfl

theorem skipValue_layout {v : Value} (hts : Closed ts) (h : Layout (v.tokens ++ ts) bs) :
    ∃ r, skipValue bs = .ok ((), r) ∧ Layout ts r ∧ r.length < bs.length := by
  obtain ⟨r, bound, hr, hlt, -, hskip⟩ := skipped v [] bs hts h (Nat.le_succ _)
  refine ⟨r, hskip.trans ?_, hr, hlt⟩
  cases bound <;> rfl

/-! ## Nothing but values is passed over -/

/-- The tokens that must follow where some brackets are open: the elements or members that are
left in each bracket, and the mark that closes it. -/
inductive Completes : Bool → List Bracket → List Token → Prop
  | nil {fresh : Bool} : Completes fresh [] []
  | square {fresh : Bool} {outer : List Bracket} {cs : List Token} (es : List Value) :
    Completes false outer cs →
    Completes fresh (.square :: outer) (Value.elementTokens fresh es ++ .mark .closeList :: cs)
  | curly {fresh : Bool} {outer : List Bracket} {cs : List Token}
    (ms : List (List Glyph × Value)) : Completes false outer cs →
    Completes fresh (.curly :: outer) (Value.memberTokens fresh ms ++ .mark .closeObject :: cs)

theorem enterValue_cases (h : enterValue opened bs = .ok (n, r)) :
    (n = ⟨false, opened⟩ ∧ ∃ v : Value, Passes v.tokens bs r) ∨
    (n = ⟨true, .square :: opened⟩ ∧ Passes [.mark .openList] bs r) ∨
    (n = ⟨true, .curly :: opened⟩ ∧ Passes [.mark .openObject] bs r) := by
  have hscalar : ∀ {p : Except Fault (Unit × Bytes)},
      p.map (fun q => ((⟨false, opened⟩ : Nesting), q.2)) = .ok (n, r) →
      n = ⟨false, opened⟩ ∧ p = .ok ((), r) := by
    intro p hp
    obtain ⟨a, ha, he⟩ := exists_of_map hp
    cases he
    exact ⟨rfl, ha⟩
  -- One first byte after another is ruled out; what is left begins a number.
  rw [enterValue] at h
  split at h
  · cases h
  rename_i b s hs
  split at h
  · rename_i hb
    cases h
    exact .inr (.inl ⟨rfl, .mark .openList hs hb⟩)
  split at h
  · rename_i hb
    cases h
    exact .inr (.inr ⟨rfl, .mark .openObject hs hb⟩)
  left
  split at h
  · rename_i hb
    obtain ⟨rfl, hp⟩ := hscalar h
    obtain ⟨t, ht⟩ := exists_spelling_of_skip hp
    exact ⟨rfl, .text t, .text hs hb ht⟩
  split at h
  · rename_i hb
    obtain ⟨rfl, hp⟩ := hscalar h
    exact ⟨rfl, .null, Passes.token (by rw [hs, hb, eq_of_word hp]; rfl)⟩
  split at h
  · rename_i hb
    obtain ⟨rfl, hp⟩ := hscalar h
    exact ⟨rfl, .bool true, Passes.token (by rw [hs, hb, eq_of_word hp]; rfl)⟩
  split at h
  · rename_i hb
    obtain ⟨rfl, hp⟩ := hscalar h
    exact ⟨rfl, .bool false, Passes.token (by rw [hs, hb, eq_of_word hp]; rfl)⟩
  split at h
  · rename_i hb
    obtain ⟨rfl, hp⟩ := hscalar h
    obtain ⟨n, hn, ht⟩ := exists_figure true hp
    refine ⟨rfl, .number n, Passes.token ?_⟩
    rw [hs, hb, ht, Token.bytes, Figure.bytes, Figure.sign, hn]
    simp
  split at h
  · obtain ⟨rfl, hp⟩ := hscalar h
    obtain ⟨n, hn, ht⟩ := exists_figure false hp
    refine ⟨rfl, .number n, Passes.token ?_⟩
    rw [hs, ht, Token.bytes, Figure.bytes, Figure.sign, hn]
    simp
  · cases h

theorem exists_value (h : enterValue opened bs = .ok (n, r))
    (hcs : Completes n.fresh n.brackets cs) (hr : Passes cs r rest) :
    ∃ (v : Value) (ds : List Token), Completes false opened ds ∧
      Passes (v.tokens ++ ds) bs rest := by
  rcases enterValue_cases h with ⟨rfl, v, hv⟩ | ⟨rfl, hv⟩ | ⟨rfl, hv⟩
  · exact ⟨v, cs, hcs, hv.trans hr⟩
  · cases hcs with
    | square es hds =>
      refine ⟨.array es, _, hds, ?_⟩
      simpa [Value.tokens] using hv.trans hr
  · cases hcs with
    | curly ms hds =>
      refine ⟨.object ms, _, hds, ?_⟩
      simpa [Value.tokens] using hv.trans hr

theorem exists_key (h : skipKey bs = .ok ((), r)) :
    ∃ k, Passes [.text k, .mark .colon] bs r := by
  rw [skipKey] at h
  split at h
  · cases h
  rename_i b s hs
  split at h
  · rename_i hb
    obtain ⟨p, hp, hcolon⟩ := exists_of_bind h
    obtain ⟨k, hk⟩ := exists_spelling_of_skip hp
    exact ⟨k, (Passes.text hs hb hk).trans (passes_colon hcolon)⟩
  · cases h

theorem exists_member (h : enterMember top outer bs = .ok (n, r))
    (hcs : Completes n.fresh n.brackets cs) (hr : Passes cs r rest)
    (hsep : Passes (separator fresh) s bs) :
    ∃ ds, Completes fresh (top :: outer) ds ∧ Passes ds s rest := by
  cases top with
  | square =>
    obtain ⟨v, ds, hds, hv⟩ := exists_value h hcs hr
    cases hds with
    | square es hds =>
      refine ⟨_, .square (v :: es) hds, ?_⟩
      simpa [Value.elementTokens] using hsep.trans hv
  | curly =>
    obtain ⟨p, hkey, h⟩ := exists_of_bind h
    obtain ⟨k, hk⟩ := exists_key hkey
    obtain ⟨v, ds, hds, hv⟩ := exists_value h hcs hr
    cases hds with
    | curly ms hds =>
      refine ⟨_, .curly ((k, v) :: ms) hds, ?_⟩
      simpa [Value.memberTokens] using hsep.trans (hk.trans hv)

theorem exists_completion {stack : List Bracket}
    (h : skipFrom bound ⟨fresh, stack⟩ bs = .ok ((), r)) :
    ∃ cs, Completes fresh stack cs ∧ Passes cs bs r := by
  induction bound generalizing fresh stack bs with
  | nil =>
    cases stack with
    | nil =>
      cases h
      exact ⟨[], .nil, fun ts hts => hts⟩
    | cons top outer => cases h
  | cons x bound ih =>
    cases stack with
    | nil =>
      cases h
      exact ⟨[], .nil, fun ts hts => hts⟩
    | cons top outer =>
      rw [skipFrom] at h
      split at h
      · cases h
      rename_i b s hs
      split at h
      · rename_i hb
        obtain ⟨cs, hcs, hr⟩ := ih h
        cases top with
        | square => exact ⟨_, .square [] hcs, (Passes.mark .closeList hs hb).trans hr⟩
        | curly => exact ⟨_, .curly [] hcs, (Passes.mark .closeObject hs hb).trans hr⟩
      split at h
      · rename_i hfresh
        obtain ⟨⟨n, s'⟩, hmember, hskip⟩ := exists_of_bind h
        obtain ⟨cs, hcs, hr⟩ := ih hskip
        subst hfresh
        exact exists_member hmember hcs hr (hs ▸ Passes.skipSpace bs)
      · rename_i hfresh
        split at h
        · rename_i hb
          obtain ⟨⟨n, s'⟩, hmember, hskip⟩ := exists_of_bind h
          obtain ⟨cs, hcs, hr⟩ := ih hskip
          obtain rfl : fresh = false := by simpa using hfresh
          exact exists_member hmember hcs hr (.mark .comma hs hb)
        · cases h

theorem exists_skipped (h : skipValue bs = .ok ((), r)) : ∃ v : Value, Passes v.tokens bs r := by
  obtain ⟨⟨n, s⟩, hn, hskip⟩ := exists_of_bind h
  obtain ⟨cs, hcs, hr⟩ := exists_completion hskip
  obtain ⟨v, ds, hds, hv⟩ := exists_value hn hcs hr
  cases hds with
  | nil => exact ⟨v, by simpa using hv⟩

end OrderLookup.Wire
