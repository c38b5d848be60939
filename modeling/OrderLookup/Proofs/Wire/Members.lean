import OrderLookup.Proofs.Wire.Meaning

/-!
What a value means to a record. The members of an object are taken by name, in whatever order they
come, and the elements of a list by their place. A record whose fields have faithful shapes has one
itself.
-/

namespace OrderLookup.Wire

variable {ρ : Type} {bound bs r : Bytes} {ts : List Token} {v : Value} {first : Bool}
  {fields : List (Component ρ)} {kind : String} {blank rec : ρ} {seen : List String}

def membersMeaning (fields : List (Component ρ)) (seen : List String) (rec : ρ) :
    List (List Glyph × Value) → Option ρ
  | [] => some rec
  | (k, v) :: ms =>
    (meant k).bind fun key =>
      match fields.find? fun f => f.name == key with
      | some f =>
        if seen.contains key then none
        else (f.shape.meaning v).bind fun a =>
          membersMeaning fields (key :: seen) (f.set a rec) ms
      | none => membersMeaning fields seen rec ms

/-- Setting the fields in their order, as far as there are elements. -/
def positionsMeaning (rec : ρ) : List (Component ρ) → List Value → Option ρ
  | _, [] => some rec
  | [], _ :: _ => none
  | f :: fields, e :: es =>
    (f.shape.meaning e).bind fun a => positionsMeaning (f.set a rec) fields es

def Value.record? (fields : List (Component ρ)) (blank : ρ) : Value → Option ρ
  | .object ms => membersMeaning fields [] blank ms
  | .array es => positionsMeaning blank fields es
  | _ => none

/-! ## Members of an object -/

theorem nextMember_close (first : Bool) (h : Layout (.mark .closeObject :: ts) bs) :
    ∃ r, nextMember first bs = .ok (false, ascii '\x7d' :: r) ∧ Layout ts r ∧
      r.length < bs.length := by
  obtain ⟨r, hs, hr, hlt⟩ := h.skipSpace_cons
  exact ⟨r, by rw [nextMember, hs]; rfl, hr, hlt⟩

theorem nextMember_key {k : List Glyph} (h : Layout (separator first ++ .text k :: ts) bs) :
    ∃ r, nextMember first bs = .ok (true, spelled k ++ ascii '"' :: r) ∧ Layout ts r ∧
      r.length < bs.length := by
  cases first with
  | true =>
    obtain ⟨r, hs, hr, hlt⟩ := h.skipSpace_cons
    rw [Token.text_append] at hs
    exact ⟨r, by rw [nextMember, hs]; rfl, hr, hlt⟩
  | false =>
    obtain ⟨q, hs, hq, hlt⟩ := h.skipSpace_cons
    obtain ⟨r, hs', hr, hlt'⟩ := hq.skipSpace_cons
    rw [Token.text_append] at hs'
    refine ⟨r, ?_, hr, by omega⟩
    rw [nextMember, hs]
    simp only [Token.bytes, List.singleton_append, hs']
    rfl

theorem passes_nextMember {more : Bool} {q : Bytes} (h : nextMember first bs = .ok (more, q)) :
    if more then ∀ {k r}, q = spelled k ++ ascii '"' :: r →
      Passes (separator first ++ [.text k]) bs r
    else ∃ s, q = ascii '\x7d' :: s ∧ Passes [.mark .closeObject] bs s := by
  rw [nextMember] at h
  split at h
  · cases h
  rename_i b s hs
  split at h
  · rename_i hb
    cases h
    exact ⟨s, by rw [hb], .mark .closeObject hs hb⟩
  split at h
  · rename_i hfirst
    subst hfirst
    split at h
    · rename_i hb
      cases h
      exact fun hk => .text hs hb hk
    · cases h
  rename_i hfirst
  obtain rfl : first = false := by simpa using hfirst
  split at h
  · rename_i hb
    split at h
    · cases h
    rename_i c t ht
    split at h
    · rename_i hc
      cases h
      exact fun hk => (Passes.mark .comma hs hb).trans (.text ht hc hk)
    · split at h <;> cases h
  · cases h

theorem membersFrom_agrees (hf : ∀ f ∈ fields, f.shape.Faithful) (seen : List String) (rec : ρ)
    {ms : List (List Glyph × Value)}
    (h : Layout (Value.memberTokens first ms ++ .mark .closeObject :: ts) bs)
    (hbound : bs.length ≤ bound.length) :
    Agrees (membersMeaning fields seen rec ms) ts bs
      (membersFrom fields bound first seen rec bs) := by
  induction ms generalizing first bs bound seen rec with
  | nil =>
    obtain ⟨r, hnext, hr, hlt⟩ := nextMember_close first h
    obtain ⟨x, bound, rfl⟩ := List.exists_cons_of_length_pos (by omega : 0 < bound.length)
    exact ⟨r, by rw [membersFrom, hnext]; rfl, hr, hlt⟩
  | cons m ms ih =>
    obtain ⟨k, v⟩ := m
    have hpos := length_pos_of_layout h (by simp)
    obtain ⟨x, bound, rfl⟩ := List.exists_cons_of_length_pos (by omega : 0 < bound.length)
    simp only [List.length_cons] at hbound
    simp only [Value.memberTokens, List.append_assoc, List.cons_append] at h
    obtain ⟨q, hnext, hq, hlt⟩ := nextMember_key h
    rw [membersFrom, hnext, membersMeaning]
    have hkey : Agrees (meant k) (.mark .colon :: (v.tokens ++
        (Value.memberTokens false ms ++ .mark .closeObject :: ts))) bs
        (readText (spelled k ++ ascii '"' :: q)) := (readText_spelled k q).agrees hq hlt
    refine hkey.bind fun key r _ hr hlt => ?_
    obtain ⟨r', hcolon, hr', hlt'⟩ := colon_layout hr
    have hclosed := closed_members ms .closeObject ts
    cases hfind : fields.find? fun f => f.name == key with
    | none =>
      obtain ⟨s, hskip, hs, hlt''⟩ := skipValue_layout hclosed hr'
      simp only [hfind, hcolon, hskip, Bind.bind, Except.bind]
      exact (ih seen rec hs (by omega)).mono (by omega)
    | some f =>
      by_cases hseen : seen.contains key = true
      · simp only [hfind, if_pos hseen]
        exact ⟨_, rfl⟩
      · have hread := (hf f (List.mem_of_find?_eq_some hfind)).denotes v _ r' hclosed hr'
        simp only [hfind, if_neg hseen, hcolon, Bind.bind, Except.bind]
        refine (hread.bind fun a s _ hs hlt'' => ?_).mono (by omega)
        exact (ih (key :: seen) (f.set a rec) hs (by omega)).mono (by omega)

theorem exists_members (hf : ∀ f ∈ fields, f.shape.Faithful) {x : ρ}
    (h : membersFrom fields bound first seen rec bs = .ok (x, r)) :
    ∃ ms, Passes (Value.memberTokens first ms ++ [.mark .closeObject]) bs r := by
  induction bound generalizing first seen rec bs with
  | nil => cases h
  | cons y bound ih =>
    obtain ⟨⟨more, q⟩, hnext, h⟩ := exists_of_bind h
    have hpass := passes_nextMember hnext
    cases more with
    | false =>
      obtain ⟨s, rfl, hs⟩ := hpass
      cases h
      exact ⟨[], hs⟩
    | true =>
      obtain ⟨⟨key, q'⟩, hkey, h⟩ := exists_of_bind h
      obtain ⟨k, hspelled⟩ := exists_spelling hkey
      have hk := hpass hspelled
      have hdone : ∀ {t s seen rec} {v : Value}, colon q' = .ok ((), t) → Passes v.tokens t s →
          membersFrom fields bound false seen rec s = .ok (x, r) →
          ∃ ms, Passes (Value.memberTokens first ms ++ [.mark .closeObject]) bs r := by
        intro t s seen rec v hcolon hv hrest
        obtain ⟨ms, hms⟩ := ih hrest
        refine ⟨(k, v) :: ms, ?_⟩
        simpa [Value.memberTokens] using hk.trans ((passes_colon hcolon).trans (hv.trans hms))
      dsimp only at h
      split at h
      · rename_i f hfind
        split at h
        · cases h
        · obtain ⟨p, hcolon, h⟩ := exists_of_bind h
          obtain ⟨⟨a, s⟩, hread, h⟩ := exists_of_bind h
          obtain ⟨v, hv⟩ := (hf f (List.mem_of_find?_eq_some hfind)).spelled hread
          exact hdone hcolon hv h
      · obtain ⟨p, hcolon, h⟩ := exists_of_bind h
        obtain ⟨⟨u, s⟩, hskip, h⟩ := exists_of_bind h
        obtain ⟨v, hv⟩ := exists_skipped hskip
        exact hdone hcolon hv h

/-! ## Elements by their place -/

theorem closeList_close (h : Layout (.mark .closeList :: ts) bs) :
    ∃ r, closeList bs = .ok ((), r) ∧ Layout ts r ∧ r.length < bs.length := by
  obtain ⟨r, hs, hr, hlt⟩ := h.skipSpace_cons
  exact ⟨r, by rw [closeList, hs]; rfl, hr, hlt⟩

theorem skipSpace_of_closeList (h : closeList bs = .ok ((), r)) :
    skipSpace bs = ascii ']' :: r := by
  rw [closeList] at h
  split at h
  · cases h
  rename_i b s hs
  split at h
  · rename_i hb
    cases h
    rw [hs, hb]
  split at h
  · split at h <;> cases h
  · cases h

theorem closeList_fails (h : Layout (separator first ++ (v.tokens ++ ts)) bs) :
    ∃ f, closeList bs = .error f := by
  cases hclose : closeList bs with
  | error f => exact ⟨f, rfl⟩
  | ok p =>
    have hs := skipSpace_of_closeList hclose
    cases first with
    | true =>
      obtain ⟨b, r, hb, hne⟩ := value_opens h (by decide : kindOf (ascii ']') = none)
      rw [hs] at hb
      cases hb
      exact absurd rfl hne
    | false =>
      obtain ⟨r, hb, -⟩ := h.skipSpace_cons
      rw [hs] at hb
      exact absurd (List.cons.inj hb).1 (by decide)

def positioned (fields : List (Component ρ)) (first : Bool) (rec : ρ) : Reader ρ := fun bs =>
  positionsFrom fields first rec bs >>= fun p => closeList p.2 >>= fun q => .ok (p.1, q.2)

theorem positioned_nil (first : Bool) (rec : ρ) (bs : Bytes) :
    positioned [] first rec bs = closeList bs >>= fun q => .ok (rec, q.2) := rfl

theorem positioned_end {f : Component ρ} {q : Bytes} (h : nextElement first bs = .ok (false, q)) :
    positioned (f :: fields) first rec bs = closeList q >>= fun p => .ok (rec, p.2) := by
  rw [positioned, positionsFrom, h]
  rfl

theorem positioned_value {f : Component ρ} {q : Bytes}
    (h : nextElement first bs = .ok (true, q)) :
    positioned (f :: fields) first rec bs =
      f.shape.read q >>= fun p => positioned fields false (f.set p.1 rec) p.2 := by
  simp only [positioned, positionsFrom, h, Bind.bind, Except.bind, if_true]
  cases f.shape.read q <;> rfl

theorem positioned_agrees (hf : ∀ f ∈ fields, f.shape.Faithful) {es : List Value}
    (h : Layout (Value.elementTokens first es ++ .mark .closeList :: ts) bs) :
    Agrees (positionsMeaning rec fields es) ts bs (positioned fields first rec bs) := by
  induction es generalizing fields first bs rec with
  | nil =>
    have hend : positionsMeaning rec fields [] = some rec := by cases fields <;> rfl
    rw [hend]
    cases fields with
    | nil =>
      obtain ⟨r, hclose, hr, hlt⟩ := closeList_close h
      exact ⟨r, by rw [positioned_nil, hclose]; rfl, hr, hlt⟩
    | cons f fields =>
      obtain ⟨r, hnext, hr, hlt⟩ := nextElement_close first h
      exact ⟨r, by rw [positioned_end hnext]; rfl, hr, hlt⟩
  | cons e es ih =>
    rw [Value.elementTokens, List.append_assoc, List.append_assoc] at h
    cases fields with
    | nil =>
      obtain ⟨f, hclose⟩ := closeList_fails h
      exact ⟨f, by rw [positioned_nil, hclose]; rfl⟩
    | cons f fields =>
      obtain ⟨hshape, hf⟩ := List.forall_mem_cons.1 hf
      obtain ⟨q, hnext, hq, hle⟩ := nextElement_value h
      have hread := hshape.denotes e _ q (closed_elements es .closeList ts) hq
      rw [positioned_value hnext, positionsMeaning]
      exact (hread.bind fun a r _ hr hlt => (ih hf hr).mono hlt.le).mono hle

theorem exists_positions (hf : ∀ f ∈ fields, f.shape.Faithful) {x : ρ}
    (h : positioned fields first rec bs = .ok (x, r)) :
    ∃ es, Passes (Value.elementTokens first es ++ [.mark .closeList]) bs r := by
  induction fields generalizing first rec bs with
  | nil =>
    rw [positioned_nil] at h
    obtain ⟨q, hclose, h⟩ := exists_of_bind h
    cases h
    exact ⟨[], Passes.token (skipSpace_of_closeList hclose)⟩
  | cons f fields ih =>
    obtain ⟨hshape, hf⟩ := List.forall_mem_cons.1 hf
    cases hnext : nextElement first bs with
    | error e =>
      rw [positioned, positionsFrom, hnext] at h
      cases h
    | ok p =>
      obtain ⟨more, q⟩ := p
      have hpass := passes_nextElement hnext
      cases more with
      | false =>
        obtain ⟨s, rfl, hs⟩ := hpass
        rw [positioned_end hnext] at h
        cases h
        exact ⟨[], hs⟩
      | true =>
        rw [positioned_value hnext] at h
        obtain ⟨⟨a, s⟩, hread, h⟩ := exists_of_bind h
        obtain ⟨v, hv⟩ := hshape.spelled hread
        obtain ⟨es, hes⟩ := ih hf h
        exact ⟨v :: es, by simpa [Value.elementTokens] using hpass.trans (hv.trans hes)⟩

/-! ## Records -/

theorem denotes_record (hf : ∀ f ∈ fields, f.shape.Faithful) (v : Value) :
    (record kind fields blank).Denotes v (v.record? fields blank) := by
  intro ts bs _ h
  change Agrees _ ts bs (readRecord kind fields blank bs)
  cases v
  case object ms =>
    obtain ⟨r, hr, hts, hlt⟩ := h.object
    have hbound : r.length ≤ (ascii '\x7b' :: r).length := Nat.le_succ _
    have hms := membersFrom_agrees hf [] blank hts hbound
    rw [readRecord, atValue, hr]
    exact hms.mono hlt.le
  case array es =>
    obtain ⟨r, hr, hts, hlt⟩ := h.array
    rw [readRecord, atValue, hr]
    exact (positioned_agrees hf hts).mono hlt.le
  all_goals
    obtain ⟨b, r, hr, hother⟩ := h.opens
    have hobject : b ≠ ascii '\x7b' := hother (k := .object) (by decide) (by simp [Value.kind])
    have hlist : b ≠ ascii '[' := hother (k := .array) (by decide) (by simp [Value.kind])
    rw [readRecord, atValue, hr]
    simp only [if_neg hobject, if_neg hlist]
    exact mismatch_fails _ _

theorem faithful_record (hf : ∀ f ∈ fields, f.shape.Faithful) :
    (record kind fields blank).Faithful := by
  refine .of (denotes_record hf) fun {bs x r} h => ?_
  change readRecord kind fields blank bs = .ok (x, r) at h
  rw [readRecord, atValue] at h
  split at h
  · cases h
  rename_i b q hq
  split at h
  · rename_i hb
    obtain ⟨ms, hms⟩ := exists_members hf h
    have hopen := Passes.mark .openObject hq hb
    exact ⟨.object ms, by simpa [Value.tokens] using hopen.trans hms⟩
  split at h
  · rename_i hb
    obtain ⟨es, hes⟩ := exists_positions hf h
    have hopen := Passes.mark .openList hq hb
    exact ⟨.array es, by simpa [Value.tokens] using hopen.trans hes⟩
  · exact (ne_of_mismatch h).elim

/-! ## Whole documents -/

variable {α : Type} {s : Shape α} {a : α}

theorem Shape.Faithful.decode (hs : s.Faithful) (h : Spells bs v) :
    (s.decode bs).toOption = s.meaning v := by
  have hread := hs.denotes v [] bs closed_nil (by rwa [List.append_nil])
  rw [Shape.decode]
  cases hv : s.meaning v with
  | none =>
    rw [hv] at hread
    obtain ⟨f, hf⟩ := hread
    rw [hf]
    rfl
  | some a =>
    rw [hv] at hread
    obtain ⟨r, hr, hnil, -⟩ := hread
    rw [hr]
    simp only [Bind.bind, Except.bind, hnil.skipSpace_nil]
    rfl

theorem Shape.Faithful.exists_value (hs : s.Faithful) (h : s.decode bs = .ok a) :
    ∃ v, Spells bs v ∧ s.meaning v = some a := by
  obtain ⟨⟨x, r⟩, hread, hend⟩ := exists_of_bind h
  obtain ⟨v, hv⟩ := hs.spelled hread
  dsimp only at hend
  split at hend
  · rename_i hr
    have hnil : Layout [] r := .of_skipSpace (hr ▸ .nil Blank.nil)
    have hspells : Spells bs v := by simpa [Spells] using hv [] hnil
    exact ⟨v, hspells, by rw [← hs.decode hspells, h]; rfl⟩
  · cases hend

end OrderLookup.Wire
