import Mathlib.Data.List.Forall2
import OrderLookup.Proofs.Wire.Skipping

/-!
What a value means to a shape. A shape is faithful if what it reads hangs on the value alone, and
not on the blanks around its tokens or on what stands behind it, and if it reads nothing but
values. Texts, numbers and instants have faithful shapes, and so have lists of them.
-/

namespace OrderLookup.Wire

variable {α β : Type} {bound bs r rest : Bytes} {b c : UInt8} {ts us : List Token} {v : Value}
  {first : Bool} {s : Shape α} {a : α}

/-- Whether reading gives what is expected and leaves the given tokens, or fails if nothing is
expected. -/
def Agrees (x : Option α) (ts : List Token) (bs : Bytes)
    (result : Except Fault (α × Bytes)) : Prop :=
  match x with
  | some a => ∃ r, result = .ok (a, r) ∧ Layout ts r ∧ r.length < bs.length
  | none => ∃ f, result = .error f

theorem Yields.agrees {x : Option α} {result : Except Fault (α × Bytes)}
    (h : Yields x r result) (hr : Layout ts r) (hlt : r.length < bs.length) :
    Agrees x ts bs result := by
  cases x with
  | none => exact h
  | some a => exact ⟨r, h, hr, hlt⟩

theorem Agrees.mono {x : Option α} {result : Except Fault (α × Bytes)}
    (h : Agrees x ts r result) (hle : r.length ≤ bs.length) : Agrees x ts bs result := by
  cases x with
  | none => exact h
  | some a =>
    obtain ⟨q, hq, hts, hlt⟩ := h
    exact ⟨q, hq, hts, by omega⟩

theorem Agrees.bind {x : Option α} {g : α → Option β} {result : Except Fault (α × Bytes)}
    {k : α × Bytes → Except Fault (β × Bytes)} (h : Agrees x ts bs result)
    (hk : ∀ a r, x = some a → Layout ts r → r.length < bs.length → Agrees (g a) us bs (k (a, r))) :
    Agrees (x.bind g) us bs (result >>= k) := by
  cases x with
  | none =>
    obtain ⟨f, rfl⟩ := h
    exact ⟨f, rfl⟩
  | some a =>
    obtain ⟨r, rfl, hr, hlt⟩ := h
    exact hk a r rfl hr hlt

def Value.bytes (v : Value) : Bytes := v.tokens.flatMap Token.bytes

theorem layout_flatMap (ts : List Token) : Layout ts (ts.flatMap Token.bytes) := by
  induction ts with
  | nil => exact .nil Blank.nil
  | cons t ts ih => exact .cons Blank.nil ih

namespace Shape

/-- What a value means to a shape, if anything. -/
def meaning (s : Shape α) (v : Value) : Option α :=
  match s.read v.bytes with
  | .ok (a, _) => some a
  | .error _ => none

/-- Whether a shape reads the same from a value wherever the value stands. -/
def Denotes (s : Shape α) (v : Value) (x : Option α) : Prop :=
  ∀ ts bs, Closed ts → Layout (v.tokens ++ ts) bs → Agrees x ts bs (s.read bs)

theorem Denotes.meaning_eq {x : Option α} (h : s.Denotes v x) : s.meaning v = x := by
  have hbytes : Layout (v.tokens ++ []) v.bytes := by
    rw [List.append_nil]
    exact layout_flatMap _
  have hread := h [] v.bytes closed_nil hbytes
  rw [meaning]
  cases x with
  | none =>
    obtain ⟨f, hf⟩ := hread
    rw [hf]
  | some a =>
    obtain ⟨r, hr, -⟩ := hread
    rw [hr]

/-- A shape that reads values, and from a value always the same. -/
structure Faithful (s : Shape α) : Prop where
  denotes : ∀ v, s.Denotes v (s.meaning v)
  spelled : ∀ {bs a r}, s.read bs = .ok (a, r) → ∃ v : Value, Passes v.tokens bs r

theorem Faithful.of {m : Value → Option α} (hm : ∀ v, s.Denotes v (m v))
    (hs : ∀ {bs a r}, s.read bs = .ok (a, r) → ∃ v : Value, Passes v.tokens bs r) :
    s.Faithful where
  denotes v := Denotes.meaning_eq (hm v) ▸ hm v
  spelled := hs

end Shape

/-! ## Values of another kind -/

theorem mismatch_fails (expected : String) (bs : Bytes) :
    ∃ f, (mismatch expected bs : Except Fault α) = .error f := by
  have hword : ∀ (cs : List Char) (r : Bytes) (found : Found),
      ∃ f, (word cs r >>= fun p => failBehind (.wrongType found expected) p.2 :
        Except Fault α) = .error f := by
    intro cs r found
    cases word cs r with
    | error f => exact ⟨f, rfl⟩
    | ok p => exact ⟨_, rfl⟩
  cases bs with
  | nil => exact ⟨_, rfl⟩
  | cons b r =>
    rw [mismatch]
    split
    · exact hword _ _ _
    split
    · exact hword _ _ _
    split
    · exact hword _ _ _
    split
    · cases readNumeral (b :: r) with
      | error f => exact ⟨f, rfl⟩
      | ok p => exact ⟨_, rfl⟩
    split
    · cases readText r with
      | error f => exact ⟨f, rfl⟩
      | ok p => exact ⟨_, rfl⟩
    split
    · exact ⟨_, rfl⟩
    split <;> exact ⟨_, rfl⟩

theorem Layout.opens (h : Layout (v.tokens ++ ts) bs) : ∃ b r, skipSpace bs = b :: r ∧
    ∀ {c : UInt8} {k : Kind}, kindOf c = some k → v.kind ≠ k → b ≠ c := by
  obtain ⟨b, r, hs, hkind⟩ := h.value
  refine ⟨b, r, hs, ?_⟩
  rintro c k hc hv rfl
  exact hv (Option.some.inj (hkind.symm.trans hc))

theorem ne_of_mismatch {expected : String} {p : α × Bytes}
    (h : mismatch expected bs = .ok p) : False := by
  obtain ⟨f, hf⟩ := mismatch_fails (α := α × Bytes) expected bs
  rw [hf] at h
  cases h

/-! ## Texts, numbers and instants -/

def Value.text? : Value → Option String
  | .text t => meant t
  | _ => none

def Value.word? : Value → Option Int64
  | .number n => n.word?
  | _ => none

def Value.instant? (v : Value) : Option Instant :=
  v.text?.bind fun s => (Instant.read s.toList).toOption

theorem quotedText_agrees (expected : String) (h : Layout (v.tokens ++ ts) bs) :
    Agrees v.text? ts bs (quotedText expected bs) := by
  cases v
  case text t =>
    obtain ⟨r, hs, hr, hlt⟩ := h.skipSpace_cons
    rw [Token.text_append] at hs
    rw [quotedText, atValue, hs]
    exact (readText_spelled t r).agrees hr hlt
  all_goals
    obtain ⟨b, r, hs, hother⟩ := h.opens
    have hb : b ≠ ascii '"' := hother (k := .text) (by decide) (by simp [Value.kind])
    rw [quotedText, atValue, hs]
    simp only [if_neg hb]
    exact mismatch_fails expected _

theorem exists_text {expected x : String} (h : quotedText expected bs = .ok (x, r)) :
    ∃ v : Value, Passes v.tokens bs r := by
  rw [quotedText, atValue] at h
  split at h
  · cases h
  · rename_i b s hs
    split at h
    · rename_i hb
      obtain ⟨t, ht⟩ := exists_spelling h
      exact ⟨.text t, .text hs hb ht⟩
    · exact (ne_of_mismatch h).elim

theorem denotes_text (v : Value) : text.Denotes v v.text? :=
  fun _ _ _ h => quotedText_agrees "a string" h

theorem faithful_text : text.Faithful := .of denotes_text exists_text

theorem denotes_instant (v : Value) : instant.Denotes v v.instant? := by
  intro ts bs _ h
  refine (quotedText_agrees _ h).bind fun x r _ hr hlt => ?_
  cases hx : Instant.read x.toList with
  | error f => exact ⟨_, by simp only [hx]; rfl⟩
  | ok t => exact ⟨r, by simp only [hx]; rfl, hr, hlt⟩

theorem faithful_instant : instant.Faithful := by
  refine .of denotes_instant fun {bs t r} h => ?_
  obtain ⟨⟨x, s⟩, hx, hread⟩ := exists_of_bind h
  dsimp only at hread
  split at hread
  · cases hread
    exact exists_text hx
  · cases hread

theorem denotes_number (v : Value) : number.Denotes v v.word? := by
  intro ts bs hts h
  change Agrees v.word? ts bs (readWord bs)
  cases v
  case number n =>
    obtain ⟨r, hs, hr, hlt⟩ := h.skipSpace_cons
    exact (readWord_figure (hr.cut hts) hs).agrees hr hlt
  all_goals
    obtain ⟨b, r, hs, hkind⟩ := h.value
    have hb : ¬startsNumber b = true := by
      intro hb
      rw [kindOf, if_pos hb] at hkind
      cases hkind
    rw [readWord, atValue, hs]
    simp only [if_neg hb]
    exact mismatch_fails "i64" _

theorem faithful_number : number.Faithful := by
  refine .of denotes_number fun {bs a r} h => ?_
  change readWord bs = .ok (a, r) at h
  have hword := h
  rw [readWord, atValue] at hword
  split at hword
  · cases hword
  · rename_i b s hs
    by_cases hb : startsNumber b = true
    · obtain ⟨n, hn⟩ := exists_word hs hb h
      exact ⟨.number n, Passes.token (hs.trans hn)⟩
    · rw [if_neg hb] at hword
      exact (ne_of_mismatch hword).elim

/-! ## Lists -/

theorem nextElement_close (first : Bool) (h : Layout (.mark .closeList :: ts) bs) :
    ∃ r, nextElement first bs = .ok (false, ascii ']' :: r) ∧ Layout ts r ∧
      r.length < bs.length := by
  obtain ⟨r, hs, hr, hlt⟩ := h.skipSpace_cons
  exact ⟨r, by rw [nextElement, hs]; rfl, hr, hlt⟩

theorem nextElement_value (h : Layout (separator first ++ (v.tokens ++ ts)) bs) :
    ∃ s, nextElement first bs = .ok (true, s) ∧ Layout (v.tokens ++ ts) s ∧
      s.length ≤ bs.length := by
  cases first with
  | true =>
    obtain ⟨b, r, hs, hb⟩ := value_opens h (by decide : kindOf (ascii ']') = none)
    refine ⟨b :: r, ?_, hs ▸ h.skip, hs ▸ length_skipSpace_le bs⟩
    rw [nextElement, hs]
    exact (if_neg hb).trans (if_pos rfl)
  | false =>
    obtain ⟨r, hs, hr, hlt⟩ := h.skipSpace_cons
    obtain ⟨b, q, hq, hb⟩ := value_opens hr (by decide : kindOf (ascii ']') = none)
    have hle := length_skipSpace_le r
    refine ⟨b :: q, ?_, hq ▸ hr.skip, by rw [← hq]; omega⟩
    rw [nextElement, hs]
    simp only [Token.bytes, List.singleton_append, hq, if_neg hb]
    rfl

theorem passes_nextElement {more : Bool} (h : nextElement first bs = .ok (more, r)) :
    if more then Passes (separator first) bs r
    else ∃ s, r = ascii ']' :: s ∧ Passes [.mark .closeList] bs s := by
  rw [nextElement] at h
  split at h
  · cases h
  rename_i b s hs
  split at h
  · rename_i hb
    cases h
    exact ⟨s, by rw [hb], .mark .closeList hs hb⟩
  split at h
  · rename_i hfirst
    cases h
    subst hfirst
    exact hs ▸ Passes.skipSpace bs
  rename_i hfirst
  obtain rfl : first = false := by simpa using hfirst
  split at h
  · rename_i hb
    split at h
    · cases h
    rename_i c q hq
    split at h
    · cases h
    · cases h
      exact (Passes.mark .comma hs hb).trans (hq ▸ Passes.skipSpace s)
  · cases h

theorem elementsFrom_agrees (hs : s.Faithful) {es : List Value} (seen : List α)
    (h : Layout (Value.elementTokens first es ++ .mark .closeList :: ts) bs)
    (hbound : bs.length ≤ bound.length) :
    Agrees ((es.mapM s.meaning).map (seen.reverse ++ ·)) ts bs
      (elementsFrom s.read bound first seen bs) := by
  induction es generalizing first bs bound seen with
  | nil =>
    obtain ⟨r, hnext, hr, hlt⟩ := nextElement_close first h
    obtain ⟨x, bound, rfl⟩ := List.exists_cons_of_length_pos (by omega : 0 < bound.length)
    refine ⟨r, ?_, hr, hlt⟩
    rw [elementsFrom, hnext]
    exact congrArg (fun l => Except.ok (l, r)) (List.append_nil _).symm
  | cons e es ih =>
    have hpos := length_pos_of_layout h (by simp)
    obtain ⟨x, bound, rfl⟩ := List.exists_cons_of_length_pos (by omega : 0 < bound.length)
    rw [Value.elementTokens, List.append_assoc, List.append_assoc] at h
    obtain ⟨q, hnext, hq, hle⟩ := nextElement_value h
    have hcons : ((e :: es).mapM s.meaning).map (seen.reverse ++ ·) =
        (s.meaning e).bind fun a => (es.mapM s.meaning).map ((a :: seen).reverse ++ ·) := by
      rw [List.mapM_cons]
      cases s.meaning e <;> cases es.mapM s.meaning <;> simp
    rw [elementsFrom, hnext, hcons]
    refine ((hs.denotes e _ q (closed_elements es .closeList ts) hq).bind
      fun a r _ hr hlt => ?_).mono hle
    simp only [List.length_cons] at hbound
    exact (ih (a :: seen) hr (by omega)).mono hlt.le

theorem exists_elements (hs : s.Faithful) {seen l : List α}
    (h : elementsFrom s.read bound first seen bs = .ok (l, r)) :
    ∃ es, Passes (Value.elementTokens first es ++ [.mark .closeList]) bs r := by
  induction bound generalizing first seen bs with
  | nil => cases h
  | cons x bound ih =>
    obtain ⟨⟨more, q⟩, hnext, h⟩ := exists_of_bind h
    have hpass := passes_nextElement hnext
    cases more with
    | false =>
      obtain ⟨s, rfl, hs⟩ := hpass
      cases h
      exact ⟨[], hs⟩
    | true =>
      obtain ⟨⟨a, q'⟩, hread, h⟩ := exists_of_bind h
      obtain ⟨v, hv⟩ := hs.spelled hread
      obtain ⟨es, hes⟩ := ih h
      exact ⟨v :: es, by simpa [Value.elementTokens] using hpass.trans (hv.trans hes)⟩

def Value.list? (m : Value → Option α) : Value → Option (List α)
  | .null => some []
  | .array es => es.mapM m
  | _ => none

theorem mapM_eq_some_iff {m : α → Option β} {l : List α} {l' : List β} :
    l.mapM m = some l' ↔ List.Forall₂ (fun a b => m a = some b) l l' := by
  induction l generalizing l' with
  | nil => simp [eq_comm]
  | cons a l ih =>
    rw [List.mapM_cons, List.forall₂_cons_left_iff]
    constructor
    · intro h
      obtain ⟨b, hb, h⟩ := Option.bind_eq_some_iff.1 h
      obtain ⟨bs, hbs, h⟩ := Option.bind_eq_some_iff.1 h
      exact ⟨b, bs, hb, ih.1 hbs, (Option.some.inj h).symm⟩
    · rintro ⟨b, bs, hb, hbs, rfl⟩
      rw [hb, ih.2 hbs]
      rfl

theorem exists_of_mapM {m : α → Option β} {l : List α} {l' : List β} (h : l.mapM m = some l') :
    ∀ a ∈ l, ∃ b, m a = some b := by
  induction mapM_eq_some_iff.1 h with
  | nil => exact List.forall_mem_nil _
  | cons hab hrest ih =>
    exact List.forall_mem_cons.2 ⟨⟨_, hab⟩, ih (mapM_eq_some_iff.2 hrest)⟩

theorem list?_cases {m : Value → Option α} {l : List α} (h : v.list? m = some l) :
    v = .null ∧ l = [] ∨ ∃ es, v = .array es ∧ es.mapM m = some l := by
  cases v
  case null => exact .inl ⟨rfl, (Option.some.inj h).symm⟩
  case array es => exact .inr ⟨es, rfl, h⟩
  all_goals cases h

theorem denotes_list (hs : s.Faithful) (v : Value) : (list s).Denotes v (v.list? s.meaning) := by
  intro ts bs _ h
  change Agrees _ ts bs (readList s.read bs)
  cases v
  case null =>
    obtain ⟨r, hr, hts, hlt⟩ := h.skipSpace_cons
    rw [readList, atValue, hr]
    exact ⟨r, rfl, hts, hlt⟩
  case array es =>
    obtain ⟨r, hr, hts, hlt⟩ := h.array
    have hbound : r.length ≤ (ascii '[' :: r).length := Nat.le_succ _
    have hes := (elementsFrom_agrees hs [] hts hbound).mono hlt.le
    simp only [List.reverse_nil, List.nil_append, Option.map_id'] at hes
    rw [readList, atValue, hr]
    exact hes
  all_goals
    obtain ⟨b, r, hr, hother⟩ := h.opens
    have hnull : b ≠ ascii 'n' := hother (k := .null) (by decide) (by simp [Value.kind])
    have hlist : b ≠ ascii '[' := hother (k := .array) (by decide) (by simp [Value.kind])
    rw [readList, atValue, hr]
    simp only [if_neg hnull, if_neg hlist]
    exact mismatch_fails "a sequence" _

theorem faithful_list (hs : s.Faithful) : (list s).Faithful := by
  refine .of (denotes_list hs) fun {bs l r} h => ?_
  change readList s.read bs = .ok (l, r) at h
  rw [readList, atValue] at h
  split at h
  · cases h
  rename_i b q hq
  split at h
  · rename_i hb
    obtain ⟨p, hp, he⟩ := exists_of_map h
    cases he
    exact ⟨.null, Passes.token (by rw [hq, hb, eq_of_word hp]; rfl)⟩
  split at h
  · rename_i hb
    obtain ⟨es, hes⟩ := exists_elements hs h
    have hopen := Passes.mark .openList hq hb
    exact ⟨.array es, by simpa [Value.tokens] using hopen.trans hes⟩
  · exact (ne_of_mismatch h).elim

end OrderLookup.Wire
