import OrderLookup.Proofs.Instant.Rfc3339
import OrderLookup.Proofs.Wire.Literal

/-!
Shapes that lose nothing: what is written is read back, up to the mark that ends it. Texts,
numbers and instants have such shapes, and so have lists of them and records whose fields have
different names and together make up the whole record.
-/

namespace OrderLookup.Wire

open Text

variable {α ρ : Type} {rest : Bytes}

/-- Whether a value is read back from what is written for it. -/
structure Shape.Lossless (s : Shape α) : Prop where
  opens : ∀ v, ∃ b r, (s.write v).bytes = b :: r ∧ isSpace b = false ∧ b ≠ ascii ']'
  reads : ∀ v rest, Delimited rest → s.read ((s.write v).bytes ++ rest) = .ok (v, rest)

theorem bytes_eq (j : Json) : j.bytes = j.chars.flatMap Utf8.encodeChar := by
  rw [Json.bytes, Utf8.encode, Json.print, String.toList_ofList]

def closing (s : String) : Bytes := s.toList.flatMap escapedBytes ++ [ascii '"']

theorem literal_bytes (s : String) :
    (Json.literal s).flatMap Utf8.encodeChar = ascii '"' :: closing s := by
  have hq : Utf8.encodeChar '"' = [ascii '"'] := by decide
  simp only [Json.literal, List.flatMap_append, List.flatMap_cons, List.flatMap_nil, hq,
    List.flatMap_assoc, closing]
  rfl

theorem bytes_text (s : String) : (Json.text s).bytes = ascii '"' :: closing s := by
  rw [bytes_eq, Json.chars, literal_bytes]

theorem readText_closing (s : String) (rest : Bytes) :
    readText (closing s ++ rest) = .ok (s, rest) := by
  rw [closing, List.append_assoc]
  exact readText_literal s rest

theorem bytes_int (i : Int) : (Json.int i).bytes = (signed i).map ascii := by
  rw [bytes_eq, Json.int, Json.chars, String.toList_ofList, encode_ascii (signed_ascii i)]

theorem skipSpace_cons {b : UInt8} {r : Bytes} (h : isSpace b = false) :
    skipSpace (b :: r) = b :: r := by
  simp [skipSpace, h]

theorem quotedText_closing (expected s : String) (rest : Bytes) :
    quotedText expected (ascii '"' :: closing s ++ rest) = .ok (s, rest) := by
  rw [quotedText, atValue, List.cons_append, skipSpace_cons (by decide)]
  exact readText_closing s rest

theorem text_read : text.read = quotedText "a string" := rfl

theorem text_write (s : String) : text.write s = .text s := rfl

theorem lossless_text : text.Lossless where
  opens v := ⟨ascii '"', closing v, bytes_text v, by decide, by decide⟩
  reads v rest _ := by
    rw [text_read, text_write, bytes_text, quotedText_closing]

theorem lossless_instant : instant.Lossless where
  opens t := ⟨ascii '"', closing (String.ofList t.text), bytes_text _, by decide, by decide⟩
  reads t rest _ := by
    change readInstant ((Json.text (String.ofList t.text)).bytes ++ rest) = _
    rw [readInstant, bytes_text, quotedText_closing]
    simp only [Bind.bind, Except.bind, String.toList_ofList, Instant.read_text]
    rfl

theorem startsNumber_spec {b : UInt8} (h : startsNumber b = true) :
    isSpace b = false ∧ b ≠ ascii ']' := by
  rcases Bool.or_eq_true_iff.1 h with hb | hb
  · rw [eq_of_beq hb]
    decide
  · simp only [isDigitByte, Bool.and_eq_true, decide_eq_true_eq, UInt8.le_iff_toNat_le] at hb
    change 48 ≤ b.toNat ∧ b.toNat ≤ 57 at hb
    have hne : ∀ {d : UInt8}, ¬(48 ≤ d.toNat ∧ d.toNat ≤ 57) → b ≠ d := by
      rintro d hd rfl
      exact hd hb
    refine ⟨?_, hne (by decide)⟩
    simp only [isSpace, Bool.or_eq_false_iff, beq_eq_false_iff_ne]
    exact ⟨⟨⟨hne (by decide), hne (by decide)⟩, hne (by decide)⟩, hne (by decide)⟩

theorem signed_head (i : Int) : ∃ c cs, signed i = c :: cs ∧ startsNumber (ascii c) = true := by
  cases i with
  | ofNat n =>
    obtain ⟨c, cs, hcs⟩ := List.exists_cons_of_ne_nil (digits_ne_nil n)
    have hd := isDigitByte_ascii (isDigit_digits n c (hcs ▸ .head _))
    exact ⟨c, cs, hcs, by simp [startsNumber, hd]⟩
  | negSucc n => exact ⟨'-', digits (n + 1), rfl, by decide⟩

theorem number_read : number.read = readWord := rfl

theorem lossless_number : number.Lossless := by
  have hbytes : ∀ n, (number.write n).bytes = (signed n.toInt).map ascii := fun n => bytes_int _
  constructor
  · intro n
    obtain ⟨c, cs, hcs, hstart⟩ := signed_head n.toInt
    exact ⟨ascii c, cs.map ascii, by rw [hbytes, hcs]; rfl, startsNumber_spec hstart⟩
  · intro n rest hr
    have hmin : -(maxSigned + 1 : Int) ≤ n.toInt := Int64.minValue_le_toInt n
    have hmax : n.toInt ≤ maxSigned := Int64.toInt_le n
    have hread := readNumeral_signed hmin hmax hr
    obtain ⟨c, cs, hcs, hstart⟩ := signed_head n.toInt
    rw [number_read, hbytes]
    rw [hcs, List.map_cons, List.cons_append] at hread ⊢
    rw [readWord, atValue, skipSpace_cons (startsNumber_spec hstart).1]
    simp only [hstart, if_true, hread, Bind.bind, Except.bind, hmax, Int64.ofInt_toInt]
    rfl

theorem elements_bytes (e : Json) (es : List Json) :
    (Json.elementChars (e :: es)).flatMap Utf8.encodeChar =
      e.bytes ++ es.flatMap fun e => ascii ',' :: e.bytes := by
  have hcomma : Utf8.encodeChar ',' = [ascii ','] := by decide
  induction es generalizing e with
  | nil => simp [Json.elementChars, bytes_eq]
  | cons e' es ih =>
    rw [Json.elementChars, List.flatMap_append, List.isEmpty_cons, if_neg Bool.false_ne_true,
      List.flatMap_cons, ih e', hcomma, bytes_eq e, List.flatMap_cons]
    rfl

theorem bytes_array (es : List Json) :
    (Json.array es).bytes =
      ascii '[' :: ((Json.elementChars es).flatMap Utf8.encodeChar ++ [ascii ']']) := by
  have hopen : Utf8.encodeChar '[' = [ascii '['] := by decide
  have hclose : Utf8.encodeChar ']' = [ascii ']'] := by decide
  rw [bytes_eq, Json.chars, List.flatMap_append, List.flatMap_cons, hopen, List.flatMap_singleton,
    hclose]
  rfl

def member (m : String × Json) : Bytes := ascii '"' :: closing m.1 ++ ascii ':' :: m.2.bytes

theorem members_bytes (m : String × Json) (ms : List (String × Json)) :
    (Json.memberChars (m :: ms)).flatMap Utf8.encodeChar =
      member m ++ ms.flatMap fun m => ascii ',' :: member m := by
  have hcomma : Utf8.encodeChar ',' = [ascii ','] := by decide
  have hcolon : Utf8.encodeChar ':' = [ascii ':'] := by decide
  induction ms generalizing m with
  | nil => simp [Json.memberChars, member, literal_bytes, bytes_eq, hcolon]
  | cons m' ms ih =>
    rw [Json.memberChars, List.flatMap_append, List.flatMap_append, List.isEmpty_cons,
      if_neg Bool.false_ne_true, List.flatMap_cons, List.flatMap_cons, ih m', hcomma, hcolon,
      literal_bytes, ← bytes_eq, List.flatMap_cons]
    simp [member]

theorem bytes_object (ms : List (String × Json)) :
    (Json.object ms).bytes =
      ascii '\x7b' :: ((Json.memberChars ms).flatMap Utf8.encodeChar ++ [ascii '\x7d']) := by
  have hopen : Utf8.encodeChar '\x7b' = [ascii '\x7b'] := by decide
  have hclose : Utf8.encodeChar '\x7d' = [ascii '\x7d'] := by decide
  rw [bytes_eq, Json.chars, List.flatMap_append, List.flatMap_cons, List.flatMap_singleton]
  simp only [hopen, hclose]
  rfl

variable {s : Shape α} {bound bs : Bytes} {first : Bool} {b x : UInt8} {r : Bytes}

theorem nextElement_end (first : Bool) (rest : Bytes) :
    nextElement first (ascii ']' :: rest) = .ok (false, ascii ']' :: rest) := by
  rw [nextElement, skipSpace_cons (by decide)]
  exact if_pos rfl

theorem nextElement_first (hb : isSpace b = false) (hne : b ≠ ascii ']') :
    nextElement true (b :: r) = .ok (true, b :: r) := by
  rw [nextElement, skipSpace_cons hb]
  simp only [if_neg hne, if_true]

theorem nextElement_comma (hb : isSpace b = false) (hne : b ≠ ascii ']') :
    nextElement false (ascii ',' :: b :: r) = .ok (true, b :: r) := by
  rw [nextElement, skipSpace_cons (by decide)]
  simp only [skipSpace_cons hb, if_neg hne]
  rfl

theorem elementsFrom_end (read : Reader α) (seen : List α) :
    elementsFrom read (x :: bound) first seen (ascii ']' :: rest) = .ok (seen.reverse, rest) := by
  rw [elementsFrom, nextElement_end]
  rfl

theorem elementsFrom_value (hs : s.Lossless) {v : α} (hr : Delimited rest) (seen : List α)
    (hnext : nextElement first bs = .ok (true, (s.write v).bytes ++ rest)) :
    elementsFrom s.read (x :: bound) first seen bs =
      elementsFrom s.read bound false (v :: seen) rest := by
  rw [elementsFrom, hnext]
  simp only [Bind.bind, Except.bind, if_true, hs.reads v rest hr]

def elementsRest (s : Shape α) (vs : List α) (rest : Bytes) : Bytes :=
  (vs.flatMap fun v => ascii ',' :: (s.write v).bytes) ++ ascii ']' :: rest

theorem delimited_elementsRest (s : Shape α) (vs : List α) (rest : Bytes) :
    Delimited (elementsRest s vs rest) := by
  cases vs with
  | nil => exact Or.inr (Or.inr rfl)
  | cons v vs => exact Or.inl rfl

theorem elementsFrom_rest (hs : s.Lossless) (vs seen : List α)
    (h : (elementsRest s vs rest).length < bound.length) :
    elementsFrom s.read bound false seen (elementsRest s vs rest) =
      .ok (seen.reverse ++ vs, rest) := by
  induction vs generalizing bound seen with
  | nil =>
    cases bound with
    | nil => cases h
    | cons x bound => rw [List.append_nil, elementsRest, List.flatMap_nil, List.nil_append,
        elementsFrom_end]
  | cons v vs ih =>
    cases bound with
    | nil => cases h
    | cons x bound =>
      have he : elementsRest s (v :: vs) rest =
          ascii ',' :: ((s.write v).bytes ++ elementsRest s vs rest) := by
        simp [elementsRest]
      rw [he] at h ⊢
      have hnext : nextElement false (ascii ',' :: ((s.write v).bytes ++ elementsRest s vs rest)) =
          .ok (true, (s.write v).bytes ++ elementsRest s vs rest) := by
        obtain ⟨b, r, hb, hspace, hne⟩ := hs.opens v
        rw [hb]
        exact nextElement_comma hspace hne
      rw [elementsFrom_value hs (delimited_elementsRest s vs rest) seen hnext, ih]
      · simp
      · simp only [List.length_cons, List.length_append] at h
        omega

theorem lossless_list (hs : s.Lossless) : (list s).Lossless := by
  have hbytes : ∀ vs, ((list s).write vs).bytes =
      ascii '[' :: ((Json.elementChars (vs.map s.write)).flatMap Utf8.encodeChar ++ [ascii ']']) :=
    fun vs => bytes_array _
  have hread : (list s).read = readList s.read := rfl
  constructor
  · exact fun vs => ⟨ascii '[', _, hbytes vs, by decide, by decide⟩
  · intro vs rest _
    rw [hread, hbytes, readList, atValue, List.cons_append, skipSpace_cons (by decide)]
    change elementsFrom s.read _ true [] _ = _
    cases vs with
    | nil => exact elementsFrom_end s.read []
    | cons v vs =>
      obtain ⟨b, r, hb, hspace, hne⟩ := hs.opens v
      have he : (Json.elementChars ((v :: vs).map s.write)).flatMap Utf8.encodeChar ++
          [ascii ']'] ++ rest = (s.write v).bytes ++ elementsRest s vs rest := by
        rw [List.map_cons, elements_bytes]
        simp [elementsRest, List.flatMap_map]
      have hnext : nextElement true ((s.write v).bytes ++ elementsRest s vs rest) =
          .ok (true, (s.write v).bytes ++ elementsRest s vs rest) := by
        rw [hb]
        exact nextElement_first hspace hne
      rw [he, elementsFrom_value hs (delimited_elementsRest s vs rest) [] hnext,
        elementsFrom_rest hs]
      · rfl
      · rw [hb, List.length_append, List.length_cons]
        omega

variable {fields : List (Component ρ)} {kind : String} {blank : ρ}

theorem nextMember_end (first : Bool) (rest : Bytes) :
    nextMember first (ascii '\x7d' :: rest) = .ok (false, ascii '\x7d' :: rest) := by
  rw [nextMember, skipSpace_cons (by decide)]
  exact if_pos rfl

theorem nextMember_first (rest : Bytes) :
    nextMember true (ascii '"' :: rest) = .ok (true, rest) := by
  rw [nextMember, skipSpace_cons (by decide)]
  rfl

theorem nextMember_comma (rest : Bytes) :
    nextMember false (ascii ',' :: ascii '"' :: rest) = .ok (true, rest) := by
  have hquote : skipSpace (ascii '"' :: rest) = ascii '"' :: rest := skipSpace_cons (by decide)
  rw [nextMember, skipSpace_cons (by decide)]
  simp only [hquote]
  rfl

theorem membersFrom_end (seen : List String) (record : ρ) :
    membersFrom fields (x :: bound) first seen record (ascii '\x7d' :: rest) =
      .ok (record, rest) := by
  rw [membersFrom, nextMember_end]
  rfl

def fieldBytes (f : Component ρ) (v : ρ) : Bytes :=
  closing f.name ++ ascii ':' :: (f.shape.write (f.get v)).bytes

theorem membersFrom_field {f : Component ρ} {seen : List String} {record v : ρ}
    (hf : f.shape.Lossless) (hfind : (fields.find? fun g => g.name == f.name) = some f)
    (hseen : f.name ∉ seen) (hr : Delimited rest)
    (hnext : nextMember first bs = .ok (true, fieldBytes f v ++ rest)) :
    membersFrom fields (x :: bound) first seen record bs =
      membersFrom fields bound false (f.name :: seen) (f.set (f.get v) record) rest := by
  have hcontains : seen.contains f.name = false := by simpa using hseen
  have hkey : readText (fieldBytes f v ++ rest) =
      .ok (f.name, ascii ':' :: ((f.shape.write (f.get v)).bytes ++ rest)) := by
    rw [fieldBytes, List.append_assoc, List.cons_append]
    exact readText_closing _ _
  have hcolon : ∀ r, colon (ascii ':' :: r) = .ok ((), r) := by
    intro r
    rw [colon, skipSpace_cons (by decide)]
    rfl
  rw [membersFrom, hnext]
  simp only [Bind.bind, Except.bind, if_true, hkey, hfind, hcontains, Bool.false_eq_true, if_false,
    hcolon, hf.reads _ _ hr]

def membersRest (fs : List (Component ρ)) (v : ρ) (rest : Bytes) : Bytes :=
  (fs.flatMap fun f => ascii ',' :: ascii '"' :: fieldBytes f v) ++ ascii '\x7d' :: rest

theorem delimited_membersRest (fs : List (Component ρ)) (v : ρ) (rest : Bytes) :
    Delimited (membersRest fs v rest) := by
  cases fs with
  | nil => exact Or.inr (Or.inl rfl)
  | cons f fs => exact Or.inl rfl

def copy (fs : List (Component ρ)) (v record : ρ) : ρ :=
  fs.foldl (fun r f => f.set (f.get v) r) record

theorem membersFrom_rest (hf : ∀ f ∈ fields, f.shape.Lossless)
    (hfind : ∀ f ∈ fields, (fields.find? fun g => g.name == f.name) = some f)
    {fs : List (Component ρ)} (hfs : fs ⊆ fields) (hn : (fs.map Component.name).Nodup)
    {seen : List String} (hseen : ∀ f ∈ fs, f.name ∉ seen) (v record : ρ)
    (h : (membersRest fs v rest).length < bound.length) :
    membersFrom fields bound false seen record (membersRest fs v rest) =
      .ok (copy fs v record, rest) := by
  induction fs generalizing bound seen record with
  | nil =>
    cases bound with
    | nil => cases h
    | cons x bound => rw [membersRest, List.flatMap_nil, List.nil_append, membersFrom_end, copy,
        List.foldl_nil]
  | cons f fs ih =>
    cases bound with
    | nil => cases h
    | cons x bound =>
      have he : membersRest (f :: fs) v rest =
          ascii ',' :: ascii '"' :: (fieldBytes f v ++ membersRest fs v rest) := by
        simp [membersRest]
      obtain ⟨hname, hn⟩ := List.nodup_cons.1 hn
      obtain ⟨hmem, hfs⟩ := List.cons_subset.1 hfs
      rw [he] at h ⊢
      rw [membersFrom_field (hf f hmem) (hfind f hmem) (hseen f (.head _))
        (delimited_membersRest fs v rest) (nextMember_comma _), ih hfs hn]
      · rfl
      · intro g hg hmem
        rcases List.mem_cons.1 hmem with heq | hmem
        · exact hname (heq ▸ List.mem_map_of_mem hg)
        · exact hseen g (.tail _ hg) hmem
      · simp only [List.length_cons, List.length_append] at h
        omega

theorem find_field (hn : (fields.map Component.name).Nodup) {f : Component ρ} (hf : f ∈ fields) :
    (fields.find? fun g => g.name == f.name) = some f := by
  induction fields with
  | nil => cases hf
  | cons g fields ih =>
    obtain ⟨hname, hn⟩ := List.nodup_cons.1 hn
    rcases List.mem_cons.1 hf with rfl | hf
    · simp
    · have hne : (g.name == f.name) = false := by
        simp only [beq_eq_false_iff_ne]
        exact fun he => hname (he ▸ List.mem_map_of_mem hf)
      rw [List.find?_cons_of_neg (by simp [hne]), ih hn hf]

theorem record_bytes (f : Component ρ) (fs : List (Component ρ)) (v : ρ) (rest : Bytes) :
    (Json.memberChars ((f :: fs).map fun f => (f.name, f.shape.write (f.get v)))).flatMap
      Utf8.encodeChar ++ [ascii '\x7d'] ++ rest =
      ascii '"' :: (fieldBytes f v ++ membersRest fs v rest) := by
  rw [List.map_cons, members_bytes]
  simp [membersRest, member, fieldBytes, List.flatMap_map]

theorem lossless_record (hf : ∀ f ∈ fields, f.shape.Lossless)
    (hn : (fields.map Component.name).Nodup) (hcopy : ∀ v, copy fields v blank = v) :
    (record kind fields blank).Lossless := by
  have hbytes : ∀ v, ((record kind fields blank).write v).bytes = ascii '\x7b' ::
      ((Json.memberChars (fields.map fun f => (f.name, f.shape.write (f.get v)))).flatMap
        Utf8.encodeChar ++ [ascii '\x7d']) := fun v => bytes_object _
  have hread : (record kind fields blank).read = readRecord kind fields blank := rfl
  constructor
  · exact fun v => ⟨ascii '\x7b', _, hbytes v, by decide, by decide⟩
  · intro v rest _
    rw [hread, hbytes, readRecord, atValue, List.cons_append, skipSpace_cons (by decide)]
    change membersFrom fields _ true [] blank _ = _
    have hv := hcopy v
    cases fields with
    | nil =>
      rw [← hv]
      exact membersFrom_end [] blank
    | cons f fs =>
      obtain ⟨hname, hnames⟩ := List.nodup_cons.1 hn
      have hmem : f ∈ f :: fs := .head _
      rw [record_bytes, membersFrom_field (hf f hmem) (find_field hn hmem) (by simp)
        (delimited_membersRest fs v rest) (nextMember_first _),
        membersFrom_rest hf (fun g hg => find_field hn hg) (List.subset_cons_self _ _) hnames]
      · exact congrArg (fun r => Except.ok (r, rest)) hv
      · intro g hg hmem
        rw [List.mem_singleton] at hmem
        exact hname (hmem ▸ List.mem_map_of_mem hg)
      · rw [List.length_cons, List.length_append]
        omega

theorem Shape.Lossless.decode_bytes (hs : s.Lossless) (v : α) :
    s.decode (s.write v).bytes = .ok v := by
  have hread := hs.reads v [] trivial
  rw [List.append_nil] at hread
  rw [Shape.decode, hread]
  rfl

end OrderLookup.Wire
