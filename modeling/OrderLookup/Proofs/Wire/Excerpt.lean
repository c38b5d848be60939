import OrderLookup.Proofs.Wire.Fields
import OrderLookup.Proofs.Wire.Order

/-!
What may be left out of a document, and what may be put into it. An excerpt names some of the
members, in any order and among others that nobody knows, and spells its texts in any way. It is
read as the order that has what the excerpt shows and is blank elsewhere.
-/

namespace OrderLookup

namespace Wire

open Text

/-- Whether a value shows part of a document: in objects some of the members, among any others, and
in place of an array possibly `null`. -/
inductive Excerpt : Json → Value → Prop
  | null : Excerpt .null .null
  | bool (b : Bool) : Excerpt (.bool b) (.bool b)
  | number {l : String} {n : Figure} : n.bytes = Utf8.encode l → Excerpt (.number l) (.number n)
  | text {s : String} {t : List Glyph} : meant t = some s → Excerpt (.text s) (.text t)
  | array {es : List Json} {vs : List Value} :
    List.Forall₂ Excerpt es vs → Excerpt (.array es) (.array vs)
  | nothing (es : List Json) : Excerpt (.array es) .null
  | object {ps : List (String × Json)} {ms : List (List Glyph × Value)} :
    (∀ m ∈ ms, (meant m.1).isSome = true) → (∀ p ∈ ps, (named p.1 ms).length ≤ 1) →
    (∀ p ∈ ps, ∀ w ∈ named p.1 ms, Excerpt p.2 w) → Excerpt (.object ps) (.object ms)

variable {ρ α : Type} {fields fs : List (Component ρ)} {f : Component ρ} {blank r y : ρ}
  {kind : String} {v w : Value} {ms : List (List Glyph × Value)} {s : Shape α}

/-- The record that has of another one the fields that a value names. -/
def shownBy (fields : List (Component ρ)) (blank r : ρ) (v : Value) : ρ :=
  copy (fields.filter fun f => !(v.given fields f.name).isEmpty) r blank

def Value.member (fields : List (Component ρ)) (name : String) (v : Value) : Value :=
  (v.given fields name).head?.getD .null

theorem get_copy_of_not_mem (hi : Independent fields) (hf : f ∈ fields) (hfs : fs ⊆ fields)
    (hn : f ∉ fs) : f.get (copy fs y r) = f.get r := by
  induction fs generalizing r with
  | nil => rfl
  | cons g fs ih =>
    obtain ⟨hg, hfs⟩ := List.cons_subset.1 hfs
    obtain ⟨hne, hn⟩ := not_or.1 (mt List.mem_cons.2 hn)
    have hname : f.name ≠ g.name := fun he => hne (hi.eq_of_name hf hg he)
    exact (ih hfs hn).trans (hi.get_other f hf g hg hname _ _)

theorem get_copy_of_mem (hi : Independent fields) (hfs : fs ⊆ fields) (hf : f ∈ fs) :
    f.get (copy fs y r) = f.get y := by
  induction fs generalizing r with
  | nil => cases hf
  | cons g fs ih =>
    obtain ⟨hg, hsub⟩ := List.cons_subset.1 hfs
    by_cases hrest : f ∈ fs
    · exact ih hsub hrest
    · obtain rfl := (List.mem_cons.1 hf).resolve_right hrest
      have hset : f.get (copy fs y (f.set (f.get y) r)) = f.get (f.set (f.get y) r) :=
        get_copy_of_not_mem hi hg hsub hrest
      exact hset.trans (hi.get_set f hg _ _)

theorem get_shownBy_of_eq_nil (hi : Independent fields) (hf : f ∈ fields)
    (hn : v.given fields f.name = []) :
    f.get (shownBy fields blank r v) = f.get blank :=
  get_copy_of_not_mem hi hf (List.filter_subset_self _) (by simp [hn])

theorem get_shownBy_of_ne_nil (hi : Independent fields) (hf : f ∈ fields)
    (hn : v.given fields f.name ≠ []) :
    f.get (shownBy fields blank r v) = f.get r :=
  get_copy_of_mem hi (List.filter_subset_self _) (by simp [hf, hn])

theorem meaning_shownBy (hf : ∀ f ∈ fields, f.shape.Faithful) (hi : Independent fields)
    (hkeys : ∀ m ∈ ms, (meant m.1).isSome = true)
    (honce : ∀ f ∈ fields, (named f.name ms).length ≤ 1)
    (hmeans : ∀ f ∈ fields, ∀ w ∈ named f.name ms, f.shape.meaning w = some (f.get r)) :
    (record kind fields blank).meaning (.object ms) =
      some (shownBy fields blank r (.object ms)) := by
  refine (meaning_record hf hi).2 ⟨hkeys, fun f hfield => ?_⟩
  have hone := honce f hfield
  have hmeans := hmeans f hfield
  change f.Takes blank _ (named f.name ms)
  rcases hws : named f.name ms with _ | ⟨w, _ | ⟨w', ws⟩⟩
  · exact get_shownBy_of_eq_nil hi hfield hws
  · rw [hws] at hmeans
    have hne : (Value.object ms).given fields f.name ≠ [] := by
      simp [Value.given, Value.members, hws]
    exact (hmeans w (.head _)).trans (congrArg some (get_shownBy_of_ne_nil hi hfield hne).symm)
  · simp [hws] at hone

/-! ## Excerpts of what is written -/

/-- A shape that has no parts to be left out: every excerpt of what is written shows all of it. -/
def Shape.Whole (s : Shape α) : Prop :=
  ∀ a w, Excerpt (s.write a) w → s.meaning w = some a

theorem Shape.Whole.shown {ws : List Value} {a : α} (hs : s.Whole)
    (h : ∀ w ∈ ws, Excerpt (s.write a) w) : ∀ w ∈ ws, s.meaning w = some a :=
  fun w hw => hs a w (h w hw)

theorem whole_text : text.Whole := by
  intro a w h
  rw [Shape.Denotes.meaning_eq (denotes_text w)]
  cases h with
  | text ht => exact ht

theorem whole_number : number.Whole := by
  intro a w h
  have hread := lossless_number.reads a [] trivial
  generalize hj : number.write a = j at h hread
  cases h with
  | @number l n hn =>
    have hbytes : (Value.number n).bytes = (Json.number l).bytes := by
      rw [Value.bytes, Value.tokens, List.flatMap_singleton, Token.bytes, hn, Json.bytes,
        Json.print, Json.chars, String.ofList_toList]
    rw [List.append_nil] at hread
    rw [Shape.meaning, hbytes, hread]
  | _ => cases hj

theorem whole_instant : instant.Whole := by
  intro a w h
  rw [Shape.Denotes.meaning_eq (denotes_instant w)]
  cases h with
  | text ht =>
    rw [Value.instant?, Value.text?, ht, Option.bind_some, String.toList_ofList,
      Instant.read_text]
    rfl

theorem meaning_list {shown : α → Value → α} {l : List α}
    (hs : s.Faithful)
    (hshown : ∀ a ∈ l, ∀ w, Excerpt (s.write a) w → s.meaning w = some (shown a w))
    (h : Excerpt ((list s).write l) w) :
    (list s).meaning w = some (List.zipWith shown l w.elements) := by
  rw [Shape.Denotes.meaning_eq (denotes_list hs w)]
  cases h with
  | nothing => exact congrArg some List.zipWith_nil_right.symm
  | array hes =>
    refine mapM_eq_some_iff.2 ?_
    replace hes := List.forall₂_map_left_iff.1 hes
    induction hes with
    | nil => exact .nil
    | cons hv _ ih =>
      obtain ⟨ha, hl⟩ := List.forall_mem_cons.1 hshown
      exact .cons (ha _ hv) (ih hl)

theorem member_eq {name : String} (hone : (named name ms).length ≤ 1) (hw : w ∈ named name ms) :
    Value.member fields name (.object ms) = w := by
  rw [Value.member, Value.given, Value.members]
  rcases hws : named name ms with _ | ⟨w', _ | ⟨w'', ws⟩⟩
  · simp [hws] at hw
  · rw [hws] at hw
    exact (List.mem_singleton.1 hw).symm
  · simp [hws] at hone

theorem excerpt_record (h : Excerpt ((record kind fields blank).write r) v) :
    ∃ ms, v = .object ms ∧ (∀ m ∈ ms, (meant m.1).isSome = true) ∧
      (∀ f ∈ fields, (named f.name ms).length ≤ 1) ∧
      ∀ f ∈ fields, ∀ w ∈ named f.name ms, Excerpt (f.shape.write (f.get r)) w := by
  cases h with
  | object hkeys honce hvalues =>
    exact ⟨_, rfl, hkeys, fun f hf => honce _ (List.mem_map_of_mem hf),
      fun f hf => hvalues _ (List.mem_map_of_mem hf)⟩

theorem meaning_record_shownBy (hf : ∀ f ∈ fields, f.shape.Faithful) (hi : Independent fields)
    (hwhole : ∀ f ∈ fields, f.shape.Whole)
    (h : Excerpt ((record kind fields blank).write r) v) :
    (record kind fields blank).meaning v = some (shownBy fields blank r v) := by
  obtain ⟨ms, rfl, hkeys, honce, hvalues⟩ := excerpt_record h
  exact meaning_shownBy hf hi hkeys honce
    fun f hfield => (hwhole f hfield).shown (hvalues f hfield)

end Wire

open Wire

/-! ## Excerpts of orders -/

def Delivery.shownBy (d : Delivery) (v : Value) : Delivery := Wire.shownBy Delivery.fields {} d v

def Payment.shownBy (p : Payment) (v : Value) : Payment := Wire.shownBy Payment.fields {} p v

def Item.shownBy (i : Item) (v : Value) : Item := Wire.shownBy Item.fields {} i v

/-- The order that has what a value shows of another one, and is blank elsewhere. -/
def Order.shownBy (o : Order) (v : Value) : Order :=
  Wire.shownBy Order.fields {} { o with
    delivery := o.delivery.shownBy (v.member Order.fields "delivery")
    payment := o.payment.shownBy (v.member Order.fields "payment")
    items := List.zipWith Item.shownBy o.items (v.member Order.fields "items").elements } v

variable {v w : Value} {payload : Bytes}

theorem Delivery.meaning_shownBy {d : Delivery} (h : Excerpt (Delivery.shape.write d) v) :
    Delivery.shape.meaning v = some (d.shownBy v) := by
  refine meaning_record_shownBy faithful_fields independent ?_ h
  simp [Delivery.fields, whole_text]

theorem Payment.meaning_shownBy {p : Payment} (h : Excerpt (Payment.shape.write p) v) :
    Payment.shape.meaning v = some (p.shownBy v) := by
  refine meaning_record_shownBy faithful_fields independent ?_ h
  simp [Payment.fields, whole_text, whole_number]

theorem Item.meaning_shownBy {i : Item} (h : Excerpt (Item.shape.write i) v) :
    Item.shape.meaning v = some (i.shownBy v) := by
  refine meaning_record_shownBy faithful_fields independent ?_ h
  simp [Item.fields, whole_text, whole_number]

theorem Order.meaning_shownBy {o : Order} (h : Excerpt o.toJson v) :
    Order.shape.meaning v = some (o.shownBy v) := by
  obtain ⟨ms, rfl, hkeys, honce, hvalues⟩ := excerpt_record h
  refine Wire.meaning_shownBy faithful_fields independent hkeys honce ?_
  simp only [Order.fields, List.forall_mem_cons, List.not_mem_nil, false_implies,
    implies_true, and_true] at honce hvalues
  obtain ⟨-, -, -, hone, hone', hone'', -⟩ := honce
  obtain ⟨h1, h2, h3, h4, h5, h6, h7, h8, h9, h10, h11, h12, h13⟩ := hvalues
  have hdelivery : ∀ w ∈ named "delivery" ms, Delivery.shape.meaning w =
      some (o.delivery.shownBy (Value.member Order.fields "delivery" (.object ms))) := by
    intro w hw
    rw [member_eq hone hw]
    exact Delivery.meaning_shownBy (h4 w hw)
  have hpayment : ∀ w ∈ named "payment" ms, Payment.shape.meaning w =
      some (o.payment.shownBy (Value.member Order.fields "payment" (.object ms))) := by
    intro w hw
    rw [member_eq hone' hw]
    exact Payment.meaning_shownBy (h5 w hw)
  have hitems : ∀ w ∈ named "items" ms, (list Item.shape).meaning w = some (List.zipWith
      Item.shownBy o.items (Value.member Order.fields "items" (.object ms)).elements) := by
    intro w hw
    rw [member_eq hone'' hw]
    exact meaning_list Item.faithful (fun _ _ _ => Item.meaning_shownBy) (h6 w hw)
  -- the parts are named, so that the fields can be taken one by one without them
  generalize o.delivery.shownBy _ = delivery at hdelivery ⊢
  generalize o.payment.shownBy _ = payment at hpayment ⊢
  generalize List.zipWith Item.shownBy o.items _ = items at hitems ⊢
  simp only [Order.fields, List.forall_mem_cons, List.not_mem_nil, false_implies,
    implies_true, and_true]
  exact ⟨whole_text.shown h1, whole_text.shown h2, whole_text.shown h3, hdelivery, hpayment,
    hitems, whole_text.shown h7, whole_text.shown h8, whole_text.shown h9, whole_text.shown h10,
    whole_number.shown h11, whole_instant.shown h12, whole_text.shown h13⟩

/-- A payload that spells an excerpt of an order is read as the order that has what the excerpt
shows and is blank elsewhere. -/
theorem Order.excerpt_is_decoded {o : Order} (h : Excerpt o.toJson v) (hp : Spells payload v) :
    Order.decode payload = .ok (o.shownBy v) :=
  (Order.decode_eq_ok_iff hp).2 (Order.meaning_shownBy h)

def five : Figure where
  negative := false
  whole := ⟨[ascii '5'], List.forall_mem_singleton.2 (by decide), List.cons_ne_nil _ _⟩
  fraction := none
  exponent := none
  noZero _ h := absurd (List.cons.inj h).1 (by decide)

def many : Figure :=
  { five with
    negative := true
    fraction := some five.whole
    exponent := some ⟨ascii 'e', [ascii '+'], five.whole, by decide, .inr (.inl rfl)⟩ }

def bicycle : Order where
  uid := "a"
  trackNumber := "t"
  delivery := { name := "Ada", city := "Perm" }
  items := [{ price := 5, rid := "r" }, { name := "bell" }]
  smId := 5

def label : Value := .object [
  (spell "note", .array [.null, .number many, .object [(spell "items", .bool true)]]),
  (spell "items", .array [
    .object [(spell "colour", .text (spell "red")), (spell "price", .number five)], .object []]),
  (spell "delivery", .object [(spell "city", .text (spell "Perm")), (spell "zip?", .null)]),
  (.code (.ofByte (ascii 'o')) :: spell "rder_uid", .text (spell "a"))]

def lines (v : Value) : Bytes := v.tokens.flatMap fun t => newline :: t.bytes

theorem spells_lines (v : Value) : Spells (lines v) v := by
  have hall : ∀ ts : List Token, Layout ts (ts.flatMap fun t => newline :: t.bytes) := by
    intro ts
    induction ts with
    | nil => exact .nil Blank.nil
    | cons t ts ih =>
      have hblank : Blank [newline] := List.forall_mem_singleton.2 (by decide)
      simpa using Layout.cons (t := t) hblank ih
  exact hall v.tokens

theorem excerpt_label : Excerpt bicycle.toJson label := by
  have hnone : ∀ {p : Value → Prop}, ∀ w ∈ ([] : List Value), p w := List.forall_mem_nil _
  have hone : ∀ {p : Value → Prop} {w}, p w → ∀ w' ∈ [w], p w' := List.forall_mem_singleton.2
  have htext : ∀ s, Excerpt (.text s) (.text (spell s)) := fun s => .text (meant_spell s)
  have hcity : Excerpt (Delivery.shape.write bicycle.delivery)
      (.object [(spell "city", .text (spell "Perm")), (spell "zip?", .null)]) := by
    refine .object (by decide) (by decide) ?_
    simp only [Delivery.fields, List.map_cons, List.map_nil, List.forall_mem_cons]
    exact ⟨hnone, hnone, hnone, hone (htext _), hnone, hnone, hnone, List.forall_mem_nil _⟩
  have hprice : Excerpt (Item.shape.write { price := 5, rid := "r" })
      (.object [(spell "colour", .text (spell "red")), (spell "price", .number five)]) := by
    refine .object (by decide) (by decide) ?_
    simp only [Item.fields, List.map_cons, List.map_nil, List.forall_mem_cons]
    exact ⟨hnone, hnone, hone (.number (by decide)), hnone, hnone, hnone, hnone, hnone, hnone,
      hnone, hnone, List.forall_mem_nil _⟩
  have hbell : Excerpt (Item.shape.write { name := "bell" }) (.object []) :=
    .object (by decide) (by decide) fun _ _ _ hw => absurd hw List.not_mem_nil
  refine .object (by decide) (by decide) ?_
  simp only [Order.fields, List.map_cons, List.map_nil, List.forall_mem_cons]
  exact ⟨hone (.text (by decide)), hnone, hnone, hone hcity, hnone,
    hone (.array (.cons hprice (.cons hbell .nil))), hnone, hnone, hnone, hnone, hnone, hnone,
    hnone, List.forall_mem_nil _⟩

theorem Order.excerpt_is_decoded_among_others :
    Excerpt bicycle.toJson label ∧ Spells (lines label) label ∧
      Order.decode (lines label) =
        .ok { uid := "a", delivery := { city := "Perm" }, items := [{ price := 5 }, {}] } :=
  ⟨excerpt_label, spells_lines label, Order.excerpt_is_decoded excerpt_label (spells_lines label)⟩

end OrderLookup
