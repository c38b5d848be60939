import OrderLookup.Proofs.Wire.Fields

/-!
The records that an order is made of, wherever a payload spells them: the order itself, its
delivery, its payment and its items. None of them can be read if it names a field twice, and each
is an object or a list.
-/

namespace OrderLookup

namespace Wire

variable {ρ : Type} {fields : List (Component ρ)} {f : Component ρ} {blank x : ρ} {title : String}
  {v w : Value} {ws : List Value}

def Ambiguous (fields : List (Component ρ)) (v : Value) : Prop :=
  ∃ f ∈ fields, 1 < (v.given fields f.name).length

instance : Decidable (Ambiguous fields v) := List.decidableBEx _ _

theorem Component.Takes.length_le (h : f.Takes blank x ws) : ws.length ≤ 1 := by
  rcases ws with _ | ⟨w, _ | ⟨w', ws⟩⟩
  · exact Nat.zero_le _
  · exact Nat.le_refl _
  · exact h.elim

theorem Component.Takes.meaning (h : f.Takes blank x ws) (hw : w ∈ ws) :
    f.shape.meaning w = some (f.get x) := by
  rcases ws with _ | ⟨w, _ | ⟨w', ws⟩⟩
  · cases hw
  · exact List.mem_singleton.1 hw ▸ h
  · exact h.elim

theorem kind_of_legible (h : v.Legible fields) : v.kind = .object ∨ v.kind = .array := by
  cases v
  case object => exact .inl rfl
  case array => exact .inr rfl
  all_goals exact h.elim

theorem of_meaning_record (hf : ∀ f ∈ fields, f.shape.Faithful) (hi : Independent fields)
    (h : (record title fields blank).meaning v = some x) :
    (v.kind = .object ∨ v.kind = .array) ∧ ¬Ambiguous fields v ∧
      ∀ f ∈ fields, f.Takes blank x (v.given fields f.name) := by
  obtain ⟨hlegible, htakes⟩ := (meaning_record hf hi).1 h
  refine ⟨kind_of_legible hlegible, ?_, htakes⟩
  rintro ⟨f, hfield, hmany⟩
  exact absurd (htakes f hfield).length_le (Nat.not_le.2 hmany)

end Wire

open Wire

namespace Order

variable {v w : Value} {o : Order} {payload : Bytes}

def given (name : String) (v : Value) : List Value := v.given fields name

def records (v : Value) : List Value :=
  v :: (given "delivery" v ++ (given "payment" v ++ (given "items" v).flatMap Value.elements))

def Ambiguous (v : Value) : Prop :=
  Wire.Ambiguous fields v ∨ (∃ w ∈ given "delivery" v, Wire.Ambiguous Delivery.fields w) ∨
    (∃ w ∈ given "payment" v, Wire.Ambiguous Payment.fields w) ∨
    ∃ w ∈ given "items" v, ∃ i ∈ w.elements, Wire.Ambiguous Item.fields i

instance : Decidable (Ambiguous v) :=
  inferInstanceAs (Decidable (Wire.Ambiguous fields v ∨
    (∃ w ∈ given "delivery" v, Wire.Ambiguous Delivery.fields w) ∨
    (∃ w ∈ given "payment" v, Wire.Ambiguous Payment.fields w) ∨
    ∃ w ∈ given "items" v, ∃ i ∈ w.elements, Wire.Ambiguous Item.fields i))

/-- Whether a value has the documented shape: every record is an object, and the items are a
list. -/
def Documented (v : Value) : Prop :=
  (∀ u ∈ records v, u.kind = .object) ∧ ∀ w ∈ given "items" v, w.kind = .array

theorem of_meaning (h : shape.meaning v = some o) :
    (v.kind = .object ∨ v.kind = .array) ∧ ¬Wire.Ambiguous fields v ∧
      (∀ w ∈ given "delivery" v, Delivery.shape.meaning w = some o.delivery) ∧
      (∀ w ∈ given "payment" v, Payment.shape.meaning w = some o.payment) ∧
      (given "items" v = [] ∧ o.items = [] ∨
        ∃ w, given "items" v = [w] ∧ w.list? Item.shape.meaning = some o.items) := by
  obtain ⟨hkind, hone, htakes⟩ := of_meaning_record faithful_fields independent h
  replace htakes : ∀ f ∈ fields, f.Takes {} o (given f.name v) := htakes
  simp only [fields, List.forall_mem_cons] at htakes
  obtain ⟨-, -, -, hdelivery, hpayment, hitems, -⟩ := htakes
  refine ⟨hkind, hone, fun w hw => hdelivery.meaning hw, fun w hw => hpayment.meaning hw, ?_⟩
  rcases hws : given "items" v with _ | ⟨w, _ | ⟨w', ws⟩⟩
  · rw [hws] at hitems
    exact .inl ⟨rfl, hitems⟩
  · rw [hws] at hitems
    refine .inr ⟨w, rfl, ?_⟩
    rw [← Shape.Denotes.meaning_eq (denotes_list Item.faithful w)]
    exact hitems
  · rw [hws] at hitems
    exact hitems.elim

theorem of_meaning_items (h : shape.meaning v = some o) :
    ∀ w ∈ given "items" v, ∀ e ∈ w.elements, ∃ i, Item.shape.meaning e = some i := by
  obtain ⟨-, -, -, -, ⟨hnone, -⟩ | ⟨w, hw, hlist⟩⟩ := of_meaning h
  · simp [hnone]
  · rw [hw, List.forall_mem_singleton]
    rcases list?_cases hlist with ⟨rfl, -⟩ | ⟨es, rfl, hes⟩
    · exact List.forall_mem_nil _
    · exact exists_of_mapM hes

theorem not_ambiguous (h : shape.meaning v = some o) : ¬Ambiguous v := by
  obtain ⟨-, hone, hdelivery, hpayment, -⟩ := of_meaning h
  rintro (ha | ⟨w, hw, ha⟩ | ⟨w, hw, ha⟩ | ⟨w, hw, e, he, ha⟩)
  · exact hone ha
  · exact (of_meaning_record Delivery.faithful_fields Delivery.independent (hdelivery w hw)).2.1 ha
  · exact (of_meaning_record Payment.faithful_fields Payment.independent (hpayment w hw)).2.1 ha
  · obtain ⟨i, hi⟩ := of_meaning_items h w hw e he
    exact (of_meaning_record Item.faithful_fields Item.independent hi).2.1 ha

theorem kind_of_record (h : shape.meaning v = some o) :
    ∀ u ∈ records v, u.kind = .object ∨ u.kind = .array := by
  obtain ⟨hkind, -, hdelivery, hpayment, -⟩ := of_meaning h
  intro u hu
  rcases List.mem_cons.1 hu with rfl | hu
  · exact hkind
  rcases List.mem_append.1 hu with hu | hu
  · exact (of_meaning_record Delivery.faithful_fields Delivery.independent (hdelivery u hu)).1
  rcases List.mem_append.1 hu with hu | hu
  · exact (of_meaning_record Payment.faithful_fields Payment.independent (hpayment u hu)).1
  · obtain ⟨w, hw, he⟩ := List.mem_flatMap.1 hu
    obtain ⟨i, hi⟩ := of_meaning_items h w hw u he
    exact (of_meaning_record Item.faithful_fields Item.independent hi).1

theorem items_of_meaning (h : shape.meaning v = some o) (ho : o.items ≠ []) :
    ∃ es, es ≠ [] ∧ given "items" v = [.array es] := by
  obtain ⟨-, -, -, -, ⟨-, hnone⟩ | ⟨w, hw, hlist⟩⟩ := of_meaning h
  · exact absurd hnone ho
  · rcases list?_cases hlist with ⟨-, hnone⟩ | ⟨es, rfl, hes⟩
    · exact absurd hnone ho
    · refine ⟨es, ?_, hw⟩
      rintro rfl
      exact ho (Option.some.inj hes).symm

end Order

end OrderLookup
