import Mathlib.Data.List.Nodup
import OrderLookup.Proofs.Wire.Members
import OrderLookup.Wire.OrderShape

/-!
What a record is read from, field by field. An object means a record if every key is a text, no
field is named twice, and each field is what its member means; a field that no member names stays
blank. A list means what the object means that names its elements after the fields.
-/

namespace OrderLookup

namespace Wire

variable {ρ : Type} {fields fs done : List (Component ρ)} {f g : Component ρ} {rec x y : ρ}
  {ms : List (List Glyph × Value)} {es : List Value} {k : List Glyph} {v w : Value}
  {seen : List String} {name key : String}

def named (name : String) (ms : List (List Glyph × Value)) : List Value :=
  (ms.filter fun m => meant m.1 == some name).map Prod.snd

namespace Value

/-- The members that a value has for a record: the elements of a list go by the names of the
fields. -/
def members (fields : List (Component ρ)) : Value → List (List Glyph × Value)
  | .object ms => ms
  | .array es => (fields.map fun f => spell f.name).zip es
  | _ => []

def given (fields : List (Component ρ)) (name : String) (v : Value) : List Value :=
  named name (v.members fields)

def elements : Value → List Value
  | .array es => es
  | _ => []

def Legible (fields : List (Component ρ)) : Value → Prop
  | .object ms => ∀ m ∈ ms, (meant m.1).isSome = true
  | .array es => es.length ≤ fields.length
  | _ => False

end Value

/-- Whether a field comes from the values that are given for it, at most one of them, or else from
the record that was there before. -/
def Component.Takes (f : Component ρ) (rec x : ρ) : List Value → Prop
  | [] => f.get x = f.get rec
  | [w] => f.shape.meaning w = some (f.get x)
  | _ => False

structure Independent (fields : List (Component ρ)) : Prop where
  distinct : (fields.map Component.name).Nodup
  get_set : ∀ f ∈ fields, ∀ a r, f.get (f.set a r) = a
  get_other : ∀ f ∈ fields, ∀ g ∈ fields, f.name ≠ g.name → ∀ a r, f.get (g.set a r) = f.get r
  ext : ∀ r r', (∀ f ∈ fields, f.get r = f.get r') → r = r'

theorem named_cons_of_eq (h : meant k = some name) :
    named name ((k, v) :: ms) = v :: named name ms := by
  simp [named, h]

theorem named_cons_of_ne (h : meant k ≠ some name) :
    named name ((k, v) :: ms) = named name ms := by
  simp [named, h]

theorem Independent.eq_of_name (hi : Independent fields) (hf : f ∈ fields) (hg : g ∈ fields)
    (h : f.name = g.name) : f = g :=
  List.inj_on_of_nodup_map hi.distinct hf hg h

/-- What it takes for members to be read as a record, if some names have been seen before. -/
def Taken (fields : List (Component ρ)) (seen : List String) (rec x : ρ)
    (ms : List (List Glyph × Value)) : Prop :=
  (∀ m ∈ ms, (meant m.1).isSome = true) ∧
    ∀ f ∈ fields, (f.name ∈ seen → named f.name ms = []) ∧ f.Takes rec x (named f.name ms)

theorem taken_cons_of_unknown (hk : meant k = some key)
    (hfind : (fields.find? fun f => f.name == key) = none) :
    Taken fields seen rec x ((k, v) :: ms) ↔ Taken fields seen rec x ms := by
  have hname : ∀ f ∈ fields, named f.name ((k, v) :: ms) = named f.name ms := by
    intro f hf
    refine named_cons_of_ne fun he => ?_
    have hne := List.find?_eq_none.1 hfind f hf
    rw [hk] at he
    simp [Option.some.inj he] at hne
  rw [Taken, Taken, List.forall_mem_cons]
  constructor
  · rintro ⟨⟨-, hkeys⟩, h⟩
    exact ⟨hkeys, fun f hf => hname f hf ▸ h f hf⟩
  · rintro ⟨hkeys, h⟩
    exact ⟨⟨by rw [hk]; rfl, hkeys⟩, fun f hf => (hname f hf).symm ▸ h f hf⟩

theorem Component.Takes.of_cons {ws : List Value} (h : f.Takes rec x (v :: ws)) :
    ws = [] ∧ f.shape.meaning v = some (f.get x) := by
  cases ws with
  | nil => exact ⟨rfl, h⟩
  | cons w ws => exact h.elim

theorem takes_congr {ws : List Value} (h : f.get rec = f.get y) :
    f.Takes rec x ws ↔ f.Takes y x ws := by
  rcases ws with _ | ⟨w, _ | ⟨w', ws⟩⟩
  · rw [Component.Takes, Component.Takes, h]
  · exact Iff.rfl
  · exact Iff.rfl

theorem taken_cons_of_known (hi : Independent fields) (hg : g ∈ fields)
    (hk : meant k = some g.name) :
    Taken fields seen rec x ((k, v) :: ms) ↔
      g.name ∉ seen ∧ ∃ a, g.shape.meaning v = some a ∧
        Taken fields (g.name :: seen) (g.set a rec) x ms := by
  have hown : named g.name ((k, v) :: ms) = v :: named g.name ms := named_cons_of_eq hk
  have hother : ∀ f : Component ρ, f.name ≠ g.name →
      named f.name ((k, v) :: ms) = named f.name ms := fun f hne =>
    named_cons_of_ne fun he => hne (Option.some.inj (hk.symm.trans he)).symm
  have hset : ∀ a, ∀ f ∈ fields, f.name ≠ g.name → f.get (g.set a rec) = f.get rec :=
    fun a f hf hne => hi.get_other f hf g hg hne a rec
  rw [Taken, List.forall_mem_cons]
  constructor
  · rintro ⟨⟨-, hkeys⟩, h⟩
    obtain ⟨hnew, htakes⟩ := h g hg
    rw [hown] at hnew htakes
    obtain ⟨hnone, hmeaning⟩ := htakes.of_cons
    refine ⟨fun hs => List.cons_ne_nil _ _ (hnew hs), _, hmeaning, hkeys, fun f hf => ?_⟩
    by_cases hne : f.name = g.name
    · obtain rfl := hi.eq_of_name hf hg hne
      rw [hnone]
      exact ⟨fun _ => rfl, (hi.get_set f hf _ _).symm⟩
    · obtain ⟨hseen, htakes⟩ := h f hf
      rw [hother f hne] at hseen htakes
      refine ⟨fun hs => hseen ((List.mem_cons.1 hs).resolve_left hne), ?_⟩
      exact (takes_congr (hset _ f hf hne)).2 htakes
  · rintro ⟨hseen, a, hmeaning, hkeys, h⟩
    refine ⟨⟨by rw [hk]; rfl, hkeys⟩, fun f hf => ?_⟩
    by_cases hne : f.name = g.name
    · obtain rfl := hi.eq_of_name hf hg hne
      obtain ⟨hnone, htakes⟩ := h f hf
      rw [hnone (.head _)] at htakes
      rw [hown, hnone (.head _)]
      refine ⟨fun hs => absurd hs hseen, hmeaning.trans ?_⟩
      rw [htakes.trans (hi.get_set f hf _ _)]
    · obtain ⟨hnone, htakes⟩ := h f hf
      rw [hother f hne]
      exact ⟨fun hs => hnone (.tail _ hs), (takes_congr (hset a f hf hne)).1 htakes⟩

theorem membersMeaning_eq_some_iff (hi : Independent fields) :
    membersMeaning fields seen rec ms = some x ↔ Taken fields seen rec x ms := by
  induction ms generalizing seen rec with
  | nil =>
    constructor
    · intro h
      cases h
      exact ⟨List.forall_mem_nil _, fun _ _ => ⟨fun _ => rfl, rfl⟩⟩
    · rintro ⟨-, h⟩
      exact congrArg some (hi.ext _ _ fun f hf => (h f hf).2.symm)
  | cons m ms ih =>
    obtain ⟨k, v⟩ := m
    rw [membersMeaning]
    cases hk : meant k with
    | none =>
      constructor
      · intro h
        cases h
      · intro h
        have hkey := h.1 _ (.head _)
        rw [hk] at hkey
        cases hkey
    | some key =>
      rw [Option.bind_some]
      cases hfind : fields.find? fun f => f.name == key with
      | none => exact ih.trans (taken_cons_of_unknown hk hfind).symm
      | some g =>
        have hg := List.mem_of_find?_eq_some hfind
        obtain rfl : g.name = key := by simpa using List.find?_some hfind
        rw [taken_cons_of_known hi hg hk]
        dsimp only
        split
        · rename_i hs
          have hmem : g.name ∈ seen := by simpa using hs
          exact ⟨fun h => absurd h (by simp), fun h => absurd hmem h.1⟩
        · rename_i hs
          have hmem : g.name ∉ seen := by simpa using hs
          rw [Option.bind_eq_some_iff]
          constructor
          · rintro ⟨a, ha, h⟩
            exact ⟨hmem, a, ha, ih.1 h⟩
          · rintro ⟨-, a, ha, h⟩
            exact ⟨a, ha, ih.2 h⟩

theorem positionsMeaning_eq (done : List (Component ρ)) (seen : List String)
    (hn : ((done ++ fs).map Component.name).Nodup)
    (hseen : ∀ f ∈ fs, f.name ∉ seen) :
    positionsMeaning rec fs es =
      if es.length ≤ fs.length then
        membersMeaning (done ++ fs) seen rec ((fs.map fun f => spell f.name).zip es)
      else none := by
  induction fs generalizing done es rec seen with
  | nil => cases es <;> rfl
  | cons f fs ih =>
    cases es with
    | nil => rfl
    | cons e es =>
      have hfind := find_field hn (List.mem_append_right done (.head fs))
      have hnew : ¬seen.contains f.name = true := by simpa using hseen f (.head _)
      rw [positionsMeaning, List.map_cons, List.zip_cons_cons, membersMeaning, meant_spell,
        Option.bind_some]
      simp only [hfind, if_neg hnew, List.length_cons, Nat.add_le_add_iff_right]
      cases f.shape.meaning e with
      | none => simp
      | some a =>
        rw [Option.bind_some, Option.bind_some]
        have hsplit : done ++ f :: fs = (done ++ [f]) ++ fs := by simp
        rw [hsplit] at hn ⊢
        refine ih (done ++ [f]) (f.name :: seen) hn fun g hg => ?_
        have hne : f.name ≠ g.name := by
          have hf : f.name ∈ (done ++ [f]).map Component.name := by simp
          have hg : g.name ∈ fs.map Component.name := List.mem_map_of_mem hg
          rw [List.map_append] at hn
          exact fun he => List.disjoint_of_nodup_append hn hf (he ▸ hg)
        exact List.not_mem_cons_of_ne_of_not_mem (Ne.symm hne) (hseen g (.tail _ hg))

theorem record?_eq_some_iff (hi : Independent fields) {blank : ρ} :
    v.record? fields blank = some x ↔
      v.Legible fields ∧ ∀ f ∈ fields, f.Takes blank x (v.given fields f.name) := by
  have hmembers : ∀ ms, membersMeaning fields [] blank ms = some x ↔
      (∀ m ∈ ms, (meant m.1).isSome = true) ∧ ∀ f ∈ fields, f.Takes blank x (named f.name ms) := by
    intro ms
    rw [membersMeaning_eq_some_iff hi, Taken]
    simp
  cases v
  case object ms => exact hmembers ms
  case array es =>
    have hkeys : ∀ m ∈ (fields.map fun f => spell f.name).zip es, (meant m.1).isSome = true := by
      intro m hm
      obtain ⟨f, -, hf⟩ := List.mem_map.1 (List.of_mem_zip hm).1
      rw [← hf, meant_spell]
      rfl
    rw [Value.record?, positionsMeaning_eq [] [] hi.distinct (by simp), List.nil_append]
    by_cases hle : es.length ≤ fields.length
    · rw [if_pos hle, hmembers]
      exact ⟨fun h => ⟨hle, h.2⟩, fun h => ⟨hkeys, h.2⟩⟩
    · rw [if_neg hle]
      exact ⟨fun h => absurd h (by simp), fun h => absurd h.1 hle⟩
  all_goals exact ⟨fun h => absurd h (by simp [Value.record?]), fun h => h.1.elim⟩

theorem meaning_record (hf : ∀ f ∈ fields, f.shape.Faithful) (hi : Independent fields)
    {kind : String} {blank : ρ} : (record kind fields blank).meaning v = some x ↔
      v.Legible fields ∧ ∀ f ∈ fields, f.Takes blank x (v.given fields f.name) := by
  rw [Shape.Denotes.meaning_eq (denotes_record hf v), record?_eq_some_iff hi]

end Wire

open Wire

/-! ## The records of an order -/

theorem Delivery.faithful_fields : ∀ f ∈ Delivery.fields, f.shape.Faithful := by
  simp [Delivery.fields, faithful_text]

theorem Payment.faithful_fields : ∀ f ∈ Payment.fields, f.shape.Faithful := by
  simp [Payment.fields, faithful_text, faithful_number]

theorem Item.faithful_fields : ∀ f ∈ Item.fields, f.shape.Faithful := by
  simp [Item.fields, faithful_text, faithful_number]

theorem Delivery.faithful : Delivery.shape.Faithful := faithful_record Delivery.faithful_fields

theorem Payment.faithful : Payment.shape.Faithful := faithful_record Payment.faithful_fields

theorem Item.faithful : Item.shape.Faithful := faithful_record Item.faithful_fields

theorem Order.faithful_fields : ∀ f ∈ Order.fields, f.shape.Faithful := by
  simp [Order.fields, faithful_text, faithful_number, faithful_instant, Delivery.faithful,
    Payment.faithful, faithful_list Item.faithful]

theorem Order.faithful : Order.shape.Faithful := faithful_record Order.faithful_fields

theorem Delivery.independent : Independent Delivery.fields where
  distinct := by decide
  get_set := by simp [Delivery.fields]
  get_other := by simp [Delivery.fields]
  ext := by
    intro r r' h
    cases r
    cases r'
    simpa [Delivery.fields] using h

theorem Payment.independent : Independent Payment.fields where
  distinct := by decide
  get_set := by simp [Payment.fields]
  get_other := by simp [Payment.fields]
  ext := by
    intro r r' h
    cases r
    cases r'
    simpa [Payment.fields] using h

theorem Item.independent : Independent Item.fields where
  distinct := by decide
  get_set := by simp [Item.fields]
  get_other := by simp [Item.fields]
  ext := by
    intro r r' h
    cases r
    cases r'
    simpa [Item.fields] using h

theorem Order.independent : Independent Order.fields where
  distinct := by decide
  get_set := by simp [Order.fields]
  get_other := by simp [Order.fields]
  ext := by
    intro r r' h
    cases r
    cases r'
    simpa [Order.fields] using h

/-! ## Payloads of orders -/

variable {v : Value} {o : Order} {payload : Bytes}

theorem Order.decode_eq_ok_iff (hp : Spells payload v) :
    Order.decode payload = .ok o ↔ Order.shape.meaning v = some o := by
  rw [← Order.faithful.decode hp, Order.decode]
  cases Order.shape.decode payload <;> simp [Except.toOption]

theorem Order.exists_spelled (h : Order.decode payload = .ok o) : ∃ v, Spells payload v := by
  rw [Order.decode] at h
  split at h
  · rename_i hread
    obtain ⟨v, hv, -⟩ := Order.faithful.exists_value hread
    exact ⟨v, hv⟩
  · cases h

end OrderLookup
