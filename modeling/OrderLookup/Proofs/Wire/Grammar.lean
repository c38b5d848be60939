import Mathlib.Data.List.TakeWhile
import OrderLookup.Proofs.Wire.Shape

/-!
What a document is, apart from any reader. A value is a tree whose numbers and texts are kept as
they are spelled; it stands for a list of tokens, and a payload lays these out with blanks before,
between and behind them. Two payloads that lay out the same tokens differ in their blanks alone.
-/

namespace OrderLookup.Wire

open Text

structure Hex where
  byte : UInt8
  value : Nat
  reads : hexValue byte = some value

structure Code where
  a : Hex
  b : Hex
  c : Hex
  d : Hex

def Code.bytes (c : Code) : Bytes := [c.a.byte, c.b.byte, c.c.byte, c.d.byte]

def Code.value (c : Code) : Nat :=
  c.a.value * 4096 + c.b.value * 256 + c.c.value * 16 + c.d.value

/-- A piece of a text as it is spelled: a byte that stands for itself, an escape of one letter, or
an escaped code. -/
inductive Glyph
  | plain (b : UInt8) (h : Plain b)
  | short (letter b : UInt8) (h : shortEscape letter = some b)
  | code (c : Code)

def Glyph.bytes : Glyph → Bytes
  | .plain b _ => [b]
  | .short letter _ _ => [ascii '\\', letter]
  | .code c => ascii '\\' :: ascii 'u' :: c.bytes

def spelled (t : List Glyph) : Bytes := t.flatMap Glyph.bytes

/-- What a spelling stands for, byte by byte. Codes of surrogates come in pairs, or stand for
nothing. -/
def unescaped : List Glyph → Option Bytes
  | [] => some []
  | .plain b _ :: t => (unescaped t).map (b :: ·)
  | .short _ b _ :: t => (unescaped t).map (b :: ·)
  | .code c :: t =>
    if isLow c.value then none
    else if isHigh c.value then
      match t with
      | .code d :: t =>
        if isLow d.value then
          (unescaped t).map
            (Utf8.encodeCode ((c.value - 0xD800) * 1024 + (d.value - 0xDC00) + 0x10000) ++ ·)
        else none
      | _ => none
    else (unescaped t).map (Utf8.encodeCode c.value ++ ·)

def meant (t : List Glyph) : Option String := (unescaped t).bind Utf8.decode

structure Digits where
  bytes : Bytes
  isDigit : ∀ b ∈ bytes, isDigitByte b = true
  ne_nil : bytes ≠ []

structure Exponent where
  mark : UInt8
  sign : Bytes
  digits : Digits
  isMark : isExponentMark mark = true
  isSign : sign = [] ∨ sign = [ascii '+'] ∨ sign = [ascii '-']

def Exponent.bytes (e : Exponent) : Bytes := e.mark :: (e.sign ++ e.digits.bytes)

def tailOf (fraction : Option Digits) (exponent : Option Exponent) : Bytes :=
  (fraction.map fun d => ascii '.' :: d.bytes).getD [] ++ (exponent.map Exponent.bytes).getD []

/-- A number as it is spelled. A zero in front stands alone. -/
structure Figure where
  negative : Bool
  whole : Digits
  fraction : Option Digits
  exponent : Option Exponent
  noZero : ∀ r, whole.bytes = ascii '0' :: r → r = []

namespace Figure

def sign (n : Figure) : Bytes := if n.negative then [ascii '-'] else []

def tail (n : Figure) : Bytes := tailOf n.fraction n.exponent

def bytes (n : Figure) : Bytes := n.sign ++ (n.whole.bytes ++ n.tail)

end Figure

/-- A value as a payload spells it. -/
inductive Value
  | null
  | bool (b : Bool)
  | number (n : Figure)
  | text (t : List Glyph)
  | array (elements : List Value)
  | object (members : List (List Glyph × Value))

inductive Mark
  | comma
  | colon
  | openList
  | closeList
  | openObject
  | closeObject

def Mark.byte : Mark → UInt8
  | .comma => ascii ','
  | .colon => ascii ':'
  | .openList => ascii '['
  | .closeList => ascii ']'
  | .openObject => ascii '\x7b'
  | .closeObject => ascii '\x7d'

inductive Token
  | mark (m : Mark)
  | null
  | bool (b : Bool)
  | number (n : Figure)
  | text (t : List Glyph)

def Token.bytes : Token → Bytes
  | .mark m => [m.byte]
  | .null => ['n', 'u', 'l', 'l'].map ascii
  | .bool true => ['t', 'r', 'u', 'e'].map ascii
  | .bool false => ['f', 'a', 'l', 's', 'e'].map ascii
  | .number n => n.bytes
  | .text t => ascii '"' :: (spelled t ++ [ascii '"'])

def separator (first : Bool) : List Token := if first then [] else [.mark .comma]

namespace Value

mutual

def tokens : Value → List Token
  | .null => [.null]
  | .bool b => [.bool b]
  | .number n => [.number n]
  | .text t => [.text t]
  | .array es => .mark .openList :: (elementTokens true es ++ [.mark .closeList])
  | .object ms => .mark .openObject :: (memberTokens true ms ++ [.mark .closeObject])

def elementTokens : Bool → List Value → List Token
  | _, [] => []
  | first, e :: es => separator first ++ (tokens e ++ elementTokens false es)

def memberTokens : Bool → List (List Glyph × Value) → List Token
  | _, [] => []
  | first, (k, v) :: ms =>
    separator first ++ .text k :: .mark .colon :: (tokens v ++ memberTokens false ms)

end

theorem induction {P : Value → Prop} (null : P .null) (bool : ∀ b, P (.bool b))
    (number : ∀ n, P (.number n)) (text : ∀ t, P (.text t))
    (array : ∀ es, (∀ e ∈ es, P e) → P (.array es))
    (object : ∀ ms, (∀ m ∈ ms, P m.2) → P (.object ms)) : ∀ v, P v
  | .null => null
  | .bool b => bool b
  | .number n => number n
  | .text t => text t
  | .array es => array es fun e _ => induction null bool number text array object e
  | .object ms => object ms fun m _ => induction null bool number text array object m.2
decreasing_by
  · rename_i he
    have hlt := List.sizeOf_lt_of_mem he
    simp only [Value.array.sizeOf_spec]
    omega
  · rename_i hm
    have hlt := List.sizeOf_lt_of_mem hm
    have hsnd : sizeOf m.2 < sizeOf m := by
      cases m
      simp only [Prod.mk.sizeOf_spec]
      omega
    simp only [Value.object.sizeOf_spec]
    omega

end Value

def Blank (w : Bytes) : Prop := ∀ b ∈ w, isSpace b = true

/-- Whether bytes lay out tokens, with blanks before, between and behind them. -/
inductive Layout : List Token → Bytes → Prop
  | nil {w : Bytes} : Blank w → Layout [] w
  | cons {w : Bytes} {t : Token} {ts : List Token} {r : Bytes} :
    Blank w → Layout ts r → Layout (t :: ts) (w ++ (t.bytes ++ r))

def Spells (payload : Bytes) (v : Value) : Prop := Layout v.tokens payload

def Passes (cs : List Token) (bs r : Bytes) : Prop := ∀ ts, Layout ts r → Layout (cs ++ ts) bs

def Closed (ts : List Token) : Prop := ∀ t ∈ ts.head?, ∃ m, t = .mark m

/-- What may stand behind a number: nothing that would go on with it. -/
def Cut (bs : Bytes) : Prop :=
  ∀ b ∈ bs.head?, isDigitByte b = false ∧ b ≠ ascii '.' ∧ isExponentMark b = false

inductive Kind
  | null
  | bool
  | number
  | text
  | array
  | object
deriving DecidableEq

def Value.kind : Value → Kind
  | .null => .null
  | .bool _ => .bool
  | .number _ => .number
  | .text _ => .text
  | .array _ => .array
  | .object _ => .object

def kindOf (b : UInt8) : Option Kind :=
  if startsNumber b then some .number
  else if b = ascii 'n' then some .null
  else if b = ascii 't' ∨ b = ascii 'f' then some .bool
  else if b = ascii '"' then some .text
  else if b = ascii '[' then some .array
  else if b = ascii '\x7b' then some .object
  else none

variable {bs r s w : Bytes} {t : Token} {ts cs ds : List Token} {v : Value} {b : UInt8}

theorem startsNumber_of_isDigit (h : isDigitByte b = true) : startsNumber b = true := by
  rw [startsNumber, h, Bool.or_true]

theorem Figure.opens (n : Figure) : ∃ b r, n.bytes = b :: r ∧ startsNumber b = true := by
  obtain ⟨b, r, hb⟩ := List.exists_cons_of_ne_nil n.whole.ne_nil
  have hd := startsNumber_of_isDigit (n.whole.isDigit b (hb ▸ .head _))
  rw [Figure.bytes, Figure.sign, hb]
  cases n.negative with
  | true => exact ⟨ascii '-', _, rfl, by decide⟩
  | false => exact ⟨b, _, rfl, hd⟩

theorem Token.opens (t : Token) : ∃ b r, t.bytes = b :: r ∧ isSpace b = false := by
  cases t with
  | mark m => cases m <;> exact ⟨_, _, rfl, by decide⟩
  | null => exact ⟨_, _, rfl, by decide⟩
  | bool b => cases b <;> exact ⟨_, _, rfl, by decide⟩
  | number n =>
    obtain ⟨b, r, hb, hn⟩ := n.opens
    exact ⟨b, r, hb, (startsNumber_spec hn).1⟩
  | text t => exact ⟨_, _, rfl, by decide⟩

theorem Token.text_append (t : List Glyph) (r : Bytes) :
    (Token.text t).bytes ++ r = ascii '"' :: (spelled t ++ ascii '"' :: r) := by
  rw [Token.bytes, List.cons_append, List.append_assoc, List.singleton_append]

theorem Blank.nil : Blank [] := fun _ hb => nomatch hb

theorem skipSpace_blank (hw : Blank w) (bs : Bytes) : skipSpace (w ++ bs) = skipSpace bs :=
  List.dropWhile_append_of_pos hw

theorem length_skipSpace_le (bs : Bytes) : (skipSpace bs).length ≤ bs.length :=
  List.length_dropWhile_le _ _

theorem exists_blank (bs : Bytes) : ∃ w, Blank w ∧ bs = w ++ skipSpace bs :=
  ⟨bs.takeWhile isSpace, fun _ hb => List.mem_takeWhile_imp hb,
    List.takeWhile_append_dropWhile.symm⟩

namespace Layout

theorem skipSpace_nil (h : Layout [] bs) : skipSpace bs = [] := by
  cases h with
  | nil hw => exact List.dropWhile_eq_nil_iff.2 hw

theorem skipSpace_cons (h : Layout (t :: ts) bs) :
    ∃ r, skipSpace bs = t.bytes ++ r ∧ Layout ts r ∧ r.length < bs.length := by
  cases h with
  | @cons w _ _ r hw hr =>
    obtain ⟨b, s, hb, hspace⟩ := t.opens
    refine ⟨r, ?_, hr, ?_⟩
    · rw [skipSpace_blank hw, hb, List.cons_append, Wire.skipSpace_cons hspace]
    · simp only [hb, List.length_append, List.length_cons]
      omega

theorem blank (h : Layout ts r) (hw : Blank w) : Layout ts (w ++ r) := by
  cases h with
  | nil hr => exact .nil (List.forall_mem_append.2 ⟨hw, hr⟩)
  | cons hr hs =>
    rw [← List.append_assoc]
    exact .cons (List.forall_mem_append.2 ⟨hw, hr⟩) hs

theorem of_skipSpace (h : Layout ts (skipSpace bs)) : Layout ts bs := by
  obtain ⟨w, hw, hbs⟩ := exists_blank bs
  rw [hbs]
  exact h.blank hw

theorem skip (h : Layout ts bs) : Layout ts (skipSpace bs) := by
  cases ts with
  | nil =>
    rw [h.skipSpace_nil]
    exact .nil Blank.nil
  | cons t ts =>
    obtain ⟨r, hr, hts, -⟩ := h.skipSpace_cons
    rw [hr]
    exact .cons Blank.nil hts

theorem cut (h : Layout ts bs) (hc : Closed ts) : Cut bs := by
  have hspace : ∀ {b : UInt8}, isSpace b = true →
      isDigitByte b = false ∧ b ≠ ascii '.' ∧ isExponentMark b = false := by
    intro b hb
    simp only [isSpace, Bool.or_eq_true, beq_iff_eq] at hb
    rcases hb with ((rfl | rfl) | rfl) | rfl <;> decide
  intro b hb
  cases h with
  | nil hw => exact hspace (hw b (List.mem_of_mem_head? hb))
  | @cons w t _ r hw _ =>
    cases w with
    | cons c w =>
      cases hb
      exact hspace (hw b (.head _))
    | nil =>
      obtain ⟨m, rfl⟩ := hc t rfl
      cases hb
      cases m <;> decide

theorem value (h : Layout (v.tokens ++ ts) bs) :
    ∃ b r, skipSpace bs = b :: r ∧ kindOf b = some v.kind := by
  cases v with
  | null =>
    obtain ⟨r, hr, -⟩ := h.skipSpace_cons
    exact ⟨_, _, hr, by decide⟩
  | bool b =>
    obtain ⟨r, hr, -⟩ := h.skipSpace_cons
    cases b <;> exact ⟨_, _, hr, by decide⟩
  | number n =>
    obtain ⟨r, hr, -⟩ := h.skipSpace_cons
    obtain ⟨b, s, hb, hn⟩ := n.opens
    rw [Token.bytes, hb] at hr
    exact ⟨b, _, hr, if_pos hn⟩
  | text t =>
    obtain ⟨r, hr, -⟩ := h.skipSpace_cons
    exact ⟨ascii '"', _, hr, (by decide : kindOf (ascii '"') = some .text)⟩
  | array es =>
    obtain ⟨r, hr, -⟩ := h.skipSpace_cons
    exact ⟨ascii '[', _, hr, (by decide : kindOf (ascii '[') = some .array)⟩
  | object ms =>
    obtain ⟨r, hr, -⟩ := h.skipSpace_cons
    exact ⟨ascii '\x7b', _, hr, (by decide : kindOf (ascii '\x7b') = some .object)⟩

theorem array {es : List Value} (h : Layout ((Value.array es).tokens ++ ts) bs) :
    ∃ r, Wire.skipSpace bs = ascii '[' :: r ∧
      Layout (Value.elementTokens true es ++ .mark .closeList :: ts) r ∧
      r.length < bs.length := by
  rw [Value.tokens, List.cons_append, List.append_assoc] at h
  exact h.skipSpace_cons

theorem object {ms : List (List Glyph × Value)} (h : Layout ((Value.object ms).tokens ++ ts) bs) :
    ∃ r, Wire.skipSpace bs = ascii '\x7b' :: r ∧
      Layout (Value.memberTokens true ms ++ .mark .closeObject :: ts) r ∧
      r.length < bs.length := by
  rw [Value.tokens, List.cons_append, List.append_assoc] at h
  exact h.skipSpace_cons

end Layout

namespace Passes

theorem trans (h : Passes cs bs r) (h' : Passes ds r s) : Passes (cs ++ ds) bs s := by
  intro ts hs
  rw [List.append_assoc]
  exact h _ (h' ts hs)

theorem token (h : skipSpace bs = t.bytes ++ r) : Passes [t] bs r := by
  intro ts hr
  obtain ⟨w, hw, hbs⟩ := exists_blank bs
  rw [hbs, h]
  exact .cons hw hr

theorem mark (m : Mark) (hs : Wire.skipSpace bs = b :: r) (hb : b = m.byte) :
    Passes [.mark m] bs r := token (by rw [hs, hb]; rfl)

theorem text {k : List Glyph} (hs : Wire.skipSpace bs = b :: s) (hb : b = ascii '"')
    (hk : s = spelled k ++ ascii '"' :: r) : Passes [.text k] bs r :=
  token (by rw [hs, hb, hk, Token.text_append])

theorem skipSpace (bs : Bytes) : Passes [] bs (skipSpace bs) := fun _ h => h.of_skipSpace

end Passes

end OrderLookup.Wire
