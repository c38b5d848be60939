import OrderLookup.Wire.Json
import OrderLookup.Wire.Skip

/-!
Shapes: how values of a type are written into a document and read from one. A record has a shape
as soon as its fields have one; its members may come in any order and may be missing, unknown
members are passed over, and a member that comes twice is refused. A list may stand for a record
too, with the fields in their order.
-/

namespace OrderLookup.Wire

structure Shape (α : Type) where
  write : α → Json
  read : Reader α

structure Component (ρ : Type) where
  name : String
  {α : Type}
  get : ρ → α
  set : α → ρ → ρ
  shape : Shape α

variable {α ρ : Type}

/-- The fault of a value that is not of the expected kind; its own faults come first. -/
def mismatch (expected : String) : Bytes → Except Fault α
  | [] => failAt .expectedValue []
  | b :: r =>
    let wrong (found : Found) (rest : Bytes) : Except Fault α :=
      failBehind (.wrongType found expected) rest
    if b = ascii 'n' then do
      let (_, r) ← word ['u', 'l', 'l'] r
      wrong .null r
    else if b = ascii 't' then do
      let (_, r) ← word ['r', 'u', 'e'] r
      wrong (.bool true) r
    else if b = ascii 'f' then do
      let (_, r) ← word ['a', 'l', 's', 'e'] r
      wrong (.bool false) r
    else if startsNumber b then do
      let (n, r) ← readNumeral (b :: r)
      wrong (.number n) r
    else if b = ascii '"' then do
      let (s, r) ← readText r
      wrong (.text s) r
    else if b = ascii '[' then wrong .sequence (b :: r)
    else if b = ascii '{' then wrong .map (b :: r)
    else failAt .expectedValue (b :: r)

def atValue (k : UInt8 → Bytes → Except Fault (α × Bytes)) : Reader α := fun bs =>
  match skipSpace bs with
  | [] => failAt .endOfValue []
  | b :: r => k b r

def quotedText (expected : String) : Reader String :=
  atValue fun b r => if b = ascii '"' then readText r else mismatch expected (b :: r)

def text : Shape String := ⟨.text, quotedText "a string"⟩

def readWord : Reader Int64 :=
  atValue fun b r =>
    if startsNumber b then do
      let (n, r) ← readNumeral (b :: r)
      match n with
      | .integer n =>
        if n ≤ maxSigned then return (Int64.ofInt n, r) else failBehind (.tooLarge n "i64") r
      | .float _ => failBehind (.wrongType (.number n) "i64") r
    else mismatch "i64" (b :: r)

def number : Shape Int64 := ⟨fun n => .int n.toInt, readWord⟩

def readInstant : Reader Instant := fun bs => do
  let (s, r) ← quotedText "an RFC 3339 formatted date and time string" bs
  match Instant.read s.toList with
  | .ok t => return (t, r)
  | .error f => failBehind (.badInstant f) r

def instant : Shape Instant := ⟨fun t => .text (String.ofList t.text), readInstant⟩

def elementsFrom (read : Reader α) : Bytes → Bool → List α → Reader (List α)
  | [], _, _, bs => failAt .endOfList bs
  | _ :: bound, first, seen, bs => do
    let (more, r) ← nextElement first bs
    if more then
      let (v, r) ← read r
      elementsFrom read bound false (v :: seen) r
    else return (seen.reverse, r.drop 1)

/-- Reads a list; the word `null` stands for the empty one. -/
def readList (read : Reader α) : Reader (List α) :=
  atValue fun b r =>
    if b = ascii 'n' then (word ['u', 'l', 'l'] r).map fun p => ([], p.2)
    else if b = ascii '[' then elementsFrom read (b :: r) true [] r
    else mismatch "a sequence" (b :: r)

def list (s : Shape α) : Shape (List α) := ⟨fun l => .array (l.map s.write), readList s.read⟩

def membersFrom (fields : List (Component ρ)) : Bytes → Bool → List String → ρ → Reader ρ
  | [], _, _, _, bs => failAt .endOfObject bs
  | _ :: bound, first, seen, record, bs => do
    let (more, r) ← nextMember first bs
    if more then
      let (key, r) ← readText r
      match fields.find? fun f => f.name == key with
      | some f =>
        if seen.contains key then failBehind (.duplicate key) (behindObject r)
        else
          let (_, r) ← colon r
          let (v, r) ← f.shape.read r
          membersFrom fields bound false (key :: seen) (f.set v record) r
      | none =>
        let (_, r) ← colon r
        let (_, r) ← skipValue r
        membersFrom fields bound false seen record r
    else return (record, r.drop 1)

/-- Reads fields by position; the ones that are not there stay as they are. -/
def positionsFrom : List (Component ρ) → Bool → ρ → Reader ρ
  | [], _, record, bs => .ok (record, bs)
  | f :: fields, first, record, bs => do
    let (more, r) ← nextElement first bs
    if more then
      let (v, r) ← f.shape.read r
      positionsFrom fields false (f.set v record) r
    else return (record, r)

def readRecord (kind : String) (fields : List (Component ρ)) (blank : ρ) : Reader ρ :=
  atValue fun b r =>
    if b = ascii '{' then membersFrom fields (b :: r) true [] blank r
    else if b = ascii '[' then do
      let (v, r) ← positionsFrom fields true blank r
      let (_, r) ← closeList r
      return (v, r)
    else mismatch ("struct " ++ kind) (b :: r)

def record (kind : String) (fields : List (Component ρ)) (blank : ρ) : Shape ρ :=
  ⟨fun r => .object (fields.map fun f => (f.name, f.shape.write (f.get r))),
    readRecord kind fields blank⟩

def Shape.decode (s : Shape α) (payload : Bytes) : Except Fault α := do
  let (v, r) ← s.read payload
  match skipSpace r with
  | [] => return v
  | b :: t => failAt .trailingCharacters (b :: t)

end OrderLookup.Wire
