import OrderLookup.Wire.Fault

/-!
Reading a payload from left to right. A reader takes the bytes that are left and gives back a
value and the bytes behind it. A fault is noticed either behind the bytes consumed or one byte
further on, at the offending byte. A loop over the input carries a list at least as long as its
input, which bounds its steps.
-/

namespace OrderLookup.Wire

abbrev Reader (α : Type) := Bytes → Except Fault (α × Bytes)

variable {α : Type}

def failBehind (c : Cause) (rest : Bytes) : Except Fault α := .error ⟨c, rest.length⟩

def failAt (c : Cause) (rest : Bytes) : Except Fault α := .error ⟨c, rest.length - 1⟩

def ascii (c : Char) : UInt8 := UInt8.ofNat c.toNat

def isSpace (b : UInt8) : Bool := b == 0x20 || b == 0x0A || b == 0x09 || b == 0x0D

def skipSpace (bs : Bytes) : Bytes := bs.dropWhile isSpace

def isDigitByte (b : UInt8) : Bool := 0x30 ≤ b && b ≤ 0x39

def word : List Char → Reader Unit
  | [], bs => .ok ((), bs)
  | _ :: _, [] => failBehind .endOfValue []
  | c :: cs, b :: r => if b = ascii c then word cs r else failBehind .expectedWord r

def colon : Reader Unit := fun bs =>
  match skipSpace bs with
  | [] => failAt .endOfObject []
  | b :: r => if b = ascii ':' then .ok ((), r) else failAt .expectedColon (b :: r)

/-- Whether another element follows in a list; leaves the bracket that ends the list unread. -/
def nextElement (first : Bool) : Reader Bool := fun bs =>
  match skipSpace bs with
  | [] => failAt .endOfList []
  | b :: r =>
    if b = ascii ']' then .ok (false, b :: r)
    else if first then .ok (true, b :: r)
    else if b = ascii ',' then
      match skipSpace r with
      | [] => failAt .endOfValue []
      | c :: t => if c = ascii ']' then failAt .trailingComma (c :: t) else .ok (true, c :: t)
    else failAt .expectedListEnd (b :: r)

def nextMember (first : Bool) : Reader Bool := fun bs =>
  match skipSpace bs with
  | [] => failAt .endOfObject []
  | b :: r =>
    if b = ascii '}' then .ok (false, b :: r)
    else if first then
      if b = ascii '"' then .ok (true, r) else failAt .keyNotText (b :: r)
    else if b = ascii ',' then
      match skipSpace r with
      | [] => failAt .endOfValue []
      | c :: t =>
        if c = ascii '"' then .ok (true, t)
        else if c = ascii '}' then failAt .trailingComma (c :: t)
        else failAt .keyNotText (c :: t)
    else failAt .expectedObjectEnd (b :: r)

def closeList : Reader Unit := fun bs =>
  match skipSpace bs with
  | [] => failAt .endOfList []
  | b :: r =>
    if b = ascii ']' then .ok ((), r)
    else if b = ascii ',' then
      match skipSpace r with
      | [] => failAt .trailingCharacters []
      | c :: t =>
        failAt (if c = ascii ']' then .trailingComma else .trailingCharacters) (c :: t)
    else failAt .trailingCharacters (b :: r)

/-- What is left behind an object that a fault inside it cuts short. -/
def behindObject (bs : Bytes) : Bytes :=
  match skipSpace bs with
  | [] => []
  | b :: r => if b = ascii '}' then r else b :: r

end OrderLookup.Wire
