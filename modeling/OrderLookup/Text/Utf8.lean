/-!
Text as bytes. A byte string is cut from the left into well-formed characters and broken pieces,
where a broken piece is the longest start of a character that something else interrupts, or one
byte that starts no character. Reading, replacing and measuring all go over these pieces.
-/

namespace OrderLookup

abbrev Bytes := List UInt8

namespace Text.Utf8

def trail (n : Nat) : UInt8 := UInt8.ofNat (0x80 + n % 64)

def encodeCode (n : Nat) : Bytes :=
  if n < 0x80 then [UInt8.ofNat n]
  else if n < 0x800 then [UInt8.ofNat (0xC0 + n / 64), trail n]
  else if n < 0x10000 then [UInt8.ofNat (0xE0 + n / 4096), trail (n / 64), trail n]
  else [UInt8.ofNat (0xF0 + n / 262144), trail (n / 4096), trail (n / 64), trail n]

def encodeChar (c : Char) : Bytes := encodeCode c.toNat

def encode (s : String) : Bytes := s.toList.flatMap encodeChar

inductive Piece
  | char (c : Char)
  | broken (bytes : Bytes)
deriving DecidableEq

def isTrail (b : UInt8) : Bool := 0x80 ≤ b && b ≤ 0xBF

/-- The bytes that may follow the leading byte `a`: overlong forms, surrogates and codes beyond
the last plane are cut off here. -/
def follows (a b : UInt8) : Bool :=
  if a == 0xE0 then 0xA0 ≤ b && b ≤ 0xBF
  else if a == 0xED then 0x80 ≤ b && b ≤ 0x9F
  else if a == 0xF0 then 0x90 ≤ b && b ≤ 0xBF
  else if a == 0xF4 then 0x80 ≤ b && b ≤ 0x8F
  else isTrail b

def bits (b : UInt8) : Nat := b.toNat % 64

def char2 (a b : UInt8) : Char := Char.ofNat (a.toNat % 32 * 64 + bits b)

def char3 (a b c : UInt8) : Char := Char.ofNat (a.toNat % 16 * 4096 + bits b * 64 + bits c)

def char4 (a b c d : UInt8) : Char :=
  Char.ofNat (a.toNat % 8 * 262144 + bits b * 4096 + bits c * 64 + bits d)

def width (a : UInt8) : Option Nat :=
  if a < 0x80 then some 1
  else if a < 0xC2 then none
  else if a < 0xE0 then some 2
  else if a < 0xF0 then some 3
  else if a < 0xF5 then some 4
  else none

def front (a : UInt8) (r : Bytes) : Piece :=
  match width a with
  | none => .broken [a]
  | some 1 => .char (Char.ofNat a.toNat)
  | some n =>
    match r with
    | [] => .broken [a]
    | b :: r₂ =>
      if !follows a b then .broken [a]
      else if n == 2 then .char (char2 a b)
      else match r₂ with
        | [] => .broken [a, b]
        | c :: r₃ =>
          if !isTrail c then .broken [a, b]
          else if n == 3 then .char (char3 a b c)
          else match r₃ with
            | [] => .broken [a, b, c]
            | d :: _ => if isTrail d then .char (char4 a b c d) else .broken [a, b, c]

def Piece.size : Piece → Nat
  | .char c => (encodeChar c).length
  | .broken b => b.length

/-- The pieces after the first `n` bytes, which belong to a piece already taken. -/
def piecesAfter : Nat → Bytes → List Piece
  | _, [] => []
  | 0, a :: r => front a r :: piecesAfter ((front a r).size - 1) r
  | n + 1, _ :: r => piecesAfter n r

def pieces (b : Bytes) : List Piece := piecesAfter 0 b

def chars? : List Piece → Option (List Char)
  | [] => some []
  | .char c :: r => (chars? r).map (c :: ·)
  | .broken _ :: _ => none

def decode (b : Bytes) : Option String := (chars? (pieces b)).map String.ofList

def Piece.replaced : Piece → Char
  | .char c => c
  | .broken _ => '\ufffd'

def decodeLossy (b : Bytes) : String := String.ofList ((pieces b).map Piece.replaced)

def soundLength : List Piece → Nat
  | .char c :: r => (encodeChar c).length + soundLength r
  | _ => 0

def validLength (b : Bytes) : Nat := soundLength (pieces b)

end Text.Utf8

end OrderLookup
