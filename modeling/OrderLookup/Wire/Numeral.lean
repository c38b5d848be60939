import OrderLookup.Wire.Scan

/-!
Numbers in a document. A number without point and exponent that fits a machine word is a whole
number; any other is a floating-point one, which takes its value from the leading digits that fit
an unsigned word and from a power of ten.
-/

namespace OrderLookup.Wire

def maxUnsigned : Nat := 18446744073709551615

def maxSigned : Nat := 9223372036854775807

def digitOf (b : UInt8) : Nat := b.toNat - 0x30

/-- Takes digits as long as the number fits an unsigned word, and counts the others. -/
def accumulate (n : Nat) : Bytes → Nat × Nat
  | [] => (n, 0)
  | b :: r =>
    let m := n * 10 + digitOf b
    if maxUnsigned < m then (n, (b :: r).length) else accumulate m r

def power (e : Nat) : Float := Float.ofScientific 1 false e

/-- The number `f * 10 ^ e`, in steps that the powers in range allow; nothing if it is too large. -/
def scaled : Nat → Float → Int → Option Float
  | 0, f, _ => some f
  | n + 1, f, e =>
    if e.natAbs ≤ 308 then
      if 0 ≤ e then
        let g := f * power e.natAbs
        if g.isInf then none else some g
      else some (f / power e.natAbs)
    else if f == 0 then some f
    else if 0 ≤ e then none
    else scaled n (f / power 308) (e + 308)

def floatOf (positive : Bool) (f : Float) : Numeral := .float (if positive then f else -f).toBits

def parts (positive : Bool) (n : Nat) (e : Int) : Reader Numeral := fun rest =>
  match scaled (e.natAbs + 1) (UInt64.ofNat n).toFloat e with
  | some f => .ok (floatOf positive f, rest)
  | none => failBehind .numberRange rest

/-- Reads the digits of an exponent after the first one; stops behind the digit with which the
exponent outgrows a word of 32 bits. -/
def exponentDigits (e : Nat) : Bytes → Option Nat × Bytes
  | [] => (some e, [])
  | b :: r =>
    if isDigitByte b then
      let m := e * 10 + digitOf b
      if 2147483647 < m then (none, r) else exponentDigits m r
    else (some e, b :: r)

def exponentSign : Bytes → Bool × Bytes
  | [] => (true, [])
  | b :: r =>
    if b = ascii '+' then (true, r)
    else if b = ascii '-' then (false, r)
    else (true, b :: r)

def exponent (positive : Bool) (n : Nat) (start : Int) : Reader Numeral := fun bs =>
  match exponentSign bs with
  | (_, []) => failBehind .endOfValue []
  | (up, b :: r) =>
    if isDigitByte b then
      match exponentDigits (digitOf b) r with
      | (some e, r) => parts positive n (if up then start + e else start - e) r
      | (none, r) =>
        if n ≠ 0 && up then failBehind .numberRange r
        else .ok (floatOf positive 0, r.dropWhile isDigitByte)
    else failBehind .badNumber r

def isExponentMark (b : UInt8) : Bool := b == ascii 'e' || b == ascii 'E'

def decimals (positive : Bool) (n : Nat) (start : Int) : Reader Numeral := fun bs =>
  let d := bs.takeWhile isDigitByte
  let r := bs.dropWhile isDigitByte
  if d.isEmpty then failAt (if bs.isEmpty then .endOfValue else .badNumber) bs
  else
    let (m, dropped) := accumulate n d
    let e := start - (d.length - dropped : Nat)
    match r with
    | b :: t => if isExponentMark b then exponent positive m e t else parts positive m e r
    | [] => parts positive m e r

def afterDigits (positive : Bool) (n dropped : Nat) : Reader Numeral := fun bs =>
  let whole : Except Fault (Numeral × Bytes) :=
    if 0 < dropped then parts positive n dropped bs
    else if positive then .ok (.integer n, bs)
    else if n = 0 || maxSigned + 1 < n then .ok (floatOf false (UInt64.ofNat n).toFloat, bs)
    else .ok (.integer (-n), bs)
  match bs with
  | [] => whole
  | b :: r =>
    if b = ascii '.' then decimals positive n dropped r
    else if isExponentMark b then exponent positive n dropped r
    else whole

def magnitude (positive : Bool) : Reader Numeral
  | [] => failBehind .endOfValue []
  | b :: r =>
    if b = ascii '0' then
      match r with
      | d :: _ => if isDigitByte d then failAt .badNumber r else afterDigits positive 0 0 r
      | [] => afterDigits positive 0 0 r
    else if isDigitByte b then
      let (n, dropped) := accumulate 0 (b :: r.takeWhile isDigitByte)
      afterDigits positive n dropped (r.dropWhile isDigitByte)
    else failBehind .badNumber r

def startsNumber (b : UInt8) : Bool := b == ascii '-' || isDigitByte b

def readNumeral : Reader Numeral
  | [] => failBehind .endOfValue []
  | b :: r => if b = ascii '-' then magnitude false r else magnitude true (b :: r)

def skipExponent : Reader Unit := fun bs =>
  match (exponentSign bs).2 with
  | [] => failBehind .badNumber []
  | b :: r => if isDigitByte b then .ok ((), r.dropWhile isDigitByte) else failBehind .badNumber r

def skipDecimals : Reader Unit := fun bs =>
  if (bs.takeWhile isDigitByte).isEmpty then failAt .badNumber bs
  else match bs.dropWhile isDigitByte with
    | b :: r => if isExponentMark b then skipExponent r else .ok ((), b :: r)
    | [] => .ok ((), [])

def skipAfterDigits : Reader Unit
  | [] => .ok ((), [])
  | b :: r =>
    if b = ascii '.' then skipDecimals r
    else if isExponentMark b then skipExponent r
    else .ok ((), b :: r)

def skipMagnitude : Reader Unit
  | [] => failBehind .badNumber []
  | b :: r =>
    if b = ascii '0' then
      match r with
      | d :: _ => if isDigitByte d then failAt .badNumber r else skipAfterDigits r
      | [] => .ok ((), [])
    else if isDigitByte b then skipAfterDigits (r.dropWhile isDigitByte)
    else failBehind .badNumber r

end OrderLookup.Wire
