import OrderLookup.Text.Hexadecimal
import OrderLookup.Wire.Scan

/-!
Texts between quotation marks. `readText` undoes the escapes and insists on well-formed
characters; `skipText` passes over a text that nobody wants to know.
-/

namespace OrderLookup.Wire

open Text

def hexEscape : Reader Nat
  | a :: b :: c :: d :: r =>
    match hexValue a, hexValue b, hexValue c, hexValue d with
    | some a, some b, some c, some d => .ok (a * 4096 + b * 256 + c * 16 + d, r)
    | _, _, _, _ => failBehind .badEscape r
  | _ => failBehind .endOfText []

def shortEscape (b : UInt8) : Option UInt8 :=
  if b = ascii '"' then some 0x22
  else if b = ascii '\\' then some 0x5C
  else if b = ascii '/' then some 0x2F
  else if b = ascii 'b' then some 0x08
  else if b = ascii 'f' then some 0x0C
  else if b = ascii 'n' then some 0x0A
  else if b = ascii 'r' then some 0x0D
  else if b = ascii 't' then some 0x09
  else none

def isHigh (n : Nat) : Bool := 0xD800 ≤ n && n ≤ 0xDBFF

def isLow (n : Nat) : Bool := 0xDC00 ≤ n && n ≤ 0xDFFF

def lowHalf : Reader Nat
  | [] => failBehind .endOfText []
  | b :: r =>
    if b = ascii '\\' then
      match r with
      | [] => failBehind .endOfText []
      | c :: t => if c = ascii 'u' then hexEscape t else failBehind .unpairedEscape t
    else failBehind .unpairedEscape r

/-- Reads an escaped code, which may take a pair of escapes, from its digits on. -/
def codeEscape : Reader Bytes := fun bs => do
  let (n, r) ← hexEscape bs
  if isLow n then failBehind .loneSurrogate r
  else if isHigh n then
    let (m, r) ← lowHalf r
    if isLow m then
      return (Utf8.encodeCode ((n - 0xD800) * 1024 + (m - 0xDC00) + 0x10000), r)
    else failBehind .loneSurrogate r
  else return (Utf8.encodeCode n, r)

def escape : Reader Bytes
  | [] => failBehind .endOfText []
  | b :: r =>
    match shortEscape b with
    | some c => .ok ([c], r)
    | none => if b = ascii 'u' then codeEscape r else failBehind .badEscape r

def contentFrom : Bytes → Bytes → Reader Bytes
  | [], _, bs => failBehind .endOfText bs
  | _ :: _, _, [] => failBehind .endOfText []
  | _ :: bound, seen, b :: r =>
    if b = ascii '"' then .ok (seen.reverse, r)
    else if b = ascii '\\' then do
      let (e, r) ← escape r
      contentFrom bound (e.reverse ++ seen) r
    else if b < 0x20 then failBehind .controlCharacter r
    else contentFrom bound (b :: seen) r

def content : Reader Bytes := fun bs => contentFrom (0 :: bs) [] bs

/-- Reads a text from behind its opening quotation mark on. A broken character is reported where
it would stand if the content ended where the text does. -/
def readText : Reader String := fun bs => do
  let (c, r) ← content bs
  match Utf8.decode c with
  | some s => return (s, r)
  | none => .error ⟨.badCharacter, r.length + (c.length - Utf8.validLength c)⟩

def skipEscape : Reader Unit
  | [] => failBehind .endOfText []
  | b :: r =>
    if (shortEscape b).isSome then .ok ((), r)
    else if b = ascii 'u' then (hexEscape r).map fun p => ((), p.2)
    else failBehind .badEscape r

def skipTextFrom : Bytes → Reader Unit
  | [], bs => failBehind .endOfText bs
  | _ :: _, [] => failBehind .endOfText []
  | _ :: bound, b :: r =>
    if b = ascii '"' then .ok ((), r)
    else if b = ascii '\\' then do
      let (_, r) ← skipEscape r
      skipTextFrom bound r
    else if b < 0x20 then failBehind .controlCharacter (b :: r)
    else skipTextFrom bound r

def skipText : Reader Unit := fun bs => skipTextFrom (0 :: bs) bs

end OrderLookup.Wire
