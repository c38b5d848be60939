import OrderLookup.Text.Hexadecimal
import OrderLookup.Text.Utf8

/-!
Bytes as paths carry them: a percent sign and two hexadecimal digits stand for one byte. A percent
sign that no two digits follow stands for itself.
-/

namespace OrderLookup.Text.Percent

def sign : UInt8 := 0x25

def escaped (a b c : UInt8) : Option UInt8 :=
  if a = sign then
    match hexValue b, hexValue c with
    | some h, some l => some (UInt8.ofNat (h * 16 + l))
    | _, _ => none
  else none

def decode : Bytes → Bytes
  | a :: b :: c :: r =>
    match escaped a b c with
    | some v => v :: decode r
    | none => a :: decode (b :: c :: r)
  | r => r

end OrderLookup.Text.Percent
