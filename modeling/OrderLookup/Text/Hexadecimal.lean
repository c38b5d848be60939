/-!
Hexadecimal digits: lower case where they are written, either case where they are read.
-/

namespace OrderLookup.Text

def hexDigit (n : Nat) : Char := Char.ofNat (if n % 16 < 10 then 48 + n % 16 else 87 + n % 16)

def hexBefore : Nat → Nat → List Char → List Char
  | 0, _, tail => tail
  | fuel + 1, n, tail =>
    if n < 16 then hexDigit n :: tail else hexBefore fuel (n / 16) (hexDigit n :: tail)

def hexDigits (n : Nat) : List Char := hexBefore (n + 1) n []

def hexValue (b : UInt8) : Option Nat :=
  if 0x30 ≤ b ∧ b ≤ 0x39 then some (b.toNat - 0x30)
  else if 0x41 ≤ b ∧ b ≤ 0x46 then some (b.toNat - 0x37)
  else if 0x61 ≤ b ∧ b ≤ 0x66 then some (b.toNat - 0x57)
  else none

theorem hexValue_hexDigit (n : Nat) :
    hexValue (UInt8.ofNat (hexDigit n).toNat) = some (n % 16) := by
  have h : ∀ k < 16, hexValue (UInt8.ofNat
      (Char.ofNat (if k < 10 then 48 + k else 87 + k)).toNat) = some k := by decide
  exact h _ (Nat.mod_lt _ (by decide))

end OrderLookup.Text
