import Mathlib.Data.List.TakeWhile
import OrderLookup.Http.Server
import OrderLookup.Proofs.Text.Utf8
import OrderLookup.Proofs.Wire.Numeral

/-!
How paths spell ids. A path may spell each byte of an id with a percent sign and two hexadecimal
digits, and so name every id that is not empty, whatever characters are in it.
-/

namespace OrderLookup.Http

open Text
open Wire (ascii)

def IsHex (c : Char) (n : Nat) : Prop := c = hexDigit n ∨ c = (hexDigit n).toUpper

/-- Whether characters spell bytes, each with a percent sign and two digits. -/
inductive Spells : List Char → Bytes → Prop
  | nil : Spells [] []
  | cons {high low : Char} {cs : List Char} {b : UInt8} {bs : Bytes}
      (hh : IsHex high (b.toNat / 16)) (hl : IsHex low b.toNat) (rest : Spells cs bs) :
      Spells ('%' :: high :: low :: cs) (b :: bs)

def Plain (c : Char) : Prop := c ≠ '/' ∧ c ≠ '?' ∧ c ≠ '#'

variable {c : Char} {cs : List Char} {bs : Bytes} {n : Nat} {uid : String}

theorem IsHex.spec (h : IsHex c n) :
    c.toNat < 0x80 ∧ hexValue (ascii c) = some (n % 16) ∧ Plain c := by
  have hall : ∀ k < 16, ∀ c : Char, c = hexDigit k ∨ c = (hexDigit k).toUpper →
      c.toNat < 0x80 ∧ hexValue (ascii c) = some k ∧ Plain c := by
    simp only [Plain]
    rintro k hk c (rfl | rfl) <;> revert k <;> decide
  have hdigit : hexDigit n = hexDigit (n % 16) := by rw [hexDigit, hexDigit, Nat.mod_mod]
  exact hall (n % 16) (Nat.mod_lt _ (by decide)) c (hdigit ▸ h)

namespace Spells

theorem ascii (h : Spells cs bs) : ∀ c ∈ cs, c.toNat < 0x80 ∧ Plain c := by
  have hsign : '%'.toNat < 0x80 ∧ Plain '%' := by
    simp only [Plain]
    decide
  induction h with
  | nil => intro c hc; cases hc
  | cons hh hl _ ih =>
    simp only [List.forall_mem_cons]
    exact ⟨hsign, ⟨hh.spec.1, hh.spec.2.2⟩, ⟨hl.spec.1, hl.spec.2.2⟩, ih⟩

theorem decode (h : Spells cs bs) : Percent.decode (cs.map Wire.ascii) = bs := by
  induction h with
  | nil => rfl
  | @cons high low cs b bs hh hl _ ih =>
    have hescaped :
        Percent.escaped (Wire.ascii '%') (Wire.ascii high) (Wire.ascii low) = some b := by
      have hb : b.toNat < 256 := b.toNat_lt
      have hs : b.toNat / 16 % 16 * 16 + b.toNat % 16 = b.toNat := by omega
      have hsign : Wire.ascii '%' = Percent.sign := rfl
      rw [Percent.escaped, if_pos hsign, hh.spec.2.1, hl.spec.2.1]
      simp [hs]
    rw [List.map_cons, List.map_cons, List.map_cons, Percent.decode, hescaped]
    exact congrArg (b :: ·) ih

theorem uidOf (h : Spells cs (Utf8.encode uid)) : uidOf (String.ofList cs) = some uid := by
  have hbytes : Utf8.encode (String.ofList cs) = cs.map Wire.ascii := by
    rw [Utf8.encode, String.toList_ofList]
    exact Wire.encode_ascii fun c hc => (h.ascii c hc).1
  rw [Http.uidOf, hbytes, h.decode, Utf8.decode_encode]

end Spells

theorem segments_of_plain (h : ∀ c ∈ cs, Plain c) : segments cs = [cs] := by
  induction cs with
  | nil => rfl
  | cons c cs ih =>
    obtain ⟨hc, hcs⟩ := List.forall_mem_cons.1 h
    rw [segments, if_neg hc.1, ih hcs]

theorem ofPath?_order {r : Request} (hr : r.target = "/order/" ++ String.ofList cs)
    (h : ∀ c ∈ cs, Plain c) (hne : cs ≠ []) :
    Route.ofPath? r.path = some (.order (String.ofList cs)) := by
  have htarget : r.target.toList = '/' :: 'o' :: 'r' :: 'd' :: 'e' :: 'r' :: '/' :: cs := by
    simp [hr]
  have hquery : withoutQuery r.target.toList = r.target.toList := by
    have hplain : ∀ c ∈ cs, c ≠ '?' ∧ c ≠ '#' := fun c hc => (h c hc).2
    rw [withoutQuery, List.takeWhile_eq_self_iff, htarget]
    simpa using hplain
  have hpath : r.path = r.target.toList := by
    rw [Request.path, hquery, htarget]
    rfl
  have hname : String.ofList cs ≠ "" := by
    intro he
    have hempty := congrArg String.toList he
    rw [String.toList_ofList] at hempty
    exact hne hempty
  rw [hpath, htarget]
  simp [Route.ofPath?, segments, segments_of_plain h, hname]

end OrderLookup.Http
