import OrderLookup.Text.Decimal
import OrderLookup.Text.Hexadecimal
import OrderLookup.Text.Utf8

/-!
Documents and their compact text: members and elements in order, no blanks, and in texts nothing
escaped but the quotation mark, the backslash and the control characters.
-/

namespace OrderLookup

inductive Json
  | null
  | bool (b : Bool)
  | number (literal : String)
  | text (s : String)
  | array (elements : List Json)
  | object (members : List (String × Json))

namespace Json

open Text

def int (n : Int) : Json := .number (String.ofList (signed n))

def nat (n : Nat) : Json := .number (String.ofList (digits n))

def escaped (c : Char) : List Char :=
  if c = '"' || c = '\\' then ['\\', c]
  else if c = '\x08' then ['\\', 'b']
  else if c = '\t' then ['\\', 't']
  else if c = '\n' then ['\\', 'n']
  else if c = '\x0c' then ['\\', 'f']
  else if c = '\r' then ['\\', 'r']
  else if c.toNat < 0x20 then ['\\', 'u', '0', '0', hexDigit (c.toNat / 16), hexDigit c.toNat]
  else [c]

def literal (s : String) : List Char := '"' :: s.toList.flatMap escaped ++ ['"']

mutual

def chars : Json → List Char
  | .null => ['n', 'u', 'l', 'l']
  | .bool true => ['t', 'r', 'u', 'e']
  | .bool false => ['f', 'a', 'l', 's', 'e']
  | .number l => l.toList
  | .text s => literal s
  | .array es => '[' :: elementChars es ++ [']']
  | .object ms => '{' :: memberChars ms ++ ['}']

def elementChars : List Json → List Char
  | [] => []
  | e :: r => chars e ++ (if r.isEmpty then [] else ',' :: elementChars r)

def memberChars : List (String × Json) → List Char
  | [] => []
  | (k, v) :: r =>
    literal k ++ ':' :: chars v ++ (if r.isEmpty then [] else ',' :: memberChars r)

end

def print (j : Json) : String := String.ofList j.chars

def bytes (j : Json) : Bytes := Utf8.encode j.print

end Json

end OrderLookup
