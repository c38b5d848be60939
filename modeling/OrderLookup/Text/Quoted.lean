import OrderLookup.Text.Hexadecimal
import OrderLookup.Text.Unprintable

/-!
A text between quotation marks, as diagnostics show it.
-/

namespace OrderLookup.Text

def shown (c : Char) : List Char :=
  if c = '\x00' then ['\\', '0']
  else if c = '\t' then ['\\', 't']
  else if c = '\n' then ['\\', 'n']
  else if c = '\r' then ['\\', 'r']
  else if c = '"' || c = '\\' then ['\\', c]
  else if isUnprintable c then "\\u\x7b".toList ++ hexDigits c.toNat ++ ['\x7d']
  else [c]

def quoted (s : String) : String := String.ofList ('"' :: s.toList.flatMap shown ++ ['"'])

end OrderLookup.Text
