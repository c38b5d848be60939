import OrderLookup.Instant.Rfc3339
import OrderLookup.Number.Shortest
import OrderLookup.Text.Quoted
import OrderLookup.Text.Utf8

/-!
Why a payload is refused, and where. A fault knows how many bytes were left when it was noticed,
from which the line and the column follow.
-/

namespace OrderLookup.Wire

inductive Numeral
  | integer (n : Int)
  | float (bits : UInt64)
deriving DecidableEq, Repr

inductive Found
  | null
  | bool (b : Bool)
  | number (n : Numeral)
  | text (s : String)
  | sequence
  | map
deriving DecidableEq, Repr

inductive Cause
  | endOfValue
  | endOfList
  | endOfObject
  | endOfText
  | expectedValue
  | expectedWord
  | expectedColon
  | expectedListEnd
  | expectedObjectEnd
  | trailingComma
  | trailingCharacters
  | keyNotText
  | badNumber
  | numberRange
  | controlCharacter
  | badEscape
  | unpairedEscape
  | loneSurrogate
  | badCharacter
  | wrongType (found : Found) (expected : String)
  | tooLarge (n : Int) (expected : String)
  | duplicate (name : String)
  | badInstant (f : Instant.Fault)
deriving DecidableEq, Repr

structure Fault where
  cause : Cause
  left : Nat
deriving DecidableEq, Repr

def Found.message : Found → String
  | .null => "null"
  | .bool b => "boolean `" ++ (if b then "true" else "false") ++ "`"
  | .number (.integer n) => "integer `" ++ String.ofList (Text.signed n) ++ "`"
  | .number (.float b) =>
    "floating point `" ++ String.ofList (Number.bitsText b.toNat) ++ "`"
  | .text s => "string " ++ Text.quoted s
  | .sequence => "sequence"
  | .map => "map"

def Cause.message : Cause → String
  | .endOfValue => "EOF while parsing a value"
  | .endOfList => "EOF while parsing a list"
  | .endOfObject => "EOF while parsing an object"
  | .endOfText => "EOF while parsing a string"
  | .expectedValue => "expected value"
  | .expectedWord => "expected ident"
  | .expectedColon => "expected `:`"
  | .expectedListEnd => "expected `,` or `]`"
  | .expectedObjectEnd => "expected `,` or `\x7d`"
  | .trailingComma => "trailing comma"
  | .trailingCharacters => "trailing characters"
  | .keyNotText => "key must be a string"
  | .badNumber => "invalid number"
  | .numberRange => "number out of range"
  | .controlCharacter => "control character (\\u0000-\\u001F) found while parsing a string"
  | .badEscape => "invalid escape"
  | .unpairedEscape => "unexpected end of hex escape"
  | .loneSurrogate => "lone leading surrogate in hex escape"
  | .badCharacter => "invalid unicode code point"
  | .wrongType found expected => "invalid type: " ++ found.message ++ ", expected " ++ expected
  | .tooLarge n expected =>
    "invalid value: integer `" ++ String.ofList (Text.signed n) ++ "`, expected " ++ expected
  | .duplicate name => "duplicate field `" ++ name ++ "`"
  | .badInstant f => f.message

def newline : UInt8 := 10

/-- The line, from 1 on, and the column of the byte after the given ones. -/
def position (before : Bytes) : Nat × Nat :=
  (1 + before.count newline, (before.reverse.takeWhile (· ≠ newline)).length)

def Fault.message (f : Fault) (payload : Bytes) : String :=
  let (line, column) := position (payload.take (payload.length - f.left))
  f.cause.message ++ " at line " ++ String.ofList (Text.digits line) ++
    " column " ++ String.ofList (Text.digits column)

end OrderLookup.Wire
