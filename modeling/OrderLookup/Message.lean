import OrderLookup.Order.Sample
import OrderLookup.Wire.OrderShape

/-!
Messages as brokers carry them: an optional key, a payload and headers, all of raw bytes. A header
name may occur several times; the last occurrence counts.
-/

namespace OrderLookup

structure Header where
  name : String
  value : Bytes
deriving DecidableEq

structure Message where
  key : Option Bytes := none
  value : Bytes := []
  headers : List Header := []
deriving DecidableEq

namespace Message

open Text

def withHeader (m : Message) (name : String) (value : Bytes) : Message :=
  { m with headers := m.headers ++ [⟨name, value⟩] }

def header (m : Message) (name : String) : Option Bytes :=
  (m.headers.reverse.find? fun h => h.name = name).map Header.value

def headerText (m : Message) (name : String) : Option String := (m.header name).bind Utf8.decode

/-- The key as a text for reports, with replacement characters where it is broken. -/
def keyText (m : Message) : String := (m.key.map Utf8.decodeLossy).getD ""

def ofOrder (o : Order) : Message where
  key := some (Utf8.encode o.uid)
  value := o.wireBytes

def samples (n : Nat) : List Message := (List.range n).map fun i => ofOrder (Order.sample (i + 1))

end Message

end OrderLookup
