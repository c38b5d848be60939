import OrderLookup.Message

/-!
Dead letters: copies of messages that could not be handled. Key and payload stay as they are, and
three headers are appended, which say why, from where and when.
-/

namespace OrderLookup.Ingest

inductive Reason
  | invalidPayload
  | schemaValidation
  | businessError
deriving DecidableEq, Repr

def Reason.name : Reason → String
  | .invalidPayload => "invalid_payload"
  | .schemaValidation => "schema_validation"
  | .businessError => "business_error"

def errorHeader : String := "error"

def originHeader : String := "origin-topic"

def timestampHeader : String := "timestamp"

def deadLetter (m : Message) (reason : Reason) (cause : OrderError) (origin : String)
    (time : Instant) : Message :=
  ((m.withHeader errorHeader (Text.Utf8.encode (reason.name ++ ": " ++ cause.message))).withHeader
    originHeader (Text.Utf8.encode origin)).withHeader
    timestampHeader (Text.Utf8.encode (String.ofList time.stamp))

end OrderLookup.Ingest
