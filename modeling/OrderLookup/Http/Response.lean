import OrderLookup.Http.Document

/-!
Answers to requests, and the status that tells how an order failed.
-/

namespace OrderLookup.Http

open Text

structure Response where
  status : Nat
  headers : List (String × String) := []
  body : Bytes := []
deriving DecidableEq, Repr

def errorStatus : OrderError → Nat
  | .notFound _ => 404
  | .validation _ => 400
  | .invalidPayload _ => 400
  | .timeout _ => 504
  | .source _ => 503
  | .store _ => 500
  | .deadLetter _ => 500

namespace Response

def empty (status : Nat) : Response := { status := status }

def document (status : Nat) (j : Json) : Response where
  status := status
  headers := [("content-type", "application/json")]
  body := j.bytes

def text (status : Nat) (s : String) : Response where
  status := status
  headers := [("content-type", "text/plain; charset=utf-8")]
  body := Utf8.encode s

def ofError (e : OrderError) : Response := document (errorStatus e) (errorDocument e)

def withHeader (r : Response) (name value : String) : Response :=
  { r with headers := r.headers ++ [(name, value)] }

def allowing (r : Response) (methods : String) : Response := r.withHeader "allow" methods

def shared (r : Response) : Response := r.withHeader "access-control-allow-origin" "*"

def withoutBody (r : Response) : Response := { r with body := [] }

end Response

end OrderLookup.Http
