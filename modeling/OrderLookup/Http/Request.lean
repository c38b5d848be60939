import OrderLookup.Text.Percent

/-!
Requests and the routes that they ask for. A path matches a route exactly; the id of an order is
one segment that is not empty, with percent signs undone.
-/

namespace OrderLookup.Http

open Text

inductive Method
  | get
  | head
  | post
  | options
  | other
deriving DecidableEq, Repr

def Method.ofName : String → Method
  | "GET" => .get
  | "HEAD" => .head
  | "POST" => .post
  | "OPTIONS" => .options
  | _ => .other

structure Request where
  method : Method
  target : String
  body : Bytes := []
deriving DecidableEq

inductive Route
  | orders
  | order (segment : String)
  | stats
  | health
deriving DecidableEq, Repr

def segments : List Char → List (List Char)
  | [] => [[]]
  | c :: r =>
    if c = '/' then [] :: segments r
    else match segments r with
      | s :: l => (c :: s) :: l
      | [] => [[c]]

def withoutHost : List Char → List Char
  | [] => []
  | c :: r =>
    match c, r with
    | ':', '/' :: '/' :: r => r.dropWhile (· ≠ '/')
    | _, r => withoutHost r

def withoutQuery (target : List Char) : List Char :=
  target.takeWhile fun c => c ≠ '?' && c ≠ '#'

/-- The path of a target, which may name a host in front of it and a query behind it. -/
def Request.path (r : Request) : List Char :=
  let t := withoutQuery r.target.toList
  if t.head? = some '/' then t else withoutHost t

namespace Route

def ofPath? (path : List Char) : Option Route :=
  match (segments path).map String.ofList with
  | ["", "order"] => some .orders
  | ["", "order", s] => if s = "" then none else some (.order s)
  | ["", "stats"] => some .stats
  | ["", "healthz"] => some .health
  | _ => none

def methods : Route → String
  | .orders => "POST"
  | _ => "GET,HEAD"

end Route

/-- The id that a segment stands for; there is none if it does not stand for a text. -/
def uidOf (segment : String) : Option String :=
  Utf8.decode (Percent.decode (Utf8.encode segment))

end OrderLookup.Http
