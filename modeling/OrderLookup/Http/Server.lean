import OrderLookup.Http.Request
import OrderLookup.Http.Response
import OrderLookup.Order.Validation
import OrderLookup.Resolver
import OrderLookup.Wire.OrderShape

/-!
The server answers requests one after another: it shows orders, takes new ones, and reports on the
cache and on itself. Asking only for the head of an answer gives the same answer without its body,
and asking for the options of a path never fails. The requests number their operations.
-/

namespace OrderLookup.Http

structure Server where
  resolver : Resolver
  requests : Nat := 0

namespace Server

def bodyLimit : Nat := 2097152

def tooLong : Response :=
  .text 413 "Failed to buffer the request body: length limit exceeded"

def badSegment : Response := .text 400 "Invalid URL: Invalid UTF-8 in `order_uid`"

def perform (s : Server) (a : Resolver.Action) : Option Resolver.Reply × Server :=
  let r := s.resolver.perform s.requests a
  (r.reply? s.requests, ⟨r, s.requests + 1⟩)

def report : Option Resolver.Reply → Response
  | some (.found (.ok o)) => .document 200 o.toJson
  | some (.found (.error e)) => .ofError e
  | some (.stored (.ok uid)) => .document 201 (createdDocument uid)
  | some (.stored (.error e)) => .ofError e
  | _ => .empty 500

def showOrder (s : Server) (segment : String) : Response × Server :=
  match uidOf segment with
  | none => (badSegment, s)
  | some uid =>
    let (reply, s) := s.perform (.get uid)
    (report reply, s)

/-- Reads the order in a body and has it stored; what is wrong with the order is told as a store
that refuses it would tell it. -/
def takeOrder (s : Server) (body : Bytes) : Option Resolver.Reply × Server :=
  match Order.decode body with
  | .error e => (some (.stored (.error e)), s)
  | .ok o =>
    match o.validate with
    | .error e => (some (.stored (.error e)), s)
    | .ok _ => s.perform (.create o)

def createOrder (s : Server) (body : Bytes) : Response × Server :=
  if bodyLimit < body.length then (tooLong, s)
  else
    let (reply, s) := s.takeOrder body
    (report reply, s)

def showStats (s : Server) : Response :=
  .document 200 (statsDocument s.resolver.cache.stats s.resolver.cache.capacity)

def refuse (route : Route) : Response := (Response.empty 405).allowing route.methods

def view (s : Server) (time : String) : Route → Response × Server
  | .order segment => s.showOrder segment
  | .stats => (s.showStats, s)
  | .health => (.document 200 (healthDocument time), s)
  | .orders => (refuse .orders, s)

def serve (s : Server) (time : String) (route : Route) (r : Request) : Response × Server :=
  match r.method, route with
  | .options, _ => ((Response.empty 200).allowing route.methods, s)
  | .post, .orders => s.createOrder r.body
  | .get, _ => s.view time route
  | .head, _ =>
    let (response, s) := s.view time route
    (response.withoutBody, s)
  | _, _ => (refuse route, s)

def respond (s : Server) (time : String) (r : Request) : Response × Server :=
  match Route.ofPath? r.path with
  | some route =>
    let (response, s) := s.serve time route r
    (response.shared, s)
  | none => ((Response.empty (if r.method = .options then 200 else 404)).shared, s)

end Server

end OrderLookup.Http
