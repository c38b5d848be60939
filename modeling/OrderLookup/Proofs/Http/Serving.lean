import OrderLookup.Http.Server
import OrderLookup.Proofs.Resolver.ReadBack

/-!
Requests beside each other. A request that needs an operation begins it when it comes, and is
answered when the operation is. Meanwhile other requests come, others begin operations, and what is
under way goes on. Answering requests one after another is the case in which everything that is
under way comes to its end after each.
-/

namespace OrderLookup.Http

open Resolver (Coherent Leads Manned Move Reply Single clock)

def writeOf? (body : Bytes) : Option Resolver.Action :=
  if Server.bodyLimit < body.length then none
  else
    match Order.decode body with
    | .error _ => none
    | .ok o =>
      match o.validate with
      | .error _ => none
      | .ok _ => some (.create o)

def lookupOf? : Route → Option Resolver.Action
  | .order segment => (uidOf segment).map .get
  | _ => none

namespace Request

/-- The operation that a request needs, if it is not answered without one. -/
def operation? (r : Request) : Option Resolver.Action :=
  match r.method, Route.ofPath? r.path with
  | .post, some .orders => writeOf? r.body
  | .get, some route => lookupOf? route
  | .head, some route => lookupOf? route
  | _, _ => none

def tell (r : Request) (reply : Option Reply) : Response :=
  let response := Server.report reply
  (if r.method = .head then response.withoutBody else response).shared

end Request

/-- What can happen next to a server: a request comes, somebody else begins an operation, or what
is under way goes on. -/
inductive Turn
  | request (r : Request)
  | begin (a : Resolver.Action)
  | go (m : Move)

def Turn.numbers : Turn → Nat
  | .go _ => 0
  | _ => 1

namespace Server

/-- The move of the resolver that comes with a turn; what goes on begins nothing. -/
def moveOf? (s : Server) : Turn → Option Move
  | .request r => r.operation?.map (.start s.requests)
  | .begin a => some (.start s.requests a)
  | .go m => if m.started = [] then some m else none

def turn (s : Server) (t : Turn) : Server :=
  ⟨s.resolver.run (s.moveOf? t).toList, s.requests + t.numbers⟩

def run (s : Server) (ts : List Turn) : Server := ts.foldl turn s

def moves (s : Server) : List Turn → List Move
  | [] => []
  | t :: ts => (s.moveOf? t).toList ++ (s.turn t).moves ts

def upserts (s : Server) (ts : List Turn) : List Order := s.resolver.upserts (s.moves ts)

def settle (s : Server) : Server := ⟨clock.drain s.resolver.proceed, s.requests⟩

def answer? (s : Server) (r : Request) (number : Nat) : Option Response :=
  (s.resolver.reply? number).map fun reply => r.tell (some reply)

end Server

/-- Whether a server can be in a state when its requests come beside each other. -/
inductive Reached : Server → Prop
  | start (settings : Settings) (capacity : Nat) (orders : List Order) (script : Script) :
      Reached ⟨.ofParts settings capacity (Repository.ofOrders orders) script, 0⟩
  | turn {s : Server} (h : Reached s) (t : Turn) : Reached (s.turn t)

variable {s : Server} {r : Request} {a : Resolver.Action} {ts ts' : List Turn} {i number : Nat}
  {response : Response}

theorem Request.operation?_eq_some (h : r.operation? = some a) :
    (∃ uid, a = .get uid) ∨ ∃ o, a = .create o := by
  have hlookup : ∀ {route : Route}, lookupOf? route = some a → ∃ uid, a = .get uid := by
    intro route hl
    cases route with
    | order segment =>
      obtain ⟨uid, -, hu⟩ := Option.map_eq_some_iff.1 hl
      exact ⟨uid, hu.symm⟩
    | _ => cases hl
  rw [operation?] at h
  split at h
  · rw [writeOf?] at h
    split at h
    · cases h
    · split at h
      · cases h
      · split at h
        · cases h
        · exact .inr ⟨_, (Option.some.inj h).symm⟩
  · exact .inl (hlookup h)
  · exact .inl (hlookup h)
  · cases h

namespace Server

theorem turn_request (h : r.operation? = some a) (s : Server) :
    s.turn (.request r) = ⟨s.resolver.start s.requests a, s.requests + 1⟩ := by
  rw [turn, moveOf?, h]
  rfl

theorem createOrder_of_write {body : Bytes} (h : writeOf? body = some a) (s : Server) :
    s.createOrder body = (report (s.perform a).1, (s.perform a).2) := by
  rw [writeOf?] at h
  rw [createOrder]
  split at h
  · cases h
  · rename_i hlimit
    rw [if_neg hlimit, takeOrder]
    cases hd : Order.decode body with
    | error e =>
      rw [hd] at h
      cases h
    | ok o =>
      rw [hd] at h
      dsimp only at h ⊢
      cases hv : o.validate with
      | error e =>
        rw [hv] at h
        cases h
      | ok _ =>
        rw [hv] at h
        rw [← Option.some.inj h]

theorem createOrder_of_none {body : Bytes} (h : writeOf? body = none) (s : Server) :
    (s.createOrder body).2 = s := by
  rw [writeOf?] at h
  rw [createOrder]
  split at h
  · rename_i hlimit
    rw [if_pos hlimit]
  · rename_i hlimit
    rw [if_neg hlimit, takeOrder]
    cases hd : Order.decode body with
    | error e => rfl
    | ok o =>
      rw [hd] at h
      dsimp only at h ⊢
      cases hv : o.validate with
      | error e => rfl
      | ok _ =>
        rw [hv] at h
        cases h

theorem view_of_none {route : Route} (h : lookupOf? route = none) (s : Server) (time : String) :
    (s.view time route).2 = s := by
  cases route with
  | order segment =>
    rw [view, showOrder, Option.map_eq_none_iff.1 h]
  | _ => rfl

theorem view_of_lookup {route : Route} (h : lookupOf? route = some a) (s : Server)
    (time : String) : s.view time route = (report (s.perform a).1, (s.perform a).2) := by
  cases route with
  | order segment =>
    obtain ⟨uid, hu, rfl⟩ := Option.map_eq_some_iff.1 h
    rw [view, showOrder, hu]
  | _ => cases h

theorem respond_of_operation (h : r.operation? = some a) (s : Server) (time : String) :
    s.respond time r =
      (r.tell ((s.turn (.request r)).settle.resolver.reply? s.requests),
        (s.turn (.request r)).settle) := by
  have hturn : (s.turn (.request r)).settle = (s.perform a).2 := by
    rw [turn_request h]
    rfl
  have hreply : (s.perform a).2.resolver.reply? s.requests = (s.perform a).1 := rfl
  rw [hturn, hreply, Request.tell]
  obtain ⟨method, target, body⟩ := r
  rw [Request.operation?] at h
  split at h
  · rename_i hm hr
    cases hm
    have hserve : s.serve time .orders ⟨.post, target, body⟩ = s.createOrder body := rfl
    rw [respond, hr]
    dsimp only
    rw [hserve, createOrder_of_write h]
    rfl
  · rename_i route hm hr
    cases hm
    have hserve : s.serve time route ⟨.get, target, body⟩ = s.view time route := by
      cases route <;> rfl
    rw [respond, hr]
    dsimp only
    rw [hserve, view_of_lookup h]
    rfl
  · rename_i route hm hr
    cases hm
    have hserve : s.serve time route ⟨.head, target, body⟩ =
        ((s.view time route).1.withoutBody, (s.view time route).2) := by
      cases route <;> rfl
    rw [respond, hr]
    dsimp only
    rw [hserve, view_of_lookup h]
    rfl
  · cases h

theorem respond_of_none (h : r.operation? = none) (s : Server) (time : String) :
    (s.respond time r).2 = s := by
  obtain ⟨method, target, body⟩ := r
  rw [Request.operation?] at h
  rw [respond]
  dsimp only at h
  cases hr : Route.ofPath? (Request.path ⟨method, target, body⟩) with
  | none => rfl
  | some route =>
    rw [hr] at h
    dsimp only
    cases method with
    | options => rfl
    | other => cases route <;> rfl
    | get =>
      have hserve : s.serve time route ⟨.get, target, body⟩ = s.view time route := by
        cases route <;> rfl
      rw [hserve]
      exact view_of_none h s time
    | head =>
      have hserve : (s.serve time route ⟨.head, target, body⟩).2 = (s.view time route).2 := by
        cases route <;> rfl
      rw [hserve]
      exact view_of_none h s time
    | post =>
      cases route with
      | orders => exact createOrder_of_none h s
      | _ => rfl

@[simp] theorem run_nil (s : Server) : s.run [] = s := rfl

@[simp] theorem run_cons (s : Server) (t : Turn) (ts : List Turn) :
    s.run (t :: ts) = (s.turn t).run ts := rfl

theorem run_append (s : Server) (ts ts' : List Turn) : s.run (ts ++ ts') = (s.run ts).run ts' :=
  List.foldl_append

theorem run_concat (s : Server) (ts : List Turn) (t : Turn) :
    s.run (ts ++ [t]) = (s.run ts).turn t := by
  rw [run_append, run_cons, run_nil]

theorem run_resolver (s : Server) (ts : List Turn) :
    (s.run ts).resolver = s.resolver.run (s.moves ts) := by
  induction ts generalizing s with
  | nil => rfl
  | cons t ts ih => rw [run_cons, ih, moves, Resolver.run_append, turn]

theorem moves_append (s : Server) (ts ts' : List Turn) :
    s.moves (ts ++ ts') = s.moves ts ++ (s.run ts).moves ts' := by
  induction ts generalizing s with
  | nil => rfl
  | cons t ts ih => simp [moves, ih]

@[simp] theorem upserts_nil (s : Server) : s.upserts [] = [] := rfl

theorem upserts_append (s : Server) (ts ts' : List Turn) :
    s.upserts (ts ++ ts') = s.upserts ts ++ (s.run ts).upserts ts' := by
  rw [upserts, moves_append, Resolver.upserts_append, ← run_resolver]
  rfl

theorem moves_request (h : r.operation? = some a) (s : Server) (ts : List Turn) :
    s.moves (.request r :: ts) = .start s.requests a :: (s.turn (.request r)).moves ts := by
  rw [moves, moveOf?, h]
  rfl

theorem moves_prefix {before after : List Move} (h : s.moves ts = before ++ after) :
    ∃ past rest, ts = past ++ rest ∧ s.moves past = before := by
  induction ts generalizing s before with
  | nil => exact ⟨[], [], rfl, (List.append_eq_nil_iff.1 h.symm).1.symm⟩
  | cons t ts ih =>
    rw [moves] at h
    cases before with
    | nil => exact ⟨[], t :: ts, rfl, rfl⟩
    | cons m before =>
      cases hm : s.moveOf? t with
      | none =>
        rw [hm] at h
        obtain ⟨past, rest, rfl, hpast⟩ := ih h
        exact ⟨t :: past, rest, rfl, by rw [moves, hm, hpast]; rfl⟩
      | some n =>
        rw [hm] at h
        obtain ⟨rfl, hrest⟩ := List.cons.inj h
        obtain ⟨past, rest, rfl, hpast⟩ := ih hrest
        exact ⟨t :: past, rest, rfl, by rw [moves, hm, hpast]; rfl⟩

theorem begin_of_moves (h : .start i a ∈ s.moves ts) :
    .begin a ∈ ts ∨ ∃ r, r.operation? = some a ∧ .request r ∈ ts := by
  induction ts generalizing s with
  | nil => cases h
  | cons t ts ih =>
    rcases List.mem_append.1 h with h | h
    · cases t with
      | request r =>
        obtain ⟨b, hb, he⟩ := Option.map_eq_some_iff.1 (Option.mem_toList.1 h)
        exact .inr ⟨r, (Move.start.inj he).2 ▸ hb, .head _⟩
      | begin b =>
        rw [(Move.start.inj (Option.some.inj (Option.mem_toList.1 h))).2]
        exact .inl (.head _)
      | go m =>
        have hm := Option.mem_toList.1 h
        rw [moveOf?] at hm
        split at hm
        · rename_i hnone
          rw [Option.some.inj hm] at hnone
          cases hnone
        · cases hm
    · exact (ih h).imp (.tail _) fun ⟨r, hr, hmem⟩ => ⟨r, hr, .tail _ hmem⟩

theorem begin_of_unrequested (h : .start i a ∈ s.moves ts) (hget : ∀ uid, a ≠ .get uid)
    (hcreate : ∀ o, a ≠ .create o) : .begin a ∈ ts := by
  rcases begin_of_moves h with hbegin | ⟨r, hr, -⟩
  · exact hbegin
  · rcases Request.operation?_eq_some hr with ⟨uid, hu⟩ | ⟨o, ho⟩
    · exact absurd hu (hget uid)
    · exact absurd ho (hcreate o)

theorem started_turn (s : Server) (t : Turn) :
    Resolver.started (s.moveOf? t).toList = [] ∨
      Resolver.started (s.moveOf? t).toList = [s.requests] ∧
        (s.turn t).requests = s.requests + 1 := by
  cases t with
  | request r =>
    rw [moveOf?]
    cases r.operation? with
    | none => exact .inl rfl
    | some a => exact .inr ⟨rfl, rfl⟩
  | begin a => exact .inr ⟨rfl, rfl⟩
  | go m =>
    rw [moveOf?]
    split
    · rename_i hm
      exact .inl (by simp [hm])
    · exact .inl rfl

theorem requests_le_turn (s : Server) (t : Turn) : s.requests ≤ (s.turn t).requests :=
  Nat.le_add_right ..

theorem started_moves (s : Server) (ts : List Turn) :
    (Resolver.started (s.moves ts)).Nodup ∧
      ∀ i ∈ Resolver.started (s.moves ts), s.requests ≤ i := by
  induction ts generalizing s with
  | nil => exact ⟨List.nodup_nil, by simp [moves]⟩
  | cons t ts ih =>
    obtain ⟨hnodup, hle⟩ := ih (s.turn t)
    have hlater : ∀ i ∈ Resolver.started ((s.turn t).moves ts), s.requests ≤ i :=
      fun i hi => Nat.le_trans (s.requests_le_turn t) (hle i hi)
    rw [moves, Resolver.started_append]
    rcases s.started_turn t with he | ⟨he, hnext⟩
    · rw [he]
      exact ⟨hnodup, hlater⟩
    · rw [he, List.singleton_append, List.nodup_cons]
      refine ⟨⟨fun hi => ?_, hnodup⟩, fun i hi => ?_⟩
      · have hself := hle _ hi
        omega
      · rcases List.mem_cons.1 hi with rfl | hi
        · exact Nat.le_refl _
        · exact hlater i hi

theorem nodup_moves (s : Server) (ts : List Turn) :
    (List.range s.requests ++ Resolver.started (s.moves ts)).Nodup := by
  obtain ⟨hnodup, hle⟩ := s.started_moves ts
  rw [List.nodup_append]
  refine ⟨List.nodup_range, hnodup, fun i hi j hj => ?_⟩
  have hlt := List.mem_range.1 hi
  have hge := hle j hj
  omega

/-- What holds of a server between two turns. -/
structure Steady (s : Server) : Prop where
  coherent : Coherent (List.range s.requests) s.resolver
  manned : Manned s.resolver
  single : Single s.resolver
  stored : ∃ held, s.resolver.repository.HoldsOnly held

theorem Steady.turn (h : s.Steady) (t : Turn) : (s.turn t).Steady := by
  have hn : (List.range s.requests ++ Resolver.started (s.moveOf? t).toList).Nodup := by
    simpa [moves] using s.nodup_moves [t]
  obtain ⟨held, hr⟩ := h.stored
  have hrun := h.coherent.run hn
  constructor
  case coherent =>
    refine hrun.mono fun i hi => List.mem_range.2 ?_
    rcases s.started_turn t with he | ⟨he, hnext⟩
    · rw [he, List.append_nil, List.mem_range] at hi
      exact Nat.lt_of_lt_of_le hi (s.requests_le_turn t)
    · rw [he, ← List.range_succ, List.mem_range] at hi
      exact hnext ▸ hi
  case manned => exact h.manned.run h.coherent hn
  case single => exact h.single.run h.coherent h.manned hn
  case stored => exact ⟨_, Resolver.holdsOnly_run hr _⟩

theorem settle_eq_run (s : Server) :
    ∃ rest, Resolver.operations rest = [] ∧ s.moves (rest.map .go) = rest ∧
      s.settle = s.run (rest.map .go) := by
  have hleads : Leads s.resolver [] s.settle.resolver :=
    (Leads.proceed _).trans (Leads.advanceFor none _ _)
  obtain ⟨rest, hops, hrun⟩ := hleads
  have hquiet : ∀ m ∈ rest, m.started = [] := by
    have hstarted : Resolver.started rest = [] := Resolver.started_eq_nil hops
    exact List.flatMap_eq_nil_iff.1 hstarted
  -- Moves that begin nothing are turns of their own, and use up no number.
  have hgo : ∀ (rest : List Move) (s : Server), (∀ m ∈ rest, m.started = []) →
      s.moves (rest.map .go) = rest ∧ (s.run (rest.map .go)).requests = s.requests := by
    intro rest
    induction rest with
    | nil => exact fun s _ => ⟨rfl, rfl⟩
    | cons m rest ih =>
      intro s hq
      obtain ⟨hm, hrest⟩ := List.forall_mem_cons.1 hq
      obtain ⟨hmoves, hnumber⟩ := ih (s.turn (.go m)) hrest
      rw [List.map_cons, moves, hmoves, moveOf?, if_pos hm]
      exact ⟨rfl, hnumber⟩
  obtain ⟨hmoves, hnumber⟩ := hgo rest s hquiet
  refine ⟨rest, hops, hmoves, ?_⟩
  have hresolver : s.settle.resolver = (s.run (rest.map .go)).resolver := by
    rw [run_resolver, hmoves, hrun]
  have hrequests : s.settle.requests = (s.run (rest.map .go)).requests := hnumber.symm
  calc s.settle = ⟨s.settle.resolver, s.settle.requests⟩ := rfl
    _ = ⟨(s.run (rest.map .go)).resolver, (s.run (rest.map .go)).requests⟩ := by
      rw [hresolver, hrequests]

theorem exists_of_answer? (h : s.answer? r number = some response) :
    ∃ f ∈ s.resolver.finished, f.id = number ∧ response = r.tell (some f.reply) := by
  rw [answer?, Resolver.reply?, Resolver.finish?, Option.map_map] at h
  obtain ⟨f, hf, he⟩ := Option.map_eq_some_iff.1 h
  exact ⟨f, List.mem_of_find?_eq_some hf, by simpa using List.find?_some hf, he.symm⟩

theorem answer?_eq_none_iff :
    s.answer? r number = none ↔ ∀ f ∈ s.resolver.finished, f.id ≠ number := by
  simp [answer?, Resolver.reply?, Resolver.finish?]

theorem run_request (h : r.operation? = some a) (s : Server) (ts : List Turn) :
    (s.run (.request r :: ts)).resolver =
      s.resolver.run (.start s.requests a :: (s.turn (.request r)).moves ts) := by
  rw [run_resolver, moves_request h]

theorem nodup_request (h : r.operation? = some a) (s : Server) (ts : List Turn) :
    (List.range s.requests ++
      s.requests :: Resolver.started ((s.turn (.request r)).moves ts)).Nodup := by
  have hn := s.nodup_moves (.request r :: ts)
  rwa [moves_request h] at hn

theorem move_of_answer {ts : List Turn} {t : Turn} {number : Nat}
    (hopen : (s.run ts).answer? r number = none)
    (ha : (s.run (ts ++ [t])).answer? r number = some response) :
    ∃ m, (s.run ts).moveOf? t = some m ∧ s.moves (ts ++ [t]) = s.moves ts ++ [m] := by
  cases hm : (s.run ts).moveOf? t with
  | none =>
    obtain ⟨f, hf, hi, -⟩ := exists_of_answer? ha
    rw [run_concat, turn, hm] at hf
    exact absurd hi (answer?_eq_none_iff.1 hopen f hf)
  | some m =>
    refine ⟨m, rfl, ?_⟩
    rw [moves_append, moves, hm]
    rfl

theorem Steady.operation_of_answer (h : s.Steady) {ts : List Turn}
    (ha : (s.run (.request r :: ts)).answer? r s.requests = some response) :
    ∃ a, r.operation? = some a := by
  by_contra hnone
  have hr : r.operation? = none := Option.eq_none_iff_forall_ne_some.2 fun a ha => hnone ⟨a, ha⟩
  have hmoves : s.moves (.request r :: ts) = (s.turn (.request r)).moves ts := by
    rw [moves, moveOf?, hr]
    rfl
  have hcoherent := h.coherent.run (s.nodup_moves (.request r :: ts))
  obtain ⟨f, hf, hi, -⟩ := exists_of_answer? ha
  rw [run_resolver] at hf
  rcases List.mem_append.1 (hcoherent.finished f hf) with hold | hnew
  · exact Nat.lt_irrefl _ (hi ▸ List.mem_range.1 hold)
  · rw [hmoves] at hnew
    have hlater : s.requests + 1 ≤ f.id := (started_moves _ ts).2 f.id hnew
    omega

end Server

namespace Reached

theorem steady (h : Reached s) : s.Steady := by
  induction h with
  | start settings capacity orders script =>
    exact ⟨.ofParts .., .ofParts .., .ofParts .., orders, .ofOrders orders⟩
  | turn _ t ih => exact ih.turn t

theorem run (h : Reached s) (ts : List Turn) : Reached (s.run ts) := by
  induction ts generalizing s with
  | nil => exact h
  | cons t ts ih => exact ih (h.turn t)

theorem settle (h : Reached s) : Reached s.settle := by
  obtain ⟨rest, -, -, he⟩ := s.settle_eq_run
  exact he ▸ h.run _

theorem respond (h : Reached s) (time : String) (r : Request) :
    Reached (s.respond time r).2 := by
  cases hr : r.operation? with
  | none => exact (Server.respond_of_none hr s time).symm ▸ h
  | some a =>
    rw [Server.respond_of_operation hr]
    exact (h.turn _).settle

end Reached

end OrderLookup.Http
