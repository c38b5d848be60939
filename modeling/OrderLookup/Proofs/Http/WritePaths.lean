import OrderLookup.Http.Server
import OrderLookup.Proofs.Ingest.Isolation
import OrderLookup.Proofs.Resolver.Closing

/-!
There are two ways for an order into the store: a message carries it, or the body of a request.
Both take the same bytes for the same order, refuse them for the same cause, and leave the same
store, whatever else is under way.
-/

namespace OrderLookup.Http

open Ingest (Worker examine Outcome parcel)
open Resolver (Coherent Settled Leads Event Reply Writes closing absorb answer verdict clock)

/-- Whether a resolver ends with the store that it would have had anyway. -/
structure Unchanged (s s' : Resolver) : Prop where
  repository : s'.repository = s.repository ∨ s'.repository = (clock.drain s).repository
  atRest : s.flights = [] → s'.repository = s.repository

/-- Whether a resolver ends with an order in its store, and else as it would have anyway; another
write of the same id that is under way may come later. -/
structure Took (s s' : Resolver) (o : Order) : Prop where
  repository : (∀ f ∈ s.flights, ¬Writes f o.uid) → ∀ uid,
    s'.repository.orders.get? uid =
      if o.uid = uid then some o else (clock.drain s).repository.orders.get? uid
  atRest : s.flights = [] → s'.repository = s.repository.put o

variable {s : Resolver} {ids : List Nat} {id : Nat} {o : Order} {m : Message} {w : Worker}
  {server : Server} {cause : OrderError}

theorem Unchanged.refl (s : Resolver) : Unchanged s s := ⟨.inl rfl, fun _ => rfl⟩

theorem reply?_of_stored {a : Except OrderError String} (h : s.stored? id = some a) :
    s.reply? id = some (.stored a) := by
  rw [Resolver.stored?] at h
  split at h
  · rename_i hr
    rw [hr, Option.some.inj h]
  · cases h

theorem flight_fresh (h : Coherent ids s) (hid : id ∉ ids) :
    ∀ f ∈ s.flights, f.id ≠ (s.flightFor id (.save o)).id :=
  fun _ hf => h.flight_ne hid hf

theorem unchanged_of_verdict (h : Coherent ids s) (hn : ids.Nodup) (hs : Settled s)
    (hid : id ∉ ids) (hv : verdict s.settings s.script o = .error cause) :
    Unchanged s (s.perform id (.create o)) := by
  have habsorb : ∀ r, absorb r (s.flightFor id (.save o)) = r := by
    intro r
    have ha : answer (s.flightFor id (.save o)).pending o = .error cause := hv
    change (if (answer (s.flightFor id (.save o)).pending o).isOk then r.put o else r) = r
    rw [ha]
    rfl
  obtain ⟨-, hrepository⟩ := Resolver.perform_create h hn hs hid o
  rw [Resolver.closing_concat_of_refused (flight_fresh h hid) habsorb] at hrepository
  constructor
  · rw [Resolver.drain_repository h hn hs]
    exact .inr hrepository
  · intro hf
    rw [hrepository, hf, Resolver.closing_nil]

theorem took_of_verdict (h : Coherent ids s) (hn : ids.Nodup) (hs : Settled s)
    (hid : id ∉ ids) (hv : verdict s.settings s.script o = .ok o.uid) :
    Took s (s.perform id (.create o)) o := by
  have ha : (answer (s.flightFor id (.save o)).pending o).isOk = true := by
    have hanswer : answer (s.flightFor id (.save o)).pending o = .ok o.uid := hv
    rw [hanswer]
    rfl
  obtain ⟨-, hrepository⟩ := Resolver.perform_create h hn hs hid o
  constructor
  · intro hothers uid
    rw [hrepository, Resolver.drain_repository h hn hs]
    exact Resolver.get?_closing_concat (flight_fresh h hid) rfl ha hothers _ uid
  · intro hf
    rw [hrepository, hf, List.nil_append, Resolver.closing_singleton]
    exact if_pos ha

theorem decode_of_examined (hx : examine m = .ok o) : Order.decode m.value = .ok o := by
  rw [examine] at hx
  cases hd : Order.decode m.value with
  | error e =>
    rw [hd] at hx
    cases hx
  | ok d =>
    rw [hd] at hx
    dsimp only at hx
    cases hv : d.validate with
    | error e =>
      rw [hv] at hx
      cases hx
    | ok _ =>
      rw [hv] at hx
      rw [Except.ok.inj hx]

theorem takeOrder_eq (server : Server) (m : Message) :
    server.takeOrder m.value =
      match examine m with
      | .error (_, cause) => (some (.stored (.error cause)), server)
      | .ok o => server.perform (.create o) := by
  rw [Server.takeOrder, examine]
  cases Order.decode m.value with
  | error e => rfl
  | ok o =>
    dsimp only
    cases o.validate <;> rfl

theorem takeOrder_of_refused {reason : Ingest.Reason} (hx : examine m = .error (reason, cause))
    (server : Server) : server.takeOrder m.value = (some (.stored (.error cause)), server) := by
  rw [takeOrder_eq, hx]

theorem takeOrder_of_examined (h : Coherent ids server.resolver) (hn : ids.Nodup)
    (hs : Settled server.resolver) (hid : server.requests ∉ ids) (hx : examine m = .ok o) :
    (server.takeOrder m.value).1 =
        some (.stored (verdict server.resolver.settings server.resolver.script o)) ∧
      (server.takeOrder m.value).2.resolver =
        server.resolver.perform server.requests (.create o) := by
  obtain ⟨hstored, -⟩ := Resolver.perform_create h hn hs hid o
  rw [takeOrder_eq, hx]
  exact ⟨reply?_of_stored hstored, rfl⟩

theorem process_of_examined (h : Coherent ids w.resolver) (hn : ids.Nodup)
    (hs : Settled w.resolver) (hid : w.operations ∉ ids) (hx : examine m = .ok o) :
    (w.process m).1 = some ((w.perform (.create o)).settle m
        (verdict w.resolver.settings w.resolver.script o)).1 ∧
      (w.process m).2.resolver = w.resolver.perform w.operations (.create o) := by
  obtain ⟨hstored, -⟩ := Resolver.perform_create h hn hs hid o
  obtain ⟨hp, hresolver, -⟩ := Worker.process_of_stored hx hstored
  exact ⟨hp, hresolver⟩

theorem perform_create_congr {id' : Nat} (h : Coherent ids s) (hn : ids.Nodup) (hs : Settled s)
    (hid : id ∉ ids) (hid' : id' ∉ ids) (o : Order) :
    (s.perform id (.create o)).repository = (s.perform id' (.create o)).repository := by
  rw [(Resolver.perform_create h hn hs hid o).2, (Resolver.perform_create h hn hs hid' o).2]
  exact Resolver.closing_concat_congr (flight_fresh h hid') (flight_fresh h hid) rfl rfl _

theorem createOrder_of_reply {body : Bytes} {reply : Option Reply}
    (h : (server.takeOrder body).1 = reply) (hle : body.length ≤ Server.bodyLimit) :
    server.createOrder body = (Server.report reply, (server.takeOrder body).2) := by
  rw [Server.createOrder, if_neg (Nat.not_lt.2 hle), ← h]

/-- In every state between two events, a worker and a server make the same decision about an order
and leave the same store. -/
theorem write_paths_agree {settings : Settings} {capacity : Nat} {repository : Repository}
    {script : Script} {events : List Event}
    (hs : s = (Resolver.ofParts settings capacity repository script).play events)
    (hn : (events.map Event.id).Nodup) (hw : w.resolver = s) (hv : server.resolver = s)
    (hwn : w.operations ∉ events.map Event.id) (hvn : server.requests ∉ events.map Event.id)
    (m : Message) :
    let processed := w.process m
    let taken := server.takeOrder m.value
    let response := fun r => m.value.length ≤ Server.bodyLimit →
      server.createOrder m.value = (r, taken.2)
    (∃ o, Order.decode m.value = .ok o ∧ processed.1 = some (.committed o.uid) ∧
      taken.1 = some (.stored (.ok o.uid)) ∧ response (.document 201 (createdDocument o.uid)) ∧
      processed.2.resolver.repository = taken.2.resolver.repository ∧
      Took s processed.2.resolver o) ∨
    ∃ reason cause forwarded, processed.1 = some (.diverted reason cause forwarded) ∧
      taken.1 = some (.stored (.error cause)) ∧ response (.ofError cause) ∧
      Unchanged s processed.2.resolver ∧ Unchanged s taken.2.resolver := by
  intro processed taken response
  have hstart : Coherent [] (Resolver.ofParts settings capacity repository script) := .ofParts ..
  have hc : Coherent (events.map Event.id) s := by
    rw [hs]
    simpa [Function.comp_def] using
      (Leads.play _ events).coherent hstart (by simpa [Function.comp_def] using hn)
  have hset : Settled s := hs ▸ Settled.play hstart (.ofParts ..) (by simpa using hn)
  cases hx : examine m with
  | error refusal =>
    obtain ⟨reason, cause⟩ := refusal
    obtain ⟨forwarded, hp, hsame, -⟩ := Worker.process_of_refused hx w
    have ht : taken = (some (.stored (.error cause)), server) := takeOrder_of_refused hx server
    have hreply : taken.1 = some (.stored (.error cause)) := by rw [ht]
    refine .inr ⟨reason, cause, forwarded, hp, hreply, createOrder_of_reply hreply, ?_, ?_⟩
    · rw [hsame, hw]
      exact .refl s
    · rw [ht, hv]
      exact .refl s
  | ok o =>
    obtain ⟨hp, hresolver⟩ :=
      process_of_examined (hw ▸ hc) hn (hw ▸ hset) hwn hx
    obtain ⟨hreply, hserver⟩ :=
      takeOrder_of_examined (hv ▸ hc) hn (hv ▸ hset) hvn hx
    rw [hw] at hp hresolver
    rw [hv] at hreply hserver
    cases hverdict : verdict s.settings s.script o with
    | ok uid =>
      have hu := Resolver.uid_of_verdict hverdict
      subst hu
      rw [hverdict] at hp hreply
      refine .inl ⟨o, decode_of_examined hx, hp, hreply, createOrder_of_reply hreply, ?_, ?_⟩
      · rw [hresolver, hserver]
        exact perform_create_congr hc hn hset hwn hvn o
      · rw [hresolver]
        exact took_of_verdict hc hn hset hwn hverdict
    | error cause =>
      rw [hverdict] at hp hreply
      refine .inr ⟨.businessError, cause, _, hp, hreply, createOrder_of_reply hreply, ?_, ?_⟩
      · rw [hresolver]
        exact unchanged_of_verdict hc hn hset hwn hverdict
      · rw [hserver]
        exact unchanged_of_verdict hc hn hset hvn hverdict

def slow : Script where
  delays := [(.upsertOrder, .bySubject [("b", 100)])]

def busy : Resolver :=
  (Resolver.ofParts {} 2 .empty slow).play [⟨0, 0, .create (parcel "b" "first")⟩]

def carrier : Worker := ⟨busy, "orders", none, .epoch, 1⟩

def desk : Server := ⟨busy, 2⟩

theorem write_paths_agree_beside_another :
    let m : Message := .ofOrder (parcel "a" "first")
    busy.flights ≠ [] ∧ (carrier.process m).1 = some (.committed "a") ∧
      (desk.takeOrder m.value).1 = some (.stored (.ok "a")) ∧
      (carrier.process m).2.resolver.repository = (desk.takeOrder m.value).2.resolver.repository ∧
      (carrier.process m).2.resolver.repository.orders.get? "a" = some (parcel "a" "first") := by
  have hflights : busy.flights =
      [⟨0, .save (parcel "b" "first"), .start slow ⟨.upsertOrder, "b"⟩ 0 3000⟩] := rfl
  have hother : ∀ f ∈ busy.flights, ¬Writes f "a" := by
    rw [hflights]
    rintro f hf ⟨o, hw, hu⟩
    rw [List.mem_singleton.1 hf] at hw
    cases hw
    simp [parcel] at hu
  have hx : examine (.ofOrder (parcel "a" "first")) = .ok (parcel "a" "first") :=
    Ingest.examine_of_valid rfl
  have hstored : (busy.perform 1 (.create (parcel "a" "first"))).stored? 1 = some (.ok "a") := by
    rfl
  obtain ⟨hp, -⟩ := Worker.process_of_stored (w := carrier) hx hstored
  have hcarrier : carrier.resolver = busy := rfl
  have hdesk : desk.resolver = busy := rfl
  rcases write_paths_agree rfl (by decide) hcarrier hdesk (by decide) (by decide)
    (.ofOrder (parcel "a" "first")) with ⟨o, ho, hc, ht, -, hsame, htook⟩ | ⟨_, _, _, hd, -⟩
  · have he : o = parcel "a" "first" := Except.ok.inj (ho.symm.trans (decode_of_examined hx))
    subst he
    have huid : (parcel "a" "first").uid = "a" := rfl
    have hstore := htook.repository hother "a"
    rw [huid] at hc ht hstore
    rw [if_pos rfl] at hstore
    exact ⟨by simp [hflights], hc, ht, hsame, hstore⟩
  · rw [hp] at hd
    cases Option.some.inj hd

end OrderLookup.Http
