import OrderLookup.Proofs.Http.Paths
import OrderLookup.Proofs.Http.Serving
import OrderLookup.Proofs.Http.WritePaths

/-!
An order that has been posted is shown as it was posted, until another write of its id takes effect.
The document that shows it reads back to the same order, and then it comes from the cache.
-/

namespace OrderLookup.Http

open Text
open Ingest (parcel)
open Resolver (Answering Author Coherent Manned Move Reply Stands Writes)

def posting (body : Bytes) : Request where
  method := .post
  target := "/order"
  body := body

def showing (segment : List Char) : Request where
  method := .get
  target := "/order/" ++ String.ofList segment

def Response.ofOrder (o : Order) : Response := (Response.document 200 o.toJson).shared

/-- Whether nothing gets between a lookup that comes as a request and the order in the store. -/
structure Undisturbed (s : Server) (r : Request) (uid : String) (after : List Turn) : Prop where
  awaited : .begin (.abort s.requests) ∉ after
  untouched : ∀ key o, .begin (.cacheSet key o) ∉ after
  unwritten : ∀ o ∈ (s.turn (.request r)).upserts after, o.uid ≠ uid
  answering : ∀ past rest, after = past ++ rest →
    Answering (s.run (.request r :: past)).resolver uid

structure Shown (s : Server) (segment : List Char) (o : Order) (after : List Turn) : Prop where
  answer : ∀ response,
    (s.run (.request (showing segment) :: after)).answer? (showing segment) s.requests =
      some response → response = .ofOrder o
  answered : (s.run (.request (showing segment) :: after)).resolver.registry.callers = [] →
    (s.run (.request (showing segment) :: after)).answer? (showing segment) s.requests =
      some (.ofOrder o)
  settled :
    (∀ f ∈ (s.run (.request (showing segment) :: after)).resolver.flights, ¬Writes f o.uid) →
    (s.run (.request (showing segment) :: after)).settle.answer? (showing segment) s.requests =
      some (.ofOrder o)
  /-- The cache has the order when the answer comes, if nobody else was to fetch it. -/
  cached : ∀ past t response, after = past ++ [t] →
    (∀ c ∈ s.resolver.registry.callers, c.key = o.uid → c.stage = .waiting) →
    (s.run (.request (showing segment) :: past)).answer? (showing segment) s.requests = none →
    (s.run (.request (showing segment) :: after)).answer? (showing segment) s.requests =
      some response →
    (s.run (.request (showing segment) :: after)).resolver.cache.peek o.uid = some o
  /-- As long as the cache has an order of the id, it is shown again without any store call. -/
  again : ∀ segment', Spells segment' (Utf8.encode o.uid) →
    let shown := s.run (.request (showing segment) :: after)
    shown.resolver.cache.peek o.uid ≠ none →
    (shown.turn (.request (showing segment'))).answer? (showing segment') shown.requests =
        some (.ofOrder o) ∧
      (shown.turn (.request (showing segment'))).resolver.calls = shown.resolver.calls

variable {s : Server} {r : Request} {a : Resolver.Action} {o : Order} {uid : String} {body : Bytes}
  {segment : List Char} {after : List Turn} {response : Response}

theorem ofPath?_posting (body : Bytes) : Route.ofPath? (posting body).path = some .orders := by
  have hpath : (posting body).path = ['/', 'o', 'r', 'd', 'e', 'r'] := by
    simp [posting, Request.path, withoutQuery]
  rw [hpath]
  decide

theorem respond_posting (s : Server) (time : String) (body : Bytes) :
    s.respond time (posting body) =
      ((s.createOrder body).1.shared, (s.createOrder body).2) := by
  rw [Server.respond, ofPath?_posting]
  rfl

theorem operation?_posting (body : Bytes) : (posting body).operation? = writeOf? body := by
  rw [Request.operation?, ofPath?_posting]
  rfl

theorem writeOf?_eq_some_iff :
    writeOf? body = some a ↔ body.length ≤ Server.bodyLimit ∧
      ∃ o, a = .create o ∧ Order.decode body = .ok o ∧ o.validate = .ok () := by
  rw [writeOf?]
  split
  · rename_i hlimit
    simp [Nat.not_le.2 hlimit]
  · rename_i hlimit
    cases hd : Order.decode body with
    | error e => simp
    | ok o =>
      dsimp only
      cases hv : o.validate with
      | error e => simp [hv]
      | ok _ => simp [hv, Nat.not_lt.1 hlimit, eq_comm]

theorem operation?_wireBytes (hlimit : 4 * o.toJson.chars.length ≤ Server.bodyLimit)
    (hv : o.validate = .ok ()) : (posting o.wireBytes).operation? = some (.create o) := by
  rw [operation?_posting]
  exact writeOf?_eq_some_iff.2
    ⟨Nat.le_trans (Utf8.length_encode_le _) hlimit, o, rfl, Order.decode_wireBytes o, hv⟩

theorem operation?_showing (hs : Spells segment (Utf8.encode uid)) (hu : uid ≠ "") :
    (showing segment).operation? = some (.get uid) := by
  have hne : segment ≠ [] := by
    intro hnil
    subst hnil
    have hempty : [] = Utf8.encode uid := hs.decode
    have hread := Utf8.decode_encode uid
    rw [← hempty] at hread
    exact hu (Option.some.inj hread).symm
  have hroute : Route.ofPath? (showing segment).path = some (.order (String.ofList segment)) :=
    ofPath?_order rfl (fun c hc => (hs.ascii c hc).2) hne
  rw [Request.operation?, hroute]
  change (uidOf (String.ofList segment)).map Resolver.Action.get = _
  rw [hs.uidOf, Option.map_some]

theorem holds_of_validate (h : o.validate = .ok ()) (rule : Order.Rule)
    (hr : rule ∈ Order.rules) : rule.holds o := by
  by_contra hbroken
  have hviolated : rule.complaint ∈ o.violations :=
    List.mem_map.2 ⟨rule, List.mem_filter.2 ⟨hr, by simpa using hbroken⟩, rfl⟩
  rw [Order.validate] at h
  split at h
  · rename_i hempty
    simp [List.isEmpty_iff.1 hempty] at hviolated
  · cases h

theorem uid_ne_of_validate (h : o.validate = .ok ()) : o.uid ≠ "" := by
  simpa [Order.required] using
    holds_of_validate h (Order.required "order_uid" Order.uid) (by simp [Order.rules])

theorem status_ofError (e : OrderError) : (Response.ofError e).status ≠ 201 := by
  cases e <;> simp [Response.ofError, Response.document, errorStatus]

theorem report_created {reply : Option Reply} (h : (Server.report reply).status = 201) :
    ∃ uid, reply = some (.stored (.ok uid)) := by
  unfold Server.report at h
  split at h
  · cases h
  · exact absurd h (status_ofError _)
  · exact ⟨_, rfl⟩
  · exact absurd h (status_ofError _)
  · cases h

theorem good_of_created {time : String} (hc : (s.respond time (posting body)).1.status = 201) :
    ∃ o, Order.decode body = .ok o ∧ o.validate = .ok () := by
  have hlimit : ¬Server.bodyLimit < body.length := by
    intro hlong
    rw [respond_posting, Server.createOrder, if_pos hlong] at hc
    cases hc
  have hrefused : ∀ e, s.takeOrder body ≠ (some (.stored (.error e)), s) := by
    intro e htake
    rw [respond_posting, Server.createOrder, if_neg hlimit, htake] at hc
    exact status_ofError e hc
  cases hd : Order.decode body with
  | error e => exact absurd (by rw [Server.takeOrder, hd]) (hrefused e)
  | ok o =>
    cases hv : o.validate with
    | error e =>
      refine absurd ?_ (hrefused e)
      rw [Server.takeOrder, hd]
      dsimp only
      rw [hv]
    | ok _ => exact ⟨o, rfl, hv⟩

namespace Server

namespace Steady

theorem stored_of_created (h : s.Steady) {waiting : List Turn} {t : Turn}
    (hopen : (s.run (.request (posting body) :: waiting)).answer? (posting body) s.requests = none)
    (hanswer : (s.run (.request (posting body) :: (waiting ++ [t]))).answer? (posting body)
      s.requests = some response)
    (hcreated : response.status = 201) :
    ∃ o, Order.decode body = .ok o ∧ o.validate = .ok () ∧
      (s.run (.request (posting body) :: (waiting ++ [t]))).resolver.repository.orders.get? o.uid =
        some o := by
  obtain ⟨a, hop⟩ := h.operation_of_answer hanswer
  obtain ⟨-, o, rfl, hd, hv⟩ := writeOf?_eq_some_iff.1 ((operation?_posting body).symm.trans hop)
  refine ⟨o, hd, hv, ?_⟩
  obtain ⟨m, -, hm⟩ := move_of_answer hopen hanswer
  obtain ⟨f, hf, hi, rfl⟩ := exists_of_answer? hanswer
  obtain ⟨uid, hreply⟩ := report_created hcreated
  have hn := s.nodup_moves ((.request (posting body) :: waiting) ++ [t])
  have hunanswered := answer?_eq_none_iff.1 hopen
  rw [← List.cons_append, run_resolver] at hf ⊢
  rw [run_resolver] at hunanswered
  rw [hm, moves_request hop, Resolver.started_append, ← List.append_assoc] at hn
  rw [hm, moves_request hop, Resolver.run_concat, Resolver.run_cons] at hf ⊢
  rw [moves_request hop] at hunanswered
  have hrun : (List.range s.requests ++ [s.requests] ++
      Resolver.started ((s.turn (.request (posting body))).moves waiting)).Nodup := by
    simpa [Move.started] using (List.nodup_append.1 hn).1
  have hauthor := (Author.ofStart h.coherent List.not_mem_range_self o).run
    (h.coherent.start List.not_mem_range_self _) (by simp) hrun
  have hold : s.requests ∉ m.started := by
    intro hi
    refine List.disjoint_of_nodup_append hn (a := s.requests) ?_ (by simpa using hi)
    simp [Move.started]
  have hstored : ⟨s.requests, f.time, .stored (.ok uid)⟩ = f := by
    rw [← hi, ← Option.some.inj hreply]
  exact hauthor.stored hold hunanswered (hstored ▸ hf)

theorem answering_run (h : s.Steady) (ha : Answering s.resolver uid) {ts : List Turn}
    (hts : ∀ revision, .begin (.script revision) ∉ ts) : Answering (s.run ts).resolver uid := by
  rw [run_resolver]
  exact ha.run h.coherent (s.nodup_moves ts) fun i revision hi =>
    hts revision (begin_of_unrequested hi (by simp) (by simp))

theorem answer_of_cached (h : s.Steady) (hr : r.operation? = some (.get uid))
    (hc : s.resolver.cache.peek uid = some o) :
    (s.turn (.request r)).answer? r s.requests = some (r.tell (some (.found (.ok o)))) ∧
      (s.turn (.request r)).resolver.calls = s.resolver.calls := by
  have hfresh : ∀ f ∈ s.resolver.finished, f.id ≠ s.requests :=
    fun f hf => Nat.ne_of_lt (List.mem_range.1 (h.coherent.finished f hf))
  have hend := Resolver.start_get_cached h.coherent hc s.requests
  rw [turn_request hr, answer?, hend]
  refine ⟨?_, rfl⟩
  rw [Resolver.reply?_of_fresh hfresh (f := ⟨s.requests, _, .found (.ok o)⟩) rfl rfl,
    Option.map_some]

end Steady

end Server

namespace Undisturbed

theorem stands (hu : Undisturbed s r uid after) (hr : r.operation? = some (.get uid))
    (hs : s.resolver.repository.orders.get? uid = some o)
    (hp : s.resolver.cache.peek uid = none) :
    Stands s.resolver uid o
      (.start s.requests (.get uid) :: (s.turn (.request r)).moves after) where
  stored := hs
  missed := hp
  unwritten := by
    have hunwritten := hu.unwritten
    rw [Server.turn_request hr] at hunwritten ⊢
    exact hunwritten
  untouched := by
    intro i key b hi
    rw [← Server.moves_request hr] at hi
    rcases List.mem_cons.1 (Server.begin_of_unrequested hi (by simp) (by simp)) with hr' | hbegin
    · cases hr'
    · exact hu.untouched key b hbegin

theorem answering_moves (hu : Undisturbed s r uid after) (hr : r.operation? = some (.get uid))
    {before rest : List Move} (he : (s.turn (.request r)).moves after = before ++ rest) :
    Answering (s.resolver.run (.start s.requests (.get uid) :: before)) uid := by
  obtain ⟨past, later, hafter, hpast⟩ := Server.moves_prefix he
  rw [← hpast, ← Server.run_request hr]
  exact hu.answering past later hafter

theorem unaborted (hu : Undisturbed s r uid after) (i : Nat) :
    .start i (.abort s.requests) ∉ (s.turn (.request r)).moves after := by
  intro hi
  exact hu.awaited (Server.begin_of_unrequested hi (by simp) (by simp))

theorem found (hu : Undisturbed s r uid after) (hr : r.operation? = some (.get uid))
    (h : s.Steady) (hs : s.resolver.repository.orders.get? uid = some o)
    (hp : s.resolver.cache.peek uid = none) {f : Resolver.Finish}
    (hf : f ∈ (s.run (.request r :: after)).resolver.finished) (hi : f.id = s.requests) :
    f.reply = .found (.ok o) := by
  have hn := s.nodup_request hr after
  obtain ⟨held, hheld⟩ := h.stored
  have hmoves : s.moves (.request r :: after) = _ := Server.moves_request hr s after
  have hone := h.single.run h.coherent h.manned (s.nodup_moves (.request r :: after))
  rw [hmoves] at hone
  rw [Server.run_request hr] at hf
  obtain ⟨e, hfe⟩ := Resolver.found_of_answered h.coherent hn hone hu.unaborted hf hi
  rw [hfe] at hf
  rw [hfe, (hu.stands hr hs hp).found h.coherent hn hheld
    (fun before rest he => hu.answering_moves hr he) hf]

theorem peek_eq (hu : Undisturbed s r uid after) (hr : r.operation? = some (.get uid))
    (h : s.Steady) (hs : s.resolver.repository.orders.get? uid = some o)
    (hp : s.resolver.cache.peek uid = none) {b : Order}
    (hb : (s.run (.request r :: after)).resolver.cache.peek uid = some b) : b = o := by
  have hn := s.nodup_moves (.request r :: after)
  obtain ⟨held, hheld⟩ := h.stored
  rw [Server.moves_request hr] at hn
  rw [Server.run_request hr] at hb
  exact (hu.stands hr hs hp).peek_eq h.coherent hn hheld hb

theorem kept {past : List Turn} {t : Turn} (hu : Undisturbed s r uid (past ++ [t]))
    (hr : r.operation? = some (.get uid)) (h : s.Steady)
    (hs : s.resolver.repository.orders.get? uid = some o)
    (hp : s.resolver.cache.peek uid = none)
    (hc : ∀ c ∈ s.resolver.registry.callers, c.key = uid → c.stage = .waiting)
    (hopen : (s.run (.request r :: past)).answer? r s.requests = none)
    (ha : (s.run (.request r :: (past ++ [t]))).answer? r s.requests = some response) :
    (s.run (.request r :: (past ++ [t]))).resolver.cache.peek uid = some o := by
  obtain ⟨m, -, hm⟩ := Server.move_of_answer hopen ha
  obtain ⟨f, hf, hi, -⟩ := Server.exists_of_answer? ha
  have hreply := hu.found hr h hs hp hf hi
  have hn := s.nodup_request hr (past ++ [t])
  have hunaborted := hu.unaborted
  have hunanswered := Server.answer?_eq_none_iff.1 hopen
  rw [List.cons_append, Server.moves_request hr, Server.moves_request hr] at hm
  have hmoves := (List.cons.inj hm).2
  rw [Server.run_request hr, hmoves] at hf ⊢
  rw [Server.run_request hr] at hunanswered
  rw [hmoves] at hn hunaborted
  have hfound : ⟨s.requests, f.time, .found (.ok o)⟩ = f := by rw [← hi, ← hreply]
  exact Resolver.kept_when_answered h.coherent h.manned h.single hn hp hc hunaborted hunanswered
    (hfound ▸ hf)

theorem nil (ha : Answering (s.turn (.request r)).resolver uid) : Undisturbed s r uid [] where
  awaited := List.not_mem_nil
  untouched _ _ := List.not_mem_nil
  unwritten b hb := by cases hb
  answering past rest he := by
    rw [(List.append_eq_nil_iff.1 he.symm).1]
    exact ha

theorem goes_on (hu : Undisturbed s r uid after) (h : Reached s)
    (hw : ∀ f ∈ (s.run (.request r :: after)).resolver.flights, ¬Writes f uid) (ms : List Move) :
    Undisturbed s r uid (after ++ ms.map .go) := by
  have hsteady := (h.run (.request r :: after)).steady
  have hgo : ∀ a, .begin a ∉ ms.map Turn.go := by simp
  have hquiet : ∀ i a, .start i a ∉ (s.run (.request r :: after)).moves (ms.map .go) := by
    intro i a hi
    rcases Server.begin_of_moves hi with hbegin | ⟨q, -, hq⟩
    · exact hgo a hbegin
    · simp at hq
  constructor
  case awaited => exact fun hi => (List.mem_append.1 hi).elim hu.awaited (hgo _)
  case untouched =>
    exact fun key b hi => (List.mem_append.1 hi).elim (hu.untouched key b) (hgo _)
  case unwritten =>
    intro b hb
    rw [Server.upserts_append] at hb
    rcases List.mem_append.1 hb with hb | hb
    · exact hu.unwritten b hb
    · exact Resolver.unwritten_upserts hsteady.coherent (Server.nodup_moves _ _) hw
        (fun i b => ⟨hquiet i _, hquiet i _⟩) b hb
  case answering =>
    intro past later he
    rcases List.append_eq_append_iff.1 he with ⟨gone, rfl, hrest⟩ | ⟨left, rfl, -⟩
    · rw [← List.cons_append, Server.run_append]
      refine hsteady.answering_run (hu.answering after [] (List.append_nil after).symm)
        fun revision hi => hgo (.script revision) ?_
      rw [hrest]
      exact List.mem_append_left _ hi
    · exact hu.answering past left rfl

end Undisturbed

theorem Undisturbed.answered (hu : Undisturbed s r uid after) (h : Reached s)
    (hr : r.operation? = some (.get uid)) (hs : s.resolver.repository.orders.get? uid = some o)
    (hp : s.resolver.cache.peek uid = none)
    (hc : (s.run (.request r :: after)).resolver.registry.callers = []) :
    (s.run (.request r :: after)).answer? r s.requests = some (r.tell (some (.found (.ok o)))) := by
  have hsingle := (h.run (.request r :: after)).steady.single
  have hfound := fun f => hu.found hr h.steady hs hp (f := f)
  rw [Server.run_request hr] at hc
  obtain ⟨t, result, hf⟩ :=
    Resolver.get_answered h.steady.coherent (s.nodup_request hr after) hu.unaborted hc
  rw [← Server.run_request hr] at hf
  rw [Server.answer?, hsingle.reply?_eq hf, hfound _ hf rfl, Option.map_some]

theorem Reached.rests (h : Reached s) :
    s.settle.resolver.flights = [] ∧ s.settle.resolver.registry.callers = [] := by
  have hsteady := h.steady
  have hleads : Resolver.Leads s.resolver [] s.resolver.proceed := .proceed _
  exact Resolver.drain_rests (hleads.stays_coherent hsteady.coherent List.nodup_range)
    (hleads.manned hsteady.coherent hsteady.manned (by simpa using List.nodup_range))
    List.nodup_range (.ofProceed hsteady.coherent)

theorem shown_of_stored (h : Reached s) (hseg : Spells segment (Utf8.encode o.uid))
    (hne : o.uid ≠ "") (hs : s.resolver.repository.orders.get? o.uid = some o)
    (hp : s.resolver.cache.peek o.uid = none)
    (hu : Undisturbed s (showing segment) o.uid after) : Shown s segment o after := by
  have hr := operation?_showing hseg hne
  have htell : ∀ segment, (showing segment).tell (some (.found (.ok o))) = .ofOrder o :=
    fun _ => rfl
  constructor
  case answer =>
    intro response ha
    obtain ⟨f, hf, hi, rfl⟩ := Server.exists_of_answer? ha
    rw [hu.found hr h.steady hs hp hf hi, htell]
  case answered =>
    intro hc
    rw [hu.answered h hr hs hp hc, htell]
  case settled =>
    intro hw
    -- Settling is made up of turns that begin nothing, so nothing gets in between now either.
    have hrests := (h.run (.request (showing segment) :: after)).rests.2
    obtain ⟨rest, -, -, he⟩ := (s.run (.request (showing segment) :: after)).settle_eq_run
    rw [he, ← Server.run_append, List.cons_append] at hrests ⊢
    rw [(hu.goes_on h hw rest).answered h hr hs hp hrests, htell]
  case cached =>
    intro past t response he hc hopen ha
    subst he
    exact hu.kept hr h.steady hs hp hc hopen ha
  case again =>
    intro segment' hseg' shown hkept
    obtain ⟨b, hb⟩ := Option.ne_none_iff_exists'.1 hkept
    rw [hu.peek_eq hr h.steady hs hp hb] at hb
    exact (h.run _).steady.answer_of_cached (operation?_showing hseg' hne) hb

theorem Shown.respond (hshown : Shown s segment o [])
    (hseg : Spells segment (Utf8.encode o.uid)) (hne : o.uid ≠ "")
    (hw : ∀ f ∈ (s.turn (.request (showing segment))).resolver.flights, ¬Writes f o.uid)
    (time : String) : (s.respond time (showing segment)).1 = .ofOrder o := by
  have hanswer : (s.turn (.request (showing segment))).settle.answer? (showing segment) s.requests =
      some (.ofOrder o) := hshown.settled hw
  obtain ⟨reply, hreply, htell⟩ := Option.map_eq_some_iff.1 hanswer
  rw [Server.respond_of_operation (operation?_showing hseg hne), hreply]
  exact htell

theorem status_ofOrder (o : Order) : (Response.ofOrder o).status = 200 := rfl

theorem body_ofOrder (o : Order) : (Response.ofOrder o).body = o.wireBytes := by
  simp only [Response.ofOrder, Response.shared, Response.withHeader, Response.document,
    Order.wireBytes]

/-- What is posted is shown, until another write of its id takes effect, as a document that reads
back to the same order; and then it comes from the cache. -/
theorem posted_order_is_shown (h : Reached s) {waiting : List Turn} {t : Turn} {posted : Server}
    {created : Response}
    (hopen : (s.run (.request (posting body) :: waiting)).answer? (posting body) s.requests = none)
    (hposted : posted = s.run (.request (posting body) :: (waiting ++ [t])))
    (hanswer : posted.answer? (posting body) s.requests = some created)
    (hcreated : created.status = 201) :
    ∃ o, Order.decode body = .ok o ∧ (Response.ofOrder o).status = 200 ∧
      (Response.ofOrder o).body = o.wireBytes ∧ Order.decode o.wireBytes = .ok o ∧
      ∀ between segment after, (∀ b ∈ posted.upserts between, b.uid ≠ o.uid) →
        (posted.run between).resolver.cache.peek o.uid = none →
        Spells segment (Utf8.encode o.uid) →
        Undisturbed (posted.run between) (showing segment) o.uid after →
        Shown (posted.run between) segment o after := by
  subst hposted
  obtain ⟨o, hd, hv, hstored⟩ := h.steady.stored_of_created hopen hanswer hcreated
  refine ⟨o, hd, status_ofOrder o, body_ofOrder o, Order.decode_wireBytes o, ?_⟩
  intro between segment after hbetween hcold hseg hundisturbed
  refine shown_of_stored ((h.run _).run between) hseg (uid_ne_of_validate hv) ?_ hcold hundisturbed
  rw [Server.run_resolver, Resolver.get?_run hbetween]
  exact hstored

/-- The id is two segments unless it is escaped. -/
def abroad : Order := parcel "ö/1" "first"

def escaped : List Char := "%c3%B6%2F%31".toList

def escaped' : List Char := "%C3%b6%2f%31".toList

def counter : Server :=
  Server.turn ⟨.ofParts {} 2 (Repository.ofOrders []) slow, 0⟩
    (.begin (.create (parcel "b" "first")))

def saving : Resolver.Flight := ⟨1, .save abroad, .start slow ⟨.upsertOrder, "ö/1"⟩ 0 3000⟩

def fetching : Resolver.Flight := ⟨2, .fetch "ö/1", .start slow ⟨.getOrder, "ö/1"⟩ 0 2000⟩

def delivered : Server :=
  counter.run [.request (posting abroad.wireBytes), .go (.land saving)]

def displayed : Server := delivered.run [.request (showing escaped), .go (.land fetching)]

theorem counter_reached : Reached counter := .turn (.start {} 2 [] slow) _

theorem spells_escaped : Spells escaped (Utf8.encode abroad.uid) ∧
    Spells escaped' (Utf8.encode abroad.uid) := by
  have hbytes : Utf8.encode abroad.uid = [0xC3, 0xB6, 0x2F, 0x31] := by decide
  rw [hbytes]
  constructor
  · exact .cons (.inl rfl) (.inl rfl) <| .cons (.inr rfl) (.inl rfl) <|
      .cons (.inl rfl) (.inr rfl) <| .cons (.inl rfl) (.inl rfl) .nil
  · exact .cons (.inr rfl) (.inl rfl) <| .cons (.inl rfl) (.inl rfl) <|
      .cons (.inl rfl) (.inl rfl) <| .cons (.inl rfl) (.inl rfl) .nil

theorem operation?_abroad : (posting abroad.wireBytes).operation? = some (.create abroad) :=
  operation?_wireBytes (by decide +kernel) rfl

theorem delivered_resolver : delivered.resolver =
    counter.resolver.run [.start 1 (.create abroad), .land saving] := by
  rw [delivered, Server.run_request operation?_abroad]
  rfl

theorem operation?_escaped : (showing escaped).operation? = some (.get abroad.uid) :=
  operation?_showing spells_escaped.1 (by decide)

theorem delivered_undisturbed :
    Undisturbed delivered (showing escaped) abroad.uid [.go (.land fetching)] := by
  have hresolver : (delivered.run [.request (showing escaped)]).resolver =
      (counter.resolver.run [.start 1 (.create abroad), .land saving]).run
        [.start 2 (.get abroad.uid)] := by
    rw [Server.run_request operation?_escaped, delivered_resolver]
    rfl
  have hflights : (delivered.run [.request (showing escaped)]).resolver.flights =
      [⟨0, .save (parcel "b" "first"), .start slow ⟨.upsertOrder, "b"⟩ 0 3000⟩, fetching] := by
    rw [hresolver]
    rfl
  have hother : ∀ f ∈ (delivered.run [.request (showing escaped)]).resolver.flights,
      ¬Writes f abroad.uid := by
    rw [hflights]
    intro f hf hwrites
    obtain ⟨b, hw, hu⟩ := hwrites
    simp only [List.mem_cons, List.not_mem_nil, or_false] at hf
    rcases hf with rfl | rfl
    · cases hw
      simp [abroad, parcel] at hu
    · cases hw
  have hanswering : Answering (delivered.run [.request (showing escaped)]).resolver abroad.uid := by
    constructor
    case delay =>
      rw [hresolver]
      decide
    case failure =>
      rw [hresolver]
      decide
    case flights =>
      rw [hflights]
      decide
  exact (Undisturbed.nil hanswering).goes_on (counter_reached.run _) hother [.land fetching]

theorem posted_order_is_shown_under_escaped_path :
    Reached counter ∧ displayed.resolver.flights ≠ [] ∧
      (delivered.answer? (posting abroad.wireBytes) 1).map Response.status = some 201 ∧
      displayed.answer? (showing escaped) 2 = some (.ofOrder abroad) ∧
      (displayed.turn (.request (showing escaped'))).answer? (showing escaped') 3 =
        some (.ofOrder abroad) := by
  have hopen : (counter.run [.request (posting abroad.wireBytes)]).answer?
      (posting abroad.wireBytes) 1 = none := by
    have hstart : (counter.run [.request (posting abroad.wireBytes)]).resolver =
        counter.resolver.run [.start 1 (.create abroad)] := by
      rw [Server.run_request operation?_abroad]
      rfl
    rw [Server.answer?, hstart]
    exact Option.map_eq_none_iff.2 rfl
  have hreply : delivered.resolver.reply? 1 = some (.stored (.ok "ö/1")) := by
    rw [delivered_resolver]
    rfl
  have hanswer : delivered.answer? (posting abroad.wireBytes) 1 =
      some ((posting abroad.wireBytes).tell (some (.stored (.ok "ö/1")))) := by
    rw [Server.answer?, hreply, Option.map_some]
  have hcold : delivered.resolver.cache.peek abroad.uid = none := by
    rw [delivered_resolver]
    rfl
  have hposted : delivered =
      counter.run (.request (posting abroad.wireBytes) :: ([] ++ [.go (.land saving)])) := rfl
  obtain ⟨o, ho, -, -, -, hshows⟩ :=
    posted_order_is_shown counter_reached hopen hposted hanswer rfl
  obtain rfl : abroad = o := Except.ok.inj ((Order.decode_wireBytes abroad).symm.trans ho)
  have hshown := hshows [] escaped [.go (.land fetching)] (by simp)
  rw [Server.run_nil] at hshown
  have hshown := hshown hcold spells_escaped.1 delivered_undisturbed
  have hend : displayed.resolver =
      (counter.resolver.run [.start 1 (.create abroad), .land saving]).run
        [.start 2 (.get abroad.uid), .land fetching] := by
    rw [displayed, Server.run_request operation?_escaped, delivered_resolver]
    rfl
  have hnobody : displayed.resolver.registry.callers = [] := by
    rw [hend]
    rfl
  have hkept : displayed.resolver.cache.peek abroad.uid = some abroad := by
    rw [hend]
    rfl
  have hbusy : displayed.resolver.flights =
      [⟨0, .save (parcel "b" "first"), .start slow ⟨.upsertOrder, "b"⟩ 0 3000⟩] := by
    rw [hend]
    rfl
  have hrun : delivered.run [.request (showing escaped), .go (.land fetching)] = displayed := rfl
  have hanswered := hshown.answered
  have hagain := hshown.again _ spells_escaped.2
  have hnumber : delivered.requests = 2 := rfl
  have hnumber' : displayed.requests = 3 := rfl
  rw [hrun, hnumber] at hanswered
  simp only [hrun, hnumber'] at hagain
  exact ⟨counter_reached, by simp [hbusy], by rw [hanswer]; rfl, hanswered hnobody,
    (hagain (by simp [hkept])).1⟩

/-- A slow write of an id is on its way into the store, which answers at once from now on. -/
def rivals : Server :=
  (Server.turn ⟨.ofParts {} 2 (Repository.ofOrders [])
      { delays := [(.upsertOrder, .bySubject [("a", 100)])] }, 0⟩
    (.begin (.create (parcel "a" "first")))).turn (.begin (.script { delays := some [] }))

def early : Resolver.Flight :=
  ⟨0, .save (parcel "a" "first"), ⟨⟨.upsertOrder, "a"⟩, 0, 100, 3000, none⟩⟩

def late : Resolver.Flight :=
  ⟨2, .save (parcel "a" "second"), .start {} ⟨.upsertOrder, "a"⟩ 0 3000⟩

def lookup : Resolver.Flight := ⟨3, .fetch "a", .start {} ⟨.getOrder, "a"⟩ 100 2000⟩

/-- Although nobody asks for anything else, the slow write takes effect after what is posted. -/
theorem slow_write_overtakes_posted_order :
    let body := (parcel "a" "second").wireBytes
    let posted := rivals.run [.request (posting body), .go (.land late)]
    let later := posted.run [.go (.wait 100), .go (.land early)]
    let shown := later.run [.request (showing ['%', '6', '1']), .go (.land lookup)]
    Reached rivals ∧ (posted.answer? (posting body) 2).map Response.status = some 201 ∧
      later.resolver.cache.peek "a" = none ∧ later.resolver.registry.callers = [] ∧
      later.resolver.flights = [] ∧ later.resolver.script = { delays := [] } ∧
      Spells ['%', '6', '1'] (Utf8.encode "a") ∧
      (shown.answer? (showing ['%', '6', '1']) 3).map Response.body =
        some (parcel "a" "first").wireBytes ∧
      (parcel "a" "first").wireBytes ≠ body := by
  intro body posted later shown
  have hpost : (posting body).operation? = some (.create (parcel "a" "second")) :=
    operation?_wireBytes (by decide +kernel) rfl
  have hseg : Spells ['%', '6', '1'] (Utf8.encode "a") := .cons (.inl rfl) (.inl rfl) .nil
  have hget : (showing ['%', '6', '1']).operation? = some (.get "a") :=
    operation?_showing hseg (by decide)
  have hposted : posted.resolver =
      rivals.resolver.run [.start 2 (.create (parcel "a" "second")), .land late] := by
    rw [Server.run_request hpost]
    rfl
  have hlater : later.resolver = posted.resolver.run [.wait 100, .land early] := by
    rw [Server.run_resolver]
    rfl
  have hshown : shown.resolver = later.resolver.run [.start 3 (.get "a"), .land lookup] := by
    rw [Server.run_request hget]
    rfl
  have hcreated : posted.resolver.reply? 2 = some (.stored (.ok "a")) := by
    rw [hposted]
    rfl
  have hfound : shown.resolver.reply? 3 = some (.found (.ok (parcel "a" "first"))) := by
    rw [hshown, hlater, hposted]
    rfl
  refine ⟨.turn (.turn (.start {} 2 [] _) _) _, ?_, ?_, ?_, ?_, ?_, hseg, ?_, ?_⟩
  · rw [Server.answer?, hcreated]
    rfl
  · rw [hlater, hposted]
    rfl
  · rw [hlater, hposted]
    rfl
  · rw [hlater, hposted]
    rfl
  · rw [hlater, hposted]
    rfl
  · rw [Server.answer?, hfound]
    exact congrArg some (body_ofOrder _)
  · intro hsame
    have hread := congrArg Order.decode hsame
    rw [Order.decode_wireBytes, Order.decode_wireBytes] at hread
    exact absurd (congrArg Order.trackNumber (Except.ok.inj hread)) (by decide)

end OrderLookup.Http
