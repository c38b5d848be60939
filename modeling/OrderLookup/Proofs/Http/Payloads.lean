import OrderLookup.Proofs.Http.RoundTrip
import OrderLookup.Proofs.Wire.Excerpt
import OrderLookup.Proofs.Wire.Records

/-!
What may come in as an order, over either of its two ways. Whatever is taken spells a value, and
each of its records is an object or a list; a payload that names a field of a record twice is not
taken at all.
-/

namespace OrderLookup.Http

open Ingest (Worker examine)
open Wire (Value spell)

/-- Whether some worker commits a payload, or some server answers it as created. -/
def Accepted (payload : Bytes) : Prop :=
  (∃ (w : Worker) (m : Message) (uid : String),
    m.value = payload ∧ (w.process m).1 = some (.committed uid)) ∨
  ∃ (s : Server) (time : String), (s.respond time (posting payload)).1.status = 201

variable {payload : Bytes} {v : Value} {o : Order} {m : Message} {w : Worker}

theorem exists_examined {uid : String} (h : (w.process m).1 = some (.committed uid)) :
    ∃ o, examine m = .ok o := by
  cases hx : examine m with
  | ok o => exact ⟨o, rfl⟩
  | error refusal =>
    obtain ⟨forwarded, hp, -⟩ := Worker.process_of_refused hx w
    rw [hp] at h
    cases h

theorem validate_of_examined (hx : examine m = .ok o) : o.validate = .ok () := by
  have hd := decode_of_examined hx
  rw [examine, hd] at hx
  dsimp only at hx
  cases hv : o.validate with
  | ok _ => rfl
  | error e =>
    rw [hv] at hx
    cases hx

theorem Accepted.exists_order (h : Accepted payload) :
    ∃ o, Order.decode payload = .ok o ∧ o.validate = .ok () := by
  rcases h with ⟨w, m, uid, rfl, hp⟩ | ⟨s, time, hc⟩
  · obtain ⟨o, hx⟩ := exists_examined hp
    exact ⟨o, decode_of_examined hx, validate_of_examined hx⟩
  · exact good_of_created hc

theorem items_ne_nil_of_validate (h : o.validate = .ok ()) : o.items ≠ [] := by
  simpa using holds_of_validate h ⟨"items must be non-empty", fun o => !o.items.isEmpty⟩
    (by simp [Order.rules])

/-- Whatever is accepted has the documented shape exactly if none of its records is a list. -/
theorem accepted_shape (h : Accepted payload) :
    (∃ v, Wire.Spells payload v) ∧ ∀ v, Wire.Spells payload v →
      (∀ u ∈ Order.records v, u.kind = .object ∨ u.kind = .array) ∧
      (∃ es, es ≠ [] ∧ Order.given "items" v = [.array es]) ∧
      (Order.Documented v ↔ ∀ u ∈ Order.records v, u.kind ≠ .array) := by
  obtain ⟨o, hd, hv⟩ := h.exists_order
  refine ⟨Order.exists_spelled hd, fun v hspells => ?_⟩
  have hmeaning := (Order.decode_eq_ok_iff hspells).1 hd
  have hkinds := Order.kind_of_record hmeaning
  obtain ⟨es, hes, hitems⟩ := Order.items_of_meaning hmeaning (items_ne_nil_of_validate hv)
  refine ⟨hkinds, ⟨es, hes, hitems⟩, fun hdoc u hu harray => ?_, fun hnone => ⟨fun u hu => ?_, ?_⟩⟩
  · rw [hdoc.1 u hu] at harray
    cases harray
  · exact (hkinds u hu).resolve_right (hnone u hu)
  · rw [hitems]
    exact List.forall_mem_singleton.2 rfl

def listed : Value := .array [
  .text (spell "a"), .text (spell "t"), .text (spell "e"), .array [.text (spell "Ada")], .array [],
  .array [.array [.number five]], .text (spell "en"), .text (spell "c"), .text (spell "d"),
  .text (spell "1"), .number five, .text (spell "2024-01-01T00:00:00Z"), .text (spell "1")]

def unlisted : Order where
  uid := "a"
  trackNumber := "t"
  entry := "e"
  delivery := { name := "Ada" }
  items := [{ chartId := 5 }]
  locale := "en"
  customerId := "c"
  deliveryService := "d"
  shardKey := "1"
  smId := 5
  dateCreated := Order.Sample.created 0
  oofShard := "1"

theorem decode_listed : Order.decode listed.bytes = .ok unlisted := by
  decide +kernel

theorem process_listed (m : Message) (hm : m.value = listed.bytes) :
    (Ingest.choosy.process m).1 = some (.committed "a") := by
  have hx : examine m = .ok unlisted := by
    have hv : unlisted.validate = .ok () := rfl
    rw [examine, hm, decode_listed]
    simp only [hv]
  have hstored : (Ingest.choosy.resolver.perform 0 (.create unlisted)).stored? 0 =
      some (.ok "a") := rfl
  exact (Worker.process_of_stored (w := Ingest.choosy) hx hstored).1

theorem accepted_listed : Accepted listed.bytes :=
  .inl ⟨Ingest.choosy, { value := listed.bytes }, "a", rfl, process_listed _ rfl⟩

theorem accepted_shape_of_list :
    Accepted listed.bytes ∧ Wire.Spells listed.bytes listed ∧
      (∀ u ∈ Order.records listed, u.kind = .object ∨ u.kind = .array) ∧
      ∃ es, es ≠ [] ∧ Order.given "items" listed = [.array es] := by
  have hspells : Wire.Spells listed.bytes listed := Wire.layout_flatMap _
  obtain ⟨hkinds, hitems, -⟩ := (accepted_shape accepted_listed).2 listed hspells
  exact ⟨accepted_listed, hspells, hkinds, hitems⟩

/-- A list is committed as an order, although it is no object. -/
theorem list_is_committed :
    (Ingest.choosy.process { value := listed.bytes }).1 = some (.committed "a") ∧
      Wire.Spells listed.bytes listed ∧ ¬Order.Documented listed := by
  refine ⟨process_listed _ rfl, Wire.layout_flatMap _, fun h => ?_⟩
  cases h.1 listed (.head _)

/-! ## Ambiguous payloads -/

theorem respond_of_refused {e : OrderError} (hd : Order.decode payload = .error e) (s : Server)
    (time : String) :
    (s.respond time (posting payload)).1.status ≠ 201 ∧
      (s.respond time (posting payload)).2 = s := by
  constructor
  · intro hc
    obtain ⟨o, ho, -⟩ := good_of_created hc
    rw [hd] at ho
    cases ho
  · rw [respond_posting, Server.createOrder, Server.takeOrder, hd]
    split <;> rfl

theorem decode_of_ambiguous (hp : Wire.Spells payload v) (ha : Order.Ambiguous v) :
    ∃ reason, Order.decode payload = .error (.invalidPayload reason) := by
  cases hd : Order.decode payload with
  | ok o => exact absurd ha (Order.not_ambiguous ((Order.decode_eq_ok_iff hp).1 hd))
  | error e =>
    rw [Order.decode] at hd
    split at hd
    · cases hd
    · cases hd
      exact ⟨_, rfl⟩

/-- A payload with two values for one field of a record is no order to anybody, and leaves no trace.
-/
theorem ambiguous_payload_is_refused (hp : Wire.Spells payload v) (ha : Order.Ambiguous v) :
    ∃ reason, Order.decode payload = .error (.invalidPayload reason) ∧
      (∀ (w : Worker) (m : Message), m.value = payload → ∃ forwarded,
        (w.process m).1 =
          some (.diverted .invalidPayload (.invalidPayload reason) forwarded) ∧
        (w.process m).2.resolver = w.resolver) ∧
      ∀ (s : Server) (time : String), (s.respond time (posting payload)).1.status ≠ 201 ∧
        (s.respond time (posting payload)).2 = s := by
  obtain ⟨reason, hd⟩ := decode_of_ambiguous hp ha
  refine ⟨reason, hd, fun w m hm => ?_, respond_of_refused hd⟩
  have hx : examine m = .error (.invalidPayload, .invalidPayload reason) := by
    rw [examine, hm, hd]
  obtain ⟨forwarded, hp, hsame, -⟩ := Worker.process_of_refused hx w
  exact ⟨forwarded, hp, hsame⟩

def twofold : Value := .object [
  (spell "order_uid", .text (spell "a")),
  (spell "items", .array [.object [], .object [
    (spell "rid", .null), (spell "note", .array [.object []]),
    (.code (.ofByte (Wire.ascii 'r')) :: spell "id", .text (spell "r"))]])]

theorem ambiguous_payload_is_refused_in_item :
    Wire.Spells (lines twofold) twofold ∧ Order.Ambiguous twofold ∧
      ∃ reason, Order.decode (lines twofold) = .error (.invalidPayload reason) := by
  have hspells := spells_lines twofold
  have hambiguous : Order.Ambiguous twofold := by decide
  obtain ⟨reason, hd, -⟩ := ambiguous_payload_is_refused hspells hambiguous
  exact ⟨hspells, hambiguous, reason, hd⟩

end OrderLookup.Http
