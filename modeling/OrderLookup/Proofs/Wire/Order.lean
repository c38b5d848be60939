import OrderLookup.Proofs.Wire.Shape
import OrderLookup.Wire.OrderShape

/-!
Orders survive their documents: every order is read back from its own text, and so is whatever
order a foreign text stands for.
-/

namespace OrderLookup

open Wire

theorem Delivery.lossless : Delivery.shape.Lossless := by
  apply lossless_record
  · simp only [Delivery.fields, List.forall_mem_cons, List.not_mem_nil, false_implies,
      implies_true, and_true, lossless_text]
  · decide
  · exact fun v => rfl

theorem Payment.lossless : Payment.shape.Lossless := by
  apply lossless_record
  · simp only [Payment.fields, List.forall_mem_cons, List.not_mem_nil, false_implies,
      implies_true, and_true, lossless_text, lossless_number]
  · decide
  · exact fun v => rfl

theorem Item.lossless : Item.shape.Lossless := by
  apply lossless_record
  · simp only [Item.fields, List.forall_mem_cons, List.not_mem_nil, false_implies,
      implies_true, and_true, lossless_text, lossless_number]
  · decide
  · exact fun v => rfl

theorem Order.lossless : Order.shape.Lossless := by
  apply lossless_record
  · simp only [Order.fields, List.forall_mem_cons, List.not_mem_nil, false_implies,
      implies_true, and_true, lossless_text, lossless_number, lossless_instant,
      Delivery.lossless, Payment.lossless, lossless_list Item.lossless]
  · decide
  · exact fun v => rfl

theorem Order.decode_wireBytes (o : Order) : Order.decode o.wireBytes = .ok o := by
  have hread : Order.shape.decode o.wireBytes = .ok o := Order.lossless.decode_bytes o
  rw [Order.decode, hread]

/-- Every order is read back from its text, and what any accepted payload says comes back once
more from its own text. -/
theorem Order.wire_round_trip :
    (∀ o : Order, Order.decode o.wireBytes = .ok o) ∧
      ∀ payload o, Order.decode payload = .ok o → Order.decode o.wireBytes = .ok o :=
  ⟨Order.decode_wireBytes, fun _ o _ => o.decode_wireBytes⟩

end OrderLookup
