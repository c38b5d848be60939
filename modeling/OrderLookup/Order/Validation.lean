import OrderLookup.Order
import OrderLookup.OrderError

/-!
The rules that a single order has to keep. All broken rules are reported together, in the order
in which the rules stand.
-/

namespace OrderLookup.Order

structure Rule where
  complaint : String
  holds : Order → Bool

def required (name : String) (field : Order → String) : Rule :=
  ⟨name ++ " is required", fun o => field o ≠ ""⟩

def rules : List Rule := [
  required "order_uid" uid,
  required "track_number" trackNumber,
  required "entry" entry,
  required "customer_id" customerId,
  required "delivery_service" deliveryService,
  required "shardkey" shardKey,
  required "oof_shard" oofShard,
  ⟨"items must be non-empty", fun o => !o.items.isEmpty⟩,
  ⟨"date_created must be set", hasCreationTime⟩,
  ⟨"sm_id must be >= 0", fun o => 0 ≤ o.smId⟩
]

def violations (o : Order) : List String :=
  (rules.filter fun r => !r.holds o).map Rule.complaint

def validate (o : Order) : Except OrderError Unit :=
  let v := o.violations
  if v.isEmpty then .ok () else .error (.validation v)

end OrderLookup.Order
