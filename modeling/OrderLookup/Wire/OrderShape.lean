import OrderLookup.Order
import OrderLookup.OrderError
import OrderLookup.Wire.Shape

/-!
The shape of orders: the names of their fields and the order in which these are written.
-/

namespace OrderLookup

open Wire

namespace Delivery

def fields : List (Component Delivery) := [
  ⟨"name", name, fun v d => { d with name := v }, text⟩,
  ⟨"phone", phone, fun v d => { d with phone := v }, text⟩,
  ⟨"zip", zip, fun v d => { d with zip := v }, text⟩,
  ⟨"city", city, fun v d => { d with city := v }, text⟩,
  ⟨"address", address, fun v d => { d with address := v }, text⟩,
  ⟨"region", region, fun v d => { d with region := v }, text⟩,
  ⟨"email", email, fun v d => { d with email := v }, text⟩
]

def shape : Shape Delivery := Wire.record "Delivery" fields {}

end Delivery

namespace Payment

def fields : List (Component Payment) := [
  ⟨"transaction", transaction, fun v p => { p with transaction := v }, text⟩,
  ⟨"request_id", requestId, fun v p => { p with requestId := v }, text⟩,
  ⟨"currency", currency, fun v p => { p with currency := v }, text⟩,
  ⟨"provider", provider, fun v p => { p with provider := v }, text⟩,
  ⟨"amount", amount, fun v p => { p with amount := v }, number⟩,
  ⟨"payment_dt", paidAt, fun v p => { p with paidAt := v }, number⟩,
  ⟨"bank", bank, fun v p => { p with bank := v }, text⟩,
  ⟨"delivery_cost", deliveryCost, fun v p => { p with deliveryCost := v }, number⟩,
  ⟨"goods_total", goodsTotal, fun v p => { p with goodsTotal := v }, number⟩,
  ⟨"custom_fee", customFee, fun v p => { p with customFee := v }, number⟩
]

def shape : Shape Payment := Wire.record "Payment" fields {}

end Payment

namespace Item

def fields : List (Component Item) := [
  ⟨"chrt_id", chartId, fun v i => { i with chartId := v }, number⟩,
  ⟨"track_number", trackNumber, fun v i => { i with trackNumber := v }, text⟩,
  ⟨"price", price, fun v i => { i with price := v }, number⟩,
  ⟨"rid", rid, fun v i => { i with rid := v }, text⟩,
  ⟨"name", name, fun v i => { i with name := v }, text⟩,
  ⟨"sale", sale, fun v i => { i with sale := v }, number⟩,
  ⟨"size", size, fun v i => { i with size := v }, text⟩,
  ⟨"total_price", totalPrice, fun v i => { i with totalPrice := v }, number⟩,
  ⟨"nm_id", nomenclatureId, fun v i => { i with nomenclatureId := v }, number⟩,
  ⟨"brand", brand, fun v i => { i with brand := v }, text⟩,
  ⟨"status", status, fun v i => { i with status := v }, number⟩
]

def shape : Shape Item := Wire.record "Item" fields {}

end Item

namespace Order

def fields : List (Component Order) := [
  ⟨"order_uid", uid, fun v o => { o with uid := v }, text⟩,
  ⟨"track_number", trackNumber, fun v o => { o with trackNumber := v }, text⟩,
  ⟨"entry", entry, fun v o => { o with entry := v }, text⟩,
  ⟨"delivery", delivery, fun v o => { o with delivery := v }, Delivery.shape⟩,
  ⟨"payment", payment, fun v o => { o with payment := v }, Payment.shape⟩,
  ⟨"items", items, fun v o => { o with items := v }, list Item.shape⟩,
  ⟨"locale", locale, fun v o => { o with locale := v }, text⟩,
  ⟨"customer_id", customerId, fun v o => { o with customerId := v }, text⟩,
  ⟨"delivery_service", deliveryService, fun v o => { o with deliveryService := v }, text⟩,
  ⟨"shardkey", shardKey, fun v o => { o with shardKey := v }, text⟩,
  ⟨"sm_id", smId, fun v o => { o with smId := v }, number⟩,
  ⟨"date_created", dateCreated, fun v o => { o with dateCreated := v }, instant⟩,
  ⟨"oof_shard", oofShard, fun v o => { o with oofShard := v }, text⟩
]

def shape : Shape Order := Wire.record "Order" fields {}

def toJson (o : Order) : Json := shape.write o

def wire (o : Order) : String := o.toJson.print

def wireBytes (o : Order) : Bytes := o.toJson.bytes

def decode (payload : Bytes) : Except OrderError Order :=
  match shape.decode payload with
  | .ok o => .ok o
  | .error f => .error (.invalidPayload (f.message payload))

end Order

end OrderLookup
