import OrderLookup.Instant

/-!
An order with its delivery, payment and items. Money is counted in minor units. Every part has a
blank value, which stands for whatever a document leaves out.
-/

namespace OrderLookup

structure Delivery where
  name : String := ""
  phone : String := ""
  zip : String := ""
  city : String := ""
  address : String := ""
  region : String := ""
  email : String := ""
deriving DecidableEq

structure Payment where
  transaction : String := ""
  requestId : String := ""
  currency : String := ""
  provider : String := ""
  amount : Int64 := 0
  paidAt : Int64 := 0
  bank : String := ""
  deliveryCost : Int64 := 0
  goodsTotal : Int64 := 0
  customFee : Int64 := 0
deriving DecidableEq

structure Item where
  chartId : Int64 := 0
  trackNumber : String := ""
  price : Int64 := 0
  rid : String := ""
  name : String := ""
  sale : Int64 := 0
  size : String := ""
  totalPrice : Int64 := 0
  nomenclatureId : Int64 := 0
  brand : String := ""
  status : Int64 := 0
deriving DecidableEq

structure Order where
  uid : String := ""
  trackNumber : String := ""
  entry : String := ""
  delivery : Delivery := {}
  payment : Payment := {}
  items : List Item := []
  locale : String := ""
  customerId : String := ""
  deliveryService : String := ""
  shardKey : String := ""
  smId : Int64 := 0
  dateCreated : Instant := Instant.epoch
  oofShard : String := ""
deriving DecidableEq

instance : Inhabited Order := ⟨{}⟩

namespace Order

/-- Whether the order says when it was created: the epoch and all before it stand for no time. -/
def hasCreationTime (o : Order) : Bool := Instant.epoch < o.dateCreated

def isNewer (a b : Order) : Bool := b.dateCreated < a.dateCreated

end Order

end OrderLookup
