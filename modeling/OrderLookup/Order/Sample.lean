import OrderLookup.Order
import OrderLookup.Text.Decimal

/-!
Numbered sample orders. Sample `n` is created `n` minutes after the start of 2024, and its amounts
add up: each item's total is its price less the sale, the goods total is the sum of the items, and
the amount is the goods total with the delivery.
-/

namespace OrderLookup.Order.Sample

open Text

def cities : List String := ["Moscow", "Kazan", "Samara", "Perm", "Ufa"]

def brands : List String := ["Vivienne Sabo", "Logitech", "Kingston", "JBL"]

def deliveryServices : List String := ["meest", "cdek", "boxberry"]

def pick (l : List String) (n : Nat) : String := l.getD (n % l.length) ""

def firstSecond : Int := 1704067200

def decimal (n : Nat) : String := String.ofList (digits n)

def zeroPadded (width n : Nat) : String := String.ofList (padded width n)

def signedNumber (n : Nat) : Int := (UInt64.ofNat n).toInt64.toInt

def uid (n : Nat) : String := "b" ++ decimal n

def trackNumber (n : Nat) : String := "WBILMT" ++ zeroPadded 6 (100000 + n)

def price (n k : Nat) : Int := 10000 + Int.tmod (signedNumber n * 7 + k * 13) 100 * 1000

def sale (n k : Nat) : Int := Int.tmod (signedNumber n + k * 5) 31

def totalPrice (n k : Nat) : Int := price n k - Int.tdiv (price n k * sale n k) 100

def item (n k : Nat) : Item where
  chartId := Int64.ofInt (100000 + signedNumber n * 10 + k)
  trackNumber := trackNumber n
  price := Int64.ofInt (price n k)
  rid := uid n ++ "-rid-" ++ decimal k
  name := "Item " ++ decimal (k + 1)
  sale := Int64.ofInt (sale n k)
  size := decimal (k % 5 + 1)
  totalPrice := Int64.ofInt (totalPrice n k)
  nomenclatureId := Int64.ofInt (2000000 + signedNumber n * 10 + k)
  brand := pick brands (n % brands.length + k)
  status := 202

def itemCount (n : Nat) : Nat := n % 3 + 1

def goodsTotal (n : Nat) : Int := (List.range (itemCount n)).foldr (fun i s => totalPrice n i + s) 0

def deliveryCost : Int := 1500

/-- The creation time; numbers that lead out of the calendar get the epoch. -/
def created (n : Nat) : Instant :=
  (Instant.ofUnix? (firstSecond + signedNumber n * 60) 0).getD Instant.epoch

end Sample

def sample (n : Nat) : Order where
  uid := Sample.uid n
  trackNumber := Sample.trackNumber n
  entry := "WBIL"
  delivery := {
    name := "Customer " ++ Sample.decimal n
    phone := "+7900" ++ Sample.zeroPadded 7 n
    zip := Sample.zeroPadded 6 (100000 + n % 900000)
    city := Sample.pick Sample.cities n
    address := "Lenina " ++ Sample.decimal (n % 200 + 1)
    region := Sample.pick Sample.cities n
    email := "customer" ++ Sample.decimal n ++ "@example.com" }
  payment := {
    transaction := Sample.uid n
    requestId := ""
    currency := "RUB"
    provider := "wbpay"
    amount := Int64.ofInt (Sample.goodsTotal n + Sample.deliveryCost)
    paidAt := Int64.ofInt (Sample.created n).seconds
    bank := "alpha"
    deliveryCost := Int64.ofInt Sample.deliveryCost
    goodsTotal := Int64.ofInt (Sample.goodsTotal n)
    customFee := 0 }
  items := (List.range (Sample.itemCount n)).map (Sample.item n)
  locale := "en"
  customerId := "customer_" ++ Sample.decimal n
  deliveryService := Sample.pick Sample.deliveryServices n
  shardKey := Sample.decimal (n % 10)
  smId := Int64.ofNat (n % 100)
  dateCreated := Sample.created n
  oofShard := "1"

end OrderLookup.Order
