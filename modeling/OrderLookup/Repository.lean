import OrderLookup.Order
import OrderLookup.OrderError
import OrderLookup.Table

/-!
The stored orders, each under its id. An order is stored whole, so storing it again replaces its
items too.
-/

namespace OrderLookup

structure Repository where
  orders : Table String Order := Table.empty

namespace Repository

def empty : Repository := {}

def get (r : Repository) (uid : String) : Except OrderError Order :=
  match r.orders.get? uid with
  | some o => .ok o
  | none => .error (.notFound uid)

/-- Stores an order in place of the one with its id; an order needs an id. -/
def upsert (r : Repository) (o : Order) : Except OrderError Repository :=
  if o.uid = "" then .error (.store "order_uid violates not-null constraint")
  else .ok ⟨r.orders.insert o.uid o⟩

def all (r : Repository) : List Order := r.orders.entries.map Prod.snd

/-- Puts an order in front of the first one that is not newer. -/
def insertByDate (o : Order) : List Order → List Order
  | [] => [o]
  | a :: r => if a.isNewer o then a :: insertByDate o r else o :: a :: r

def newestFirst (l : List Order) : List Order := l.foldr insertByDate []

def recent (r : Repository) (limit : Nat) : List Order := (newestFirst r.all).take limit

def size (r : Repository) : Nat := r.orders.size

def isEmpty (r : Repository) : Bool := r.size == 0

def insertById (o : Order) : List Order → List Order
  | [] => [o]
  | a :: r => if o.uid < a.uid then o :: a :: r else a :: insertById o r

def listing (r : Repository) : List Order := r.all.foldr insertById []

def ofOrders (l : List Order) : Repository :=
  l.foldl (fun r o => (r.upsert o).toOption.getD r) empty

end Repository

end OrderLookup
