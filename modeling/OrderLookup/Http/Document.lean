import OrderLookup.Cache.Stats
import OrderLookup.Number.Shortest
import OrderLookup.OrderError
import OrderLookup.Wire.Json

/-!
The documents that answers carry, other than orders themselves.
-/

namespace OrderLookup.Http

def errorDocument (e : OrderError) : Json :=
  match e with
  | .validation violations =>
    .object [("error", .text e.message), ("violations", .array (violations.map Json.text))]
  | _ => .object [("error", .text e.message)]

def createdDocument (uid : String) : Json :=
  .object [("message", .text ("Order '" ++ uid ++ "' stored successfully")),
    ("order_uid", .text uid)]

def statsDocument (s : Cache.Stats) (capacity : Nat) : Json :=
  .object [("hits", .nat s.hits), ("misses", .nat s.misses), ("evictions", .nat s.evictions),
    ("updates", .nat s.updates), ("total_entries", .nat s.totalEntries),
    ("capacity", .nat capacity),
    ("hit_rate", .number (String.ofList (Number.floatText s.hitRate)))]

def healthDocument (time : String) : Json :=
  .object [("status", .text "ok"), ("timestamp", .text time)]

end OrderLookup.Http
