/-!
What can go wrong with an order, from its payload to its storage.
-/

namespace OrderLookup

inductive OrderError
  | notFound (uid : String)
  | validation (violations : List String)
  | invalidPayload (reason : String)
  | store (reason : String)
  | timeout (call : String)
  | deadLetter (reason : String)
  | source (reason : String)
deriving DecidableEq, Repr

namespace OrderError

def message : OrderError → String
  | .notFound uid => "order not found: " ++ uid
  | .validation violations => "validation failed: " ++ "; ".intercalate violations
  | .invalidPayload reason => "invalid payload: " ++ reason
  | .store reason => "store error: " ++ reason
  | .timeout call => "timed out: " ++ call
  | .deadLetter reason => "dead-letter write failed: " ++ reason
  | .source reason => "message source error: " ++ reason

end OrderError

end OrderLookup
