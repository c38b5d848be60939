import OrderLookup.Cache
import OrderLookup.Text.Blank
import OrderLookup.Text.Decimal
import OrderLookup.Text.Utf8

/-!
The settings of the service. Each comes from a variable of the environment; a variable that is
unset, is no text or is no number in range leaves its setting at the default.
-/

namespace OrderLookup

/-- What the resolver needs to know: deadlines in milliseconds, and how many orders a refresh
loads. -/
structure Settings where
  readTimeout : Nat := 2000
  writeTimeout : Nat := 3000
  warmLimit : Nat := 10
deriving DecidableEq, Repr

structure Config where
  cacheCapacity : Nat := Cache.defaultCapacity
  cacheWarmLimit : Nat := 10
  serverPort : Nat := 8080
  readTimeout : Nat := 2000
  writeTimeout : Nat := 3000
  sourceTopic : String := "orders"
  deadLetterTopic : Option String := some "orders.DLQ"
  refreshInterval : Nat := 60
  channelCapacity : Nat := 1024
  demoOrders : Nat := 0
deriving DecidableEq, Repr

namespace Config

open Text

abbrev Environment := String → Option String

def wordLimit : Nat := 18446744073709551616

def portLimit : Nat := 65536

def unsignedDigits (limit : Nat) (s : List Char) : Option Nat :=
  if !s.isEmpty && s.all isDigit && value s < limit then some (value s) else none

def parseNumber (limit : Nat) (s : String) : Option Nat :=
  match trim s.toList with
  | '+' :: r => unsignedDigits limit r
  | r => unsignedDigits limit r

def number (env : Environment) (name : String) (limit default : Nat) : Nat :=
  ((env name).bind (parseNumber limit)).getD default

def isBlankText (s : String) : Bool := (trim s.toList).isEmpty

def topicName (env : Environment) (name default : String) : String :=
  match env name with
  | some s => if isBlankText s then default else s
  | none => default

/-- A topic that a blank variable switches off. -/
def optionalTopic (env : Environment) (name : String) (default : Option String) : Option String :=
  match env name with
  | some s => if isBlankText s then none else some s
  | none => default

def default : Config := {}

def ofEnvironment (env : Environment) : Config where
  cacheCapacity := number env "CACHE_CAPACITY" wordLimit default.cacheCapacity
  cacheWarmLimit := number env "CACHE_WARM_LIMIT" wordLimit default.cacheWarmLimit
  serverPort := number env "SERVER_PORT" portLimit default.serverPort
  readTimeout := number env "READ_TIMEOUT_MS" wordLimit default.readTimeout
  writeTimeout := number env "WRITE_TIMEOUT_MS" wordLimit default.writeTimeout
  sourceTopic := topicName env "SOURCE_TOPIC" default.sourceTopic
  deadLetterTopic := optionalTopic env "DLQ_TOPIC" default.deadLetterTopic
  refreshInterval := number env "REFRESH_INTERVAL" wordLimit default.refreshInterval
  channelCapacity := number env "CHANNEL_CAPACITY" wordLimit default.channelCapacity
  demoOrders := number env "DEMO_ORDERS" wordLimit default.demoOrders

def environment (entries : List (String × Bytes)) : Environment := fun name =>
  (entries.lookup name).bind Utf8.decode

def settings (c : Config) : Settings := ⟨c.readTimeout, c.writeTimeout, c.cacheWarmLimit⟩

end Config

end OrderLookup
