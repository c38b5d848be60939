/-!
The task that refreshes the cache again and again. Its ticker falls due at the multiples of a
period from the start on, and a tick that comes late is made up for at once. The tick at the start
is passed over. One refresh follows another, and a failed one changes nothing but its own record.
Times are in milliseconds.
-/

namespace OrderLookup.Refresh

structure Ticker where
  period : Nat
  due : Nat := 0
deriving DecidableEq, Repr

def Ticker.tick (t : Ticker) (now : Nat) : Nat × Ticker :=
  (max now t.due, { t with due := t.due + t.period })

/-- How the refreshes go: how long each takes, and whether it fails. -/
structure Service where
  takes : Nat → Nat
  fails : Nat → Bool

structure Call where
  begun : Nat
  ended : Nat
  failed : Bool
deriving DecidableEq, Repr

structure Task where
  ticker : Ticker
  now : Nat := 0
  calls : List Call := []
  isAborted : Bool := false
deriving DecidableEq, Repr

/-- The period that a setting in seconds stands for; zero counts as one. -/
def period (seconds : Nat) : Nat := max 1 seconds * 1000

namespace Task

def start (seconds : Nat) : Task :=
  let (now, ticker) := Ticker.tick ⟨period seconds, 0⟩ 0
  { ticker := ticker, now := now }

def next (s : Service) (t : Task) : Task :=
  let n := t.calls.length
  let (begun, ticker) := t.ticker.tick t.now
  let ended := begun + s.takes n
  { t with ticker := ticker, now := ended, calls := t.calls ++ [⟨begun, ended, s.fails n⟩] }

def after (s : Service) (seconds : Nat) : Nat → Task
  | 0 => start seconds
  | n + 1 => (after s seconds n).next s

def abort (t : Task) : Task := { t with isAborted := true }

def callsUntil (s : Service) (seconds instant : Nat) : List Call :=
  (after s seconds (instant / period seconds)).calls.takeWhile fun c => c.begun ≤ instant

end Task

end OrderLookup.Refresh
