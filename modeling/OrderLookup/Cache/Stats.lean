/-!
What a cache counts: lookups that found something and lookups that did not, entries that had to
leave, values replaced in place, and entries held.
-/

namespace OrderLookup.Cache

structure Stats where
  hits : Nat := 0
  misses : Nat := 0
  evictions : Nat := 0
  updates : Nat := 0
  totalEntries : Nat := 0
deriving DecidableEq, Repr

namespace Stats

def recordHit (s : Stats) : Stats := { s with hits := s.hits + 1 }

def recordMiss (s : Stats) : Stats := { s with misses := s.misses + 1 }

def recordEviction (s : Stats) : Stats := { s with evictions := s.evictions + 1 }

def recordUpdate (s : Stats) : Stats := { s with updates := s.updates + 1 }

def setTotalEntries (s : Stats) (n : Nat) : Stats := { s with totalEntries := n }

def hitRate (s : Stats) : Float :=
  let total := s.hits + s.misses
  if total = 0 then 0 else (UInt64.ofNat s.hits).toFloat / (UInt64.ofNat total).toFloat

end Stats

end OrderLookup.Cache
