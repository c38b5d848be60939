import OrderLookup.Proofs.Cache.Turnover

/-!
The accounts of a cache. Each request is one item of its ledger: a lookup that found something or
did not, or a write that replaced a value, took up free room or pushed another entry out. What the
cache counts is what the ledger holds of each kind, and the entries in it are the writes that took
up free room, since one that pushes an entry out takes its place.
-/

namespace OrderLookup.Cache

variable {α : Type}

inductive Item
  | hit
  | miss
  | update
  | growth
  | eviction
  | nothing
deriving DecidableEq, Repr

def itemOf : Request α → Answer α → Item
  | .get _, .found (some _) => .hit
  | .get _, .found none => .miss
  | .set _ _, .stored .updated => .update
  | .set _ _, .stored .inserted => .growth
  | .set _ _, .stored (.evicted _) => .eviction
  | _, _ => .nothing

def ledger (c : Cache α) : List (Request α) → List Item
  | [] => []
  | r :: rs => itemOf r (c.perform r).1 :: (c.perform r).2.ledger rs

def Request.isGet : Request α → Bool
  | .get _ => true
  | _ => false

def Request.isSet : Request α → Bool
  | .set _ _ => true
  | _ => false

/-- What a cache counts next, where `size` entries are in it then. -/
def Stats.book (s : Stats) (size : Nat) : Item → Stats
  | .hit => s.recordHit
  | .miss => s.recordMiss
  | .update => s.recordUpdate
  | .growth => s.setTotalEntries size
  | .eviction => s.recordEviction.setTotalEntries size
  | .nothing => s

variable {c : Cache α} {items : List Item}

theorem countP_isGet (c : Cache α) (rs : List (Request α)) :
    rs.countP Request.isGet = (c.ledger rs).count .hit + (c.ledger rs).count .miss := by
  induction rs generalizing c with
  | nil => rfl
  | cons r rs ih =>
    rw [ledger, List.countP_cons, List.count_cons, List.count_cons, ih (c.perform r).2]
    cases r with
    | get key =>
      rw [perform]
      dsimp only
      cases (c.get key).1 <;> simp [itemOf, Request.isGet] <;> omega
    | set key value =>
      rw [perform]
      dsimp only
      cases (c.set key value).1 <;> simp [itemOf, Request.isGet]
    | peek key => simp [itemOf, perform, Request.isGet]

theorem countP_isSet (c : Cache α) (rs : List (Request α)) :
    rs.countP Request.isSet = (c.ledger rs).count .update + (c.ledger rs).count .growth +
      (c.ledger rs).count .eviction := by
  induction rs generalizing c with
  | nil => rfl
  | cons r rs ih =>
    rw [ledger, List.countP_cons, List.count_cons, List.count_cons, List.count_cons,
      ih (c.perform r).2]
    cases r with
    | get key =>
      rw [perform]
      dsimp only
      cases (c.get key).1 <;> simp [itemOf, Request.isSet]
    | set key value =>
      rw [perform]
      dsimp only
      cases (c.set key value).1 <;> simp [itemOf, Request.isSet] <;> omega
    | peek key => simp [itemOf, perform, Request.isSet]

namespace Stats

theorem book_hits (s : Stats) (size : Nat) (i : Item) :
    (s.book size i).hits = s.hits + [i].count .hit := by
  cases i <;> rfl

theorem book_misses (s : Stats) (size : Nat) (i : Item) :
    (s.book size i).misses = s.misses + [i].count .miss := by
  cases i <;> rfl

theorem book_updates (s : Stats) (size : Nat) (i : Item) :
    (s.book size i).updates = s.updates + [i].count .update := by
  cases i <;> rfl

theorem book_evictions (s : Stats) (size : Nat) (i : Item) :
    (s.book size i).evictions = s.evictions + [i].count .eviction := by
  cases i <;> rfl

theorem book_totalEntries (s : Stats) (i : Item) :
    (s.book (s.totalEntries + [i].count .growth) i).totalEntries =
      s.totalEntries + [i].count .growth := by
  cases i <;> rfl

end Stats

theorem set_counters (c : Cache α) (key : String) (value : α) :
    (c.set key value).2.counters = c.counters.book (c.set key value).2.size
      (itemOf (.set key value) (.stored (c.set key value).1)) := by
  rw [set]
  split
  · rename_i c' hr
    rw [replace?] at hr
    split at hr
    · cases hr
    · obtain ⟨p, -, rfl⟩ := Option.map_eq_some_iff.1 hr
      rfl
  · dsimp only
    rw [makeRoom]
    split
    · split <;> rfl
    · rfl

theorem perform_counters (c : Cache α) (r : Request α) :
    (c.perform r).2.counters =
      c.counters.book (c.perform r).2.size (itemOf r (c.perform r).1) := by
  cases r with
  | set key value => exact c.set_counters key value
  | get key =>
    rw [perform, get]
    split <;> rfl
  | peek key => rfl

/-- What a request does besides counting does not depend on what has been counted. -/
theorem perform_withCounters (c : Cache α) (counters : Stats) (r : Request α) :
    ({ c with counters := counters } : Cache α).perform r =
      ((c.perform r).1,
        { (c.perform r).2 with
          counters := counters.book (c.perform r).2.size (itemOf r (c.perform r).1) }) := by
  cases r with
  | get key =>
    have hpeek : ({ c with counters := counters } : Cache α).peek key = c.peek key := rfl
    rw [perform, perform, get, get, hpeek]
    cases c.peek key <;> rfl
  | peek key => rfl
  | set key value =>
    rw [perform, perform, set, set, replace?, replace?, makeRoom, makeRoom]
    dsimp only
    cases c.index.get? key with
    | none =>
      dsimp only
      split
      · cases c.fifo.pop <;> rfl
      · rfl
    | some slot =>
      dsimp only
      cases c.fifo.replace slot value with
      | some p => rfl
      | none =>
        dsimp only [Option.map_none]
        split
        · cases c.fifo.pop <;> rfl
        · rfl

def missed (c : Cache α) : Cache α := { c with counters := c.counters.recordMiss }

def uncounted (c : Cache α) : Cache α := { c with counters := {} }

theorem Stats.book_recordMiss (s : Stats) (size : Nat) (i : Item) :
    s.recordMiss.book size i = (s.book size i).recordMiss := by
  cases i <;> rfl

theorem missed_perform (c : Cache α) (r : Request α) :
    c.missed.perform r = ((c.perform r).1, (c.perform r).2.missed) := by
  rw [missed, perform_withCounters, Stats.book_recordMiss, ← perform_counters]
  rfl

theorem uncounted_perform (c : Cache α) (r : Request α) :
    (c.uncounted.perform r).2.uncounted = (c.perform r).2.uncounted :=
  congrArg (fun p => p.2.uncounted) (c.perform_withCounters {} r)

theorem get_uncounted (c : Cache α) (key : String) : (c.get key).2.uncounted = c.uncounted := by
  rw [get]
  split <;> rfl

theorem uncounted_fill {c' : Cache α} (h : c.uncounted = c'.uncounted)
    (entries : List (String × α)) : (c.fill entries).uncounted = (c'.fill entries).uncounted := by
  have hset : ∀ (c : Cache α) (e : String × α),
      (c.uncounted.set e.1 e.2).2.uncounted = (c.set e.1 e.2).2.uncounted :=
    fun c e => c.uncounted_perform (.set e.1 e.2)
  induction entries generalizing c c' with
  | nil => exact h
  | cons e entries ih =>
    apply ih
    rw [← hset c, h, hset]

namespace Ordered

theorem size_eq (h : c.Ordered) : c.size = c.keys.length := by
  obtain ⟨a, l, hr, -⟩ := h
  rw [hr.size, hr.keys, length_keys]

theorem size_le (h : c.Ordered) : c.size ≤ c.capacity := by
  rw [h.size_eq]
  exact h.length_keys_le

theorem set_size (h : c.Ordered) (key : String) (value : α) :
    let item := itemOf (.set key value) (.stored (c.set key value).1)
    (c.set key value).2.size = c.size + [item].count .growth ∧
      (item = .growth → c.size < c.capacity) ∧ (item = .eviction → c.size = c.capacity) := by
  obtain ⟨hord, hkeys, -⟩ := h.set_spec key value
  have hle := h.length_keys_le
  have hpos := h.capacity_pos
  rw [hord.size_eq, hkeys, h.size_eq, h.set_outcome, outcomeOf]
  by_cases hk : key ∈ c.keys
  · simp [hk, itemOf]
  · by_cases hroom : c.keys.length < c.capacity
    · have hnone : c.keys.length + 1 - c.capacity = 0 := by omega
      simp [hk, hroom, itemOf, hnone]
    · have hfull : c.keys.length = c.capacity := by omega
      cases hl : c.keys.head? with
      | none =>
        rw [List.head?_eq_none_iff.1 hl, List.length_nil] at hroom
        exact absurd hpos hroom
      | some oldest => simp [hk, itemOf, hfull]

theorem perform_size (h : c.Ordered) (r : Request α) :
    let item := itemOf r (c.perform r).1
    (c.perform r).2.size = c.size + [item].count .growth ∧
      (item = .growth → c.size < c.capacity) ∧ (item = .eviction → c.size = c.capacity) := by
  cases r with
  | set key value => exact h.set_size key value
  | get key =>
    rw [Cache.perform, Cache.get]
    split <;> simp [itemOf, Cache.size]
  | peek key => simp [Cache.perform, itemOf]

end Ordered

structure Accounts (c : Cache α) (items : List Item) : Prop where
  hits : c.counters.hits = items.count .hit
  misses : c.counters.misses = items.count .miss
  updates : c.counters.updates = items.count .update
  evictions : c.counters.evictions = items.count .eviction
  size : c.size = items.count .growth
  total : c.counters.totalEntries = c.size
  full : 0 < items.count .eviction → c.size = c.capacity

namespace Accounts

theorem ofCapacity (capacity : Nat) : Accounts (Cache.ofCapacity capacity : Cache α) [] where
  hits := rfl
  misses := rfl
  updates := rfl
  evictions := rfl
  size := rfl
  total := rfl
  full h := absurd h (Nat.lt_irrefl 0)

theorem perform (h : Accounts c items) (hc : c.Ordered) (r : Request α) :
    Accounts (c.perform r).2 (items ++ [itemOf r (c.perform r).1]) := by
  have hbook := c.perform_counters r
  obtain ⟨hsize, hgrowth, heviction⟩ := hc.perform_size r
  constructor
  case hits => rw [hbook, Stats.book_hits, h.hits, List.count_append]
  case misses => rw [hbook, Stats.book_misses, h.misses, List.count_append]
  case updates => rw [hbook, Stats.book_updates, h.updates, List.count_append]
  case evictions => rw [hbook, Stats.book_evictions, h.evictions, List.count_append]
  case size => rw [hsize, h.size, List.count_append]
  case total => rw [hbook, hsize, ← h.total, Stats.book_totalEntries]
  case full =>
    intro hout
    rw [(hc.perform r).2, hsize]
    -- A cache that is full does not grow, so it stays as it is.
    have hstays : c.size = c.capacity → itemOf r (c.perform r).1 ≠ .growth :=
      fun hfull hgrown => Nat.ne_of_lt (hgrowth hgrown) hfull
    have hfull : c.size = c.capacity := by
      rw [List.count_append] at hout
      by_cases he : itemOf r (c.perform r).1 = .eviction
      · exact heviction he
      · rw [List.count_singleton, if_neg (by simpa using he)] at hout
        exact h.full hout
    rw [List.count_singleton, if_neg (by simpa using hstays hfull), hfull, Nat.add_zero]

theorem run (h : Accounts c items) (hc : c.Ordered) (rs : List (Request α)) :
    Accounts (c.run rs) (items ++ c.ledger rs) ∧ (c.run rs).Ordered ∧
      (c.run rs).capacity = c.capacity := by
  induction rs generalizing c items with
  | nil => exact ⟨by simpa [ledger, Cache.run] using h, hc, rfl⟩
  | cons r rs ih =>
    obtain ⟨hord, hcap⟩ := hc.perform r
    rw [ledger, Cache.run, List.append_cons, ← hcap]
    exact ih (h.perform hc r) hord

end Accounts

/-- After any requests the counters of a cache balance: hits and misses against lookups, entries and
evictions against writes. Once a key has been pushed out the cache stays full. -/
theorem accounts_balance (capacity : Nat) (rs : List (Request α)) :
    let c := (Cache.ofCapacity capacity : Cache α).run rs
    let items := (Cache.ofCapacity capacity : Cache α).ledger rs
    c.stats.hits + c.stats.misses = rs.countP Request.isGet ∧
      c.stats.hits = items.count .hit ∧
      rs.countP Request.isSet = c.stats.updates + c.stats.evictions + c.size ∧
      c.stats.updates = items.count .update ∧ c.stats.evictions = items.count .eviction ∧
      c.stats.totalEntries = c.size ∧ c.stats = c.counters ∧ c.size ≤ max capacity 1 ∧
      (0 < c.stats.evictions → ∀ rest, (c.run rest).size = max capacity 1) := by
  intro c items
  obtain ⟨haccounts, hord, hcap⟩ :=
    (Accounts.ofCapacity capacity).run (.ofCapacity capacity) rs
  have hgets : rs.countP Request.isGet = items.count .hit + items.count .miss := countP_isGet _ rs
  have hsets : rs.countP Request.isSet =
      items.count .update + items.count .growth + items.count .eviction := countP_isSet _ rs
  have hhits : c.stats.hits = items.count .hit := haccounts.hits
  have hmisses : c.stats.misses = items.count .miss := haccounts.misses
  have hupdates : c.stats.updates = items.count .update := haccounts.updates
  have hevictions : c.stats.evictions = items.count .eviction := haccounts.evictions
  have hsize : c.size = items.count .growth := haccounts.size
  have hkept : c.stats = c.counters := by
    change c.counters.setTotalEntries c.size = c.counters
    rw [← haccounts.total]
    rfl
  refine ⟨by omega, hhits, by omega, hupdates, hevictions, rfl, hkept, ?_, fun hout rest => ?_⟩
  · have hroom := hord.size_le
    rwa [hcap] at hroom
  · obtain ⟨hlater, -, hsame⟩ := haccounts.run hord rest
    have hearlier : 0 < ([] ++ items ++ c.ledger rest).count Item.eviction := by
      rw [List.nil_append, List.count_append]
      omega
    rw [hlater.full hearlier, hsame, hcap]
    rfl

theorem accounts_balance_after_eviction :
    let c := (Cache.ofCapacity 0 : Cache Nat).run [.get "a", .set "a" 1, .get "a", .set "b" 1]
    0 < c.stats.evictions ∧ (c.run [.get "a", .set "b" 2, .set "a" 3]).size = 1 := by
  intro c
  have hout : 0 < c.stats.evictions := by decide
  obtain ⟨-, -, -, -, -, -, -, -, hfull⟩ :=
    accounts_balance 0 [.get "a", .set "a" 1, .get "a", .set "b" (1 : Nat)]
  exact ⟨hout, hfull hout _⟩

end OrderLookup.Cache
