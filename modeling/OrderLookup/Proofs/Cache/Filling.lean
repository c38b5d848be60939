import OrderLookup.Proofs.Cache.InsertionOrder
import Mathlib.Data.List.Perm.Subperm

/-!
Filling a cache with a list of entries, one after another. New keys line up at the end, and for
each key too many the one in front leaves; a key that is present keeps its place. So the keys that
are left are the last ones of the line, as many as there is room for, and an entry of the list is
lost only if its key was present at its turn, with no more keys in front of it than leave later.
-/

namespace OrderLookup.Cache

variable {α : Type}

/-- A cache that stands for a list of keys and values no longer than its capacity. -/
def Ordered (c : Cache α) : Prop :=
  ∃ a l, Refines c a l ∧ a.table.size ≤ a.capacity ∧ 0 < a.capacity

def SetOutcome.evictions : SetOutcome → Nat
  | .evicted _ => 1
  | _ => 0

def fill (c : Cache α) (entries : List (String × α)) : Cache α :=
  entries.foldl (fun c e => (c.set e.1 e.2).2) c

variable {c : Cache α} {key : String} {value : α} {entries before rest : List (String × α)}

@[simp] theorem fill_nil (c : Cache α) : c.fill [] = c := rfl

@[simp] theorem fill_cons (c : Cache α) (e : String × α) (entries : List (String × α)) :
    c.fill (e :: entries) = (c.set e.1 e.2).2.fill entries := rfl

theorem fill_append (c : Cache α) (entries rest : List (String × α)) :
    c.fill (entries ++ rest) = (c.fill entries).fill rest := List.foldl_append

theorem length_keys (t : Table String α) : t.keys.length = t.size := by
  rw [Table.keys, List.length_map, Table.size]

namespace Arrivals

variable {a : Arrivals α}

@[simp] theorem set_capacity (a : Arrivals α) (key : String) (value : α) :
    (a.set key value).2.capacity = a.capacity := by
  rw [set, makeRoom]
  split
  · rfl
  · split
    · rfl
    · split <;> rfl

theorem makeRoom_spec (h : a.table.size ≤ a.capacity) (hpos : 0 < a.capacity) :
    a.makeRoom.2.table.keys = a.table.keys.drop (a.table.size + 1 - a.capacity) ∧
      a.makeRoom.1.evictions = a.table.size + 1 - a.capacity := by
  have hlen := length_keys a.table
  rw [makeRoom]
  cases hk : a.table.keys with
  | nil =>
    rw [hk, List.length_nil] at hlen
    have hnone : a.table.size + 1 - a.capacity = 0 := by omega
    simp [hk, hnone, SetOutcome.evictions]
  | cons oldest keys =>
    have hnodup : a.table.keys.Nodup := a.table.nodup
    rw [hk, List.nodup_cons] at hnodup
    dsimp only
    split
    · rename_i hfull
      have hone : a.table.size + 1 - a.capacity = 1 := by omega
      have hrest : keys.filter (fun k => k ≠ oldest) = keys := by
        refine List.filter_eq_self.2 fun k hm => ?_
        simpa using fun he : k = oldest => hnodup.1 (he ▸ hm)
      rw [Table.keys_erase, hk, hone, List.filter_cons, hrest]
      simp [SetOutcome.evictions]
    · rename_i hroom
      have hnone : a.table.size + 1 - a.capacity = 0 := by omega
      rw [hnone, hk]
      exact ⟨rfl, rfl⟩

theorem set_spec (h : a.table.size ≤ a.capacity) (hpos : 0 < a.capacity) (key : String)
    (value : α) :
    (a.set key value).2.table.keys =
        (if key ∈ a.table.keys then a.table.keys
        else (a.table.keys ++ [key]).drop (a.table.size + 1 - a.capacity)) ∧
      (a.set key value).1.evictions =
        if key ∈ a.table.keys then 0 else a.table.size + 1 - a.capacity := by
  rw [set]
  by_cases hk : key ∈ a.table.keys
  · simp only [if_pos hk, write, Table.keys_insert]
    exact ⟨trivial, rfl⟩
  · obtain ⟨hroom, hout⟩ := makeRoom_spec h hpos
    have hnew : key ∉ a.makeRoom.2.table.keys := by
      rw [hroom]
      exact fun hm => hk (List.mem_of_mem_drop hm)
    have hle : a.table.size + 1 - a.capacity ≤ a.table.keys.length := by
      rw [length_keys]
      omega
    simp only [if_neg hk, write, Table.keys_insert, if_neg hnew]
    rw [hroom, List.drop_append_of_le_length hle]
    exact ⟨rfl, hout⟩

theorem get?_makeRoom (a : Arrivals α) (k : String) :
    a.makeRoom.2.table.get? k = if a.makeRoom.1 = .evicted k then none else a.table.get? k := by
  rw [makeRoom]
  split
  · simp
  · split
    · simp [Table.get?_erase]
    · simp

theorem get?_set (a : Arrivals α) (key : String) (value : α) (k : String) :
    (a.set key value).2.table.get? k =
      if key = k then some value
      else if (a.set key value).1 = .evicted k then none
      else a.table.get? k := by
  rw [set]
  split
  · simp [write, Table.get?_insert]
  · simp only [write, Table.get?_insert, get?_makeRoom]

end Arrivals

theorem makeRoom_frame (c : Cache α) : c.makeRoom.2.capacity = c.capacity ∧
    c.makeRoom.2.counters.evictions = c.counters.evictions + c.makeRoom.1.evictions := by
  rw [makeRoom]
  split
  · split <;> exact ⟨rfl, rfl⟩
  · exact ⟨rfl, rfl⟩

theorem replace?_frame {c' : Cache α} (h : c.replace? key value = some c') :
    c'.capacity = c.capacity ∧ c'.counters.evictions = c.counters.evictions := by
  rw [replace?] at h
  split at h
  · cases h
  · obtain ⟨p, -, rfl⟩ := Option.map_eq_some_iff.1 h
    exact ⟨rfl, rfl⟩

theorem set_frame (c : Cache α) (key : String) (value : α) :
    (c.set key value).2.capacity = c.capacity ∧
      (c.set key value).2.counters.evictions =
        c.counters.evictions + (c.set key value).1.evictions := by
  rw [set]
  split
  · rename_i hr
    exact replace?_frame hr
  · exact c.makeRoom_frame

@[simp] theorem fill_capacity (c : Cache α) (entries : List (String × α)) :
    (c.fill entries).capacity = c.capacity := by
  induction entries generalizing c with
  | nil => rfl
  | cons e entries ih => rw [fill_cons, ih, (c.set_frame e.1 e.2).1]

namespace Ordered

theorem ofCapacity (capacity : Nat) : Ordered (Cache.ofCapacity capacity : Cache α) :=
  ⟨_, _, .ofCapacity capacity, Nat.zero_le _, Nat.le_max_right ..⟩

theorem withCounters (h : c.Ordered) (counters : Stats) :
    Ordered { c with counters := counters } := by
  obtain ⟨a, l, hr, hsize, hpos⟩ := h
  exact ⟨a, l, ⟨hr.capacity, hr.holds, hr.entries, hr.index, hr.index_keys⟩, hsize, hpos⟩

theorem get (h : c.Ordered) (key : String) : (c.get key).2.Ordered := by
  obtain ⟨a, l, hr, hsize, hpos⟩ := h
  exact ⟨a, l, (hr.get key).2, hsize, hpos⟩

theorem nodup_keys (h : c.Ordered) : c.keys.Nodup := by
  obtain ⟨a, l, hr, -⟩ := h
  rw [hr.keys]
  exact a.table.nodup

theorem length_keys_le (h : c.Ordered) : c.keys.length ≤ c.capacity := by
  obtain ⟨a, l, hr, hsize, -⟩ := h
  rw [hr.keys, length_keys, hr.capacity]
  exact hsize

theorem capacity_pos (h : c.Ordered) : 0 < c.capacity := by
  obtain ⟨a, l, hr, -, hpos⟩ := h
  rwa [hr.capacity]

theorem peek_eq_none_iff (h : c.Ordered) : c.peek key = none ↔ key ∉ c.keys := by
  obtain ⟨a, l, hr, -⟩ := h
  rw [hr.peek, hr.keys]
  exact a.table.get?_eq_none_iff key

theorem set_spec (h : c.Ordered) (key : String) (value : α) :
    (c.set key value).2.Ordered ∧
      (c.set key value).2.keys =
        (if key ∈ c.keys then c.keys
        else (c.keys ++ [key]).drop (c.keys.length + 1 - c.capacity)) ∧
      (c.set key value).1.evictions =
        if key ∈ c.keys then 0 else c.keys.length + 1 - c.capacity := by
  obtain ⟨a, l, hr, hsize, hpos⟩ := h
  obtain ⟨hout, l', hr'⟩ := hr.set key value
  obtain ⟨hkeys, hevicted⟩ := Arrivals.set_spec hsize hpos key value
  rw [hr.keys, length_keys, hr.capacity, hr'.keys, hout]
  refine ⟨⟨_, l', hr', ?_, ?_⟩, hkeys, hevicted⟩
  · rw [← length_keys, hkeys, Arrivals.set_capacity]
    split
    · rwa [length_keys]
    · rw [List.length_drop, List.length_append, List.length_singleton, length_keys]
      omega
  · rwa [Arrivals.set_capacity]

theorem set (h : c.Ordered) (key : String) (value : α) : (c.set key value).2.Ordered :=
  (h.set_spec key value).1

theorem set_peek (h : c.Ordered) (key : String) (value : α) (k : String) :
    (c.set key value).2.peek k =
      if key = k then some value
      else if (c.set key value).1 = .evicted k then none
      else c.peek k := by
  obtain ⟨a, l, hr, -⟩ := h
  obtain ⟨hout, l', hr'⟩ := hr.set key value
  rw [hr'.peek, hout, hr.peek, Arrivals.get?_set]

theorem fill (h : c.Ordered) (entries : List (String × α)) : (c.fill entries).Ordered := by
  induction entries generalizing c with
  | nil => exact h
  | cons e entries ih => exact ih (h.set e.1 e.2)

theorem fill_spec (h : c.Ordered) (entries : List (String × α)) :
    ∃ fresh, fresh.Sublist (entries.map Prod.fst) ∧
      (∀ k ∈ entries.map Prod.fst, k ∉ c.keys → k ∈ fresh) ∧
      (c.fill entries).keys =
        (c.keys ++ fresh).drop (c.keys.length + fresh.length - c.capacity) ∧
      (c.fill entries).counters.evictions =
        c.counters.evictions + (c.keys.length + fresh.length - c.capacity) := by
  induction entries generalizing c with
  | nil =>
    have hle : c.keys.length - c.capacity = 0 := Nat.sub_eq_zero_of_le h.length_keys_le
    exact ⟨[], .slnil, by simp, by simp [hle], by simp [hle]⟩
  | cons e entries ih =>
    obtain ⟨hord, hkeys, hout⟩ := h.set_spec e.1 e.2
    obtain ⟨hcap, hcount⟩ := c.set_frame e.1 e.2
    obtain ⟨fresh, hsub, hnew, hline, hevictions⟩ := ih hord
    rw [hcap] at hline hevictions
    rw [hcount, hout] at hevictions
    rw [fill_cons, List.map_cons]
    -- A key that is there lets the others be; a new one lines up and may push one out first.
    by_cases hk : e.1 ∈ c.keys
    · rw [if_pos hk] at hkeys hevictions
      rw [hkeys] at hline hevictions
      refine ⟨fresh, hsub.cons _, ?_, hline, hevictions⟩
      intro k hm hout
      rcases List.mem_cons.1 hm with rfl | hm
      · exact absurd hk hout
      · exact hnew k hm (hkeys ▸ hout)
    · rw [if_neg hk] at hkeys hevictions
      have hle := h.length_keys_le
      have hlen : (c.set e.1 e.2).2.keys.length =
          c.keys.length + 1 - (c.keys.length + 1 - c.capacity) := by
        rw [hkeys, List.length_drop, List.length_append, List.length_singleton]
      refine ⟨e.1 :: fresh, hsub.cons_cons _, ?_, ?_, ?_⟩
      · intro k hm hout
        rcases List.mem_cons.1 hm with rfl | hm
        · exact .head _
        · by_cases hke : k = e.1
          · exact hke ▸ .head _
          · refine .tail _ (hnew k hm fun hin => ?_)
            rw [hkeys] at hin
            rcases List.mem_append.1 (List.mem_of_mem_drop hin) with hin | hin
            · exact hout hin
            · exact hke (List.mem_singleton.1 hin)
      · have hdrop : c.keys.length + 1 - c.capacity ≤ (c.keys ++ [e.1]).length := by
          rw [List.length_append, List.length_singleton]
          omega
        rw [hline, hlen, hkeys, ← List.drop_append_of_le_length hdrop, List.drop_drop,
          List.append_assoc, List.singleton_append, List.length_cons]
        congr 1
        omega
      · rw [hevictions, hlen, List.length_cons]
        omega

theorem mem_keys_fill {k : String} (h : c.Ordered) (hk : k ∈ (c.fill entries).keys) :
    k ∈ c.keys ∨ k ∈ entries.map Prod.fst := by
  obtain ⟨fresh, hsub, -, hline, -⟩ := h.fill_spec entries
  rw [hline] at hk
  exact (List.mem_append.1 (List.mem_of_mem_drop hk)).imp_right (hsub.subset ·)

theorem keys_fill_of_new (h : c.Ordered) (hn : (entries.map Prod.fst).Nodup)
    (hnew : ∀ k ∈ entries.map Prod.fst, k ∉ c.keys) :
    (c.fill entries).keys = (c.keys ++ entries.map Prod.fst).drop
      (c.keys.length + entries.length - c.capacity) := by
  obtain ⟨fresh, hsub, hin, hline, -⟩ := h.fill_spec entries
  have hall : entries.map Prod.fst ⊆ fresh := fun k hm => hin k hm (hnew k hm)
  have heq : fresh = entries.map Prod.fst := hsub.eq_of_length_le (hn.subperm hall).length_le
  rw [hline, heq, List.length_map]

/-- A key is gone after a filling exactly if it was there before it was written, with no more keys
in front of it than have left since. -/
theorem fill_peek_eq_none_iff (h : c.Ordered) (hnew : key ∉ rest.map Prod.fst)
    (hlen : rest.length < c.capacity) :
    (c.fill ((key, value) :: rest)).peek key = none ↔
      key ∈ c.keys.take ((c.fill ((key, value) :: rest)).counters.evictions -
        c.counters.evictions) := by
  obtain ⟨hord, hkeys, hout⟩ := h.set_spec key value
  obtain ⟨hcap, hcount⟩ := c.set_frame key value
  obtain ⟨fresh, hsub, -, hline, hevictions⟩ := hord.fill_spec rest
  have hfresh : key ∉ fresh := fun hm => hnew (hsub.subset hm)
  have hfew : fresh.length ≤ rest.length := by simpa using hsub.length_le
  have hle := h.length_keys_le
  rw [hcap] at hline hevictions
  rw [hcount, hout] at hevictions
  rw [fill_cons, (hord.fill rest).peek_eq_none_iff, hline, hevictions]
  by_cases hk : key ∈ c.keys
  · rw [if_pos hk] at hkeys ⊢
    rw [hkeys]
    -- All that leaves later stands in front of the keys that come in later.
    have hold : c.keys.length + fresh.length - c.capacity ≤ c.keys.length := by omega
    rw [List.drop_append_of_le_length hold, List.mem_append, not_or, Nat.add_zero,
      Nat.add_sub_cancel_left]
    have hsplit := List.take_append_drop (c.keys.length + fresh.length - c.capacity) c.keys
    have hnodup := h.nodup_keys
    rw [← hsplit, List.nodup_append] at hnodup
    rw [← hsplit, List.mem_append] at hk
    constructor
    · exact fun hgone => hk.resolve_right hgone.1
    · exact fun hm => ⟨fun hd => hnodup.2.2 _ hm _ hd rfl, hfresh⟩
  · have hstays : key ∈ ((c.set key value).2.keys ++ fresh).drop
        ((c.set key value).2.keys.length + fresh.length - c.capacity) := by
      rw [if_neg hk] at hkeys
      have hlast : (c.set key value).2.keys =
          c.keys.drop (c.keys.length + 1 - c.capacity) ++ [key] := by
        rw [hkeys, List.drop_append_of_le_length (by omega)]
      have hcut : (c.set key value).2.keys.length + fresh.length - c.capacity ≤
          (c.keys.drop (c.keys.length + 1 - c.capacity)).length := by
        rw [hlast, List.length_append, List.length_singleton, List.length_drop]
        omega
      rw [hlast] at hcut ⊢
      rw [List.append_assoc, List.drop_append_of_le_length hcut]
      exact List.mem_append_right _ (.head _)
    constructor
    · exact fun hgone => absurd hstays hgone
    · exact fun hm => absurd (List.mem_of_mem_take hm) hk

theorem fill_peek_of_not_mem {k : String} (h : c.Ordered) (hk : k ∉ entries.map Prod.fst) :
    (c.fill entries).peek k = c.peek k ∨ (c.fill entries).peek k = none ∧
      ∃ before e rest, entries = before ++ e :: rest ∧
        ((c.fill before).set e.1 e.2).1 = .evicted k := by
  induction entries generalizing c with
  | nil => exact .inl rfl
  | cons e entries ih =>
    rw [List.map_cons, List.mem_cons, not_or] at hk
    have hset := h.set_peek e.1 e.2 k
    rw [if_neg (Ne.symm hk.1)] at hset
    rcases ih (h.set e.1 e.2) hk.2 with hsame | ⟨hgone, before, d, rest, rfl, hout⟩
    · by_cases hout : (c.set e.1 e.2).1 = .evicted k
      · rw [if_pos hout] at hset
        exact .inr ⟨hsame.trans hset, [], e, entries, rfl, hout⟩
      · rw [if_neg hout] at hset
        exact .inl (hsame.trans hset)
    · exact .inr ⟨hgone, e :: before, d, rest, rfl, hout⟩

theorem fill_peek_of_evicted {e : String × α} {k : String} (h : c.Ordered)
    (hout : ((c.fill before).set e.1 e.2).1 = .evicted k) (hk : k ∉ (e :: rest).map Prod.fst) :
    (c.fill (before ++ e :: rest)).peek k = none := by
  rw [List.map_cons, List.mem_cons, not_or] at hk
  have hord := h.fill before
  have hset := hord.set_peek e.1 e.2 k
  rw [if_neg (Ne.symm hk.1), if_pos hout] at hset
  rw [fill_append, fill_cons]
  rcases (hord.set e.1 e.2).fill_peek_of_not_mem hk.2 with hsame | ⟨hgone, -⟩
  · rw [hsame, hset]
  · exact hgone

theorem fill_peek (h : c.Ordered) (hnew : key ∉ rest.map Prod.fst) :
    (c.fill (before ++ (key, value) :: rest)).peek key = some value ∨
      (c.fill (before ++ (key, value) :: rest)).peek key = none ∧
      ∃ mid e last, rest = mid ++ e :: last ∧
        ((c.fill (before ++ (key, value) :: mid)).set e.1 e.2).1 = .evicted key := by
  have hord := h.fill before
  have hself := hord.set_peek key value key
  rw [if_pos rfl] at hself
  rw [fill_append, fill_cons]
  rcases (hord.set key value).fill_peek_of_not_mem hnew with hsame | ⟨hgone, mid, e, last, he, hout⟩
  · exact .inl (hsame.trans hself)
  · refine .inr ⟨hgone, mid, e, last, he, ?_⟩
    rw [fill_append, fill_cons]
    exact hout

end Ordered

end OrderLookup.Cache
