import OrderLookup.Proofs.Cache.Filling

/-!
The turnover of a cache: the keys that come in and the keys that leave for them. Keys leave in the
order in which they came, each one with the insertion that finds as many later ones in the cache as
there is room for. What an insertion pushes out depends on the keys in the cache alone, so a request
that brings no key in neither hurries an eviction nor delays it.
-/

namespace OrderLookup.Cache

variable {α : Type}

structure Insertion where
  key : String
  evicted : Option String
deriving DecidableEq, Repr

def insertion? : Request α → Answer α → Option Insertion
  | .set key _, .stored .inserted => some ⟨key, none⟩
  | .set key _, .stored (.evicted oldest) => some ⟨key, some oldest⟩
  | _, _ => none

def run (c : Cache α) : List (Request α) → Cache α
  | [] => c
  | r :: rs => (c.perform r).2.run rs

def insertions (c : Cache α) : List (Request α) → List Insertion
  | [] => []
  | r :: rs => (insertion? r (c.perform r).1).toList ++ (c.perform r).2.insertions rs

def Answer.outcome? : Answer α → Option SetOutcome
  | .stored outcome => some outcome
  | .found _ => none

def View.turnover (v : View α) : Option SetOutcome × List String := (v.answer.outcome?, v.keys)

def outcomeOf (capacity : Nat) (keys : List String) (key : String) : SetOutcome :=
  if key ∈ keys then .updated
  else if keys.length < capacity then .inserted
  else match keys.head? with
    | some oldest => .evicted oldest
    | none => .inserted

variable {c c' : Cache α} {key : String} {value : α} {capacity : Nat} {keys : List String}
  {history : List Insertion}

theorem Arrivals.set_outcome (a : Arrivals α) (key : String) (value : α) :
    (a.set key value).1 = outcomeOf a.capacity a.table.keys key := by
  rw [set, outcomeOf, makeRoom, ← length_keys]
  split
  · rfl
  · cases a.table.keys with
    | nil => simp
    | cons oldest rest =>
      simp only [List.head?_cons]
      split
      · rename_i hfull
        rw [if_neg (Nat.not_lt.2 hfull)]
      · rename_i hroom
        rw [if_pos (Nat.lt_of_not_le hroom)]

theorem get_keys (c : Cache α) (key : String) : (c.get key).2.keys = c.keys := by
  rw [get]
  split <;> rfl

namespace Ordered

theorem set_outcome (h : c.Ordered) (key : String) (value : α) :
    (c.set key value).1 = outcomeOf c.capacity c.keys key := by
  obtain ⟨a, l, hr, -⟩ := h
  rw [(hr.set key value).1, Arrivals.set_outcome, hr.keys, hr.capacity]

theorem perform (h : c.Ordered) (r : Request α) :
    (c.perform r).2.Ordered ∧ (c.perform r).2.capacity = c.capacity := by
  cases r with
  | set key value => exact ⟨h.set key value, (c.set_frame key value).1⟩
  | get key =>
    refine ⟨h.get key, ?_⟩
    rw [Cache.perform, Cache.get]
    split <;> rfl
  | peek key => exact ⟨h, rfl⟩

theorem perform_cases (h : c.Ordered) (r : Request α) :
    (insertion? r (c.perform r).1 = none ∧ (c.perform r).2.keys = c.keys) ∨
      ∃ key, insertion? r (c.perform r).1 =
          some ⟨key, if c.keys.length < c.capacity then none else c.keys.head?⟩ ∧
        (c.perform r).2.keys = (c.keys ++ [key]).drop (c.keys.length + 1 - c.capacity) := by
  cases r with
  | get key => exact .inl ⟨rfl, c.get_keys key⟩
  | peek key => exact .inl ⟨rfl, rfl⟩
  | set key value =>
    obtain ⟨-, hkeys, -⟩ := h.set_spec key value
    have hpos := h.capacity_pos
    rw [Cache.perform]
    simp only [hkeys, h.set_outcome key value, outcomeOf]
    by_cases hk : key ∈ c.keys
    · simp only [if_pos hk]
      exact .inl ⟨rfl, trivial⟩
    · simp only [if_neg hk]
      refine .inr ⟨key, ?_, rfl⟩
      split
      · rfl
      · rename_i hfull
        cases hl : c.keys with
        | nil =>
          rw [hl, List.length_nil] at hfull
          exact absurd hpos hfull
        | cons oldest rest => rfl

theorem perform_congr (h : c.Ordered) (h' : c'.Ordered) (hkeys : c.keys = c'.keys)
    (hroom : c.capacity = c'.capacity) (r : Request α) :
    (c.perform r).1.outcome? = (c'.perform r).1.outcome? ∧
      (c.perform r).2.keys = (c'.perform r).2.keys := by
  cases r with
  | get key =>
    refine ⟨rfl, ?_⟩
    rw [Cache.perform, Cache.perform]
    dsimp only
    rw [get_keys, get_keys, hkeys]
  | peek key => exact ⟨rfl, hkeys⟩
  | set key value =>
    obtain ⟨-, hset, -⟩ := h.set_spec key value
    obtain ⟨-, hset', -⟩ := h'.set_spec key value
    refine ⟨?_, ?_⟩
    · change some (c.set key value).1 = some (c'.set key value).1
      rw [h.set_outcome, h'.set_outcome, hkeys, hroom]
    · change (c.set key value).2.keys = (c'.set key value).2.keys
      rw [hset, hset', hkeys, hroom]

theorem turnover_congr (h : c.Ordered) (h' : c'.Ordered) (hkeys : c.keys = c'.keys)
    (hroom : c.capacity = c'.capacity) (rs : List (Request α)) :
    (c.observe rs).map View.turnover = (c'.observe rs).map View.turnover := by
  induction rs generalizing c c' with
  | nil => rfl
  | cons r rs ih =>
    obtain ⟨hord, hcap⟩ := h.perform r
    obtain ⟨hord', hcap'⟩ := h'.perform r
    obtain ⟨hout, hafter⟩ := h.perform_congr h' hkeys hroom r
    rw [observe, observe, List.map_cons, List.map_cons]
    exact congrArg₂ List.cons (Prod.ext hout hafter)
      (ih hord hord' hafter (by rw [hcap, hcap', hroom]))

end Ordered

/-- How the keys in a cache come from all insertions so far: the last ones are there, and each key
before them left with the insertion that was one too many for it. -/
structure Turned (capacity : Nat) (history : List Insertion) (keys : List String) : Prop where
  keys : keys = (history.map Insertion.key).drop (history.length - capacity)
  left : history.filterMap Insertion.evicted =
    (history.map Insertion.key).take (history.length - capacity)
  turn : ∀ i (hi : i < history.length), history[i].evicted =
    if i < capacity then none else (history.map Insertion.key)[i - capacity]?

namespace Turned

theorem empty (capacity : Nat) : Turned capacity [] [] where
  keys := by simp
  left := by simp
  turn := fun _ hi => absurd hi (Nat.not_lt_zero _)

theorem length_keys (h : Turned capacity history keys) :
    keys.length = min capacity history.length := by
  rw [h.keys, List.length_drop, List.length_map]
  omega

theorem head? (h : Turned capacity history keys) :
    keys.head? = (history.map Insertion.key)[history.length - capacity]? := by
  rw [h.keys, List.head?_drop]

theorem concat (h : Turned capacity history keys) (hpos : 0 < capacity) {i : Insertion}
    (hout : i.evicted = if keys.length < capacity then none else keys.head?) :
    Turned capacity (history ++ [i]) ((keys ++ [i.key]).drop (keys.length + 1 - capacity)) := by
  have hlen := h.length_keys
  have hroom : keys.length < capacity ↔ history.length < capacity := by omega
  have hcame : (history.map Insertion.key).length = history.length := List.length_map _
  have hcut : history.length - capacity ≤ (history.map Insertion.key).length := by omega
  rw [if_congr hroom rfl rfl, h.head?] at hout
  constructor
  case keys =>
    have hdrop : history.length - capacity + (keys.length + 1 - capacity) =
        history.length + 1 - capacity := by omega
    rw [List.map_append, List.length_append, List.length_singleton, ← hdrop, ← List.drop_drop,
      List.drop_append_of_le_length hcut]
    exact congrArg (fun l => (l ++ [i.key]).drop _) h.keys
  case left =>
    rw [List.filterMap_append, h.left, List.map_append, List.length_append, List.length_singleton,
      List.take_append_of_le_length (by omega), List.filterMap_cons, hout]
    by_cases hr : history.length < capacity
    · have hnone : history.length + 1 - capacity = history.length - capacity := by omega
      simp [hr, hnone]
    · have hone : history.length + 1 - capacity = history.length - capacity + 1 := by omega
      rw [hone, List.take_add_one, if_neg hr]
      cases (history.map Insertion.key)[history.length - capacity]? <;> rfl
  case turn =>
    intro j hj
    rw [List.length_append, List.length_singleton] at hj
    -- What leaves came in before the last insertion.
    have hearlier : ∀ {l : List String}, ¬j < capacity →
        (history.map Insertion.key ++ l)[j - capacity]? =
          (history.map Insertion.key)[j - capacity]? :=
      fun hfull => List.getElem?_append_left (by omega)
    rw [List.map_append, ite_congr rfl (fun _ => rfl) hearlier]
    rcases Nat.lt_succ_iff_lt_or_eq.1 hj with hlt | rfl
    · rw [List.getElem_append_left hlt, h.turn j hlt]
    · simpa using hout

theorem run (h : Turned c.capacity history c.keys) (hc : c.Ordered) (rs : List (Request α)) :
    Turned c.capacity (history ++ c.insertions rs) (c.run rs).keys ∧ (c.run rs).Ordered := by
  induction rs generalizing c history with
  | nil => exact ⟨by simpa [insertions, Cache.run] using h, hc⟩
  | cons r rs ih =>
    obtain ⟨hord, hcap⟩ := hc.perform r
    rw [insertions, Cache.run, ← List.append_assoc, ← hcap]
    refine ih ?_ hord
    rw [hcap]
    rcases hc.perform_cases r with ⟨hnone, hkeys⟩ | ⟨key, hnew, hkeys⟩
    · rw [hnone, hkeys, Option.toList_none, List.append_nil]
      exact h
    · rw [hnew, hkeys, Option.toList_some]
      exact h.concat hc.capacity_pos rfl

end Turned

/-- The keys that left and those that are there are all that came in, in order. Each insertion
pushes out the key that came in as many insertions before as there is room for. -/
theorem first_in_first_out (capacity : Nat) (rs : List (Request α)) :
    let c := (Cache.ofCapacity capacity : Cache α).run rs
    let history := (Cache.ofCapacity capacity : Cache α).insertions rs
    let came := history.map Insertion.key
    let room := max capacity 1
    history.filterMap Insertion.evicted ++ c.keys = came ∧
      c.keys = came.drop (came.length - min room came.length) ∧
      (∀ i (hi : i < history.length), history[i].evicted =
        if i < room then none else came[i - room]?) ∧
      ∀ r, insertion? r (c.perform r).1 = none → ∀ rest,
        ((c.perform r).2.observe rest).map View.turnover =
          (c.observe rest).map View.turnover := by
  intro c history came room
  have hstart : Turned (Cache.ofCapacity capacity : Cache α).capacity [] [] := .empty _
  obtain ⟨hturned, hord⟩ := hstart.run (.ofCapacity capacity) rs
  have hkeys : c.keys = came.drop (history.length - room) := hturned.keys
  have hcame : came.length = history.length := List.length_map _
  refine ⟨?_, ?_, hturned.turn, ?_⟩
  · have hleft : history.filterMap Insertion.evicted = came.take (history.length - room) :=
      hturned.left
    rw [hleft, hkeys, List.take_append_drop]
  · have hfirst : came.length - min room came.length = history.length - room := by omega
    rw [hkeys, hfirst]
  · intro r hr rest
    obtain ⟨hafter, hcap⟩ := hord.perform r
    rcases hord.perform_cases r with ⟨-, hkeys⟩ | ⟨key, hnew, -⟩
    · exact hafter.turnover_congr hord hkeys hcap rest
    · rw [hnew] at hr
      cases hr

def visits : List (Request Nat) :=
  [.set "a" 1, .set "b" 1, .set "a" 2, .get "a", .set "c" 1, .set "a" 3]

/-- Writing the older of two keys once more does not save it from the next eviction. -/
theorem first_in_first_out_of_two :
    let c := (Cache.ofCapacity 2 : Cache Nat).run visits
    let history := (Cache.ofCapacity 2 : Cache Nat).insertions visits
    history.map Insertion.key = ["a", "b", "c", "a"] ∧
      history[3]?.map Insertion.evicted = some (some "b") ∧
      insertion? (.set "c" 2) (c.perform (.set "c" 2)).1 = none ∧
      ((c.perform (.set "c" 2)).2.observe [.set "d" 1]).map View.turnover =
        [(some (.evicted "c"), ["a", "d"])] := by
  intro c history
  obtain ⟨-, -, hturn, hquiet⟩ := first_in_first_out 2 visits
  have hcame : history.map Insertion.key = ["a", "b", "c", "a"] := by decide
  have hlong : 3 < history.length := by decide
  have hnone : insertion? (.set "c" 2) (c.perform (.set "c" 2)).1 = none := by decide
  refine ⟨hcame, ?_, hnone, ?_⟩
  · rw [List.getElem?_eq_getElem hlong, Option.map_some, hturn 3 hlong]
    decide
  · rw [hquiet _ hnone]
    decide

end OrderLookup.Cache
