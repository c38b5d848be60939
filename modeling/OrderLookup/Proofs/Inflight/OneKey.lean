import OrderLookup.Proofs.Inflight.Queues
import Mathlib.Data.List.Find

/-!
What of the queues belongs to one key. The calls of other keys and their ends leave it alone, and
whatever else happens does to it what it does to the queues.
-/

namespace OrderLookup.Inflight

def othersOf (key : String) (events : List Event) : List Nat :=
  events.filterMap fun e =>
    match e.action with
    | .run id f => if f.key = key then none else some id
    | .abort _ => none

def Action.concerns (key : String) (others : List Nat) : Action → Bool
  | .run _ f => f.key = key
  | .abort id => id ∉ others

/-- Whether a call is one of the others exactly if it is of another key. -/
def Action.Splits (key : String) (others : List Nat) : Action → Prop
  | .run id f => f.key = key ↔ id ∉ others
  | .abort _ => True

/-- The events without the calls of other keys and without their ends. -/
def alone (key : String) (events : List Event) : List Event :=
  events.filter fun e => e.action.concerns key (othersOf key events)

namespace Queues

/-- What of the queues belongs to one key, whose calls are not among the others. -/
def only (key : String) (others : List Nat) (q : Queues) : Queues where
  now := q.now
  line := q.line.filter fun c => c.2.key = key
  due k := if k = key then q.due k else 0
  started := q.started.filter fun s => s.2 ∉ others
  finished := q.finished.filter fun f => f.id ∉ others

variable {q : Queues} {key : String} {others : List Nat} {c : Nat × Fetch} {id : Nat} {f : Fetch}

def Apart (key : String) (others : List Nat) (q : Queues) : Prop :=
  ∀ c ∈ q.line, c.2.key = key ↔ c.1 ∉ others

theorem head?_only (q : Queues) : (q.only key others).head? key = q.head? key :=
  head?_filter fun d hd => by simpa using (mem_of_head? hd).2

theorem isOver_only (q : Queues) (bound : Option Nat) (others : List Nat) :
    (q.only key others).isOver bound key = q.isOver bound key := by
  cases bound <;> simp [isOver, only]

theorem share_only (hc : c.2.key = key) : (q.only key others).share c = q.share c := by
  subst hc
  rw [share, share, head?_only]
  simp [only]

theorem settle_line_only (q : Queues) (bound : Option Nat) (others : List Nat) :
    (q.settle bound).line.filter (fun c => c.2.key = key) =
      ((q.only key others).settle bound).line := by
  simp only [settle, serve, only, List.filter_filter]
  apply List.filter_congr
  intro c _
  by_cases hc : c.2.key = key
  · simpa [hc, only] using (isOver_only q bound others).symm
  · simp [hc]

theorem shared_only (h : q.Apart key others) (bound : Option Nat) :
    ((q.line.filter fun c => q.isOver bound c.2.key).map q.share).filter
        (fun f => f.id ∉ others) =
      ((q.only key others).line.filter fun c => (q.only key others).isOver bound c.2.key).map
        (q.only key others).share := by
  have hsame : q.line.filter (fun c => decide (c.1 ∉ others) && q.isOver bound c.2.key) =
      (q.only key others).line.filter fun c => (q.only key others).isOver bound c.2.key := by
    rw [only, List.filter_filter]
    apply List.filter_congr
    intro c hc
    have hown := h c hc
    by_cases hk : c.2.key = key
    · simpa [hk, hown.1 hk, only] using (isOver_only q bound others).symm
    · have hother : c.1 ∈ others := by simpa [hk] using hown
      simp [hk, hother]
  rw [List.filter_map, List.filter_filter]
  change (q.line.filter fun c => decide (c.1 ∉ others) && q.isOver bound c.2.key).map q.share = _
  rw [← hsame]
  apply List.map_congr_left
  intro c hc
  have hmem : c ∈ q.line ∧ c.1 ∉ others ∧ q.isOver bound c.2.key = true := by simpa using hc
  exact (share_only ((h c hmem.1).2 hmem.2.1)).symm

theorem only_settle (h : q.Apart key others) (bound : Option Nat) :
    (q.settle bound).only key others = (q.only key others).settle bound := by
  have hfinished : (q.settle bound).finished.filter (fun f => f.id ∉ others) =
      ((q.only key others).settle bound).finished := by
    rw [settle, serve, List.filter_append, shared_only h]
    rfl
  rw [only, settle_line_only q bound others, hfinished]
  rfl

theorem only_lead (h : q.Apart key others) :
    (q.lead key).only key others = (q.only key others).lead key := by
  cases hc : q.head? key with
  | none => rw [lead, lead, head?_only, hc]
  | some c =>
    obtain ⟨hm, hk⟩ := mem_of_head? hc
    have hown : c.1 ∉ others := (h c hm).1 hk
    have hhead : (q.only key others).head? key = some c := (head?_only q).trans hc
    rw [lead_eq hc, lead_eq hhead]
    simp only [only, List.filter_append, List.filter_cons_of_pos, decide_eq_true hown,
      List.filter_nil, Queues.mk.injEq, true_and, and_true]
    funext k
    split <;> rfl

theorem only_lead_other (h : q.Apart key others) {k : String} (hk : k ≠ key) :
    (q.lead k).only key others = q.only key others := by
  cases hc : q.head? k with
  | none => rw [lead, hc]
  | some c =>
    obtain ⟨hm, hck⟩ := mem_of_head? hc
    have hother : c.1 ∈ others := by
      by_contra hown
      exact hk (hck.symm.trans ((h c hm).2 hown))
    rw [lead_eq hc]
    simp only [only, List.filter_append, Queues.mk.injEq, true_and, and_true]
    constructor
    · funext i
      by_cases hi : i = key
      · rw [if_pos hi, if_pos hi, if_neg (hi ▸ hk.symm)]
      · rw [if_neg hi, if_neg hi]
    · simp [hother]

theorem Apart.enter (h : q.Apart key others) (hf : f.key = key ↔ id ∉ others) :
    Apart key others { q with line := q.line ++ [(id, f)] } := by
  intro c hc
  rcases List.mem_append.1 hc with hc | hc
  · exact h c hc
  · rw [List.mem_singleton.1 hc]
    exact hf

theorem Apart.leave (h : q.Apart key others) (id : Nat) : (q.leave id).Apart key others :=
  fun c hc => h c (mem_leave.1 hc).1

theorem only_enter (hf : f.key = key) :
    only key others { q with line := q.line ++ [(id, f)] } =
      { q.only key others with line := (q.only key others).line ++ [(id, f)] } := by
  simp [only, hf]

theorem only_enter_other (hf : f.key ≠ key) :
    only key others { q with line := q.line ++ [(id, f)] } = q.only key others := by
  simp [only, hf]

theorem only_leave (q : Queues) (id : Nat) :
    (q.leave id).only key others = (q.only key others).leave id := by
  simp only [only, leave, List.filter_filter, Bool.and_comm]

theorem only_leave_other (h : q.Apart key others) (hid : id ∈ others) :
    (q.leave id).only key others = q.only key others := by
  have hline : (q.only key others).line.filter (fun c => c.1 ≠ id) = (q.only key others).line := by
    rw [List.filter_eq_self]
    intro c hc
    obtain ⟨hm, hk⟩ := List.mem_filter.1 hc
    have hown := (h c hm).1 (by simpa using hk)
    simpa using fun hi : c.1 = id => hown (hi ▸ hid)
  rw [only_leave, leave, hline]

theorem only_run (h : q.Apart key others) (hf : f.key = key) (hid : id ∉ others) :
    (q.run id f).only key others = (q.only key others).run id f := by
  have hentered : Apart key others { q with line := q.line ++ [(id, f)] } :=
    h.enter (by simp [hf, hid])
  rw [run, run, hf, head?_only]
  split
  · rw [only_lead hentered, only_enter hf]
  · exact only_enter hf

theorem only_run_other (h : q.Apart key others) (hf : f.key ≠ key) (hid : id ∈ others) :
    (q.run id f).only key others = q.only key others := by
  have hentered : Apart key others { q with line := q.line ++ [(id, f)] } :=
    h.enter (by simp [hf, hid])
  rw [run]
  split
  · rw [only_lead_other hentered hf, only_enter_other hf]
  · exact only_enter_other hf

theorem only_abort (h : q.Apart key others) (hid : id ∉ others) :
    (q.abort id).only key others = (q.only key others).abort id := by
  have hfind : (q.only key others).line.find? (fun c => c.1 = id) =
      q.line.find? fun c => c.1 = id := by
    rw [only, List.find?_filter]
    apply List.find?_congr
    intro c hc
    by_cases hi : c.1 = id
    · simpa [hi] using (h c hc).2 (hi ▸ hid)
    · simp [hi]
  rw [abort, abort, hfind]
  cases hc : q.line.find? fun c => c.1 = id with
  | none => rfl
  | some c =>
    have hi : c.1 = id := by simpa using List.find?_some hc
    have hk : c.2.key = key := (h c (List.mem_of_find?_eq_some hc)).2 (hi ▸ hid)
    dsimp only
    rw [hk, head?_only]
    split
    · rw [only_lead (h.leave id), only_leave]
    · exact only_leave q id

theorem only_abort_other (h : q.Apart key others) (hid : id ∈ others) :
    (q.abort id).only key others = q.only key others := by
  rw [abort]
  cases hc : q.line.find? fun c => c.1 = id with
  | none => rfl
  | some c =>
    have hi : c.1 = id := by simpa using List.find?_some hc
    have hk : c.2.key ≠ key := fun hk => (h c (List.mem_of_find?_eq_some hc)).1 hk (hi ▸ hid)
    dsimp only
    split
    · rw [only_lead_other (h.leave id) hk, only_leave_other h hid]
    · exact only_leave_other h hid

theorem only_act {a : Action} (h : q.Apart key others) (ha : a.Splits key others) :
    (q.act a).only key others =
      if a.concerns key others then (q.only key others).act a else q.only key others := by
  cases a with
  | run id f =>
    by_cases hf : f.key = key
    · rw [if_pos (by simpa [Action.concerns] using hf)]
      exact only_run h hf (ha.1 hf)
    · rw [if_neg (by simpa [Action.concerns] using hf)]
      exact only_run_other h hf (not_not.1 fun hid => hf (ha.2 hid))
  | abort id =>
    by_cases hid : id ∈ others
    · rw [if_neg (by simpa [Action.concerns] using hid)]
      exact only_abort_other h hid
    · rw [if_pos (by simpa [Action.concerns] using hid)]
      exact only_abort h hid

theorem mem_lead {k : String} : c ∈ (q.lead k).line ↔ c ∈ q.line := by
  rw [lead]
  split <;> rfl

theorem mem_act {a : Action} (hc : c ∈ (q.act a).line) : c ∈ q.line ∨ a = .run c.1 c.2 := by
  cases a with
  | run id f =>
    have hm : c ∈ q.line ++ [(id, f)] := by
      rw [act, run] at hc
      split at hc
      · exact mem_lead.1 hc
      · exact hc
    rcases List.mem_append.1 hm with hm | hm
    · exact .inl hm
    · rw [List.mem_singleton.1 hm]
      exact .inr rfl
  | abort id =>
    rw [act, abort] at hc
    split at hc
    · exact .inl hc
    · split at hc
      · exact .inl (mem_leave.1 (mem_lead.1 hc)).1
      · exact .inl (mem_leave.1 hc).1

theorem Apart.settle (h : q.Apart key others) (bound : Option Nat) :
    (q.settle bound).Apart key others :=
  fun c hc => h c (List.mem_filter.1 hc).1

theorem Apart.act {a : Action} (h : q.Apart key others) (ha : a.Splits key others) :
    (q.act a).Apart key others := by
  intro c hc
  rcases mem_act hc with hc | rfl
  · exact h c hc
  · exact ha

end Queues

end OrderLookup.Inflight
