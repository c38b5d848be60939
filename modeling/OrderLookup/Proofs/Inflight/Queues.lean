import OrderLookup.Inflight.Timeline

/-!
Shared fetches as plain queues. The callers of a key queue in the order of their arrival, and the
head of the queue runs its own fetch. When the head goes, the next in the queue starts its own
fetch, from the beginning; when the fetch ends, the whole queue goes with its value. There are no
handles here, and no register.
-/

namespace OrderLookup.Inflight

/-- The callers who are there, in the order of their arrival, each with its own fetch. A key is due
when the fetch of the head of its queue ends. -/
structure Queues where
  now : Nat := 0
  line : List (Nat × Fetch) := []
  due : String → Nat := fun _ => 0
  started : List (Nat × Nat) := []
  finished : List Finish := []

namespace Queues

def head? (q : Queues) (key : String) : Option (Nat × Fetch) := q.line.find? fun c => c.2.key = key

def lead (q : Queues) (key : String) : Queues :=
  match q.head? key with
  | none => q
  | some c =>
    { q with
      due := fun k => if k = key then q.now + c.2.takes else q.due k
      started := q.started ++ [(q.now, c.1)] }

def run (q : Queues) (id : Nat) (f : Fetch) : Queues :=
  let entered := { q with line := q.line ++ [(id, f)] }
  if q.head? f.key = none then entered.lead f.key else entered

def leave (q : Queues) (id : Nat) : Queues := { q with line := q.line.filter fun c => c.1 ≠ id }

def abort (q : Queues) (id : Nat) : Queues :=
  match q.line.find? fun c => c.1 = id with
  | none => q
  | some c => if q.head? c.2.key = some c then (q.leave id).lead c.2.key else q.leave id

def isOver (q : Queues) (bound : Option Nat) (key : String) : Bool :=
  match bound with
  | none => true
  | some t => q.due key ≤ t

def share (q : Queues) (c : Nat × Fetch) : Finish :=
  ⟨c.1, q.due c.2.key, ((q.head? c.2.key).getD c).2.value⟩

def serve (q : Queues) (keys : String → Bool) : Queues :=
  { q with
    line := q.line.filter fun c => !keys c.2.key
    finished := q.finished ++ (q.line.filter fun c => keys c.2.key).map q.share }

def settle (q : Queues) (bound : Option Nat) : Queues := q.serve (q.isOver bound)

def act (q : Queues) : Action → Queues
  | .run id f => q.run id f
  | .abort id => q.abort id

def step (q : Queues) (e : Event) : Queues :=
  let q := q.settle (some e.time)
  ({ q with now := max q.now e.time }.act e.action).settle (some e.time)

def play (events : List Event) : Queues := events.foldl step {}

def complete (events : List Event) : Queues := (play events).settle none

/-- The head of a queue leads, and everybody behind it waits. -/
def stage (q : Queues) (c : Nat × Fetch) : Stage :=
  if q.head? c.2.key = some c then .leading else .waiting

def seat (q : Queues) (c : Nat × Fetch) : Nat × String × Stage := (c.1, c.2.key, q.stage c)

variable {q q' : Queues} {key : String} {c : Nat × Fetch} {id : Nat} {keys : String → Bool}

theorem mem_of_head? (h : q.head? key = some c) : c ∈ q.line ∧ c.2.key = key := by
  refine ⟨List.mem_of_find?_eq_some h, ?_⟩
  simpa using List.find?_some h

theorem head?_eq_none_iff : q.head? key = none ↔ ∀ c ∈ q.line, c.2.key ≠ key := by
  simp [head?]

theorem exists_head? (h : c ∈ q.line) : ∃ d, q.head? c.2.key = some d := by
  cases hd : q.head? c.2.key with
  | none => exact absurd rfl (head?_eq_none_iff.1 hd c h)
  | some d => exact ⟨d, rfl⟩

theorem stage_eq_leading_iff : q.stage c = .leading ↔ q.head? c.2.key = some c := by
  simp [stage]

theorem stage_ne_chosen : q.stage c ≠ .chosen := by
  rw [stage]
  split <;> simp

theorem head?_enter (q : Queues) (c : Nat × Fetch) (key : String) :
    head? { q with line := q.line ++ [c] } key =
      (q.head? key).or (if c.2.key = key then some c else none) := by
  rw [head?, List.find?_append, List.find?_singleton, head?]
  by_cases h : c.2.key = key <;> simp [h]

theorem head?_filter {keep : Nat × Fetch → Bool} (h : ∀ d, q.head? key = some d → keep d) :
    head? { q with line := q.line.filter keep } key = q.head? key := by
  rw [head?, List.find?_filter]
  cases hd : q.head? key with
  | none =>
    have hnone := head?_eq_none_iff.1 hd
    simpa using fun i f hm _ => hnone (i, f) hm
  | some d =>
    obtain ⟨hk, before, after, hl, hb⟩ := List.find?_eq_some_iff_append.1 hd
    rw [List.find?_eq_some_iff_append]
    refine ⟨by simpa [h d hd] using hk, before, after, hl, fun c hc => ?_⟩
    have hck := hb c hc
    simp only [Bool.not_eq_eq_eq_not, Bool.not_true, decide_eq_false_iff_not] at hck ⊢
    exact fun hkeep => hck (of_decide_eq_true hkeep.2)

theorem mem_leave : c ∈ (q.leave id).line ↔ c ∈ q.line ∧ c.1 ≠ id := by
  simp [leave]

theorem head?_leave (h : ∀ d, q.head? key = some d → d.1 ≠ id) :
    (q.leave id).head? key = q.head? key :=
  head?_filter fun d hd => by simpa using h d hd

theorem head?_serve (h : keys key = false) : (q.serve keys).head? key = q.head? key := by
  apply head?_filter
  intro d hd
  rw [(mem_of_head? hd).2, h]
  rfl

theorem seat_congr (h : q'.head? c.2.key = q.head? c.2.key) : q'.seat c = q.seat c := by
  simp only [seat, stage, h]

theorem seats_enter {f : Fetch} (hl : q'.line = q.line ++ [(id, f)])
    (hnew : ∀ c ∈ q.line, c.1 ≠ id) :
    q'.line.map q'.seat = q.line.map q.seat ++
      [(id, f.key, if q.head? f.key = none then .leading else .waiting)] := by
  have hhead (key : String) :
      q'.head? key = (q.head? key).or (if f.key = key then some (id, f) else none) := by
    rw [head?, hl]
    exact head?_enter q (id, f) key
  have hold : q.line.map q'.seat = q.line.map q.seat := by
    apply List.map_congr_left
    intro c hc
    obtain ⟨d, hd⟩ := exists_head? hc
    exact seat_congr (by rw [hhead, hd, Option.some_or])
  rw [hl, List.map_append, hold, List.map_singleton, seat, stage, hhead]
  cases hf : q.head? f.key with
  | none => simp
  | some d =>
    have hd : d ≠ (id, f) := fun he => hnew d (mem_of_head? hf).1 (by rw [he])
    simp [hd]

theorem lead_eq (h : q.head? key = some c) :
    q.lead key = { q with
      due := fun k => if k = key then q.now + c.2.takes else q.due k
      started := q.started ++ [(q.now, c.1)] } := by
  rw [lead, h]

theorem serve_self (h : ∀ c ∈ q.line, keys c.2.key = false) : q.serve keys = q := by
  have hstay : q.line.filter (fun c => !keys c.2.key) = q.line :=
    List.filter_eq_self.2 fun c hc => by simp [h c hc]
  have hgo : q.line.filter (fun c => keys c.2.key) = [] :=
    List.filter_eq_nil_iff.2 fun c hc => by simp [h c hc]
  rw [serve, hstay, hgo, List.map_nil, List.append_nil]

theorem share_eq {d : Nat × Fetch} (hc : q.head? key = some c) (hd : d.2.key = key) :
    q.share d = ⟨d.1, q.due key, c.2.value⟩ := by
  rw [share, hd, hc, Option.getD_some]

theorem serve_serve (q : Queues) (keys keys' : String → Bool)
    (h : ∀ k, keys k = true → keys' k = true) :
    ((q.serve keys).serve keys').line = (q.serve keys').line ∧
      (q.serve keys').finished.Perm ((q.serve keys).serve keys').finished := by
  constructor
  · change (q.line.filter _).filter _ = q.line.filter _
    rw [List.filter_filter]
    apply List.filter_congr
    intro c _
    cases hk : keys c.2.key with
    | false => simp
    | true => simp [h _ hk]
  · have hfirst : (q.line.filter fun c => keys' c.2.key).filter (fun c => keys c.2.key) =
        q.line.filter fun c => keys c.2.key := by
      rw [List.filter_filter]
      apply List.filter_congr
      intro c _
      cases hk : keys c.2.key with
      | false => rfl
      | true => simp [h _ hk]
    have hthen : (q.line.filter fun c => keys' c.2.key).filter (fun c => !keys c.2.key) =
        (q.serve keys).line.filter fun c => keys' c.2.key := by
      simp only [serve, List.filter_filter, Bool.and_comm]
    have hshare : ((q.serve keys).line.filter fun c => keys' c.2.key).map (q.serve keys).share =
        ((q.serve keys).line.filter fun c => keys' c.2.key).map q.share := by
      apply List.map_congr_left
      intro c hc
      have hkeep : keys c.2.key = false := by
        simpa using (List.mem_filter.1 (List.mem_filter.1 hc).1).2
      rw [share, share, head?_serve hkeep]
      rfl
    have hperm := List.filter_append_perm (fun c : Nat × Fetch => keys c.2.key)
      (q.line.filter fun c => keys' c.2.key)
    rw [hfirst, hthen] at hperm
    have hall := (hperm.map q.share).symm.append_left q.finished
    rw [List.map_append, ← hshare, ← List.append_assoc] at hall
    exact hall

theorem act_now (q : Queues) (a : Action) : (q.act a).now = q.now := by
  have hlead (q : Queues) (key : String) : (q.lead key).now = q.now := by
    rw [lead]
    split <;> rfl
  cases a with
  | run id f =>
    rw [act, run]
    split
    · exact hlead _ _
    · rfl
  | abort id =>
    rw [act, abort]
    split
    · rfl
    · split
      · exact hlead _ _
      · rfl

end Queues

end OrderLookup.Inflight
