import OrderLookup.Proofs.Repository.Newest
import OrderLookup.Proofs.Resolver.Runs

/-!
What a run does to the store and to the cache. The store changes by one order at a time, and what
the cache holds under an id was in the store at some moment, unless somebody wrote the cache
directly.
-/

namespace OrderLookup.Resolver

def upserted? (s : Resolver) : Move → Option Order
  | .start _ (.store o) => (s.repository.upsert o).toOption.map fun _ => o
  | .land f =>
    match f.work with
    | .save o =>
      if f ∈ s.flights then (outcome f.pending (s.repository.upsert o)).toOption.map fun _ => o
      else none
    | _ => none
  | _ => none

def upserts (s : Resolver) : List Move → List Order
  | [] => []
  | m :: ms => (s.upserted? m).toList ++ (s.move m).upserts ms

/-- Whether the store holds an order under an id at some moment of a run. -/
def Held (s : Resolver) (ms : List Move) (uid : String) (o : Order) : Prop :=
  ∃ before after, ms = before ++ after ∧ (s.run before).repository.orders.get? uid = some o

/-- Whether the cache holds an order under an id at some moment of a run. -/
def Kept (s : Resolver) (ms : List Move) (uid : String) (o : Order) : Prop :=
  ∃ before after, ms = before ++ after ∧ (s.run before).cache.peek uid = some o

/-- What the store itself makes of a call that fails as given or else has the result `r`. -/
def ownResult {α : Type} (failure : Option OrderError) (r : Except OrderError α) :
    Except OrderError α :=
  match failure with
  | some e => .error e
  | none => r

/-- Whether nobody writes the cache directly. -/
def Untouched (ms : List Move) : Prop := ∀ id key o, .start id (.cacheSet key o) ∉ ms

variable {s : Resolver} {m : Move} {ms ms' : List Move} {ids : List Nat} {id : Nat} {uid : String}
  {o : Order} {l : List Order}

theorem upserts_append (s : Resolver) (ms ms' : List Move) :
    s.upserts (ms ++ ms') = s.upserts ms ++ (s.run ms).upserts ms' := by
  induction ms generalizing s with
  | nil => rfl
  | cons m ms ih => simp [upserts, ih]

theorem mem_upserts_iff :
    o ∈ s.upserts ms ↔
      ∃ before m after, ms = before ++ m :: after ∧ (s.run before).upserted? m = some o := by
  constructor
  · intro ho
    induction ms generalizing s with
    | nil => cases ho
    | cons m ms ih =>
      rcases List.mem_append.1 ho with ho | ho
      · exact ⟨[], m, ms, rfl, Option.mem_toList.1 ho⟩
      · obtain ⟨before, m', after, he, ho⟩ := ih ho
        exact ⟨m :: before, m', after, by rw [he, List.cons_append], ho⟩
  · intro ho
    obtain ⟨before, m, after, he, ho⟩ := ho
    rw [he, upserts_append, upserts, ho]
    simp

theorem untouched_append : Untouched (ms ++ ms') ↔ Untouched ms ∧ Untouched ms' := by
  simp only [Untouched, List.mem_append, not_or, forall_and]

theorem outcome_eq {α : Type} (p : Pending) (r : Except OrderError α) :
    outcome p r = if p.takes ≤ p.limit then ownResult p.failure r else .error (timeout p) := by
  rw [outcome, Pending.inTime]
  by_cases h : p.takes ≤ p.limit <;> simp only [h, decide_true, decide_false, if_true, if_false]
  · rfl
  · rfl

theorem outcome_eq_ok_iff {α : Type} {p : Pending} {r : Except OrderError α} {a : α} :
    outcome p r = .ok a ↔ p.inTime ∧ p.failure = none ∧ r = .ok a := by
  rw [outcome]
  cases p.inTime with
  | false => simp
  | true => cases p.failure <;> simp

theorem outcome_eq_error_iff {α : Type} {p : Pending} {r : Except OrderError α} {e : OrderError} :
    outcome p r = .error e ↔
      (p.inTime ∧ (p.failure = some e ∨ p.failure = none ∧ r = .error e)) ∨
        (¬p.inTime ∧ e = timeout p) := by
  rw [outcome]
  cases p.inTime with
  | false => simp [eq_comm]
  | true => cases p.failure <;> simp

@[simp] theorem finish_repository (s : Resolver) (id : Nat) (reply : Reply) :
    (s.finish id reply).repository = s.repository := rfl

@[simp] theorem settle_repository (s : Resolver) (id : Nat) (r : Except OrderError Order) :
    (s.settle id r).repository = s.repository := rfl

@[simp] theorem launch_repository (s : Resolver) (id : Nat) (work : Work) :
    (s.launch id work).repository = s.repository := rfl

@[simp] theorem fillCache_repository (s : Resolver) (key : String) (o : Order) :
    (s.fillCache key o).repository = s.repository := rfl

@[simp] theorem withoutFlight_repository (s : Resolver) (id : Nat) :
    (s.withoutFlight id).repository = s.repository := rfl

@[simp] theorem abort_repository (s : Resolver) (id : Nat) :
    (s.abort id).repository = s.repository := rfl

@[simp] theorem lead_repository (s : Resolver) (id : Nat) (uid : String) :
    (s.lead id uid).repository = s.repository := by
  rw [lead]
  split <;> rfl

@[simp] theorem takeOver_repository (s : Resolver) (id : Nat) :
    (s.takeOver id).repository = s.repository := by
  rw [takeOver]
  split
  · rfl
  · split <;> simp

@[simp] theorem collect_repository (s : Resolver) (id : Nat) :
    (s.collect id).repository = s.repository := by
  rw [collect]
  split <;> rfl

@[simp] theorem get_repository (s : Resolver) (id : Nat) (uid : String) :
    (s.get id uid).repository = s.repository := by
  rw [Resolver.get]
  split
  · rfl
  · split <;> simp

@[simp] theorem fillAll_repository (s : Resolver) (l : List Order) :
    (l.foldl (fun s o => s.fillCache o.uid o) s).repository = s.repository := by
  induction l generalizing s with
  | nil => rfl
  | cons o l ih => simp [ih]

theorem land_repository (s : Resolver) (f : Flight) :
    (s.land f).repository =
      match f.work with
      | .save o => (outcome f.pending (s.repository.upsert o)).toOption.getD s.repository
      | _ => s.repository := by
  rw [land, resume]
  cases f.work with
  | fetch uid => dsimp only; split <;> simp
  | save o =>
    simp only [withoutFlight_repository]
    split <;> simp_all [Except.toOption]
  | refresh => dsimp only; split <;> simp

theorem repository_move (s : Resolver) (m : Move) :
    (s.upserted? m = none ∧ (s.move m).repository = s.repository) ∨
      ∃ o, s.upserted? m = some o ∧ s.repository.upsert o = .ok (s.move m).repository := by
  cases m with
  | start id a =>
    cases a with
    | store o =>
      cases hu : s.repository.upsert o with
      | ok r =>
        refine Or.inr ⟨o, ?_, ?_⟩
        · simp [upserted?, hu, Except.toOption]
        · simp [move, start, hu]
      | error e =>
        refine Or.inl ⟨?_, ?_⟩
        · simp [upserted?, hu, Except.toOption]
        · simp [move, start, hu]
    | _ => exact Or.inl ⟨rfl, by simp [move, start]⟩
  | land f =>
    by_cases hf : f ∈ s.flights
    · simp only [move, if_pos hf, upserted?, land_repository]
      cases f.work with
      | save o =>
        dsimp only
        cases hu : outcome f.pending (s.repository.upsert o) with
        | ok r =>
          have hr := (outcome_eq_ok_iff.1 hu).2.2
          exact Or.inr ⟨o, by simp [Except.toOption], by simp [hr, Except.toOption]⟩
        | error e => exact Or.inl ⟨by simp [Except.toOption], by simp [Except.toOption]⟩
      | _ => exact Or.inl ⟨rfl, rfl⟩
    · refine Or.inl ⟨?_, by simp [move, hf]⟩
      simp only [upserted?, if_neg hf]
      split <;> rfl
  | takeOver id => exact Or.inl ⟨rfl, by simp [move]⟩
  | collect id => exact Or.inl ⟨rfl, by simp [move]⟩
  | wait time => exact Or.inl ⟨rfl, rfl⟩

theorem holdsOnly_move (h : s.repository.HoldsOnly l) (m : Move) :
    (s.move m).repository.HoldsOnly (l ++ (s.upserted? m).toList) := by
  rcases s.repository_move m with ⟨hm, hr⟩ | ⟨o, hm, hr⟩
  · simpa [hm, hr] using h
  · simpa [hm] using h.upsert hr

theorem holdsOnly_run (h : s.repository.HoldsOnly l) (ms : List Move) :
    (s.run ms).repository.HoldsOnly (l ++ s.upserts ms) := by
  induction ms generalizing s l with
  | nil => simpa [upserts] using h
  | cons m ms ih => simpa [upserts] using ih (holdsOnly_move h m)

theorem stored_run (h : (s.run ms).repository.orders.get? uid = some o) :
    s.repository.orders.get? uid = some o ∨ (o ∈ s.upserts ms ∧ o.uid = uid) := by
  induction ms generalizing s with
  | nil => exact Or.inl h
  | cons m ms ih =>
    rcases ih h with hm | ⟨ho, hk⟩
    · rcases s.repository_move m with ⟨-, hr⟩ | ⟨p, hp, hr⟩
      · exact Or.inl (hr ▸ hm)
      · obtain ⟨-, hr⟩ := Repository.upsert_eq_ok_iff.1 hr
        rw [hr, Table.get?_insert] at hm
        split at hm
        · cases hm
          exact Or.inr ⟨by simp [upserts, hp], ‹_›⟩
        · exact Or.inl hm
    · exact Or.inr ⟨by simp [upserts, ho], hk⟩

theorem get?_run (h : ∀ o ∈ s.upserts ms, o.uid ≠ uid) :
    (s.run ms).repository.orders.get? uid = s.repository.orders.get? uid := by
  refine run_induction
    (P := fun s' => s'.repository.orders.get? uid = s.repository.orders.get? uid) rfl
    fun before m after he hb => ?_
  rcases (s.run before).repository_move m with ⟨-, hr⟩ | ⟨o, ho, hr⟩
  · rw [hr, hb]
  · obtain ⟨-, hr⟩ := Repository.upsert_eq_ok_iff.1 hr
    rw [hr, Table.get?_insert_of_ne _ (h o (mem_upserts_iff.2 ⟨before, m, after, he, ho⟩)), hb]

theorem Held.eq_of_unwritten {a : Order} (hheld : Held s ms uid a)
    (hs : s.repository.orders.get? uid = some o) (hu : ∀ b ∈ s.upserts ms, b.uid ≠ uid) :
    a = o := by
  obtain ⟨before, after, rfl, ha⟩ := hheld
  have hunwritten : ∀ b ∈ s.upserts before, b.uid ≠ uid := by
    intro b hb
    refine hu b ?_
    rw [upserts_append]
    exact List.mem_append_left _ hb
  rw [get?_run hunwritten, hs] at ha
  exact (Option.some.inj ha).symm

theorem stays_stored (h : (s.repository.orders.get? uid).isSome) (ms : List Move) :
    ((s.run ms).repository.orders.get? uid).isSome := by
  refine run_induction (P := fun s => (s.repository.orders.get? uid).isSome) h
    fun before m _ _ hb => ?_
  rcases (s.run before).repository_move m with ⟨-, hr⟩ | ⟨p, -, hr⟩
  · rwa [hr]
  · obtain ⟨-, hr⟩ := Repository.upsert_eq_ok_iff.1 hr
    rw [hr, Table.get?_insert]
    split
    · rfl
    · exact hb

@[simp] theorem lead_cache (s : Resolver) (id : Nat) (uid : String) :
    (s.lead id uid).cache = s.cache := by
  rw [lead]
  split <;> rfl

@[simp] theorem takeOver_cache (s : Resolver) (id : Nat) : (s.takeOver id).cache = s.cache := by
  rw [takeOver]
  split
  · rfl
  · split <;> simp

@[simp] theorem collect_cache (s : Resolver) (id : Nat) : (s.collect id).cache = s.cache := by
  rw [collect]
  split <;> rfl

theorem get_peek (h : Coherent ids s) (id : Nat) (uid k : String) :
    (s.get id uid).cache.peek k = s.cache.peek k := by
  have hc := (h.indexed.get uid).2.2 k
  rw [get_eq h.sound]
  split
  · exact hc
  · dsimp only
    split <;> exact hc

theorem fillCache_peek (h : Coherent ids s) (key k : String) (o : Order) :
    (s.fillCache key o).cache.peek k = none ∨ (s.fillCache key o).cache.peek k = s.cache.peek k ∨
      (k = key ∧ (s.fillCache key o).cache.peek k = some o) := by
  obtain ⟨-, hself, hother⟩ := h.indexed.set key o
  by_cases hk : key = k
  · subst hk
    exact Or.inr (Or.inr ⟨rfl, hself⟩)
  · rcases hother k hk with hn | hs
    · exact Or.inl hn
    · exact Or.inr (Or.inl hs)

theorem fillAll_peek (h : Coherent ids s)
    (hp : (l.foldl (fun s o => s.fillCache o.uid o) s).cache.peek uid = some o) :
    s.cache.peek uid = some o ∨ (o ∈ l ∧ o.uid = uid) := by
  induction l generalizing s with
  | nil => exact Or.inl hp
  | cons a l ih =>
    rcases ih (h.fillCache a.uid a) hp with hs | ⟨ho, hk⟩
    · rcases fillCache_peek h a.uid uid a with hn | hs' | ⟨hk, hs'⟩
      · rw [hn] at hs
        cases hs
      · exact Or.inl (hs' ▸ hs)
      · rw [hs'] at hs
        cases hs
        exact Or.inr ⟨by simp, hk.symm⟩
    · exact Or.inr ⟨List.mem_cons_of_mem _ ho, hk⟩

theorem land_peek (h : Coherent ids s) (hr : s.repository.HoldsOnly l) {f : Flight}
    (hp : (s.land f).cache.peek uid = some o) :
    s.cache.peek uid = some o ∨ s.repository.orders.get? uid = some o := by
  have h' := h.withoutFlight f.id
  rw [land, resume] at hp
  split at hp
  · rename_i k hw
    split at hp
    · rename_i a ha
      have hstored := Repository.get_eq_ok_iff.1 (outcome_eq_ok_iff.1 ha).2.2
      rcases fillCache_peek h' k uid a with hn | hs | ⟨hk, hs⟩
      · exact absurd (hn.symm.trans hp) (by simp)
      · exact Or.inl (hs.symm.trans hp)
      · subst hk
        cases hs.symm.trans hp
        exact Or.inr hstored
    · exact Or.inl hp
  · split at hp <;> exact Or.inl hp
  · split at hp
    · rename_i a ha
      have hrecent := (outcome_eq_ok_iff.1 ha).2.2
      cases hrecent
      rcases fillAll_peek h' hp with hs | ⟨ho, hk⟩
      · exact Or.inl hs
      · exact Or.inr (hk ▸ hr.get?_of_mem_recent ho)
    · exact Or.inl hp

theorem land_keeps (h : Coherent ids s) {f : Flight} (hw : f.work = .fetch uid)
    (ho : outcome f.pending (s.repository.get uid) = .ok o) :
    (s.land f).cache.peek uid = some o := by
  have h' := h.withoutFlight f.id
  rw [land, resume, hw]
  simp only [withoutFlight_repository, ho]
  exact (h'.indexed.set uid o).2.1

theorem peek_move (h : Coherent ids s) (hr : s.repository.HoldsOnly l)
    (hm : Untouched [m]) (hp : (s.move m).cache.peek uid = some o) :
    s.cache.peek uid = some o ∨ s.repository.orders.get? uid = some o := by
  cases m with
  | start id a =>
    left
    cases a with
    | get k => rwa [move, start, get_peek h] at hp
    | cacheSet key a => exact absurd (List.mem_singleton.2 rfl) (hm id key a)
    | cacheGet key => exact ((h.indexed.get key).2.2 uid).symm.trans hp
    | store a =>
      rw [move, start] at hp
      split at hp <;> exact hp
    | _ => exact hp
  | land f =>
    rw [move] at hp
    split at hp
    · exact land_peek h hr hp
    · exact Or.inl hp
  | takeOver id =>
    rw [move, takeOver_cache] at hp
    exact Or.inl hp
  | collect id =>
    rw [move, collect_cache] at hp
    exact Or.inl hp
  | wait time => exact Or.inl hp

theorem Held.append (h : Held s ms uid o) (ms' : List Move) : Held s (ms ++ ms') uid o := by
  obtain ⟨a, b, rfl, ho⟩ := h
  exact ⟨a, b ++ ms', by simp, ho⟩

theorem peek_run (h : Coherent ids s) (hn : (ids ++ started ms).Nodup)
    (hr : s.repository.HoldsOnly l) (hu : Untouched ms)
    (hp : (s.run ms).cache.peek uid = some o) : s.cache.peek uid = some o ∨ Held s ms uid o := by
  induction ms using List.reverseRecOn generalizing o with
  | nil => exact Or.inl hp
  | append_singleton ms m ih =>
    rw [started_append, ← List.append_assoc] at hn
    have hn' := (List.nodup_append.1 hn).1
    obtain ⟨hu', hm⟩ := untouched_append.1 hu
    rw [run_concat] at hp
    rcases peek_move (h.run hn') (holdsOnly_run hr ms) hm hp with hs | hs
    · rcases ih hn' hu' hs with hc | hc
      · exact Or.inl hc
      · exact Or.inr (hc.append [m])
    · exact Or.inr ⟨ms, [m], rfl, hs⟩

end OrderLookup.Resolver
