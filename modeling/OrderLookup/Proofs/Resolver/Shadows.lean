import OrderLookup.Proofs.Cache.Accounts
import OrderLookup.Proofs.Inflight.Absence
import OrderLookup.Proofs.Resolver.Draining

/-!
A state beside the same state without one of its waiting callers. The two differ in that caller and
in one lookup that the cache has counted, and every move takes them on side by side, as long as the
caller only waits.
-/

namespace OrderLookup

namespace Resolver

open Inflight (Registry Caller)

def shadowed (s : Resolver) (r : Registry (Except OrderError Order)) : Resolver :=
  { s with registry := r, cache := s.cache.missed }

/-- Whether two states differ only in a caller who waits, and in the lookup that it began with. -/
structure Shadow (w : Nat) (s s' : Resolver) : Prop where
  same : s = s'.shadowed s.registry
  registry : s'.registry = s.registry.without w
  waits : ∀ c ∈ s.registry.callers, c.id = w → c.stage = .waiting
  idle : ∀ f ∈ s'.flights, f.id ≠ w

variable {s s' : Resolver} {w id target : Nat} {uid : String} {f : Flight}

namespace Shadow

theorem flights_eq (h : Shadow w s s') : s.flights = s'.flights := by
  rw [h.same]
  rfl

theorem repository_eq (h : Shadow w s s') : s.repository = s'.repository := by
  rw [h.same]
  rfl

theorem settings_eq (h : Shadow w s s') : s.settings = s'.settings := by
  rw [h.same]
  rfl

theorem script_eq (h : Shadow w s s') : s.script = s'.script := by
  rw [h.same]
  rfl

theorem cache_eq (h : Shadow w s s') : s.cache = s'.cache.missed := by
  rw [h.same]
  rfl

theorem finish (h : Shadow w s s') (id : Nat) (reply : Reply) :
    Shadow w (s.finish id reply) (s'.finish id reply) :=
  ⟨congrArg (fun s => s.finish id reply) h.same, h.registry, h.waits, h.idle⟩

theorem launch (h : Shadow w s s') (hid : id ≠ w) (work : Work) :
    Shadow w (s.launch id work) (s'.launch id work) where
  same := congrArg (fun s => s.launch id work) h.same
  registry := h.registry
  waits := h.waits
  idle f hf := by
    rcases List.mem_append.1 hf with hf | hf
    · exact h.idle f hf
    · rw [List.mem_singleton.1 hf]
      exact hid

theorem withRegister (h : Shadow w s s') {r r' : Registry (Except OrderError Order)}
    (hr : r' = r.without w) (hw : ∀ c ∈ r.callers, c.id = w → c.stage = .waiting) :
    Shadow w { s with registry := r } { s' with registry := r' } :=
  ⟨congrArg (fun s : Resolver => { s with registry := r }) h.same, hr, hw, h.idle⟩

theorem withCache (h : Shadow w s s') (c : Cache Order) :
    Shadow w { s with cache := c.missed } { s' with cache := c } :=
  ⟨congrArg (fun s : Resolver => { s with cache := c.missed }) h.same, h.registry, h.waits, h.idle⟩

theorem withRepository (h : Shadow w s s') (r : Repository) :
    Shadow w { s with repository := r } { s' with repository := r } :=
  ⟨congrArg (fun s : Resolver => { s with repository := r }) h.same, h.registry, h.waits, h.idle⟩

theorem withScript (h : Shadow w s s') (r : Script) :
    Shadow w { s with script := r } { s' with script := r } :=
  ⟨congrArg (fun s : Resolver => { s with script := r }) h.same, h.registry, h.waits, h.idle⟩

theorem wait (h : Shadow w s s') (time : Nat) :
    Shadow w { s with now := max s.now time } { s' with now := max s'.now time } :=
  ⟨congrArg (fun s : Resolver => { s with now := max s.now time }) h.same, h.registry, h.waits,
    h.idle⟩

theorem withoutFlight (h : Shadow w s s') (id : Nat) :
    Shadow w (s.withoutFlight id) (s'.withoutFlight id) :=
  ⟨congrArg (fun s => s.withoutFlight id) h.same, h.registry, h.waits,
    fun f hf => h.idle f (List.mem_of_mem_filter hf)⟩

theorem cache_get (h : Shadow w s s') (key : String) :
    s.cache.get key = ((s'.cache.get key).1, (s'.cache.get key).2.missed) := by
  have hget := s'.cache.missed_perform (.get key)
  have hanswer := congrArg Prod.fst hget
  have hcache := congrArg Prod.snd hget
  rw [h.cache_eq]
  exact Prod.ext (Cache.Answer.found.inj hanswer) hcache

theorem cache_peek (h : Shadow w s s') (key : String) : s.cache.peek key = s'.cache.peek key := by
  rw [h.cache_eq]
  rfl

theorem fillCache (h : Shadow w s s') (key : String) (o : Order) :
    Shadow w (s.fillCache key o) (s'.fillCache key o) := by
  have hset := congrArg Prod.snd (s'.cache.missed_perform (.set key o))
  rw [Resolver.fillCache, Resolver.fillCache, h.cache_eq]
  exact hset ▸ h.withCache _

theorem fillAll (h : Shadow w s s') (l : List Order) :
    Shadow w (l.foldl (fun s o => s.fillCache o.uid o) s)
      (l.foldl (fun s o => s.fillCache o.uid o) s') := by
  induction l generalizing s s' with
  | nil => exact h
  | cons o l ih => exact ih (h.fillCache o.uid o)

theorem settle (h : Shadow w s s') (hid : id ≠ w) (v : Except OrderError Order) :
    Shadow w (s.settle id v) (s'.settle id v) := by
  have hr : s'.registry.complete id v = (s.registry.complete id v).without w := by
    rw [h.registry, Registry.complete_without hid]
  exact (h.withRegister hr fun c hc => h.waits c (complete_callers hc)).finish id _

theorem lead (h : Shadow w s s') (hid : id ≠ w) (uid : String) :
    Shadow w (s.lead id uid) (s'.lead id uid) := by
  rw [Resolver.lead, Resolver.lead, h.cache_peek]
  cases s'.cache.peek uid with
  | some o => exact h.settle hid _
  | none => exact h.launch hid _

theorem resume (h : Shadow w s s') (hf : f.id ≠ w) : Shadow w (s.resume f) (s'.resume f) := by
  rw [Resolver.resume, Resolver.resume]
  cases f.work with
  | fetch uid =>
    dsimp only
    rw [h.repository_eq]
    cases outcome f.pending (s'.repository.get uid) with
    | ok o => exact (h.fillCache uid o).settle hf _
    | error e => exact h.settle hf _
  | save o =>
    dsimp only
    rw [h.repository_eq]
    cases outcome f.pending (s'.repository.upsert o) with
    | ok r => exact (h.withRepository r).finish _ _
    | error e => exact h.finish _ _
  | refresh =>
    dsimp only
    rw [h.repository_eq, h.settings_eq]
    cases outcome f.pending (.ok (s'.repository.recent s'.settings.warmLimit)) with
    | ok l => exact (h.fillAll l).finish _ _
    | error e => exact h.finish _ _

theorem land (h : Shadow w s s') (hf : f.id ≠ w) : Shadow w (s.land f) (s'.land f) :=
  (h.withoutFlight f.id).resume hf

theorem caller?_eq (h : Shadow w s s') (hid : id ≠ w) :
    s'.registry.caller? id = s.registry.caller? id := by
  rw [h.registry, Registry.caller?_without hid]

theorem takeOver (h : Shadow w s s') (hid : id ≠ w) :
    Shadow w (s.takeOver id) (s'.takeOver id) := by
  rw [Resolver.takeOver, Resolver.takeOver, h.caller?_eq hid]
  cases s.registry.caller? id with
  | none => exact h
  | some c =>
    have hr : s'.registry.start id = (s.registry.start id).without w := by
      rw [h.registry, Registry.start, Registry.setStage_without, Registry.start]
    have hw : ∀ d ∈ (s.registry.start id).callers, d.id = w → d.stage = .waiting := by
      intro d hd hi
      rcases Registry.mem_setStage.1 hd with ⟨hd, -⟩ | ⟨e, -, he, rfl⟩
      · exact h.waits d hd hi
      · exact absurd (he.symm.trans hi) hid
    dsimp only
    split
    · exact (h.withRegister hr hw).lead hid c.key
    · exact h

theorem collect (h : Shadow w s s') (hid : id ≠ w) :
    Shadow w (s.collect id) (s'.collect id) := by
  have hcollect := Registry.collect_without (r := s.registry) hid
  rw [← h.registry] at hcollect
  rw [Resolver.collect, Resolver.collect, hcollect]
  cases hr : s.registry.collect id with
  | none => exact h
  | some p =>
    obtain ⟨v, r⟩ := p
    obtain ⟨c, -, -, rfl⟩ := Registry.collect_eq_some_iff.1 hr
    have hw : ∀ d ∈ (s.registry.without id).callers, d.id = w → d.stage = .waiting :=
      fun d hd => h.waits d (Registry.mem_without.1 hd).1
    exact (h.withRegister rfl hw).finish id _

theorem get (h : Shadow w s s') (hid : id ≠ w) (uid : String) :
    Shadow w (s.get id uid) (s'.get id uid) := by
  have hjoin := Registry.join_without hid h.waits uid
  have hw : ∀ c ∈ (s.registry.join id uid).2.callers, c.id = w → c.stage = .waiting := by
    intro c hc hi
    rcases Registry.mem_join hc with hc | ⟨hc, -⟩
    · exact h.waits c hc hi
    · exact absurd (hc.symm.trans hi) hid
  rw [← h.registry] at hjoin
  rw [Resolver.get, Resolver.get, h.cache_get, hjoin]
  generalize s'.cache.get uid = found
  generalize s.registry.join id uid = joined at hw
  obtain ⟨o, cache⟩ := found
  obtain ⟨admission, r⟩ := joined
  have hcached := h.withCache cache
  have hjoined := hcached.withRegister rfl hw
  cases o with
  | some o => exact hcached.finish id _
  | none =>
    cases admission with
    | value v => exact hjoined.finish id _
    | wait => exact hjoined
    | lead => exact hjoined.lead hid uid

/-- Dropping another caller may hand a turn to the one who waits, who then waits no longer. -/
theorem abort (h : Shadow w s s') (ht : target ≠ w) :
    Shadow w (s.abort target) (s'.abort target) ∨
      (∃ c ∈ s.registry.callers, c.id = w) ∧ ¬(s.abort target).registry.Waits w := by
  -- The turn goes to somebody else, or to the one who waits, and then it waits no longer.
  rcases Registry.drop_without (r := s.registry) ht with ⟨hdrop, hold⟩ | ⟨hthere, hturn⟩
  · rw [← h.registry] at hdrop
    refine Or.inl ((h.withoutFlight target).withRegister hdrop fun c hc hi => ?_)
    exact h.waits c (hold c hc hi) hi
  · refine Or.inr ⟨hthere, ?_⟩
    rintro ⟨c, hc, hi, hs, -⟩
    rw [hturn c hc hi] at hs
    cases hs

theorem abort_self (h : Shadow w s s') :
    Shadow w (s.abort w) (s'.abort w) ∨
      (∃ c ∈ s.registry.callers, c.id = w) ∧ ¬(s.abort w).registry.Waits w := by
  cases hc : s.registry.caller? w with
  | none =>
    have hr : s'.registry = s.registry :=
      h.registry.trans (Registry.without_of_absent (Registry.caller?_eq_none_iff.1 hc))
    have hdrop : s.registry.drop w = s.registry := by rw [Registry.drop, hc]
    have hdrop' : s'.registry.drop w = (s.registry.drop w).without w := by
      rw [hr, hdrop, ← h.registry, hr]
    refine Or.inl ((h.withoutFlight w).withRegister hdrop' ?_)
    rw [hdrop]
    exact h.waits
  | some c =>
    refine Or.inr ⟨⟨c, Registry.mem_of_caller? hc⟩, ?_⟩
    rintro ⟨d, hd, hi, -⟩
    exact Registry.id_ne_of_mem_drop hd hi

theorem start (h : Shadow w s s') (hid : id ≠ w) (a : Action) :
    Shadow w (s.start id a) (s'.start id a) ∨
      (∃ c ∈ s.registry.callers, c.id = w) ∧ ¬(s.start id a).registry.Waits w := by
  cases a with
  | get uid => exact Or.inl (h.get hid uid)
  | create o => exact Or.inl (h.launch hid _)
  | refresh => exact Or.inl (h.launch hid _)
  | cacheSet key o => exact Or.inl ((h.fillCache key o).finish id _)
  | cacheGet key =>
    rw [Resolver.start, Resolver.start, h.cache_get]
    exact Or.inl ((h.withCache _).finish id _)
  | cachePeek key =>
    rw [Resolver.start, Resolver.start, h.cache_peek]
    exact Or.inl (h.finish id _)
  | store o =>
    rw [Resolver.start, Resolver.start, h.repository_eq]
    cases s'.repository.upsert o with
    | ok r => exact Or.inl ((h.withRepository r).finish id _)
    | error e => exact Or.inl (h.finish id _)
  | script r =>
    rw [Resolver.start, Resolver.start, h.script_eq]
    exact Or.inl ((h.withScript _).finish id _)
  | abort target =>
    by_cases ht : target = w
    · exact ht ▸ h.abort_self
    · exact h.abort ht

theorem ids_eq (h : Shadow w s s') :
    s'.registry.callers.map Caller.id =
      (s.registry.callers.map Caller.id).filter fun i => i ≠ w := by
  rw [h.registry, List.filter_map]
  rfl

theorem takeOver_self (h : Shadow w s s') : s.takeOver w = s := by
  rw [Resolver.takeOver]
  split
  · rfl
  · rename_i c hc
    obtain ⟨hm, hi⟩ := Registry.mem_of_caller? hc
    exact if_neg fun hs => by simp [h.waits c hm hi] at hs

theorem collect_self (h : Shadow w s s') :
    Shadow w (s.collect w) s' ∨
      (∃ c ∈ s.registry.callers, c.id = w) ∧ ¬(s.collect w).registry.Waits w := by
  rw [Resolver.collect]
  cases hr : s.registry.collect w with
  | none => exact Or.inl h
  | some p =>
    obtain ⟨v, r⟩ := p
    obtain ⟨c, hc, -, rfl⟩ := Registry.collect_eq_some_iff.1 hr
    refine Or.inr ⟨⟨c, Registry.mem_of_caller? hc⟩, ?_⟩
    rintro ⟨d, hd, hi, -⟩
    exact (Registry.mem_without.1 hd).2 hi

end Shadow

end Resolver

end OrderLookup
