import OrderLookup.Proofs.Cache.Accounts
import OrderLookup.Proofs.Resolver.Asking
import OrderLookup.Proofs.Resolver.Provenance

/-!
What a lookup leaves behind that nothing else goes on beside. A cached order costs nothing but a
hit. A missing one is asked for once; if it is found it becomes the newest entry of the cache, for
which the oldest one leaves if there is no room, and otherwise the cache has counted a miss and is
as it was.
-/

namespace OrderLookup

namespace Cache

variable {α : Type} {c : Cache α} {key : String} {value : α}

/-- Whether a cache is another one with a new entry, for which the oldest one has left if there was
no room. -/
structure Appended (c : Cache α) (key : String) (value : α) (c' : Cache α) : Prop where
  keys : c'.keys = c.keys.drop (if c.size = c.capacity then 1 else 0) ++ [key]
  own : c'.peek key = some value
  others : ∀ k, k ≠ key → c'.peek k = if k ∈ c'.keys then c.peek k else none
  counters : c'.counters =
    { c.counters with
      evictions := c.counters.evictions + if c.size = c.capacity then 1 else 0
      totalEntries := c'.size }
  capacity : c'.capacity = c.capacity

theorem Ordered.set_new (h : c.Ordered) (hp : c.peek key = none) (value : α) :
    Appended c key value (c.set key value).2 := by
  have hk : key ∉ c.keys := h.peek_eq_none_iff.1 hp
  obtain ⟨hord, hkeys, -⟩ := h.set_spec key value
  have hle := h.length_keys_le
  have hpos := h.capacity_pos
  have hpeek := h.set_peek key value
  rw [if_neg hk] at hkeys
  constructor
  case keys =>
    have hcut : (if c.size = c.capacity then 1 else 0) = c.keys.length + 1 - c.capacity := by
      rw [h.size_eq]
      split <;> omega
    rw [hkeys, hcut, List.drop_append_of_le_length (by omega)]
  case own => rw [hpeek, if_pos rfl]
  case others =>
    intro k hne
    by_cases hm : k ∈ (c.set key value).2.keys
    · have hsome : (c.set key value).2.peek k ≠ none := fun hn => hord.peek_eq_none_iff.1 hn hm
      rw [hpeek, if_neg (Ne.symm hne)] at hsome ⊢
      rw [if_pos hm]
      split at hsome
      · exact absurd rfl hsome
      · rename_i hstays
        exact if_neg hstays
    · rw [if_neg hm]
      exact hord.peek_eq_none_iff.2 hm
  case counters =>
    rw [set_counters, h.set_outcome, outcomeOf, if_neg hk, h.size_eq]
    by_cases hroom : c.keys.length < c.capacity
    · rw [if_pos hroom, if_neg (Nat.ne_of_lt hroom)]
      rfl
    · have hfull : c.keys.length = c.capacity := by omega
      rw [if_neg hroom, if_pos hfull]
      cases hl : c.keys.head? with
      | none =>
        rw [List.head?_eq_none_iff.1 hl, List.length_nil] at hfull
        omega
      | some oldest => rfl
  case capacity => exact (c.set_frame key value).1

end Cache

namespace Resolver

open Cache (Appended)

variable {s : Resolver} {ms : List Move} {ids : List Nat} {id : Nat} {uid : String} {o : Order}
  {l : List (Nat × Action)}

theorem Leads.perform (s : Resolver) (id : Nat) (a : Action) :
    Leads s [(id, a)] (s.perform id a) :=
  (Leads.act s id a).trans (Leads.advanceFor none _ _)

theorem Coherent.perform (h : Coherent ids s) (hn : (ids ++ [id]).Nodup) (a : Action) :
    Coherent (ids ++ [id]) (s.perform id a) :=
  (Leads.perform s id a).coherent h hn

def storeAnswer (s : Resolver) (uid : String) : Except OrderError Order :=
  if s.script.delay ⟨.getOrder, uid⟩ ≤ s.settings.readTimeout then
    ownResult (s.script.failure ⟨.getOrder, uid⟩) (s.repository.get uid)
  else
    .error (.timeout
      ("get_order(" ++ uid ++ ") exceeded " ++ durationText s.settings.readTimeout))

def storeAnswers (s : Resolver) (uid : String) : Nat :=
  s.now + min (s.script.delay ⟨.getOrder, uid⟩) s.settings.readTimeout

/-- What a lookup leaves behind that nothing else goes on beside. -/
structure LookupEffect (s : Resolver) (id : Nat) (uid : String) (found : Resolver) : Prop where
  hit : ∀ o, s.cache.peek uid = some o →
    found = { s with
      cache := { s.cache with counters := s.cache.counters.recordHit }
      finished := s.finished ++ [⟨id, s.now, .found (.ok o)⟩] }
  miss : s.cache.peek uid = none →
    found = { s with
      cache := found.cache
      registry := found.registry
      now := s.storeAnswers uid
      calls := s.calls ++ [⟨s.now, ⟨.getOrder, uid⟩⟩]
      finished := s.finished ++ [⟨id, s.storeAnswers uid, .found (s.storeAnswer uid)⟩] }
  nobody : s.cache.peek uid = none → found.registry.callers = []
  kept : s.cache.peek uid = none → ∀ o, s.storeAnswer uid = .ok o →
    Appended { s.cache with counters := s.cache.counters.recordMiss } uid o found.cache
  unkept : s.cache.peek uid = none → ∀ e, s.storeAnswer uid = .error e →
    found.cache = { s.cache with counters := s.cache.counters.recordMiss }

/-- What the next lookup does after one that has missed the cache: it is a hit if an order was
found, and asks again if not. -/
structure NextLookup (s : Resolver) (uid : String) (found : Resolver) (later t : Nat)
    (again : Resolver) : Prop where
  hit : s.cache.peek uid = none → ∀ o, s.storeAnswer uid = .ok o →
    again.cache = { found.cache with counters := found.cache.counters.recordHit } ∧
      again.calls = found.calls ∧
      again.finished = found.finished ++ [⟨later, again.now, .found (.ok o)⟩]
  miss : s.cache.peek uid = none → ∀ e, s.storeAnswer uid = .error e →
    again.calls = found.calls ++ [⟨max found.now t, ⟨.getOrder, uid⟩⟩]

theorem LookupEffect.ofAlone (h : Coherent ids s) (hord : s.cache.Ordered)
    (hc : s.registry.callers = []) (hf : s.flights = []) (id : Nat) (uid : String) :
    LookupEffect s id uid (s.perform id (.get uid)) := by
  have hanswer : outcome (s.flightFor id (.fetch uid)).pending (s.repository.get uid) =
      s.storeAnswer uid := outcome_eq _ _
  have hmiss := fun hp : s.cache.peek uid = none => perform_get_missed hc hf h.sound hp
  constructor
  case hit => exact fun o hp => perform_get_cached hc hf hp id
  case miss =>
    intro hp
    obtain ⟨registry, -, hend⟩ := hmiss hp id
    rw [hanswer] at hend
    rw [hend]
    rfl
  case nobody =>
    intro hp
    obtain ⟨registry, hcallers, hend⟩ := hmiss hp id
    rwa [hend]
  case kept =>
    intro hp o ho
    obtain ⟨registry, -, hend⟩ := hmiss hp id
    rw [hanswer, ho] at hend
    rw [hend]
    exact (hord.withCounters s.cache.counters.recordMiss).set_new hp o
  case unkept =>
    intro hp e he
    obtain ⟨registry, -, hend⟩ := hmiss hp id
    rw [hanswer, he] at hend
    rw [hend]
    rfl

theorem LookupEffect.rests {found : Resolver} (h : LookupEffect s id uid found)
    (hc : s.registry.callers = []) (hf : s.flights = []) :
    found.registry.callers = [] ∧ found.flights = [] := by
  cases hp : s.cache.peek uid with
  | some o =>
    rw [h.hit o hp]
    exact ⟨hc, hf⟩
  | none =>
    refine ⟨h.nobody hp, ?_⟩
    rw [h.miss hp]
    exact hf

theorem NextLookup.ofEffect {found again : Resolver} {later t : Nat}
    (hfound : LookupEffect s id uid found)
    (hagain : LookupEffect (found.move (.wait t)) later uid again) :
    NextLookup s uid found later t again := by
  constructor
  case hit =>
    intro hp o ho
    have hend := hagain.hit o (hfound.kept hp o ho).own
    rw [hend]
    exact ⟨rfl, rfl, rfl⟩
  case miss =>
    intro hp e he
    have hcold : found.cache.peek uid = none := by
      rw [hfound.unkept hp e he]
      exact hp
    exact congrArg Resolver.calls (hagain.miss hcold)

/-- A lookup that nothing else goes on beside costs a hit if its order is cached, and else exactly
one store call. A found order is the newest entry of the cache then. -/
theorem lone_lookup_effect {settings : Settings} {capacity : Nat} {repository : Repository}
    {script : Script} {later : Nat}
    (hs : s = (ofParts settings capacity repository script).run ms)
    (hn : (started ms ++ [id, later]).Nodup) (hc : s.registry.callers = [])
    (hf : s.flights = []) (uid : String) (t : Nat) :
    let found := s.perform id (.get uid)
    let again := (found.move (.wait t)).perform later (.get uid)
    LookupEffect s id uid found ∧ NextLookup s uid found later t again := by
  have hids : (started ms ++ [id] ++ [later]).Nodup := by simpa using hn
  have hn₁ := (List.nodup_append.1 hids).1
  have hn₀ := (List.nodup_append.1 hn₁).1
  have hstart : Coherent [] (ofParts settings capacity repository script) := .ofParts ..
  have hcoherent : Coherent (started ms) s := hs ▸ hstart.run (by simpa using hn₀)
  have hord : s.cache.Ordered :=
    hs ▸ ordered_run hstart (.ofCapacity capacity) (by simpa using hn₀)
  intro found again
  have hfound : LookupEffect s id uid found := .ofAlone hcoherent hord hc hf id uid
  obtain ⟨hnobody, hnone⟩ := hfound.rests hc hf
  have hafter : Coherent (started ms ++ [id]) found := hcoherent.perform hn₁ _
  have hwaited : Coherent (started ms ++ [id]) (found.move (.wait t)) :=
    (Leads.move (.wait t)).stays_coherent hafter hn₁
  obtain ⟨moves, hops, hrun⟩ := Leads.perform s id (.get uid)
  have hkept : found.cache.Ordered := by
    have hids' : (started ms ++ started moves).Nodup := by rwa [started_eq moves, hops]
    have hordered := ordered_run hcoherent hord hids'
    rwa [hrun] at hordered
  exact ⟨hfound, .ofEffect hfound (.ofAlone hwaited hkept hnobody hnone later uid)⟩

def crowded : Resolver :=
  ofParts { readTimeout := 100 } 1 (Repository.ofOrders [{ uid := "a" }, { uid := "b" }])
    ⟨[(.getOrder, .bySubject [("a", 100)])], []⟩

theorem lone_lookup_effect_after_drop :
    ∃ ms : List Move, ∃ s : Resolver, s = crowded.run ms ∧
      s.registry.pending.keys = ["a"] ∧ s.cache.keys = ["b"] ∧
      (s.perform 3 (.get "a")).finished =
        s.finished ++ [⟨3, 100, .found (.ok { uid := "a" })⟩] ∧
      (s.perform 3 (.get "a")).cache.keys = ["a"] ∧
      (((s.perform 3 (.get "a")).move (.wait 500)).perform 4 (.get "a")).calls =
        (s.perform 3 (.get "a")).calls := by
  let ms : List Move := [.start 0 (.get "b"),
    .land ⟨0, .fetch "b", .start crowded.script ⟨.getOrder, "b"⟩ 0 100⟩,
    .start 1 (.get "a"), .start 2 (.abort 1)]
  have hkeys : (crowded.run ms).cache.keys = ["b"] := by decide
  have hn : (started ms ++ [3, 4]).Nodup := by decide
  have hcold : (crowded.run ms).cache.peek "a" = none := by decide
  have hfound : (crowded.run ms).storeAnswer "a" = .ok { uid := "a" } := by decide
  obtain ⟨heffect, hnext⟩ :=
    lone_lookup_effect (s := crowded.run ms) rfl hn (by decide) (by decide) "a" 500
  have hkept := (heffect.kept hcold _ hfound).keys
  have hcalls := (hnext.hit hcold _ hfound).2.1
  refine ⟨ms, _, rfl, by decide, hkeys, ?_, ?_, hcalls⟩
  · exact congrArg Resolver.finished (heffect.miss hcold)
  · rw [hkept]
    decide

end Resolver

end OrderLookup
