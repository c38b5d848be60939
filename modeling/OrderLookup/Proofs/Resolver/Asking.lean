import OrderLookup.Proofs.Resolver.Idling
import OrderLookup.Proofs.Resolver.Writing

/-!
A lookup that nothing else goes on beside. If the order is cached it is there at once, and else the
store is asked once, and the lookup ends when the store call does.
-/

namespace OrderLookup.Inflight.Registry

variable {α : Type} {r : Registry α}

theorem Sound.join_unowned (hr : Sound r) {key : String}
    (hc : ∀ c ∈ r.callers, c.key = key → c.stage = .waiting) (id : Nat) :
    (r.join id key).1 = .lead ∧
      ∃ h, (r.join id key).2.callers = r.callers ++ [⟨id, key, h, .leading⟩] ∧
        (r.join id key).2.values.get? h = none := by
  rcases he : r.register key with ⟨h, r₁⟩
  obtain ⟨ho, hcallers, -, hp⟩ := hr.toOrderly.register key he
  have hopen := ho.pending_open hp
  have hown : r₁.isOwned h = false := by
    rw [Bool.eq_false_iff, ne_eq, isOwned_iff]
    intro howned
    obtain ⟨c, hcm, hch, hcs⟩ := howned
    have hreg := ho.registered hcm (ho.owner_open hcm hcs)
    rw [hch] at hreg
    exact hcs (hc c (hcallers ▸ hcm) (ho.pending_injective hreg hp))
  simp [Registry.join, he, hopen, hown, hcallers]

theorem complete_alone {id handle : Nat} {key : String} (v : α)
    (hc : r.callers = [⟨id, key, handle, .leading⟩]) : (r.complete id v).callers = [] := by
  have hcaller : r.caller? id = some ⟨id, key, handle, .leading⟩ := by
    rw [caller?, hc]
    simp
  have hkept : (r.unregister key handle).callers = r.callers := by
    rw [unregister]
    split <;> rfl
  rw [complete_eq v hcaller, without]
  simp [hkept, hc]

end OrderLookup.Inflight.Registry

namespace OrderLookup.Resolver

open Inflight (Registry)
open Inflight.Registry (complete_alone)

def learn (c : Cache Order) (uid : String) : Except OrderError Order → Cache Order
  | .ok o => (c.set uid o).2
  | .error _ => c

variable {s : Resolver} {uid : String} {o : Order} {f : Flight}

theorem fillAll_rules (s : Resolver) (l : List Order) :
    (l.foldl (fun s o => s.fillCache o.uid o) s).settings = s.settings ∧
      (l.foldl (fun s o => s.fillCache o.uid o) s).script = s.script := by
  induction l generalizing s with
  | nil => exact ⟨rfl, rfl⟩
  | cons o l ih => exact ih (s.fillCache o.uid o)

theorem lead_rules (s : Resolver) (id : Nat) (uid : String) :
    (s.lead id uid).settings = s.settings ∧ (s.lead id uid).script = s.script := by
  rw [lead]
  split <;> exact ⟨rfl, rfl⟩

theorem move_rules (s : Resolver) {m : Move} (h : ∀ id r, m ≠ .start id (.script r)) :
    (s.move m).settings = s.settings ∧ (s.move m).script = s.script := by
  cases m with
  | start id a =>
    rw [move]
    cases a with
    | get uid =>
      rw [start, Resolver.get]
      split
      · exact ⟨rfl, rfl⟩
      · split
        · exact ⟨rfl, rfl⟩
        · exact ⟨rfl, rfl⟩
        · exact lead_rules _ id uid
    | store o =>
      rw [start]
      split <;> exact ⟨rfl, rfl⟩
    | script r => exact absurd rfl (h id r)
    | _ => exact ⟨rfl, rfl⟩
  | land f =>
    rw [move]
    split
    · rw [land, resume]
      split
      · split <;> exact ⟨rfl, rfl⟩
      · split <;> exact ⟨rfl, rfl⟩
      · split
        · exact fillAll_rules (s.withoutFlight f.id) _
        · exact ⟨rfl, rfl⟩
    · exact ⟨rfl, rfl⟩
  | takeOver id =>
    rw [move, takeOver]
    split
    · exact ⟨rfl, rfl⟩
    · split
      · exact lead_rules _ id _
      · exact ⟨rfl, rfl⟩
  | collect id =>
    rw [move, collect]
    split <;> exact ⟨rfl, rfl⟩
  | wait time => exact ⟨rfl, rfl⟩

theorem drain_of_flights_nil (h : s.flights = []) : clock.drain s = s := by
  change clock.advanceFor none s.flights.length s = s
  rw [h]
  rfl

theorem land_fetch (s : Resolver) (hw : f.work = .fetch uid) :
    s.land f =
      { s.withoutFlight f.id with
        cache := learn s.cache uid (outcome f.pending (s.repository.get uid)) }.settle f.id
          (outcome f.pending (s.repository.get uid)) := by
  rw [land, resume, hw]
  dsimp only
  rw [withoutFlight_repository]
  cases outcome f.pending (s.repository.get uid) <;> rfl

theorem wake_fetch {handle : Nat} (hf : s.flights = [f]) (hw : f.work = .fetch uid)
    (hc : s.registry.callers = [⟨f.id, uid, handle, .leading⟩]) :
    let r := outcome f.pending (s.repository.get uid)
    s.wake =
      { s with
        cache := learn s.cache uid r
        registry := s.registry.complete f.id r
        now := max s.now f.due
        flights := []
        finished := s.finished ++ [⟨f.id, max s.now f.due, .found r⟩] } := by
  intro r
  have hland := land_fetch { s with now := max s.now f.due } hw
  have hnobody := Inflight.Registry.complete_alone r hc
  have hnext : Clock.soonest Flight.due s.flights = some f := by
    rw [hf]
    rfl
  rw [wake, hnext]
  dsimp only
  rw [hland, proceed_of_callers_nil hnobody]
  simp [settle, finish, withoutFlight, hf, r]

theorem start_get (hc : s.registry.callers = []) (hr : s.registry.Sound)
    (hp : s.cache.peek uid = none) (id : Nat) :
    s.start id (.get uid) =
      Resolver.launch
        { s with
          cache := (s.cache.get uid).2
          registry := (s.registry.join id uid).2 } id (.fetch uid) := by
  rw [start, get_eq hr, hp]
  exact if_pos (hr.join_unowned (by simp [hc]) id).1

theorem perform_get_cached (hc : s.registry.callers = []) (hf : s.flights = [])
    (hp : s.cache.peek uid = some o) (id : Nat) :
    s.perform id (.get uid) =
      { s with
        cache := { s.cache with counters := s.cache.counters.recordHit }
        finished := s.finished ++ [⟨id, s.now, .found (.ok o)⟩] } := by
  have hhit : s.cache.get uid =
      (some o, { s.cache with counters := s.cache.counters.recordHit }) := by
    rw [Cache.get, hp]
  have hstart : s.start id (.get uid) =
      { s with cache := { s.cache with counters := s.cache.counters.recordHit } }.finish id
        (.found (.ok o)) := by
    rw [start, Resolver.get, hhit]
  have hproceed : (s.start id (.get uid)).proceed = s.start id (.get uid) := by
    rw [hstart]
    exact proceed_of_callers_nil hc
  rw [Resolver.perform, act, hproceed, hstart]
  exact drain_of_flights_nil hf

theorem perform_get_missed (hc : s.registry.callers = []) (hf : s.flights = [])
    (hr : s.registry.Sound) (hp : s.cache.peek uid = none) (id : Nat) :
    let f := s.flightFor id (.fetch uid)
    let r := outcome f.pending (s.repository.get uid)
    ∃ registry : Registry (Except OrderError Order), registry.callers = [] ∧
      s.perform id (.get uid) =
        { s with
          cache := learn { s.cache with counters := s.cache.counters.recordMiss } uid r
          registry := registry
          now := f.due
          calls := s.calls ++ [⟨s.now, ⟨.getOrder, uid⟩⟩]
          finished := s.finished ++ [⟨id, f.due, .found r⟩] } := by
  have hunowned : ∀ c ∈ s.registry.callers, c.key = uid → c.stage = .waiting := by simp [hc]
  obtain ⟨-, handle, hcallers, hopen⟩ := hr.join_unowned hunowned id
  rw [hc, List.nil_append] at hcallers
  have hmiss : (s.cache.get uid).2 =
      { s.cache with counters := s.cache.counters.recordMiss } := by rw [Cache.get, hp]
  have hstart := start_get hc hr hp id
  rw [hmiss] at hstart
  have hsettled : Settled (s.start id (.get uid)) := by
    rw [hstart]
    constructor <;> simp [launch, hcallers, hopen]
  have hflights : (s.start id (.get uid)).flights = [s.flightFor id (.fetch uid)] := by
    rw [hstart]
    change s.flights ++ [s.flightFor id (.fetch uid)] = _
    rw [hf, List.nil_append]
  have hcaller : (s.start id (.get uid)).registry.callers = [⟨id, uid, handle, .leading⟩] := by
    rw [hstart]
    exact hcallers
  have hwake := wake_fetch hflights rfl hcaller
  intro f r
  have hlater : max (s.start id (.get uid)).now f.due = f.due := by
    rw [hstart]
    exact Nat.max_eq_right (Nat.le_add_right s.now _)
  have hend : s.perform id (.get uid) = (s.start id (.get uid)).wake := by
    rw [Resolver.perform, act, hsettled.proceed_eq, drain_alone hflights]
  refine ⟨(s.registry.join id uid).2.complete id r, complete_alone r hcallers, ?_⟩
  rw [hend, hwake, hlater, hstart, hf]
  rfl

end OrderLookup.Resolver
