import OrderLookup.Proofs.Cache.Index
import OrderLookup.Proofs.Inflight.Sharing
import OrderLookup.Resolver

/-!
Runs of the resolver. Operations begin, store calls end, handed turns are taken over, waiting
callers return and time passes, one at a time and in any order. Every state of a run is
`Coherent`: the register has a history of its own, the cache is well indexed, and each fetch in
flight is led by a caller of its id.
-/

namespace OrderLookup.Resolver

open Inflight (Registry)

inductive Move
  | start (id : Nat) (a : Action)
  | land (f : Flight)
  | takeOver (id : Nat)
  | collect (id : Nat)
  | wait (time : Nat)

def Move.started : Move → List Nat
  | .start id _ => [id]
  | _ => []

/-- A move that is not possible changes nothing. -/
def move (s : Resolver) : Move → Resolver
  | .start id a => s.start id a
  | .land f => if f ∈ s.flights then s.land f else s
  | .takeOver id => s.takeOver id
  | .collect id => s.collect id
  | .wait time => { s with now := max s.now time }

def run (s : Resolver) (ms : List Move) : Resolver := ms.foldl move s

def started (ms : List Move) : List Nat := ms.flatMap Move.started

variable {s : Resolver} {m : Move} {ms ms' : List Move} {ids : List Nat} {id : Nat} {uid : String}

@[simp] theorem run_nil (s : Resolver) : s.run [] = s := rfl

@[simp] theorem run_cons (s : Resolver) (m : Move) (ms : List Move) :
    s.run (m :: ms) = (s.move m).run ms := rfl

theorem run_append (s : Resolver) (ms ms' : List Move) :
    s.run (ms ++ ms') = (s.run ms).run ms' := List.foldl_append

theorem run_concat (s : Resolver) (ms : List Move) (m : Move) :
    s.run (ms ++ [m]) = (s.run ms).move m := by
  rw [run_append, run_cons, run_nil]

theorem run_induction {P : Resolver → Prop} (h : P s)
    (step : ∀ before m after, ms = before ++ m :: after →
      P (s.run before) → P ((s.run before).move m)) : P (s.run ms) := by
  have hpast : ∀ before after, ms = before ++ after → P (s.run before) := by
    intro before
    induction before using List.reverseRecOn with
    | nil => exact fun _ _ => h
    | append_singleton before m ih =>
      intro after he
      rw [List.append_assoc, List.singleton_append] at he
      rw [run_concat]
      exact step before m after he (ih (m :: after) he)
  exact hpast ms [] (List.append_nil ms).symm

@[simp] theorem started_nil : started [] = [] := rfl

@[simp] theorem started_cons (m : Move) (ms : List Move) :
    started (m :: ms) = m.started ++ started ms := rfl

@[simp] theorem started_append (ms ms' : List Move) :
    started (ms ++ ms') = started ms ++ started ms' := List.flatMap_append

theorem get_eq (hs : s.registry.Sound) (id : Nat) (uid : String) :
    s.get id uid =
      match s.cache.peek uid with
      | some o => { s with cache := (s.cache.get uid).2 }.finish id (.found (.ok o))
      | none =>
        let joined : Resolver :=
          { s with cache := (s.cache.get uid).2, registry := (s.registry.join id uid).2 }
        if (s.registry.join id uid).1 = .lead then joined.launch id (.fetch uid) else joined := by
  cases hp : s.cache.peek uid with
  | some o => simp [Resolver.get, Cache.get, hp]
  | none =>
    rcases hj : s.registry.join id uid with ⟨a, r⟩
    cases a with
    | lead =>
      have hp' : ({ s.cache with counters := s.cache.counters.recordMiss } : Cache Order).peek uid =
          none := hp
      simp [Resolver.get, Cache.get, hp, hj, lead, hp']
    | wait => simp [Resolver.get, Cache.get, hp, hj]
    | value v => exact absurd (by rw [hj]) (hs.join_ne_value id uid v)

/-- What holds of every state of a run that has begun the operations `ids`. -/
structure Coherent (ids : List Nat) (s : Resolver) : Prop where
  history : ∃ rs, Registry.Run Registry.empty rs s.registry
  indexed : s.cache.Indexed
  callers : ∀ c ∈ s.registry.callers, c.id ∈ ids
  finished : ∀ f ∈ s.finished, f.id ∈ ids
  flights : ∀ f ∈ s.flights, f.id ∈ ids
  fetching : ∀ f ∈ s.flights, ∀ uid, f.work = .fetch uid →
    ∃ c ∈ s.registry.callers, c.id = f.id ∧ c.key = uid ∧ c.stage = .leading

namespace Coherent

theorem ofParts (settings : Settings) (capacity : Nat) (repository : Repository)
    (script : Script) : Coherent [] (ofParts settings capacity repository script) where
  history := ⟨[], .nil⟩
  indexed := Cache.Indexed.ofCapacity capacity
  callers c hc := by cases hc
  finished f hf := by cases hf
  flights f hf := by cases hf
  fetching f hf := by cases hf

theorem sound (h : Coherent ids s) : s.registry.Sound := by
  obtain ⟨rs, hr⟩ := h.history
  exact Inflight.Registry.Sound.empty.run hr

theorem caller?_eq_none (h : Coherent ids s) (hid : id ∉ ids) : s.registry.caller? id = none :=
  Inflight.Registry.caller?_eq_none_iff.2 fun c hc hi => hid (hi ▸ h.callers c hc)

theorem mono {ids' : List Nat} (h : Coherent ids s) (hi : ids ⊆ ids') : Coherent ids' s where
  history := h.history
  indexed := h.indexed
  callers c hc := hi (h.callers c hc)
  finished f hf := hi (h.finished f hf)
  flights f hf := hi (h.flights f hf)
  fetching := h.fetching

theorem step (h : Coherent ids s) {m : Inflight.Move (Except OrderError Order)}
    {r : Registry (Except OrderError Order)} (hs : Registry.Step s.registry m r)
    (hj : ∀ id key, m = .join id key → id ∈ ids)
    (hf : ∀ f ∈ s.flights, ∀ uid, f.work = .fetch uid →
      m ≠ .drop f.id ∧ ∀ v, m ≠ .complete f.id v) :
    Coherent ids { s with registry := r } where
  history := by
    obtain ⟨rs, hr⟩ := h.history
    exact ⟨rs ++ [m], .move hr hs⟩
  indexed := h.indexed
  callers := by
    intro c hc
    rcases hs.caller_past h.sound hc with ⟨d, hd, hi, -⟩ | ⟨hm, -⟩
    · exact hi ▸ h.callers d hd
    · exact hj _ _ hm
  finished := h.finished
  flights := h.flights
  fetching := by
    intro f hfl uid hw
    obtain ⟨c, hc, hi, hk, hl⟩ := h.fetching f hfl uid hw
    obtain ⟨hd, hv⟩ := hf f hfl uid hw
    rcases hs.leading_stays h.sound hc hl with hc' | hm | ⟨v, hm⟩
    · exact ⟨c, hc', hi, hk, hl⟩
    · exact absurd (hi ▸ hm) hd
    · exact absurd (hi ▸ hm) (hv v)

theorem withCache (h : Coherent ids s) {cache : Cache Order} (hc : cache.Indexed) :
    Coherent ids { s with cache := cache } :=
  ⟨h.history, hc, h.callers, h.finished, h.flights, h.fetching⟩

theorem fillCache (h : Coherent ids s) (key : String) (o : Order) :
    Coherent ids (s.fillCache key o) :=
  h.withCache (h.indexed.set key o).1

theorem finish (h : Coherent ids s) (hid : id ∈ ids) (reply : Reply) :
    Coherent ids (s.finish id reply) where
  history := h.history
  indexed := h.indexed
  callers := h.callers
  flights := h.flights
  fetching := h.fetching
  finished := by
    intro f hf
    rcases List.mem_append.1 hf with hf | hf
    · exact h.finished f hf
    · rw [List.mem_singleton.1 hf]
      exact hid

theorem launch (h : Coherent ids s) (hid : id ∈ ids) {work : Work}
    (hw : ∀ uid, work = .fetch uid →
      ∃ c ∈ s.registry.callers, c.id = id ∧ c.key = uid ∧ c.stage = .leading) :
    Coherent ids (s.launch id work) where
  history := h.history
  indexed := h.indexed
  callers := h.callers
  finished := h.finished
  flights := by
    intro f hf
    rcases List.mem_append.1 hf with hf | hf
    · exact h.flights f hf
    · rw [List.mem_singleton.1 hf]
      exact hid
  fetching := by
    intro f hf uid hfw
    rcases List.mem_append.1 hf with hf | hf
    · exact h.fetching f hf uid hfw
    · rw [List.mem_singleton.1 hf] at hfw ⊢
      exact hw uid hfw

theorem completes (h : Coherent ids s) {c : Inflight.Caller} (hc : c ∈ s.registry.callers)
    (hl : c.stage = .leading) (r : Except OrderError Order) :
    Registry.Step s.registry (.complete c.id r) (s.registry.complete c.id r) :=
  .complete r (h.sound.caller?_eq_some_iff.2 ⟨hc, rfl⟩) hl

theorem settle (h : Coherent ids s) {c : Inflight.Caller} (hc : c ∈ s.registry.callers)
    (hi : c.id = id) (hl : c.stage = .leading)
    (hf : ∀ f ∈ s.flights, ∀ uid, f.work = .fetch uid → f.id ≠ id)
    (r : Except OrderError Order) : Coherent ids (s.settle id r) := by
  subst id
  refine (h.step (h.completes hc hl r) (by simp)
    fun f hfl uid hw => ⟨by simp, fun v hv => ?_⟩).finish (h.callers c hc) _
  simp only [Inflight.Move.complete.injEq] at hv
  exact hf f hfl uid hw hv.1.symm

theorem lead (h : Coherent ids s) {c : Inflight.Caller} (hc : c ∈ s.registry.callers)
    (hi : c.id = id) (hk : c.key = uid) (hl : c.stage = .leading)
    (hf : ∀ f ∈ s.flights, ∀ uid, f.work = .fetch uid → f.id ≠ id) :
    Coherent ids (s.lead id uid) := by
  rw [Resolver.lead]
  split
  · exact h.settle hc hi hl hf _
  · refine h.launch (hi ▸ h.callers c hc) fun k hw => ⟨c, hc, hi, ?_, hl⟩
    cases hw
    exact hk

theorem get (h : Coherent ids s) (hid : id ∈ ids) (hnew : s.registry.caller? id = none)
    (uid : String) : Coherent ids (s.get id uid) := by
  have hc := h.withCache (h.indexed.get uid).2.1
  rw [get_eq h.sound]
  split
  · exact hc.finish hid _
  · have hs : Registry.Step s.registry (.join id uid) (s.registry.join id uid).2 := .join uid hnew
    have hj := hc.step hs (by simp [hid]) (by simp)
    dsimp only
    split
    · rename_i hl
      refine hj.launch hid fun k hk => ?_
      cases hk
      exact Inflight.Registry.exists_leading_of_join hl
    · exact hj

theorem withoutFlight (h : Coherent ids s) (id : Nat) : Coherent ids (s.withoutFlight id) where
  history := h.history
  indexed := h.indexed
  callers := h.callers
  finished := h.finished
  flights f hf := h.flights f (List.mem_of_mem_filter hf)
  fetching f hf := h.fetching f (List.mem_of_mem_filter hf)

theorem withRepository (h : Coherent ids s) (r : Repository) :
    Coherent ids { s with repository := r } :=
  ⟨h.history, h.indexed, h.callers, h.finished, h.flights, h.fetching⟩

theorem fillAll (h : Coherent ids s) (l : List Order) :
    Coherent ids (l.foldl (fun s o => s.fillCache o.uid o) s) := by
  induction l generalizing s with
  | nil => exact h
  | cons o l ih => exact ih (h.fillCache o.uid o)

theorem land (h : Coherent ids s) {f : Flight} (hf : f ∈ s.flights) :
    Coherent ids (s.land f) := by
  have hid := h.flights f hf
  have h' := h.withoutFlight f.id
  have hgone : ∀ g ∈ (s.withoutFlight f.id).flights, ∀ uid, g.work = .fetch uid → g.id ≠ f.id :=
    fun g hg _ _ => by simpa using (List.mem_filter.1 hg).2
  rw [Resolver.land, resume]
  split
  · rename_i uid hw
    obtain ⟨c, hc, hi, -, hl⟩ := h.fetching f hf uid hw
    split
    · exact (h'.fillCache uid _).settle hc hi hl hgone _
    · exact h'.settle hc hi hl hgone _
  · split
    · exact (h'.withRepository _).finish hid _
    · exact h'.finish hid _
  · split
    · exact (h'.fillAll _).finish hid _
    · exact h'.finish hid _

theorem takeOver (h : Coherent ids s) (id : Nat) : Coherent ids (s.takeOver id) := by
  rw [Resolver.takeOver]
  split
  · exact h
  · rename_i c hc
    split
    · rename_i hch
      obtain ⟨hm, rfl⟩ := Inflight.Registry.mem_of_caller? hc
      have h' := h.step (.start hc hch) (by simp) (by simp)
      refine h'.lead (Inflight.Registry.mem_start hm) rfl rfl rfl fun f hf uid hw hi => ?_
      -- A caller that leads a fetch has not just been handed the turn.
      obtain ⟨d, hd, hdi, -, hdl⟩ := h.fetching f hf uid hw
      rw [h.sound.eq_of_id hd hm (hdi.trans hi), hch] at hdl
      cases hdl
    · exact h

theorem collect (h : Coherent ids s) (id : Nat) : Coherent ids (s.collect id) := by
  rw [Resolver.collect]
  split
  · exact h
  · rename_i r registry hc
    obtain ⟨c, hcc, -, -⟩ := Inflight.Registry.collect_eq_some_iff.1 hc
    obtain ⟨hm, rfl⟩ := Inflight.Registry.mem_of_caller? hcc
    exact (h.step (.collect hc) (by simp) (by simp)).finish (h.callers c hm) _

theorem abort (h : Coherent ids s) (id : Nat) : Coherent ids (s.abort id) := by
  refine (h.withoutFlight id).step (Inflight.Registry.drop_step _ id) (by simp)
    fun f hf uid _ => ⟨fun he => ?_, by simp⟩
  simp only [Inflight.Move.drop.injEq] at he
  simp [Resolver.withoutFlight, he] at hf

theorem start (h : Coherent ids s) (hid : id ∉ ids) (a : Action) :
    Coherent (ids ++ [id]) (s.start id a) := by
  have h' : Coherent (ids ++ [id]) s := h.mono (List.subset_append_left _ _)
  have hi : id ∈ ids ++ [id] := by simp
  cases a with
  | get uid => exact h'.get hi (h.caller?_eq_none hid) uid
  | create o => exact h'.launch hi (by simp)
  | refresh => exact h'.launch hi (by simp)
  | cacheSet key o => exact (h'.fillCache key o).finish hi _
  | cacheGet key => exact (h'.withCache (h.indexed.get key).2.1).finish hi _
  | cachePeek key => exact h'.finish hi _
  | store o =>
    rw [Resolver.start]
    split
    · exact (h'.withRepository _).finish hi _
    · exact h'.finish hi _
  | script r =>
    have hs : Coherent (ids ++ [id]) { s with script := s.script.revise r } :=
      ⟨h'.history, h'.indexed, h'.callers, h'.finished, h'.flights, h'.fetching⟩
    exact hs.finish hi _
  | abort target => exact h'.abort target

theorem move (h : Coherent ids s) (hn : (ids ++ m.started).Nodup) :
    Coherent (ids ++ m.started) (s.move m) := by
  cases m with
  | start id a =>
    have hid : id ∉ ids := fun hi => List.disjoint_of_nodup_append hn hi (List.mem_singleton.2 rfl)
    exact h.start hid a
  | land f =>
    simp only [Move.started, List.append_nil, Resolver.move]
    split
    · rename_i hf
      exact h.land hf
    · exact h
  | takeOver id =>
    simp only [Move.started, List.append_nil]
    exact h.takeOver id
  | collect id =>
    simp only [Move.started, List.append_nil]
    exact h.collect id
  | wait time =>
    simp only [Move.started, List.append_nil]
    exact ⟨h.history, h.indexed, h.callers, h.finished, h.flights, h.fetching⟩

theorem run (h : Coherent ids s) (hn : (ids ++ started ms).Nodup) :
    Coherent (ids ++ started ms) (s.run ms) := by
  induction ms generalizing ids s with
  | nil => simpa using h
  | cons m ms ih =>
    rw [started_cons, ← List.append_assoc] at hn ⊢
    exact ih (h.move (List.nodup_append.1 hn).1) hn

/-- What each move of a coherent state keeps holds at the end of a run. -/
theorem run_induction {P : Resolver → Prop} (h : Coherent ids s) (hn : (ids ++ started ms).Nodup)
    (start : P s)
    (step : ∀ before m after, ms = before ++ m :: after →
      Coherent (ids ++ started before) (s.run before) →
      (ids ++ started before ++ m.started).Nodup →
      P (s.run before) → P ((s.run before).move m)) : P (s.run ms) := by
  refine Resolver.run_induction start fun before m after he => ?_
  rw [he, started_append, started_cons, ← List.append_assoc, ← List.append_assoc] at hn
  have hmove := (List.nodup_append.1 hn).1
  exact step before m after he (h.run (List.nodup_append.1 hmove).1) hmove

end Coherent

end OrderLookup.Resolver
