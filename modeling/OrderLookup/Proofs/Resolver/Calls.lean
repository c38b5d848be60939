import OrderLookup.Proofs.Inflight.SingleFlight
import OrderLookup.Proofs.Inflight.Turns
import OrderLookup.Proofs.Resolver.Contents

/-!
What a run does to the register, to the store calls in flight and to the log of calls. `Shift` lists
what a single move can do to them. From it follow that no two fetches of an id are in flight at
once, that none begins while the cache holds the id, and that there are no more fetches of an id
than lookups that missed it.
-/

namespace OrderLookup.Resolver

open Inflight (Registry Caller)

inductive Shift (s s' : Resolver) : Move → Prop
  | idle {m : Move} (registry : s'.registry = s.registry) (flights : s'.flights = s.flights)
      (calls : s'.calls = s.calls) : Shift s s' m
  | launched {id : Nat} {a : Action} {work : Work} {p : Pending}
      (other : ∀ uid, work ≠ .fetch uid) (registry : s'.registry = s.registry)
      (flights : s'.flights = s.flights ++ [⟨id, work, p⟩])
      (calls : s'.calls = s.calls ++ [⟨s.now, s.callOf work⟩]) : Shift s s' (.start id a)
  | ended {f : Flight} (other : ∀ uid, f.work ≠ .fetch uid) (flying : f ∈ s.flights)
      (registry : s'.registry = s.registry) (flights : s'.flights = (s.withoutFlight f.id).flights)
      (calls : s'.calls = s.calls) : Shift s s' (.land f)
  | joined {id : Nat} {uid : String} (fresh : s.registry.caller? id = none)
      (missed : s.cache.peek uid = none)
      (led : (s.registry.join id uid).1 ≠ .lead)
      (registry : s'.registry = (s.registry.join id uid).2) (flights : s'.flights = s.flights)
      (calls : s'.calls = s.calls) : Shift s s' (.start id (.get uid))
  | asked {id : Nat} {uid : String} {p : Pending} (fresh : s.registry.caller? id = none)
      (missed : s.cache.peek uid = none)
      (led : (s.registry.join id uid).1 = .lead)
      (registry : s'.registry = (s.registry.join id uid).2)
      (flights : s'.flights = s.flights ++ [⟨id, .fetch uid, p⟩])
      (calls : s'.calls = s.calls ++ [⟨s.now, s.callOf (.fetch uid)⟩]) :
      Shift s s' (.start id (.get uid))
  | fetched {f : Flight} {c : Caller} {r : Except OrderError Order}
      (fetch : f.work = .fetch c.key) (flying : f ∈ s.flights) (caller : c ∈ s.registry.callers)
      (same : c.id = f.id) (leading : c.stage = .leading)
      (registry : s'.registry = s.registry.complete c.id r)
      (flights : s'.flights = (s.withoutFlight f.id).flights) (calls : s'.calls = s.calls)
      (finished : ⟨c.id, s.now, .found r⟩ ∈ s'.finished) : Shift s s' (.land f)
  | found {c : Caller} {o : Order} (caller : c ∈ s.registry.callers) (chosen : c.stage = .chosen)
      (cached : s.cache.peek c.key = some o)
      (registry : s'.registry = (s.registry.start c.id).complete c.id (.ok o))
      (flights : s'.flights = s.flights) (calls : s'.calls = s.calls)
      (finished : ⟨c.id, s.now, .found (.ok o)⟩ ∈ s'.finished) : Shift s s' (.takeOver c.id)
  | resumed {c : Caller} {p : Pending} (caller : c ∈ s.registry.callers)
      (chosen : c.stage = .chosen) (missed : s.cache.peek c.key = none)
      (registry : s'.registry = s.registry.start c.id)
      (flights : s'.flights = s.flights ++ [⟨c.id, .fetch c.key, p⟩])
      (calls : s'.calls = s.calls ++ [⟨s.now, s.callOf (.fetch c.key)⟩]) :
      Shift s s' (.takeOver c.id)
  | collected {c : Caller} {r : Except OrderError Order} (caller : c ∈ s.registry.callers)
      (value : s.registry.values.get? c.handle = some r)
      (registry : s'.registry = s.registry.without c.id) (flights : s'.flights = s.flights)
      (calls : s'.calls = s.calls) (finished : ⟨c.id, s.now, .found r⟩ ∈ s'.finished) :
      Shift s s' (.collect c.id)
  | dropped {id target : Nat} (registry : s'.registry = s.registry.drop target)
      (flights : s'.flights = (s.withoutFlight target).flights) (calls : s'.calls = s.calls) :
      Shift s s' (.start id (.abort target))

variable {s : Resolver} {m : Move} {ms ms' : List Move} {ids : List Nat} {id : Nat} {uid : String}

theorem fillAll_frame (s : Resolver) (l : List Order) :
    let s' := l.foldl (fun s o => s.fillCache o.uid o) s
    s'.registry = s.registry ∧ s'.flights = s.flights ∧ s'.calls = s.calls := by
  induction l generalizing s with
  | nil => exact ⟨rfl, rfl, rfl⟩
  | cons o l ih => exact ih (s.fillCache o.uid o)

theorem shift_start (h : Coherent ids s) (hid : id ∉ ids) (a : Action) :
    Shift s (s.start id a) (.start id a) := by
  cases a with
  | get uid =>
    rw [Resolver.start, get_eq h.sound]
    split
    · exact .idle rfl rfl rfl
    · rename_i hp
      dsimp only
      split
      · rename_i hl
        exact .asked (h.caller?_eq_none hid) hp hl rfl rfl rfl
      · rename_i hl
        exact .joined (h.caller?_eq_none hid) hp hl rfl rfl rfl
  | create o => exact .launched (by simp) rfl rfl rfl
  | refresh => exact .launched (by simp) rfl rfl rfl
  | store o =>
    rw [Resolver.start]
    split <;> exact .idle rfl rfl rfl
  | abort target => exact .dropped rfl rfl rfl
  | _ => exact .idle rfl rfl rfl

theorem shift_land (h : Coherent ids s) {f : Flight} (hf : f ∈ s.flights) :
    Shift s (s.land f) (.land f) := by
  rw [Resolver.land, resume]
  split
  · rename_i uid hw
    obtain ⟨c, hc, hi, rfl, hl⟩ := h.fetching f hf uid hw
    rw [← hi]
    split
    · exact .fetched hw hf hc hi hl rfl (by rw [hi]; rfl) rfl (List.mem_append_right _ (.head _))
    · exact .fetched hw hf hc hi hl rfl (by rw [hi]; rfl) rfl (List.mem_append_right _ (.head _))
  · rename_i o hw
    split <;> exact .ended (by simp [hw]) hf rfl rfl rfl
  · rename_i hw
    split
    · rename_i l hl
      obtain ⟨hr, hfl, hc⟩ := fillAll_frame (s.withoutFlight f.id) l
      exact .ended (by simp [hw]) hf hr hfl hc
    · exact .ended (by simp [hw]) hf rfl rfl rfl

theorem shift_takeOver (id : Nat) : Shift s (s.takeOver id) (.takeOver id) := by
  rw [Resolver.takeOver]
  split
  · exact .idle rfl rfl rfl
  · rename_i c hc
    obtain ⟨hm, rfl⟩ := Inflight.Registry.mem_of_caller? hc
    split
    · rename_i hch
      rw [lead]
      split
      · rename_i o ho
        exact .found hm hch ho rfl rfl rfl (List.mem_append_right _ (.head _))
      · rename_i hp
        exact .resumed hm hch hp rfl rfl rfl
    · exact .idle rfl rfl rfl

theorem shift_collect (id : Nat) : Shift s (s.collect id) (.collect id) := by
  rw [Resolver.collect]
  split
  · exact .idle rfl rfl rfl
  · rename_i r registry hc
    obtain ⟨c, hcc, hv, rfl⟩ := Inflight.Registry.collect_eq_some_iff.1 hc
    obtain ⟨hm, rfl⟩ := Inflight.Registry.mem_of_caller? hcc
    exact .collected hm hv rfl rfl rfl (List.mem_append_right _ (.head _))

/-- What a move does to the register, to the calls in flight and to the log. -/
theorem shift_move (h : Coherent ids s) (hn : (ids ++ m.started).Nodup) :
    Shift s (s.move m) m := by
  cases m with
  | start id a =>
    have hid : id ∉ ids := fun hi => List.disjoint_of_nodup_append hn hi (List.mem_singleton.2 rfl)
    exact shift_start h hid a
  | land f =>
    rw [Resolver.move]
    split
    · rename_i hf
      exact shift_land h hf
    · exact .idle rfl rfl rfl
  | takeOver id => exact shift_takeOver id
  | collect id => exact shift_collect id
  | wait time => exact .idle rfl rfl rfl

theorem mem_withoutFlight {f : Flight} {i : Nat} :
    f ∈ (s.withoutFlight i).flights ↔ f ∈ s.flights ∧ f.id ≠ i := by
  simp [withoutFlight]

theorem Coherent.starts (h : Coherent ids s) {c : Caller} (hc : c ∈ s.registry.callers)
    (hch : c.stage = .chosen) : Registry.Step s.registry (.start c.id) (s.registry.start c.id) :=
  .start (h.sound.caller?_eq_some_iff.2 ⟨hc, rfl⟩) hch

theorem Coherent.started (h : Coherent ids s) {c : Caller} (hc : c ∈ s.registry.callers)
    (hch : c.stage = .chosen) : Coherent ids { s with registry := s.registry.start c.id } :=
  h.step (h.starts hc hch) (by simp) (by simp)

theorem Coherent.finds (h : Coherent ids s) {c : Caller} (hc : c ∈ s.registry.callers)
    (hch : c.stage = .chosen) (r : Except OrderError Order) :
    Registry.Step (s.registry.start c.id) (.complete c.id r)
      ((s.registry.start c.id).complete c.id r) :=
  (h.started hc hch).completes (Inflight.Registry.mem_start hc) rfl r

theorem Coherent.collects (h : Coherent ids s) {c : Caller} {r : Except OrderError Order}
    (hc : c ∈ s.registry.callers) (hv : s.registry.values.get? c.handle = some r) :
    Registry.Step s.registry (.collect c.id r) (s.registry.without c.id) :=
  .collect (Inflight.Registry.collect_eq_some_iff.2
    ⟨c, h.sound.caller?_eq_some_iff.2 ⟨hc, rfl⟩, hv, rfl⟩)

theorem Coherent.flight_ne (h : Coherent ids s) (hid : id ∉ ids) {f : Flight}
    (hf : f ∈ s.flights) : f.id ≠ id :=
  fun he => hid (he ▸ h.flights f hf)

/-- Operations have one store call at a time. A caller's call is a fetch of its own key, and a
leading caller has one. -/
structure Manned (s : Resolver) : Prop where
  ids : (s.flights.map Flight.id).Nodup
  own : ∀ c ∈ s.registry.callers, ∀ f ∈ s.flights, f.id = c.id → f.work = .fetch c.key
  led : ∀ c ∈ s.registry.callers, c.stage = .leading → ∃ f ∈ s.flights, f.id = c.id

namespace Manned

variable {s' : Resolver}

theorem ofParts (settings : Settings) (capacity : Nat) (repository : Repository)
    (script : Script) : Manned (ofParts settings capacity repository script) where
  ids := List.nodup_nil
  own c hc := by cases hc
  led c hc := by cases hc

theorem launch (hm : Manned s) {f : Flight} (hn : ∀ g ∈ s.flights, g.id ≠ f.id) :
    ((s.flights ++ [f]).map Flight.id).Nodup := by
  rw [List.map_append]
  refine List.nodup_append.2 ⟨hm.ids, by simp, ?_⟩
  intro a ha b hb
  obtain ⟨g, hg, rfl⟩ := List.mem_map.1 ha
  rw [List.mem_singleton.1 hb]
  exact hn g hg

theorem withoutFlight (hm : Manned s) (i : Nat) :
    ((s.withoutFlight i).flights.map Flight.id).Nodup :=
  hm.ids.sublist (List.filter_sublist.map _)

theorem quiet (h : Coherent ids s) (hm : Manned s) {m : Inflight.Move (Except OrderError Order)}
    (hs : Registry.Step s.registry m s'.registry)
    (hids : (s'.flights.map Flight.id).Nodup)
    (hf : ∀ f ∈ s'.flights, f ∈ s.flights)
    (hjoin : ∀ i k, m = .join i k → i ∉ ids ∧ (s.registry.join i k).1 ≠ .lead)
    (hstart : ∀ i, m ≠ .start i)
    (hkeep : ∀ f ∈ s.flights, m ≠ .drop f.id → (∀ v, m ≠ .complete f.id v) → f ∈ s'.flights) :
    Manned s' where
  ids := hids
  own := by
    intro c hc f hfl hi
    rcases hs.caller_past h.sound hc with ⟨d, hd, hdi, hk, -⟩ | ⟨hj, -⟩
    · rw [← hk]
      exact hm.own d hd f (hf f hfl) (hi.trans hdi.symm)
    · exact absurd hi (h.flight_ne (hjoin _ _ hj).1 (hf f hfl))
  led := by
    intro c hc hl
    rcases hs.leading_past hc hl with ⟨hc, hd, hv⟩ | hst | ⟨hj, hlead⟩
    · obtain ⟨f, hfl, hi⟩ := hm.led c hc hl
      exact ⟨f, hkeep f hfl (hi ▸ hd) (hi ▸ hv), hi⟩
    · exact absurd hst (hstart c.id)
    · exact absurd hlead (hjoin _ _ hj).2

theorem launched (h : Coherent ids s) (hm : Manned s) {work : Work} {p : Pending} (hid : id ∉ ids)
    (hr : s'.registry = s.registry) (hf : s'.flights = s.flights ++ [⟨id, work, p⟩]) :
    Manned s' := by
  constructor
  · rw [hf]
    exact hm.launch fun g hg => h.flight_ne hid hg
  · rw [hf, hr]
    intro c hc f hfl hi
    rcases List.mem_append.1 hfl with hfl | hfl
    · exact hm.own c hc f hfl hi
    · rw [List.mem_singleton.1 hfl] at hi
      have hmem := h.callers c hc
      rw [← hi] at hmem
      exact absurd hmem hid
  · rw [hf, hr]
    intro c hc hl
    obtain ⟨f, hfl, hi⟩ := hm.led c hc hl
    exact ⟨f, List.mem_append_left _ hfl, hi⟩

theorem ended (hm : Manned s) {f : Flight} (hw : ∀ uid, f.work ≠ .fetch uid) (hfl : f ∈ s.flights)
    (hr : s'.registry = s.registry) (hf : s'.flights = (s.withoutFlight f.id).flights) :
    Manned s' := by
  constructor
  · rw [hf]
    exact hm.withoutFlight f.id
  · rw [hf, hr]
    exact fun c hc g hg => hm.own c hc g (mem_withoutFlight.1 hg).1
  · rw [hf, hr]
    intro c hc hl
    obtain ⟨g, hg, hi⟩ := hm.led c hc hl
    refine ⟨g, mem_withoutFlight.2 ⟨hg, fun he => ?_⟩, hi⟩
    exact hw c.key (hm.own c hc f hfl (he.symm.trans hi))

theorem asked (h : Coherent ids s) (hm : Manned s) {p : Pending} (hid : id ∉ ids)
    (hr : s'.registry = (s.registry.join id uid).2)
    (hf : s'.flights = s.flights ++ [⟨id, .fetch uid, p⟩]) : Manned s' := by
  have hs : Registry.Step s.registry (.join id uid) s'.registry :=
    hr ▸ .join uid (h.caller?_eq_none hid)
  constructor
  · rw [hf]
    exact hm.launch fun g hg => h.flight_ne hid hg
  · rw [hf]
    intro c hc f hfl hi
    rcases hs.caller_past h.sound hc with ⟨d, hd, hdi, hk, -⟩ | ⟨hj, -⟩
    · rw [← hk]
      rcases List.mem_append.1 hfl with hfl | hfl
      · exact hm.own d hd f hfl (hi.trans hdi.symm)
      · rw [List.mem_singleton.1 hfl] at hi
        have hmem := h.callers d hd
        rw [hdi, ← hi] at hmem
        exact absurd hmem hid
    · obtain ⟨rfl, rfl⟩ := Inflight.Move.join.inj hj
      rcases List.mem_append.1 hfl with hfl | hfl
      · exact absurd hi (h.flight_ne hid hfl)
      · rw [List.mem_singleton.1 hfl]
  · rw [hf]
    intro c hc hl
    rcases hs.leading_past hc hl with ⟨hc, -, -⟩ | hst | ⟨hj, -⟩
    · obtain ⟨f, hfl, hi⟩ := hm.led c hc hl
      exact ⟨f, List.mem_append_left _ hfl, hi⟩
    · cases hst
    · obtain ⟨hi, -⟩ := Inflight.Move.join.inj hj
      exact ⟨_, List.mem_append_right _ (.head _), hi⟩

theorem leading (h : Coherent ids s) (hm : Manned s) {c : Caller} {f : Flight}
    (hc : c ∈ s.registry.callers) (hf : f ∈ s.flights) (hi : f.id = c.id) :
    c.stage = .leading := by
  obtain ⟨d, hd, hdi, -, hl⟩ := h.fetching f hf c.key (hm.own c hc f hf hi)
  rwa [h.sound.eq_of_id hd hc (hdi.trans hi)] at hl

theorem found (h : Coherent ids s) (hm : Manned s) {c : Caller} {r : Except OrderError Order}
    (hc : c ∈ s.registry.callers) (hch : c.stage = .chosen)
    (hr : s'.registry = (s.registry.start c.id).complete c.id r)
    (hf : s'.flights = s.flights) : Manned s' := by
  have hst := h.starts hc hch
  have hs₁ := h.sound.step hst
  have hco : Registry.Step _ (.complete c.id r) s'.registry := hr ▸ h.finds hc hch r
  constructor
  · rw [hf]
    exact hm.ids
  · rw [hf]
    intro d hd f hfl hi
    rcases hco.caller_past hs₁ hd with ⟨d₁, hd₁, hi₁, hk₁, -⟩ | ⟨hj, -⟩
    · rcases hst.caller_past h.sound hd₁ with ⟨d₂, hd₂, hi₂, hk₂, -⟩ | ⟨hj, -⟩
      · rw [← hk₁, ← hk₂]
        exact hm.own d₂ hd₂ f hfl (hi.trans (hi₂.trans hi₁).symm)
      · cases hj
    · cases hj
  · rw [hf]
    intro d hd hl
    rcases hco.leading_past hd hl with ⟨hd₁, -, hne⟩ | he | ⟨he, -⟩
    · rcases hst.leading_past hd₁ hl with ⟨hd₂, -⟩ | he | ⟨he, -⟩
      · exact hm.led d hd₂ hl
      · obtain he := Inflight.Move.start.inj he
        exact absurd (by rw [he]) (hne r)
      · cases he
    · cases he
    · cases he

theorem resumed (h : Coherent ids s) (hm : Manned s) {c : Caller} {p : Pending}
    (hc : c ∈ s.registry.callers) (hch : c.stage = .chosen)
    (hr : s'.registry = s.registry.start c.id)
    (hf : s'.flights = s.flights ++ [⟨c.id, .fetch c.key, p⟩]) : Manned s' := by
  have hs : Registry.Step s.registry (.start c.id) s'.registry := hr ▸ h.starts hc hch
  -- This caller has only just been handed the turn.
  have hidle : ∀ f ∈ s.flights, f.id ≠ c.id :=
    fun f hfl hi => absurd (hm.leading h hc hfl hi) (by simp [hch])
  constructor
  · rw [hf]
    exact hm.launch hidle
  · rw [hf]
    intro d hd f hfl hi
    rcases hs.caller_past h.sound hd with ⟨e, he, hei, hk, -⟩ | ⟨hj, -⟩
    · rw [← hk]
      rcases List.mem_append.1 hfl with hfl | hfl
      · exact hm.own e he f hfl (hi.trans hei.symm)
      · rw [List.mem_singleton.1 hfl] at hi ⊢
        rw [h.sound.eq_of_id hc he (hi.trans hei.symm)]
    · cases hj
  · rw [hf]
    intro d hd hl
    rcases hs.leading_past hd hl with ⟨hd, -, -⟩ | he | ⟨he, -⟩
    · obtain ⟨f, hfl, hi⟩ := hm.led d hd hl
      exact ⟨f, List.mem_append_left _ hfl, hi⟩
    · exact ⟨_, List.mem_append_right _ (.head _), Inflight.Move.start.inj he⟩
    · cases he

theorem step (h : Coherent ids s) (hm : Manned s) (hn : (ids ++ m.started).Nodup)
    (hs : Shift s s' m) : Manned s' := by
  have hnew : ∀ id a, m = .start id a → id ∉ ids := by
    intro id a hma hi
    subst hma
    exact List.disjoint_of_nodup_append hn hi (List.mem_singleton.2 rfl)
  cases hs with
  | idle hr hf hc => exact ⟨hf ▸ hm.ids, hf ▸ hr ▸ hm.own, hf ▸ hr ▸ hm.led⟩
  | launched hw hr hf hc => exact hm.launched h (hnew _ _ rfl) hr hf
  | ended hw hfl hr hf hc => exact hm.ended hw hfl hr hf
  | asked hid hp hl hr hf hc => exact hm.asked h (hnew _ _ rfl) hr hf
  | found hc hch hp hr hf => exact hm.found h hc hch hr hf
  | resumed hc hch hp hr hf => exact hm.resumed h hc hch hr hf
  | @joined id uid hid hp hl hr hf hc =>
    have hst : Registry.Step s.registry (.join id uid) s'.registry := hr ▸ .join uid hid
    refine hm.quiet h hst (hf ▸ hm.ids) (hf ▸ fun f hfl => hfl) ?_ (by simp)
      (hf ▸ fun f hfl _ _ => hfl)
    intro i k hj
    obtain ⟨rfl, rfl⟩ := Inflight.Move.join.inj hj
    exact ⟨hnew _ _ rfl, hl⟩
  | @fetched f c r hw hfl hc hi hl hr hf =>
    have hst : Registry.Step s.registry (.complete c.id r) s'.registry := hr ▸ h.completes hc hl r
    refine hm.quiet h hst (hf ▸ hm.withoutFlight _) ?_ (by simp) (by simp) ?_
    · rw [hf]
      exact fun g hg => (mem_withoutFlight.1 hg).1
    · rw [hf]
      exact fun g hg _ hv => mem_withoutFlight.2 ⟨hg, fun he => hv r (by rw [he, hi])⟩
  | @collected c r hc hv hr hf =>
    have hst : Registry.Step s.registry (.collect c.id r) s'.registry := hr ▸ h.collects hc hv
    exact hm.quiet h hst (hf ▸ hm.ids) (hf ▸ fun f hfl => hfl) (by simp) (by simp)
      (hf ▸ fun f hfl _ _ => hfl)
  | @dropped id target hr hf =>
    have hst : Registry.Step s.registry (.drop target) s'.registry :=
      hr ▸ Inflight.Registry.drop_step _ target
    refine hm.quiet h hst (hf ▸ hm.withoutFlight _) ?_ (by simp) (by simp) ?_
    · rw [hf]
      exact fun g hg => (mem_withoutFlight.1 hg).1
    · rw [hf]
      exact fun g hg hd _ => mem_withoutFlight.2 ⟨hg, fun he => hd (by rw [he])⟩

theorem move (h : Coherent ids s) (hm : Manned s) (hn : (ids ++ m.started).Nodup) :
    Manned (s.move m) :=
  hm.step h hn (shift_move h hn)

theorem run (h : Coherent ids s) (hm : Manned s) (hn : (ids ++ started ms).Nodup) :
    Manned (s.run ms) :=
  h.run_induction hn hm fun _ _ _ _ hb hn' hm => hm.move hb hn'

theorem fetch_eq (h : Coherent ids s) (hm : Manned s) {f g : Flight} (hf : f ∈ s.flights)
    (hg : g ∈ s.flights) (hfw : f.work = .fetch uid) (hgw : g.work = .fetch uid) : f = g := by
  obtain ⟨c, hc, hci, hck, hcl⟩ := h.fetching f hf uid hfw
  obtain ⟨d, hd, hdi, hdk, hdl⟩ := h.fetching g hg uid hgw
  have hcd : c = d :=
    h.sound.owner_eq hc hd (hck.trans hdk.symm) (by simp [hcl]) (by simp [hdl])
  exact List.inj_on_of_nodup_map hm.ids hf hg (by rw [← hci, ← hdi, hcd])

end Manned

def fetches (s : Resolver) (uid : String) : List Flight :=
  s.flights.filter fun f => f.work = .fetch uid

def asked (s : Resolver) (m : Move) : List Call :=
  ((s.move m).calls.drop s.calls.length).map CallRecord.call

def asks (s : Resolver) (uid : String) : Nat := s.calls.countP fun c => c.call = ⟨.getOrder, uid⟩

def missed? (s : Resolver) (uid : String) : Move → Option Nat
  | .start id (.get k) => if k = uid ∧ s.cache.peek uid = none then some id else none
  | _ => none

def misses (s : Resolver) (uid : String) : List Move → List Nat
  | [] => []
  | m :: ms => (s.missed? uid m).toList ++ (s.move m).misses uid ms

theorem callOf_eq_iff {work : Work} : s.callOf work = ⟨.getOrder, uid⟩ ↔ work = .fetch uid := by
  cases work <;> simp [callOf]

theorem Manned.fetches_le (h : Coherent ids s) (hm : Manned s) (uid : String) :
    (s.fetches uid).length ≤ 1 := by
  have hnodup : (s.fetches uid).Nodup := (List.Nodup.of_map _ hm.ids).filter _
  have heq : ∀ f ∈ s.fetches uid, ∀ g ∈ s.fetches uid, f = g := by
    intro f hf g hg
    obtain ⟨hf, hfw⟩ := List.mem_filter.1 hf
    obtain ⟨hg, hgw⟩ := List.mem_filter.1 hg
    exact hm.fetch_eq h hf hg (by simpa using hfw) (by simpa using hgw)
  rcases hl : s.fetches uid with _ | ⟨f, _ | ⟨g, l⟩⟩
  · simp
  · simp
  · rw [hl] at hnodup heq
    have hfg := heq f (.head _) g (.tail _ (.head _))
    simp [hfg] at hnodup

theorem Manned.unheld_of_asked (h : Coherent ids s) (hm : Manned s) (hn : (ids ++ m.started).Nodup)
    (ha : ⟨.getOrder, uid⟩ ∈ s.asked m) : s.cache.peek uid = none ∧ s.fetches uid = [] := by
  have hs := shift_move h hn
  have hle := (hm.step h hn hs).fetches_le (h.move hn) uid
  have hquiet : (s.move m).calls = s.calls → s.cache.peek uid = none ∧ s.fetches uid = [] := by
    intro hc
    simp [Resolver.asked, hc] at ha
  have hasks : ∀ {id : Nat} {work : Work} {p : Pending},
      (s.move m).calls = s.calls ++ [⟨s.now, s.callOf work⟩] →
      (s.move m).flights = s.flights ++ [⟨id, work, p⟩] →
      work = .fetch uid ∧ s.fetches uid = [] := by
    intro id work p hc hf
    simp only [Resolver.asked, hc, List.drop_left, List.map_cons, List.map_nil,
      List.mem_singleton] at ha
    have hw := callOf_eq_iff.1 ha.symm
    refine ⟨hw, List.length_eq_zero_iff.1 ?_⟩
    simp [fetches, hf, hw] at hle
    simpa [fetches] using hle
  generalize s.move m = s' at hs hquiet hasks
  cases hs with
  | idle _ _ hc => exact hquiet hc
  | ended _ _ _ _ hc => exact hquiet hc
  | joined _ _ _ _ _ hc => exact hquiet hc
  | fetched _ _ _ _ _ _ _ hc => exact hquiet hc
  | found _ _ _ _ _ hc => exact hquiet hc
  | collected _ _ _ _ hc => exact hquiet hc
  | dropped _ _ hc => exact hquiet hc
  | launched hw _ hf hc => exact absurd (hasks hc hf).1 (hw uid)
  | asked _ hp _ _ hf hc =>
    obtain ⟨hw, hfetch⟩ := hasks hc hf
    cases hw
    exact ⟨hp, hfetch⟩
  | resumed _ _ hp _ hf hc =>
    obtain ⟨hw, hfetch⟩ := hasks hc hf
    cases hw
    exact ⟨hp, hfetch⟩

theorem asks_eq {s' : Resolver} {work : Work} (hc : s'.calls = s.calls ++ [⟨s.now, s.callOf work⟩])
    (uid : String) : s'.asks uid = s.asks uid + if work = .fetch uid then 1 else 0 := by
  simp [asks, hc, callOf_eq_iff, List.countP_cons]

theorem asks_move (h : Coherent ids s) (hn : (ids ++ m.started).Nodup) (uid : String) :
    (s.move m).asks uid + (s.move m).registry.reserve uid ≤
      s.asks uid + s.registry.reserve uid + (s.missed? uid m).toList.length := by
  have hs := shift_move h hn
  generalize s.move m = s' at hs
  have hquiet : s'.calls = s.calls → s'.asks uid = s.asks uid := fun hc => by rw [asks, hc, asks]
  -- The reserve counts the callers who may still have to ask. A miss adds one of them, and a call
  -- for the order uses one up.
  cases hs with
  | idle hr _ hc =>
    rw [hquiet hc, hr]
    omega
  | launched hw hr _ hc =>
    rw [asks_eq hc, if_neg (hw uid), hr]
    omega
  | ended _ _ hr _ hc =>
    rw [hquiet hc, hr]
    omega
  | @joined id k hid hp _ hr _ hc =>
    have hle := (h.sound.reserve_join id k uid).1
    rw [hquiet hc, hr]
    by_cases hk : k = uid
    · subst hk
      simp only [if_true] at hle
      simp only [missed?, hp, and_self, if_true, Option.toList_some, List.length_singleton]
      omega
    · rw [if_neg hk] at hle
      omega
  | @asked id k p hid hp hl hr _ hc =>
    rw [asks_eq hc, hr, (h.sound.reserve_join id k uid).2 hl]
    by_cases hk : k = uid
    · subst hk
      simp only [missed?, hp, and_self, if_true, Option.toList_some, List.length_singleton]
      omega
    · rw [if_neg (by simp [hk])]
      omega
  | @fetched f c r _ _ hc' _ hl hr _ hc =>
    have hle : (s.registry.complete c.id r).reserve uid ≤ s.registry.reserve uid :=
      (h.completes hc' hl r).reserve_le h.sound (by simp)
    rw [hquiet hc, hr]
    omega
  | @found c o hc' hch _ hr _ hc =>
    have hst := h.starts hc' hch
    have hle : (s.registry.start c.id).reserve uid ≤ s.registry.reserve uid :=
      hst.reserve_le h.sound (by simp)
    have hle₁ : ((s.registry.start c.id).complete c.id (.ok o)).reserve uid ≤
        (s.registry.start c.id).reserve uid :=
      (h.finds hc' hch _).reserve_le (h.sound.step hst) (by simp)
    rw [hquiet hc, hr]
    omega
  | @resumed c p hc' hch _ hr _ hc =>
    rw [asks_eq hc, hr]
    by_cases hk : c.key = uid
    · have hle := Inflight.Registry.reserve_start hc' hch
      rw [hk] at hle
      rw [if_pos (by rw [hk])]
      omega
    · have hle : (s.registry.start c.id).reserve uid ≤ s.registry.reserve uid :=
        (h.starts hc' hch).reserve_le h.sound (by simp)
      rw [if_neg (by simp [hk])]
      omega
  | @collected c r hc' hv hr _ hc =>
    rw [hquiet hc, hr]
    have hle : (s.registry.without c.id).reserve uid ≤ s.registry.reserve uid :=
      Inflight.Registry.reserve_without
    omega
  | @dropped id target hr _ hc =>
    have hle : (s.registry.drop target).reserve uid ≤ s.registry.reserve uid :=
      (Inflight.Registry.drop_step s.registry target).reserve_le h.sound (by simp)
    rw [hquiet hc, hr]
    omega

theorem asks_run (h : Coherent ids s) (hn : (ids ++ started ms).Nodup) (uid : String) :
    (s.run ms).asks uid + (s.run ms).registry.reserve uid ≤
      s.asks uid + s.registry.reserve uid + (s.misses uid ms).length := by
  induction ms generalizing ids s with
  | nil => exact Nat.le_refl _
  | cons m ms ih =>
    rw [started_cons, ← List.append_assoc] at hn
    have hn' := (List.nodup_append.1 hn).1
    have hrest := ih (h.move hn') hn
    have hmove := asks_move h hn' uid
    rw [run_cons, misses, List.length_append]
    omega

end OrderLookup.Resolver
