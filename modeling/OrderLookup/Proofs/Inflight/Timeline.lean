import OrderLookup.Inflight.Timeline
import OrderLookup.Proofs.Inflight.Sharing

/-!
Timelines of callers are histories of their register: the clock only chooses the order of the
moves. The calls of the history are those of the timeline, and so are the values that they
return with.
-/

namespace OrderLookup.Inflight

def Action.call? : Action → Option Nat
  | .run id _ => some id
  | .abort _ => none

namespace Timeline

def callsOf (events : List Event) : List Nat := events.filterMap fun e => e.action.call?

structure Follows (t : Timeline) (ms : List (Move String)) : Prop where
  history : Registry.Run Registry.empty ms t.registry
  returned : t.finished.map (fun f => (f.id, f.value)) = ms.filterMap Move.returned
  leading : ∀ f ∈ t.flights, ∃ c ∈ t.registry.callers, c.id = f.id ∧ c.stage = .leading

variable {t : Timeline} {ms : List (Move String)} {l : List Nat} {id : Nat}

namespace Follows

theorem sound (h : Follows t ms) : t.registry.Sound := Registry.Sound.empty.run h.history

theorem caller?_eq_none (h : Follows t ms) (hid : id ∉ calls ms) :
    t.registry.caller? id = none :=
  Registry.caller?_eq_none_iff.2 fun c hc hi => hid (mem_calls.2 ⟨c.key, hi ▸ h.history.joined hc⟩)

theorem move (h : Follows t ms) {m : Move String} {r : Registry String} {flights : List Flight}
    {finished : List Finish} (hs : Registry.Step t.registry m r)
    (hf : ∀ f ∈ flights, f ∈ t.flights ∧ m ≠ .drop f.id ∧ ∀ v, m ≠ .complete f.id v)
    (hr : finished.map (fun f => (f.id, f.value)) =
      t.finished.map (fun f => (f.id, f.value)) ++ m.returned.toList) :
    Follows { t with registry := r, flights := flights, finished := finished } (ms ++ [m]) where
  history := .move h.history hs
  returned := by
    have hlast : [m].filterMap Move.returned = m.returned.toList := by cases m <;> rfl
    rw [hr, h.returned, List.filterMap_append, hlast]
  leading := by
    intro f hmem
    obtain ⟨hft, hd, hv⟩ := hf f hmem
    obtain ⟨c, hc, hi, hl⟩ := h.leading f hft
    rcases hs.leading_stays h.sound hc hl with hc' | hm | ⟨v, hm⟩
    · exact ⟨c, hc', hi, hl⟩
    · exact absurd (hi ▸ hm) hd
    · exact absurd (hi ▸ hm) (hv v)

theorem launch (h : Follows t ms)
    (hc : ∃ c ∈ t.registry.callers, c.id = id ∧ c.stage = .leading) : Follows (t.launch id) ms := by
  rw [Timeline.launch]
  split
  · exact h
  · refine ⟨h.history, h.returned, fun f hf => ?_⟩
    rcases List.mem_append.1 hf with hf | hf
    · exact h.leading f hf
    · rw [List.mem_singleton.1 hf]
      exact hc

theorem run (h : Follows t ms) (hid : id ∉ calls ms) (f : Fetch) :
    Follows (t.run id f) (ms ++ [.join id f.key]) := by
  have hs : Registry.Step t.registry (.join id f.key) (t.registry.join id f.key).2 :=
    .join f.key (h.caller?_eq_none hid)
  rcases hj : t.registry.join id f.key with ⟨a, r⟩
  rw [hj] at hs
  have hr : Follows { t with fetches := t.fetches ++ [(id, f)], registry := r }
      (ms ++ [.join id f.key]) :=
    Follows.move (t := { t with fetches := t.fetches ++ [(id, f)] })
      ⟨h.history, h.returned, h.leading⟩ hs (fun f hf => ⟨hf, by simp, by simp⟩)
      (by simp [Move.returned])
  cases a with
  | value v => exact absurd (by rw [hj]) (h.sound.join_ne_value id f.key v)
  | wait => simpa only [Timeline.run, hj] using hr
  | lead =>
    have hlead : (t.registry.join id f.key).1 = .lead := by rw [hj]
    obtain ⟨c, hc, hi, -, hl⟩ := Registry.exists_leading_of_join hlead
    rw [hj] at hc
    simpa only [Timeline.run, hj] using hr.launch ⟨c, hc, hi, hl⟩

theorem abort (h : Follows t ms) (id : Nat) : Follows (t.abort id) (ms ++ [.drop id]) := by
  refine h.move (Registry.drop_step _ id) (fun f hf => ?_) (by simp [Move.returned])
  obtain ⟨hf, hi⟩ := List.mem_filter.1 hf
  have hne : f.id ≠ id := by simpa using hi
  exact ⟨hf, fun hd => hne (by simpa using hd.symm), by simp⟩

theorem land (h : Follows t ms) {f : Flight} (hf : f ∈ t.flights) :
    Follows (t.land f) (ms ++ [.complete f.id f.value]) := by
  obtain ⟨c, hc, hi, hl⟩ := h.leading f hf
  have hcall : t.registry.caller? f.id = some c := h.sound.caller?_eq_some_iff.2 ⟨hc, hi⟩
  refine h.move (.complete f.value hcall hl) (fun g hg => ?_) (by simp [Move.returned])
  obtain ⟨hg, hgi⟩ := List.mem_filter.1 hg
  have hne : g.id ≠ f.id := by simpa using hgi
  exact ⟨hg, by simp, fun v hv => hne (Move.complete.inj hv).1.symm⟩

theorem collect (h : Follows t ms) (id : Nat) :
    ∃ ms', Follows (t.collect id) ms' ∧ calls ms' = calls ms := by
  rw [Timeline.collect]
  split
  · exact ⟨ms, h, rfl⟩
  · rename_i v r hc
    refine ⟨ms ++ [.collect id v], ?_, by simp [calls_concat, Move.joined?]⟩
    exact h.move (.collect hc) (fun f hf => ⟨hf, by simp, by simp⟩) (by simp [Move.returned])

theorem takeOver (h : Follows t ms) (id : Nat) :
    ∃ ms', Follows (t.takeOver id) ms' ∧ calls ms' = calls ms := by
  rw [Timeline.takeOver]
  split
  · exact ⟨ms, h, rfl⟩
  · rename_i c hc
    split
    · rename_i hs
      obtain ⟨hm, rfl⟩ := Registry.mem_of_caller? hc
      refine ⟨ms ++ [.start c.id], ?_, by simp [calls_concat, Move.joined?]⟩
      have hstart : Follows { t with registry := t.registry.start c.id } (ms ++ [.start c.id]) :=
        h.move (.start hc hs) (fun f hf => ⟨hf, by simp, by simp⟩) (by simp [Move.returned])
      exact hstart.launch ⟨_, Registry.mem_start hm, rfl, rfl⟩
    · exact ⟨ms, h, rfl⟩

theorem foldl {f : Timeline → Nat → Timeline}
    (hf : ∀ t ms id, Follows t ms → ∃ ms', Follows (f t id) ms' ∧ calls ms' = calls ms)
    (h : Follows t ms) (ids : List Nat) :
    ∃ ms', Follows (ids.foldl f t) ms' ∧ calls ms' = calls ms := by
  induction ids generalizing t ms with
  | nil => exact ⟨ms, h, rfl⟩
  | cons id ids ih =>
    obtain ⟨ms', h', hc⟩ := hf t ms id h
    obtain ⟨ms'', h'', hc'⟩ := ih h'
    exact ⟨ms'', h'', hc'.trans hc⟩

theorem proceed (h : Follows t ms) : ∃ ms', Follows t.proceed ms' ∧ calls ms' = calls ms := by
  obtain ⟨ms', h', hc⟩ := h.foldl (fun _ _ id h => h.takeOver id) (t.registry.callers.map Caller.id)
  obtain ⟨ms'', h'', hc'⟩ := h'.foldl (fun _ _ id h => h.collect id) _
  exact ⟨ms'', h'', hc'.trans hc⟩

theorem wait (h : Follows t ms) (now : Nat) : Follows { t with now := now } ms :=
  ⟨h.history, h.returned, h.leading⟩

theorem wake (h : Follows t ms) : ∃ ms', Follows t.wake ms' ∧ calls ms' = calls ms := by
  rw [Timeline.wake]
  split
  · exact ⟨ms, h, rfl⟩
  · rename_i f hf
    obtain ⟨ms', h', hc⟩ := ((h.wait (max t.now f.due)).land (Clock.mem_of_soonest hf)).proceed
    exact ⟨ms', h', hc.trans (by simp [calls_concat, Move.joined?])⟩

theorem advanceFor (h : Follows t ms) (bound : Option Nat) (steps : Nat) :
    ∃ ms', Follows (clock.advanceFor bound steps t) ms' ∧ calls ms' = calls ms := by
  refine clock.advanceFor_induction (P := fun t => ∃ ms', Follows t ms' ∧ calls ms' = calls ms)
    ?_ bound steps ⟨ms, h, rfl⟩
  rintro t ⟨ms', h', hc⟩
  obtain ⟨ms'', h'', hc'⟩ := h'.wake
  exact ⟨ms'', h'', hc'.trans hc⟩

theorem start (h : Follows t ms) {a : Action} (hn : (calls ms ++ a.call?.toList).Nodup) :
    ∃ ms', Follows (t.start a) ms' ∧ calls ms' = calls ms ++ a.call?.toList := by
  cases a with
  | run id f =>
    have hid : id ∉ calls ms := fun hi =>
      List.disjoint_of_nodup_append hn hi (List.mem_singleton.2 rfl)
    exact ⟨_, h.run hid f, calls_concat _ _⟩
  | abort id => exact ⟨_, h.abort id, calls_concat _ _⟩

theorem step (h : Follows t ms) (e : Event) (hn : (calls ms ++ e.action.call?.toList).Nodup) :
    ∃ ms', Follows (t.step e) ms' ∧ calls ms' = calls ms ++ e.action.call?.toList := by
  obtain ⟨ms₁, h₁, hc₁⟩ := h.advanceFor (some e.time) (clock.load t)
  rw [← hc₁] at hn ⊢
  obtain ⟨ms₂, h₂, hc₂⟩ := (h₁.wait (max (clock.advance e.time t).now e.time)).start hn
  obtain ⟨ms₃, h₃, hc₃⟩ := h₂.proceed
  obtain ⟨ms₄, h₄, hc₄⟩ := h₃.advanceFor (some e.time) _
  exact ⟨ms₄, h₄, hc₄.trans (hc₃.trans hc₂)⟩

end Follows

theorem callsOf_concat (events : List Event) (e : Event) :
    callsOf (events ++ [e]) = callsOf events ++ e.action.call?.toList := by
  rw [callsOf, List.filterMap_append]
  cases h : e.action.call? <;> simp [callsOf, h]

theorem play_follows {events : List Event} (hn : (callsOf events).Nodup) :
    ∃ ms, Follows (play events) ms ∧ calls ms = callsOf events := by
  induction events using List.reverseRecOn with
  | nil => exact ⟨[], ⟨.nil, rfl, fun f hf => by cases hf⟩, rfl⟩
  | append_singleton events e ih =>
    rw [callsOf_concat] at hn ⊢
    obtain ⟨ms, h, hc⟩ := ih (List.nodup_append.1 hn).1
    rw [← hc] at hn ⊢
    rw [play, List.foldl_append]
    exact h.step e hn

/-- A timeline of calls with different numbers is a history of its register, with the same calls
and the same values returned. -/
theorem complete_follows {events : List Event} (hn : (callsOf events).Nodup) :
    ∃ ms, Follows (complete events) ms ∧ calls ms = callsOf events := by
  obtain ⟨ms, h, hc⟩ := play_follows hn
  obtain ⟨ms', h', hc'⟩ := h.advanceFor none _
  exact ⟨ms', h', hc'.trans hc⟩

end Timeline

end OrderLookup.Inflight
