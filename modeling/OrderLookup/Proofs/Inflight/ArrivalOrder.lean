import OrderLookup.Proofs.Inflight.Mirroring

/-!
Takeover in the order of arrival. When the fetch of a head ends, everybody behind it finishes with
its value and the queue is empty. So every timeline does what the queues do: the same fetches start
at the same instants, and the same callers finish, at the same instants and with the same values.
-/

namespace OrderLookup.Inflight

namespace Timeline

variable {t : Timeline} {q : Queues} {ms : List (Move String)} {ids : List Nat} {key : String}

namespace Mirrors

theorem seats_serve (h : Mirrors ids t q) (key : String) :
    (t.registry.callers.filter fun c => c.key ≠ key).map Caller.seat =
      (q.serve fun k => k = key).line.map (q.serve fun k => k = key).seat := by
  have hfilter := congrArg (List.filter fun s => decide (s.2.1 ≠ key)) h.seats
  rw [List.filter_map, List.filter_map] at hfilter
  have hline : q.line.filter ((fun s => decide (s.2.1 ≠ key)) ∘ q.seat) =
      (q.serve fun k => k = key).line :=
    List.filter_congr fun c _ => decide_not
  have hstay : ∀ c ∈ (q.serve fun k => k = key).line,
      q.seat c = (q.serve fun k => k = key).seat c := by
    intro c hc
    have hk := (List.mem_filter.1 hc).2
    exact (Queues.seat_congr (Queues.head?_serve (by simpa using hk))).symm
  rw [hline, List.map_congr_left hstay] at hfilter
  exact hfilter

theorem finished_serve (h : Mirrors ids t q) (hr : t.registry.Sound) {c : Nat × Fetch}
    (hc : q.head? key = some c) {served : Caller → Option Finish}
    (hs : ∀ e ∈ (t.registry.without c.1).callers,
      served e = if e.key = key then some ⟨e.id, q.due key, c.2.value⟩ else none) :
    (⟨c.1, q.due key, c.2.value⟩ :: (t.registry.without c.1).callers.filterMap served).Perm
      ((q.line.filter fun d => d.2.key = key).map q.share) := by
  obtain ⟨hcm, hck⟩ := Queues.mem_of_head? hc
  have hserved : (t.registry.without c.1).callers.filterMap served =
      ((q.leave c.1).line.filter fun d => d.2.key = key).map q.share := by
    have hseat : (t.registry.without c.1).callers.filterMap served =
        ((t.registry.without c.1).callers.map Caller.seat).filterMap fun s =>
          if s.2.1 = key then some ⟨s.1, q.due key, c.2.value⟩ else none := by
      rw [List.filterMap_map]
      exact List.filterMap_congr hs
    rw [hseat, h.seats_without, List.filterMap_map, ← List.filterMap_eq_map, List.filterMap_filter]
    apply List.filterMap_congr
    intro d _
    by_cases hk : d.2.key = key
    · simp [Queues.seat, hk, Queues.share_eq hc hk]
    · simp [Queues.seat, hk]
  have hleave : q.line.erase c = (q.leave c.1).line := by
    have hn : q.line.Nodup := (h.ids_eq ▸ hr.ids).of_map
    rw [hn.erase_eq_filter]
    apply List.filter_congr
    intro d hd
    by_cases hdc : d = c
    · simp [hdc]
    · have hi : d.1 ≠ c.1 := fun hi => hdc (h.eq_of_id hr hd hcm hi)
      simp [hdc, hi]
  have hperm := ((List.perm_cons_erase hcm).filter fun d => d.2.key = key).map q.share
  rw [List.filter_cons_of_pos (by simpa using hck), List.map_cons, hleave,
    Queues.share_eq hc hck] at hperm
  rw [hserved]
  exact hperm.symm

theorem filter_isNone (h : Mirrors ids t q) (hr : t.registry.Sound) {c : Caller}
    (hc : c ∈ t.registry.callers) (v : String) :
    ((t.registry.without c.id).callers.filter fun e =>
        ((t.registry.values.insert c.handle v).get? e.handle).isNone) =
      t.registry.callers.filter fun e => e.key ≠ c.key := by
  rw [Registry.without, List.filter_filter]
  apply List.filter_congr
  intro e he
  have hother : e.key ≠ c.key → e.id ≠ c.id := fun hk hi => hk (by rw [hr.eq_of_id he hc hi])
  rw [h.get?_insert hr hc he]
  by_cases hk : e.key = c.key
  · simp [hk]
  · simp [hk, hother hk]

theorem land (h : Mirrors ids t q) (hr : t.registry.Sound) {c : Nat × Fetch}
    (hc : q.head? key = some c) (hd : ∀ {d}, d ∈ q.line → q.due key ≤ q.due d.2.key)
    {t' : Timeline} (ht : t' = Timeline.proceed (Timeline.land { t with now := q.due key }
      ⟨c.1, q.due key, c.2.value⟩)) :
    t'.now = q.due key ∧ t'.flights = t.flights.filter (fun f => f.id ≠ c.1) ∧
      Mirrors ids t' (q.serve fun k => k = key) := by
  obtain ⟨hcm, hck⟩ := Queues.mem_of_head? hc
  obtain ⟨d, hdm, hdi, hdk, -⟩ := h.mem_callers hcm
  obtain ⟨pending, hland⟩ := land_eq (t := { t with now := q.due key })
    (f := ⟨c.1, q.due key, c.2.value⟩) hr hdm hdi
  rw [ht, hland]
  have hstay := h.filter_isNone hr hdm c.2.value
  rw [hdi, hdk, hck] at hstay
  rw [proceed_eq]
  · refine ⟨rfl, rfl, ?_⟩
    constructor
    case toMatches =>
      refine ⟨h.known, ?_, ?_, fun hem => h.fetches (List.mem_filter.1 hem).1, h.started, ?_⟩
      · simp only [served, Option.isNone_map]
        rw [hstay]
        exact h.seats_serve key
      · intro e he
        simpa [served] using (List.mem_filter.1 he).2
      · rw [List.append_assoc]
        refine h.finished.append (h.finished_serve hr hc fun e he => ?_)
        simp only [served]
        rw [h.get?_insert hr hdm (Registry.mem_without.1 he).1, hdk, hck]
        split <;> rfl
    -- The other heads go on with their fetches.
    case flights =>
      intro f
      have hsame : ∀ k, k ≠ key → (q.serve fun k => k = key).head? k = q.head? k :=
        fun k hk => Queues.head?_serve (by simpa using hk)
      refine (h.flights_besides hr hc hsame).trans ⟨?_, ?_⟩
      · rintro ⟨k, x, -, hx, rfl⟩
        exact ⟨k, x, hx, rfl⟩
      · rintro ⟨k, x, hx, rfl⟩
        obtain ⟨hxm, hxk⟩ := Queues.mem_of_head? hx
        have hkeep := (List.mem_filter.1 hxm).2
        exact ⟨k, x, by simpa [hxk] using hkeep, hx, rfl⟩
    case due => exact fun hdm => hd (List.mem_filter.1 hdm).1
  · exact fun e he => h.unchosen (Registry.mem_without.1 he).1
  · exact hr.ids.sublist (List.filter_sublist.map _)

theorem wake (h : Mirrors ids t q) (hr : t.registry.Sound) {f : Flight}
    (hs : Clock.soonest Flight.due t.flights = some f) :
    ∃ key, f.due = q.due key ∧ t.now ≤ q.due key ∧ t.wake.now = q.due key ∧
      t.wake.flights.length < t.flights.length ∧
      Mirrors ids t.wake (q.serve fun k => k = key) := by
  have hfm := Clock.mem_of_soonest hs
  obtain ⟨key, c, hc, hfc⟩ := h.flights.1 hfm
  obtain ⟨hcm, hck⟩ := Queues.mem_of_head? hc
  have hnow : t.now ≤ q.due key := hck ▸ h.due hcm
  have hfirst : ∀ {d}, d ∈ q.line → q.due key ≤ q.due d.2.key := by
    intro d hd
    obtain ⟨x, hx⟩ := Queues.exists_head? hd
    have hle := Clock.soonest_le hs (h.flights.2 ⟨_, x, hx, rfl⟩)
    rwa [hfc] at hle
  have heq : t.wake = Timeline.proceed (Timeline.land { t with now := q.due key }
      ⟨c.1, q.due key, c.2.value⟩) := by
    rw [Timeline.wake, hs, hfc]
    dsimp only
    rw [Nat.max_eq_right hnow]
  obtain ⟨hwnow, hflights, hwake⟩ := h.land hr hc hfirst heq
  refine ⟨key, by rw [hfc], hnow, hwnow, ?_, hwake⟩
  rw [hflights]
  exact List.length_filter_lt_length_iff_exists.2 ⟨f, hfm, by simp [hfc]⟩

theorem settle_self (h : Mirrors ids t q) {bound : Option Nat}
    (hd : clock.isDue bound t = false) : q.settle bound = q := by
  refine Queues.serve_self fun c hc => ?_
  obtain ⟨d, hdc⟩ := Queues.exists_head? hc
  have hmem := h.flights.2 ⟨_, d, hdc, rfl⟩
  cases hs : Clock.soonest Flight.due t.flights with
  | none =>
    rw [Clock.eq_nil_of_soonest hs] at hmem
    cases hmem
  | some f =>
    have hle := Clock.soonest_le hs hmem
    cases bound with
    | none => simp [Clock.isDue, clock, hs] at hd
    | some u =>
      have hlate : u < f.due := by simpa [Clock.isDue, clock, hs] using hd
      simp only [Queues.isOver, decide_eq_false_iff_not, Nat.not_le]
      exact Nat.lt_of_lt_of_le hlate hle

theorem settle (h : Mirrors ids t q) (hf : Follows t ms) (bound : Option Nat) {steps : Nat}
    (hl : t.flights.length ≤ steps) :
    Mirrors ids (clock.advanceFor bound steps t) (q.settle bound) ∧
      t.now ≤ (clock.advanceFor bound steps t).now ∧
      ∀ u, bound = some u → (clock.advanceFor bound steps t).now ≤ max t.now u := by
  induction steps generalizing t q ms with
  | zero =>
    have hnone : t.flights = [] := List.length_eq_zero_iff.1 (Nat.le_zero.1 hl)
    rw [h.settle_self (by simp [Clock.isDue, clock, hnone, Clock.soonest])]
    exact ⟨h, Nat.le_refl _, fun u _ => Nat.le_max_left _ _⟩
  | succ steps ih =>
    rw [Clock.advanceFor]
    cases hd : clock.isDue bound t with
    | false =>
      rw [h.settle_self hd]
      exact ⟨h, Nat.le_refl _, fun u _ => Nat.le_max_left _ _⟩
    | true =>
      obtain ⟨f, hs⟩ : ∃ f, Clock.soonest Flight.due t.flights = some f := by
        cases hs : Clock.soonest Flight.due t.flights with
        | none => simp [Clock.isDue, clock, hs] at hd
        | some f => exact ⟨f, rfl⟩
      obtain ⟨key, hdue, hnow, hwnow, hless, hwake⟩ := h.wake hf.sound hs
      obtain ⟨ms', hf', -⟩ := hf.wake
      obtain ⟨hrest, hlow, hhigh⟩ := ih hwake hf' (by omega)
      have hover : q.isOver bound key = true := by
        cases bound with
        | none => rfl
        | some u => simpa [Clock.isDue, clock, hs, hdue, Queues.isOver] using hd
      obtain ⟨hline, hperm⟩ := Queues.serve_serve q (fun k => k = key) (q.isOver bound)
        fun k hk => by rwa [of_decide_eq_true hk]
      rw [if_pos rfl, show clock.wake t = t.wake from rfl]
      refine ⟨hrest.perm hline.symm rfl rfl hperm, by omega, ?_⟩
      rintro u rfl
      have hu : q.due key ≤ u := by simpa [Queues.isOver] using hover
      have hmax := hhigh u rfl
      omega

theorem act (h : Mirrors ids t q) (hf : Follows t ms) (hnow : t.now = q.now) {a : Action}
    (hn : (calls ms ++ a.call?.toList).Nodup) (hids : calls ms = ids) :
    Mirrors (ids ++ a.call?.toList) (t.act a) (q.act a) := by
  subst hids
  cases a with
  | run id f =>
    have hid : id ∉ calls ms := fun hi =>
      List.disjoint_of_nodup_append hn hi (List.mem_singleton.2 rfl)
    have hrun := h.run hf.sound hnow hid f
    have hself := hrun.proceed_self (hf.run hid f).sound
    rw [Timeline.act, Timeline.start, hself]
    exact hrun
  | abort id =>
    rw [show Action.call? (.abort id) = none from rfl, Option.toList_none, List.append_nil]
    exact h.abort hf hnow id

theorem advance (h : Mirrors ids t q) (hf : Follows t ms) (time : Nat) :
    Mirrors ids (clock.advance time t) (q.settle (some time)) ∧
      t.now ≤ (clock.advance time t).now ∧ (clock.advance time t).now ≤ max t.now time := by
  obtain ⟨hrest, hlow, hhigh⟩ := h.settle hf (some time) (Nat.le_refl _)
  exact ⟨hrest, hlow, hhigh time rfl⟩

theorem reach (h : Mirrors ids t q) (hf : Follows t ms) (hnow : t.now = q.now) (time : Nat) :
    Mirrors ids { clock.advance time t with now := max q.now time }
        { q.settle (some time) with now := max q.now time } ∧
      max (clock.advance time t).now time = max q.now time := by
  obtain ⟨hrest, hlow, hhigh⟩ := h.advance hf time
  have heq : max (clock.advance time t).now time = max q.now time := by omega
  refine ⟨hrest.wait fun c hc => ?_, heq⟩
  have hopen : time < q.due c.2.key := by simpa [Queues.isOver] using (List.mem_filter.1 hc).2
  rw [← heq]
  exact Nat.max_le.2 ⟨hrest.due hc, Nat.le_of_lt hopen⟩

theorem step (h : Mirrors ids t q) (hf : Follows t ms) (hnow : t.now = q.now) (e : Event)
    (hn : (calls ms ++ e.action.call?.toList).Nodup) (hids : calls ms = ids) :
    Mirrors (ids ++ e.action.call?.toList) (t.step e) (q.step e) ∧
      (t.step e).now = (q.step e).now := by
  obtain ⟨hreach, hmax⟩ := h.reach hf hnow e.time
  obtain ⟨ms₁, hf₁, hc₁⟩ := hf.advanceFor (some e.time) (clock.load t)
  have hf₂ := hf₁.wait (max q.now e.time)
  rw [← hc₁] at hn hids
  have hact := hreach.act hf₂ rfl hn hids
  obtain ⟨ms₂, hstart, -⟩ := hf₂.start hn
  obtain ⟨ms₃, hf₃, -⟩ := hstart.proceed
  obtain ⟨hrest, hlow, hhigh⟩ := hact.advance hf₃ e.time
  have hstep : t.step e = clock.advance e.time
      (Timeline.act { clock.advance e.time t with now := max q.now e.time } e.action) := by
    rw [← hmax]
    rfl
  have hqueues : (q.step e).now = max q.now e.time := Queues.act_now _ _
  rw [act_now] at hlow hhigh
  rw [hstep, hqueues]
  exact ⟨hrest, Nat.le_antisymm (Nat.le_trans hhigh (by simp)) hlow⟩

end Mirrors

theorem play_mirrors {events : List Event} (hn : (callsOf events).Nodup) :
    Mirrors (callsOf events) (play events) (Queues.play events) ∧
      (play events).now = (Queues.play events).now := by
  induction events using List.reverseRecOn with
  | nil =>
    refine ⟨⟨⟨rfl, rfl, ?_, ?_, rfl, .refl _⟩, ?_, ?_⟩, rfl⟩
    · rintro c ⟨⟩
    · rintro c ⟨⟩
    · intro f
      simp [play, Queues.play, Queues.head?]
    · rintro c ⟨⟩
  | append_singleton events e ih =>
    rw [callsOf_concat] at hn ⊢
    have hpast := (List.nodup_append.1 hn).1
    obtain ⟨h, hnow⟩ := ih hpast
    obtain ⟨ms, hf, hids⟩ := play_follows hpast
    rw [play, Queues.play, List.foldl_append, List.foldl_append]
    exact h.step hf hnow e (hids ▸ hn) hids

/-- Takeover follows arrival order: fetches start and callers finish as in one queue for each key,
whose head alone fetches. -/
theorem follows_queues {events : List Event} (hn : (callsOf events).Nodup) :
    (play events).registry.callers.map (fun c => (c.id, c.key, c.stage)) =
      (Queues.play events).line.map (fun c => (c.1, c.2.key, (Queues.play events).stage c)) ∧
    (complete events).started = (Queues.complete events).started ∧
    (complete events).finished.Perm (Queues.complete events).finished ∧
    (complete events).registry.callers = [] := by
  obtain ⟨h, -⟩ := play_mirrors hn
  obtain ⟨ms, hf, -⟩ := play_follows hn
  obtain ⟨hend, -⟩ := h.settle hf none (Nat.le_refl _)
  have hline : ((Queues.play events).settle none).line = [] := by
    simp [Queues.settle, Queues.serve, Queues.isOver]
  refine ⟨h.seats, hend.started, hend.finished, ?_⟩
  have hseats := hend.seats
  rw [hline] at hseats
  exact List.map_eq_nil_iff.1 hseats

/-- The second caller of a key is dropped before its turn, then the first in the middle of its
fetch, and the third fetches at once; a fourth comes when that fetch has just ended. -/
def relay : List Event :=
  [⟨0, .run 0 ⟨"k", 60, "a"⟩⟩, ⟨10, .run 1 ⟨"k", 20, "b"⟩⟩, ⟨15, .run 2 ⟨"k", 0, "c"⟩⟩,
    ⟨15, .run 3 ⟨"j", 5, "d"⟩⟩, ⟨18, .abort 1⟩, ⟨20, .abort 0⟩, ⟨20, .run 4 ⟨"k", 30, "e"⟩⟩]

theorem follows_queues_in_relay :
    (callsOf relay).Nodup ∧
      (play relay).registry.callers.map (fun c => (c.id, c.key, c.stage)) =
        [(4, "k", .leading)] ∧
      (complete relay).started = [(0, 0), (15, 3), (20, 2), (20, 4)] ∧
      (complete relay).finished.Perm [⟨3, 20, "d"⟩, ⟨2, 20, "c"⟩, ⟨4, 50, "e"⟩] := by
  have hn : (callsOf relay).Nodup := by decide
  obtain ⟨hcallers, hstarted, hfinished, -⟩ := follows_queues hn
  exact ⟨hn, hcallers.trans (by decide), hstarted.trans (by decide), hfinished.trans (by decide)⟩

end Timeline

end OrderLookup.Inflight
