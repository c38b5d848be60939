import OrderLookup.Proofs.Inflight.Proceeding
import OrderLookup.Proofs.Inflight.Queues

/-!
Timelines that stand where plain queues do. The handles of the register say nothing about the order
of arrival, but its callers are kept in that order, and of those who share a handle only the first
one leads. A call and an abort keep the two together: who enters leads an empty queue, and when the
head goes the next one starts its own fetch.
-/

namespace OrderLookup.Inflight

def Caller.seat (c : Caller) : Nat × String × Stage := (c.id, c.key, c.stage)

namespace Timeline

variable {t : Timeline} {q q' : Queues} {ms : List (Move String)} {ids : List Nat} {id : Nat}
  {key : String}

theorem seats_setStage (r : Registry String) (id : Nat) (stage : Stage) :
    (r.setStage id stage).callers.map Caller.seat =
      (r.callers.map Caller.seat).map fun s => if s.1 = id then (s.1, s.2.1, stage) else s := by
  simp only [Registry.setStage, List.map_map]
  apply List.map_congr_left
  intro c _
  by_cases hi : c.id = id <;> simp [Caller.seat, hi]

theorem handle_setStage {r : Registry String} {stage : Stage} {c : Caller}
    (h : c ∈ (r.setStage id stage).callers) : ∃ d ∈ r.callers, d.handle = c.handle := by
  rcases Registry.mem_setStage.1 h with ⟨hc, -⟩ | ⟨d, hd, -, rfl⟩
  · exact ⟨c, hc, rfl⟩
  · exact ⟨d, hd, rfl⟩

/-- Whether the callers of a timeline are those of the queues, in their order. -/
structure Matches (ids : List Nat) (t : Timeline) (q : Queues) : Prop where
  known : t.fetches.map Prod.fst = ids
  seats : t.registry.callers.map Caller.seat = q.line.map q.seat
  unserved : ∀ {c}, c ∈ t.registry.callers → t.registry.values.get? c.handle = none
  fetches : ∀ {c}, c ∈ q.line → t.fetches.lookup c.1 = some c.2
  started : t.started = q.started
  finished : t.finished.Perm q.finished

/-- Whether, besides, the fetches under way are those of the heads. -/
structure Mirrors (ids : List Nat) (t : Timeline) (q : Queues) : Prop extends Matches ids t q where
  flights : ∀ {f}, f ∈ t.flights ↔
    ∃ key c, q.head? key = some c ∧ f = ⟨c.1, q.due key, c.2.value⟩
  due : ∀ {c}, c ∈ q.line → t.now ≤ q.due c.2.key

namespace Matches

theorem mem_line (h : Matches ids t q) {c : Caller} (hc : c ∈ t.registry.callers) :
    ∃ d ∈ q.line, d.1 = c.id ∧ d.2.key = c.key ∧ q.stage d = c.stage := by
  have hm : c.seat ∈ q.line.map q.seat := h.seats ▸ List.mem_map_of_mem hc
  simpa [Queues.seat, Caller.seat] using hm

theorem mem_callers (h : Matches ids t q) {d : Nat × Fetch} (hd : d ∈ q.line) :
    ∃ c ∈ t.registry.callers, c.id = d.1 ∧ c.key = d.2.key ∧ c.stage = q.stage d := by
  have hm : q.seat d ∈ t.registry.callers.map Caller.seat := h.seats ▸ List.mem_map_of_mem hd
  simpa only [List.mem_map, Caller.seat, Queues.seat, Prod.mk.injEq] using hm

theorem unchosen (h : Matches ids t q) {c : Caller} (hc : c ∈ t.registry.callers) :
    c.stage ≠ .chosen := by
  obtain ⟨d, -, -, -, hs⟩ := h.mem_line hc
  exact hs ▸ Queues.stage_ne_chosen

theorem ids_eq (h : Matches ids t q) : t.registry.callers.map Caller.id = q.line.map Prod.fst := by
  have hmap := congrArg (List.map Prod.fst) h.seats
  rwa [List.map_map, List.map_map] at hmap

theorem eq_of_id (h : Matches ids t q) (hr : t.registry.Sound) {c d : Nat × Fetch}
    (hc : c ∈ q.line) (hd : d ∈ q.line) (hi : c.1 = d.1) : c = d :=
  List.inj_on_of_nodup_map (h.ids_eq ▸ hr.ids) hc hd hi

theorem handle_eq_iff (h : Matches ids t q) (hr : t.registry.Sound) {c d : Caller}
    (hc : c ∈ t.registry.callers) (hd : d ∈ t.registry.callers) :
    c.handle = d.handle ↔ c.key = d.key := by
  constructor
  · exact fun hh => hr.key_eq hc hd hh (h.unserved hc)
  · intro hk
    have hp := hr.registered hc (h.unserved hc)
    rw [hk, hr.registered hd (h.unserved hd)] at hp
    exact (Option.some.inj hp).symm

theorem get?_insert (h : Matches ids t q) (hr : t.registry.Sound) {c e : Caller}
    (hc : c ∈ t.registry.callers) (he : e ∈ t.registry.callers) (v : String) :
    (t.registry.values.insert c.handle v).get? e.handle =
      if e.key = c.key then some v else none := by
  have hhandle := h.handle_eq_iff hr hc he
  rw [Table.get?_insert, h.unserved he]
  by_cases hk : e.key = c.key
  · rw [if_pos hk, if_pos (hhandle.2 hk.symm)]
  · rw [if_neg hk, if_neg fun hh => hk (hhandle.1 hh).symm]

theorem proceed_self (h : Matches ids t q) (hr : t.registry.Sound) : t.proceed = t := by
  rw [proceed, takeOvers_eq fun c hc hs => absurd hs (h.unchosen hc)]
  exact collects_self (fun c hc => h.unserved hc) hr.ids

theorem id_mem (h : Matches ids t q) {c : Nat × Fetch} (hc : c ∈ q.line) : c.1 ∈ ids := by
  obtain ⟨before, after, hl, -⟩ := List.lookup_eq_some_iff.1 (h.fetches hc)
  rw [← h.known, hl]
  simp

theorem lookup_eq_none (h : Matches ids t q) (hid : id ∉ ids) : t.fetches.lookup id = none := by
  rw [List.lookup_eq_none_iff]
  intro p hp
  have hne : id ≠ p.1 := fun he => hid (h.known ▸ he ▸ List.mem_map_of_mem hp)
  simpa using hne

theorem isOwned_iff (h : Matches ids t q) {r : Registry String} {g : Nat}
    (hr : t.registry.Sound) (he : t.registry.register key = (g, r)) :
    r.isOwned g = true ↔ q.head? key ≠ none := by
  obtain ⟨ho, hc, hv, hp⟩ := hr.toOrderly.register key he
  rw [Registry.isOwned_iff]
  constructor
  · rintro ⟨c, hcm, hcg, hcs⟩ hnone
    have hcp := ho.registered hcm (hcg ▸ ho.pending_open hp)
    obtain ⟨d, hd, -, hdk, -⟩ := h.mem_line (hc ▸ hcm)
    rw [hcg] at hcp
    exact Queues.head?_eq_none_iff.1 hnone d hd (hdk.trans (ho.pending_injective hcp hp))
  · intro hne
    obtain ⟨d, hd⟩ := Option.ne_none_iff_exists'.1 hne
    obtain ⟨hdm, hdk⟩ := Queues.mem_of_head? hd
    obtain ⟨c, hcm, -, hck, hst⟩ := h.mem_callers hdm
    have hcp := hr.registered hcm (h.unserved hcm)
    have hrp := ho.registered (hc.symm ▸ hcm) (hv ▸ h.unserved hcm)
    rw [hck, hdk, hp] at hrp
    refine ⟨c, hc ▸ hcm, (Option.some.inj hrp).symm, ?_⟩
    rw [hst, Queues.stage_eq_leading_iff.2 (hdk ▸ hd)]
    simp

theorem enter (h : Matches ids t q) (hr : t.registry.Sound) (hid : id ∉ ids) {f : Fetch} {g : Nat}
    {r : Registry String} (he : t.registry.register f.key = (g, r)) :
    Matches (ids ++ [id]) { t with
      fetches := t.fetches ++ [(id, f)]
      registry := { r with callers := r.callers ++
        [⟨id, f.key, g, if q.head? f.key = none then .leading else .waiting⟩] } }
      { q with line := q.line ++ [(id, f)] } := by
  obtain ⟨ho, hc, hv, hp⟩ := hr.toOrderly.register f.key he
  have hnew : ∀ c ∈ q.line, c.1 ≠ id := fun c hcm hi => hid (hi ▸ h.id_mem hcm)
  constructor
  case known => simp [h.known]
  case seats =>
    rw [Queues.seats_enter rfl hnew, List.map_append, hc, h.seats]
    rfl
  case unserved =>
    intro c hcm
    rcases List.mem_append.1 hcm with hcm | hcm
    · exact hv ▸ h.unserved (hc ▸ hcm)
    · rw [List.mem_singleton.1 hcm]
      exact ho.pending_open hp
  case fetches =>
    intro c hcm
    dsimp only
    rcases List.mem_append.1 hcm with hcm | hcm
    · rw [List.lookup_append, h.fetches hcm, Option.some_or]
    · rw [List.mem_singleton.1 hcm, List.lookup_append, h.lookup_eq_none hid]
      simp
  case started => exact h.started
  case finished => exact h.finished

theorem launch (h : Matches ids t q) {c : Nat × Fetch} (hc : q.head? key = some c)
    (hnow : t.now = q.now)
    (hf : ∀ {f}, f ∈ t.flights ↔
      ∃ k d, k ≠ key ∧ q.head? k = some d ∧ f = ⟨d.1, q.due k, d.2.value⟩)
    (hd : ∀ {d}, d ∈ q.line → d.2.key ≠ key → t.now ≤ q.due d.2.key) :
    Mirrors ids (t.launch c.1) (q.lead key) := by
  rw [Timeline.launch, h.fetches (Queues.mem_of_head? hc).1, Queues.lead_eq hc]
  constructor
  case toMatches =>
    exact ⟨h.known, h.seats, h.unserved, h.fetches, by rw [h.started, hnow], h.finished⟩
  case flights =>
    intro f
    dsimp only
    rw [List.mem_append, List.mem_singleton, hf]
    constructor
    · rintro (⟨k, d, hk, hdk, rfl⟩ | rfl)
      · exact ⟨k, d, hdk, by rw [if_neg hk]⟩
      · exact ⟨key, c, hc, by rw [if_pos rfl, hnow]⟩
    · rintro ⟨k, d, hdk, rfl⟩
      change q.head? k = some d at hdk
      by_cases hk : k = key
      · subst hk
        rw [hc] at hdk
        cases hdk
        exact Or.inr (by rw [if_pos rfl, hnow])
      · exact Or.inl ⟨k, d, hk, hdk, by rw [if_neg hk]⟩
  case due =>
    intro d hdm
    dsimp only
    split
    · rw [hnow]
      exact Nat.le_add_right _ _
    · rename_i hk
      exact hd hdm hk

end Matches

namespace Mirrors

theorem perm (h : Mirrors ids t q) (hl : q'.line = q.line) (hd : q'.due = q.due)
    (hs : q'.started = q.started) (hf : q'.finished.Perm q.finished) : Mirrors ids t q' := by
  have hhead : q'.head? = q.head? := by
    funext key
    rw [Queues.head?, Queues.head?, hl]
  have hseat : q'.seat = q.seat := funext fun c => Queues.seat_congr (congrFun hhead _)
  constructor
  case toMatches =>
    exact ⟨h.known, by rw [hl, hseat]; exact h.seats, h.unserved, by rw [hl]; exact h.fetches,
      by rw [hs]; exact h.started, h.finished.trans hf.symm⟩
  case flights => rw [hhead, hd]; exact h.flights
  case due => rw [hl, hd]; exact h.due

theorem wait (h : Mirrors ids t q) {now now' : Nat} (hd : ∀ c ∈ q.line, now ≤ q.due c.2.key) :
    Mirrors ids { t with now := now } { q with now := now' } where
  toMatches := ⟨h.known, h.seats, h.unserved, h.fetches, h.started, h.finished⟩
  flights := h.flights
  due hc := hd _ hc

theorem run (h : Mirrors ids t q) (hr : t.registry.Sound) (hnow : t.now = q.now)
    (hid : id ∉ ids) (f : Fetch) : Mirrors (ids ++ [id]) (t.run id f) (q.run id f) := by
  rcases he : t.registry.register f.key with ⟨g, r⟩
  obtain ⟨ho, -, -, hp⟩ := hr.toOrderly.register f.key he
  have hopen := ho.pending_open hp
  have howned := h.isOwned_iff hr he
  have henter := Queues.head?_enter q (id, f)
  have hentered := h.enter hr hid he
  by_cases hhead : q.head? f.key = none
  · have hlead : ¬r.isOwned g = true := fun hown => howned.1 hown hhead
    rw [if_pos hhead] at hentered
    simp only [Timeline.run, Registry.join, he, hopen, if_neg hlead, Queues.run, if_pos hhead]
    have hsame : ∀ k, k ≠ f.key →
        Queues.head? { q with line := q.line ++ [(id, f)] } k = q.head? k := by
      intro k hk
      rw [henter, if_neg hk.symm, Option.or_none]
    refine hentered.launch (c := (id, f)) ?_ hnow ?_ ?_
    · rw [henter, hhead, Option.none_or, if_pos rfl]
    · intro g
      refine h.flights.trans ⟨?_, ?_⟩
      · rintro ⟨k, d, hd, rfl⟩
        have hk : k ≠ f.key := fun hk => by rw [hk, hhead] at hd; cases hd
        exact ⟨k, d, hk, (hsame k hk).trans hd, rfl⟩
      · rintro ⟨k, d, hk, hd, rfl⟩
        exact ⟨k, d, (hsame k hk).symm.trans hd, rfl⟩
    · intro d hd hk
      rcases List.mem_append.1 hd with hd | hd
      · exact h.due hd
      · exact absurd (by rw [List.mem_singleton.1 hd]) hk
  · have hown : r.isOwned g = true := howned.2 hhead
    rw [if_neg hhead] at hentered
    simp only [Timeline.run, Registry.join, he, hopen, if_pos hown, Queues.run, if_neg hhead]
    obtain ⟨e, hek⟩ := Option.ne_none_iff_exists'.1 hhead
    have hsame : Queues.head? { q with line := q.line ++ [(id, f)] } = q.head? := by
      funext k
      rw [henter]
      by_cases hk : f.key = k
      · rw [← hk, hek, Option.some_or]
      · rw [if_neg hk, Option.or_none]
    refine ⟨hentered, ?_, ?_⟩
    · rw [hsame]
      exact h.flights
    · intro d hd
      rcases List.mem_append.1 hd with hd | hd
      · exact h.due hd
      · rw [List.mem_singleton.1 hd]
        obtain ⟨hem, hkey⟩ := Queues.mem_of_head? hek
        exact hkey ▸ h.due hem

theorem seats_without (h : Mirrors ids t q) (id : Nat) :
    (t.registry.without id).callers.map Caller.seat = (q.leave id).line.map q.seat := by
  have hfilter := congrArg (List.filter fun s => decide (s.1 ≠ id)) h.seats
  rw [List.filter_map, List.filter_map] at hfilter
  exact hfilter

theorem leave (h : Mirrors ids t q) {c : Nat × Fetch} (hr : t.registry.Sound) (hc : c ∈ q.line)
    (hw : q.head? c.2.key ≠ some c) :
    Mirrors ids (t.abort c.1) (q.leave c.1) := by
  have hdrop : t.registry.drop c.1 = t.registry.without c.1 := by
    obtain ⟨d, hd, hdi, -, hds⟩ := h.mem_callers hc
    rw [Registry.drop, hr.caller?_eq_some_iff.2 ⟨hd, hdi⟩]
    exact if_pos (by rw [hds, Queues.stage, if_neg hw])
  have hother : ∀ key d, q.head? key = some d → d.1 ≠ c.1 := by
    intro key d hd hi
    obtain ⟨hdm, hdk⟩ := Queues.mem_of_head? hd
    have hdc := h.eq_of_id hr hdm hc hi
    rw [← hdk, hdc] at hd
    exact hw hd
  have hsame : (q.leave c.1).head? = q.head? :=
    funext fun key => Queues.head?_leave (hother key)
  rw [abort, hdrop]
  constructor
  case toMatches =>
    refine ⟨h.known, ?_, fun hcm => h.unserved (Registry.mem_without.1 hcm).1,
      fun hcm => h.fetches (Queues.mem_leave.1 hcm).1, h.started, h.finished⟩
    rw [h.seats_without]
    exact List.map_congr_left fun d _ => (Queues.seat_congr (congrFun hsame _)).symm
  case flights =>
    intro f
    rw [hsame]
    refine List.mem_filter.trans ⟨fun hf => h.flights.1 hf.1, fun hf => ⟨h.flights.2 hf, ?_⟩⟩
    obtain ⟨key, d, hd, rfl⟩ := hf
    simpa using hother key d hd
  case due => exact fun hcm => h.due (Queues.mem_leave.1 hcm).1

theorem waiters_seats (h : Mirrors ids t q) (hr : t.registry.Sound) {c : Nat × Fetch} {d : Caller}
    (hc : q.head? key = some c) (hd : d ∈ t.registry.callers) (hk : d.key = key) :
    ((t.registry.without c.1).waiters d.handle).map Caller.seat =
      ((q.leave c.1).line.filter fun e => e.2.key = key).map q.seat := by
  have hwaiters : (t.registry.without c.1).waiters d.handle =
      (t.registry.without c.1).callers.filter fun e => e.key = key := by
    apply List.filter_congr
    intro e he
    obtain ⟨hem, hne⟩ := Registry.mem_without.1 he
    obtain ⟨x, hxm, hxi, hxk, hxs⟩ := h.mem_line hem
    have hhandle := h.handle_eq_iff hr hem hd
    by_cases hek : e.key = key
    · have hwait : e.stage = .waiting := by
        rw [← hxs, Queues.stage, if_neg]
        rintro hx
        rw [hxk, hek, hc] at hx
        exact hne (hxi.symm.trans (by rw [Option.some.inj hx]))
      simp [hek, hwait, hhandle.2 (hek.trans hk.symm)]
    · have hdiff : e.handle ≠ d.handle := fun hh => hek ((hhandle.1 hh).trans hk)
      simp [hek, hdiff]
  have hfilter := congrArg (List.filter fun s => decide (s.2.1 = key)) (h.seats_without c.1)
  rw [List.filter_map, List.filter_map] at hfilter
  rw [hwaiters]
  exact hfilter

theorem head?_leave (h : Mirrors ids t q) (hr : t.registry.Sound) {c : Nat × Fetch}
    (hc : q.head? key = some c) {k : String} (hk : k ≠ key) :
    (q.leave c.1).head? k = q.head? k := by
  refine Queues.head?_leave fun d hd hi => ?_
  obtain ⟨hcm, hck⟩ := Queues.mem_of_head? hc
  obtain ⟨hdm, hdk⟩ := Queues.mem_of_head? hd
  rw [h.eq_of_id hr hdm hcm hi, hck] at hdk
  exact hk hdk.symm

theorem flights_besides (h : Mirrors ids t q) (hr : t.registry.Sound) {c : Nat × Fetch}
    (hc : q.head? key = some c) (hs : ∀ k, k ≠ key → q'.head? k = q.head? k) {f : Flight} :
    f ∈ t.flights.filter (fun f => f.id ≠ c.1) ↔
      ∃ k d, k ≠ key ∧ q'.head? k = some d ∧ f = ⟨d.1, q.due k, d.2.value⟩ := by
  obtain ⟨hcm, hck⟩ := Queues.mem_of_head? hc
  refine List.mem_filter.trans ⟨?_, ?_⟩
  · rintro ⟨hf, hi⟩
    obtain ⟨k, d, hd, rfl⟩ := h.flights.1 hf
    have hk : k ≠ key := by
      rintro rfl
      rw [hc] at hd
      cases hd
      simp at hi
    exact ⟨k, d, hk, (hs k hk).trans hd, rfl⟩
  · rintro ⟨k, d, hk, hd, rfl⟩
    rw [hs k hk] at hd
    obtain ⟨hdm, hdk⟩ := Queues.mem_of_head? hd
    have hi : d.1 ≠ c.1 := fun hi => hk (by rw [← hdk, h.eq_of_id hr hdm hcm hi, hck])
    exact ⟨h.flights.2 ⟨k, d, hd, rfl⟩, by simpa using hi⟩

theorem drop_eq (h : Mirrors ids t q) (hr : t.registry.Sound) {c : Nat × Fetch}
    (hc : q.head? key = some c) :
    ∃ g, t.registry.values.get? g = none ∧
      t.registry.drop c.1 = (t.registry.without c.1).handOver g ∧
      ((t.registry.without c.1).waiters g).head?.map Caller.seat =
        ((q.leave c.1).head? key).map q.seat := by
  obtain ⟨hcm, hck⟩ := Queues.mem_of_head? hc
  obtain ⟨d, hd, hdi, hdk, hds⟩ := h.mem_callers hcm
  refine ⟨d.handle, h.unserved hd, ?_, ?_⟩
  · have hlead : d.stage ≠ .waiting := by
      rw [hds, Queues.stage_eq_leading_iff.2 (hck ▸ hc)]
      simp
    rw [Registry.drop, hr.caller?_eq_some_iff.2 ⟨hd, hdi⟩]
    exact if_neg hlead
  · rw [← List.head?_map, h.waiters_seats hr hc hd (hdk.trans hck), List.head?_map,
      List.head?_filter]
    rfl

theorem seat_leave (h : Mirrors ids t q) (hr : t.registry.Sound) {c x : Nat × Fetch}
    (hc : q.head? key = some c) (hx : x ∈ (q.leave c.1).line)
    (hne : (q.leave c.1).head? key ≠ some x) : (q.leave c.1).seat x = q.seat x := by
  obtain ⟨-, hxi⟩ := Queues.mem_leave.1 hx
  by_cases hxk : x.2.key = key
  · have hold : q.head? key ≠ some x := fun he =>
      hxi (by rw [← Option.some.inj (hc.symm.trans he)])
    simp only [Queues.seat, Queues.stage, hxk, if_neg hne, if_neg hold]
  · exact Queues.seat_congr (h.head?_leave hr hc hxk)

theorem desert (h : Mirrors ids t q) (hr : t.registry.Sound) {c : Nat × Fetch}
    (hc : q.head? key = some c) (hnone : (q.leave c.1).head? key = none) :
    Mirrors ids (t.abort c.1) (q.leave c.1) := by
  obtain ⟨g, -, hdrop, hnext⟩ := h.drop_eq hr hc
  have hw : (t.registry.without c.1).waiters g = [] := by simpa [hnone] using hnext
  constructor
  case toMatches =>
    rw [abort, hdrop, Registry.handOver, hw]
    refine ⟨h.known, ?_, fun hcm => h.unserved (Registry.mem_without.1 hcm).1,
      fun hcm => h.fetches (Queues.mem_leave.1 hcm).1, h.started, h.finished⟩
    rw [h.seats_without]
    exact List.map_congr_left fun x hx => (h.seat_leave hr hc hx (by simp [hnone])).symm
  case flights =>
    refine (h.flights_besides hr hc fun k hk => h.head?_leave hr hc hk).trans ⟨?_, ?_⟩
    · rintro ⟨k, x, -, hx, rfl⟩
      exact ⟨k, x, hx, rfl⟩
    · rintro ⟨k, x, hx, rfl⟩
      have hk : k ≠ key := by
        rintro rfl
        rw [hnone] at hx
        cases hx
      exact ⟨k, x, hk, hx, rfl⟩
  case due => exact fun hx => h.due (Queues.mem_leave.1 hx).1

theorem promote (h : Mirrors ids t q) (hr : t.registry.Sound) {c x : Nat × Fetch}
    (hc : q.head? key = some c) (hx : (q.leave c.1).head? key = some x) (flights : List Flight) :
    Matches ids { t with
      registry := ((t.registry.without c.1).setStage x.1 .chosen).start x.1
      flights := flights } (q.leave c.1) := by
  obtain ⟨hxm, hxk⟩ := Queues.mem_of_head? hx
  refine ⟨h.known, ?_, ?_, fun hcm => h.fetches (Queues.mem_leave.1 hcm).1, h.started, h.finished⟩
  · rw [Registry.start, seats_setStage, seats_setStage, h.seats_without, List.map_map, List.map_map]
    apply List.map_congr_left
    intro y hy
    by_cases hyi : y.1 = x.1
    · have hyx : y = x := h.eq_of_id hr (Queues.mem_leave.1 hy).1 (Queues.mem_leave.1 hxm).1 hyi
      simp [hyx, Queues.seat, Queues.stage, hxk, hx]
    · have hne : (q.leave c.1).head? key ≠ some y := fun he =>
        hyi (by rw [Option.some.inj (hx.symm.trans he)])
      rw [h.seat_leave hr hc hy hne]
      simp [Queues.seat, hyi]
  · intro d hd
    obtain ⟨y, hy, hyd⟩ := handle_setStage hd
    obtain ⟨z, hz, hzy⟩ := handle_setStage hy
    exact (hzy.trans hyd) ▸ h.unserved (Registry.mem_without.1 hz).1

theorem takeOver (h : Mirrors ids t q) (hf : Follows t ms) (hnow : t.now = q.now)
    {c x : Nat × Fetch} (hc : q.head? key = some c) (hx : (q.leave c.1).head? key = some x) :
    Mirrors ids (t.abort c.1).proceed ((q.leave c.1).lead key) := by
  have hr := hf.sound
  obtain ⟨g, hg, hdrop, hnext⟩ := h.drop_eq hr hc
  rw [hx, Option.map_some, Option.map_eq_some_iff] at hnext
  obtain ⟨e, he, hes⟩ := hnext
  obtain ⟨rest, hw⟩ := List.head?_eq_some_iff.1 he
  have hei : e.id = x.1 := congrArg Prod.fst hes
  have hsound := (hf.abort c.1).sound
  rw [abort, hdrop, Registry.handOver, hw] at hsound ⊢
  dsimp only at hsound ⊢
  have hew : e ∈ (t.registry.without c.1).waiters g := by simp [hw]
  obtain ⟨hem, heg, -⟩ := Registry.mem_waiters.1 hew
  have hchosen : { e with stage := .chosen } ∈
      ((t.registry.without c.1).setStage e.id .chosen).callers :=
    Registry.mem_setStage.2 (Or.inr ⟨e, hem, rfl, rfl⟩)
  have hone : ∀ d ∈ ((t.registry.without c.1).setStage e.id .chosen).callers,
      d.stage = .chosen → d = { e with stage := .chosen } := by
    intro d hd hds
    rcases Registry.mem_setStage.1 hd with ⟨hd, -⟩ | ⟨y, hy, hyi, rfl⟩
    · exact absurd hds (h.unchosen (Registry.mem_without.1 hd).1)
    · exact hsound.eq_of_id hd hchosen hyi
  have hlead := (h.promote hr hc hx _).launch hx hnow
    (h.flights_besides hr hc fun k hk => h.head?_leave hr hc hk)
    fun hy _ => h.due (Queues.mem_leave.1 hy).1
  rw [proceed, takeOvers_one hsound hchosen rfl hone]
  rw [← hei] at hlead
  have hids := (hsound.start hchosen rfl).ids
  exact (collects_self (fun c hc => hlead.unserved hc) (by rwa [launch_registry])).symm ▸ hlead

theorem absent (h : Mirrors ids t q) (hid : ∀ c ∈ q.line, c.1 ≠ id) : t.abort id = t := by
  have hdrop : t.registry.drop id = t.registry := by
    have hnone : t.registry.caller? id = none := by
      rw [Registry.caller?_eq_none_iff]
      intro c hc hi
      obtain ⟨d, hd, hdi, -⟩ := h.mem_line hc
      exact hid d hd (hdi.trans hi)
    rw [Registry.drop, hnone]
  have hflights : t.flights.filter (fun f => f.id ≠ id) = t.flights := by
    rw [List.filter_eq_self]
    intro f hf
    obtain ⟨k, c, hc, rfl⟩ := h.flights.1 hf
    simpa using hid c (Queues.mem_of_head? hc).1
  rw [Timeline.abort, hdrop, hflights]

theorem abort (h : Mirrors ids t q) (hf : Follows t ms) (hnow : t.now = q.now) (id : Nat) :
    Mirrors ids (t.abort id).proceed (q.abort id) := by
  have hr := hf.sound
  have hsound := (hf.abort id).sound
  rw [Queues.abort]
  cases he : q.line.find? fun c => c.1 = id with
  | none =>
    rw [h.absent (by simpa using he), h.proceed_self hr]
    exact h
  | some c =>
    have hcm := List.mem_of_find?_eq_some he
    obtain rfl : c.1 = id := by simpa using List.find?_some he
    dsimp only
    by_cases hc : q.head? c.2.key = some c
    · rw [if_pos hc]
      cases hx : (q.leave c.1).head? c.2.key with
      | none =>
        have hleft := h.desert hr hc hx
        rw [hleft.proceed_self hsound, Queues.lead, hx]
        exact hleft
      | some x => exact h.takeOver hf hnow hc hx
    · have hleft := h.leave hr hcm hc
      rw [if_neg hc, hleft.proceed_self hsound]
      exact hleft

end Mirrors

end Timeline

end OrderLookup.Inflight
