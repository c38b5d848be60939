import OrderLookup.Proofs.Inflight.ArrivalOrder
import OrderLookup.Proofs.Inflight.OneKey
import Mathlib.Data.List.Pairwise
import Mathlib.Data.List.Perm.Subperm

/-!
Keys do not count for one another. The queues of one key, with what has been started and finished
for it, go the same way whether or not the calls of other keys and their ends are there: an event of
another key at most lets the queue go a little earlier that would go anyway before the next event of
its own, and with the same finishing times. So a timeline without the other keys starts the same
fetches for a key and finishes its calls at the same instants with the same values.
-/

namespace OrderLookup.Inflight

namespace Queues

variable {q q' : Queues} {key : String} {others : List Nat} {bound bound' : Option Nat} {t : Nat}
  {e : Event} {events : List Event}

theorem serve_congr {keys keys' : String → Bool} (h : ∀ c ∈ q.line, keys c.2.key = keys' c.2.key) :
    q.serve keys = q.serve keys' := by
  have hgo : (q.line.filter fun c => keys c.2.key) = q.line.filter fun c => keys' c.2.key :=
    List.filter_congr h
  have hstay : (q.line.filter fun c => !keys c.2.key) = q.line.filter fun c => !keys' c.2.key :=
    List.filter_congr fun c hc => by rw [h c hc]
  rw [serve, serve, hgo, hstay]

theorem settle_settle (h : ∀ c ∈ q.line, c.2.key = key)
    (hb : q.isOver bound key = true → q.isOver bound' key = true) :
    (q.settle bound).settle bound' = q.settle bound' := by
  cases ho : q.isOver bound key with
  | false =>
    have hself : q.settle bound = q := serve_self fun c hc => by rw [h c hc, ho]
    rw [hself]
  | true =>
    have hsame : q.settle bound = q.settle bound' :=
      serve_congr fun c hc => by rw [h c hc, ho, hb ho]
    have hnone : (q.settle bound').line = [] := by
      rw [settle, serve, List.filter_eq_nil_iff]
      intro c hc
      simp [h c hc, hb ho]
    rw [hsame]
    apply serve_self
    rw [hnone]
    simp

def reach (q : Queues) (t : Nat) : Queues := { q.settle (some t) with now := t }

theorem step_eq (h : q.now ≤ e.time) :
    q.step e = ((q.reach e.time).act e.action).settle (some e.time) := by
  have hnow : max (q.settle (some e.time)).now e.time = e.time := Nat.max_eq_right h
  rw [step, hnow]
  rfl

/-- How the queues with all events stand to those with the events of one key only: these have yet
to go where time has passed meanwhile. -/
structure Trails (key : String) (others : List Nat) (t : Nat) (q q' : Queues) : Prop where
  apart : q.Apart key others
  one : ∀ c ∈ q'.line, c.2.key = key
  same : q.only key others = { q'.settle (some t) with now := q.now }
  past : q.now ≤ t
  past' : q'.now ≤ t

namespace Trails

theorem settle (h : Trails key others t q q') (hb : ∀ u, bound = some u → t ≤ u) :
    (q.settle bound).only key others = { q'.settle bound with now := q.now } := by
  have hlater : q'.isOver (some t) key = true → q'.isOver bound key = true := by
    cases bound with
    | none => exact fun _ => rfl
    | some u => simpa [isOver] using fun ht => Nat.le_trans ht (hb u rfl)
  rw [only_settle h.apart, h.same, ← settle_settle h.one hlater]
  rfl

theorem reach (h : Trails key others t q q') {u : Nat} (hu : t ≤ u) :
    (q.reach u).only key others = q'.reach u := by
  have hb : ∀ v, some u = some v → t ≤ v := fun _ he => Option.some.inj he ▸ hu
  exact congrArg (fun p : Queues => { p with now := u }) (h.settle hb)

theorem step (h : Trails key others t q q') (ht : t ≤ e.time) (ha : e.action.Splits key others) :
    Trails key others e.time (q.step e)
      (if e.action.concerns key others then q'.step e else q') := by
  have hreached : (q.reach e.time).Apart key others := h.apart.settle (some e.time)
  have hacted := hreached.act ha
  have honly := only_act hreached ha
  rw [h.reach ht] at honly
  have hwhole := step_eq (Nat.le_trans h.past ht)
  have hpart := step_eq (Nat.le_trans h.past' ht)
  have hone : ∀ c ∈ (q'.reach e.time).line, c.2.key = key :=
    fun c hc => h.one c (List.mem_filter.1 hc).1
  have hnow : (q.step e).now = e.time := by
    rw [hwhole]
    exact act_now _ _
  have hsettled := only_settle hacted (some e.time)
  rw [← hwhole, honly] at hsettled
  split at hsettled
  · rename_i hc
    have hkey : ∀ c ∈ ((q'.reach e.time).act e.action).line, c.2.key = key := by
      intro c hcm
      rcases mem_act hcm with hcm | hrun
      · exact hone c hcm
      · simpa [hrun, Action.concerns] using hc
    have hnow' : (q'.step e).now = e.time := by
      rw [hpart]
      exact act_now _ _
    rw [if_pos hc]
    refine ⟨hwhole ▸ hacted.settle _, ?_, ?_, Nat.le_of_eq hnow, Nat.le_of_eq hnow'⟩
    · rw [hpart]
      exact fun c hcm => hkey c (List.mem_filter.1 hcm).1
    · have hagain : (q'.step e).settle (some e.time) = q'.step e := by
        rw [hpart, settle_settle hkey id]
      have hself : ({ q'.step e with now := e.time } : Queues) = q'.step e :=
        congrArg (fun n => ({ q'.step e with now := n } : Queues)) hnow'.symm
      rw [hsettled, ← hpart, hnow, hagain, hself]
  -- An event of another key only lets time pass.
  · rename_i hc
    rw [if_neg hc]
    refine ⟨hwhole ▸ hacted.settle _, h.one, ?_, Nat.le_of_eq hnow, Nat.le_trans h.past' ht⟩
    have hagain : (q'.settle (some e.time)).settle (some e.time) = q'.settle (some e.time) :=
      settle_settle h.one id
    rw [hsettled, hnow, ← hagain]
    rfl

theorem play (h : Trails key others t q q') (ht : ∀ e ∈ events, t ≤ e.time)
    (hs : events.Pairwise fun d e => d.time ≤ e.time)
    (ha : ∀ e ∈ events, e.action.Splits key others) :
    ∃ u, Trails key others u (events.foldl Queues.step q)
      ((events.filter fun e => e.action.concerns key others).foldl Queues.step q') := by
  induction events generalizing t q q' with
  | nil => exact ⟨t, h⟩
  | cons e events ih =>
    obtain ⟨hfirst, hrest⟩ := List.pairwise_cons.1 hs
    have hstep := ih (h.step (ht e (.head _)) (ha e (.head _))) hfirst hrest
      fun d hd => ha d (.tail _ hd)
    rw [List.filter_cons]
    by_cases hc : e.action.concerns key others = true
    · rw [if_pos hc] at hstep ⊢
      exact hstep
    · rw [if_neg hc] at hstep ⊢
      exact hstep

end Trails

theorem only_complete (hs : events.Pairwise fun d e => d.time ≤ e.time)
    (ha : ∀ e ∈ events, e.action.Splits key others) :
    let kept := events.filter fun e => e.action.concerns key others
    (complete events).started.filter (fun s => s.2 ∉ others) = (complete kept).started ∧
      (complete events).finished.filter (fun f => f.id ∉ others) = (complete kept).finished := by
  have hstart : Trails key others 0 ({} : Queues) {} := by
    refine ⟨by rintro c ⟨⟩, by rintro c ⟨⟩, ?_, Nat.le_refl _, Nat.le_refl _⟩
    simp [only, Queues.settle, serve]
  obtain ⟨u, h⟩ := hstart.play (fun _ _ => Nat.zero_le _) hs ha
  have hlater : ∀ v, none = some v → u ≤ v := fun v hv => by cases hv
  have hend := h.settle hlater
  exact ⟨congrArg Queues.started hend, congrArg Queues.finished hend⟩

def seen (q : Queues) : List Nat := q.line.map Prod.fst ++ q.finished.map Finish.id

theorem seen_serve (q : Queues) (keys : String → Bool) : (q.serve keys).seen.Perm q.seen := by
  have hsplit := List.filter_append_perm (fun c : Nat × Fetch => !keys c.2.key) q.line
  have hids : ((q.line.filter fun c => keys c.2.key).map q.share).map Finish.id =
      (q.line.filter fun c => !!keys c.2.key).map Prod.fst := by
    simp only [List.map_map, Bool.not_not]
    rfl
  rw [seen, serve, List.map_append, hids, seen]
  refine (List.Perm.append_left _ List.perm_append_comm).trans ?_
  rw [← List.append_assoc, ← List.map_append]
  exact (hsplit.map Prod.fst).append_right _

theorem seen_lead (q : Queues) (k : String) : (q.lead k).seen = q.seen := by
  rw [lead]
  split <;> rfl

theorem seen_act (q : Queues) (a : Action) : (q.act a).seen.Subperm (q.seen ++ a.call?.toList) := by
  cases a with
  | run id f =>
    have hrun : (q.run id f).seen = seen { q with line := q.line ++ [(id, f)] } := by
      rw [run]
      split
      · exact seen_lead _ _
      · rfl
    have hentered : seen { q with line := q.line ++ [(id, f)] } =
        q.line.map Prod.fst ++ ([id] ++ q.finished.map Finish.id) := by
      simp [seen]
    rw [act, hrun, hentered, seen, List.append_assoc]
    exact (List.perm_append_comm.append_left _).subperm
  | abort id =>
    have hleave : (q.leave id).seen.Sublist q.seen :=
      (List.filter_sublist.map _).append (List.Sublist.refl _)
    rw [show Action.call? (.abort id) = none from rfl, Option.toList_none, List.append_nil, act,
      abort]
    split
    · exact List.Subperm.refl _
    · split
      · rw [seen_lead]
        exact hleave.subperm
      · exact hleave.subperm

theorem seen_play (events : List Event) :
    (play events).seen.Subperm (Timeline.callsOf events) := by
  induction events using List.reverseRecOn with
  | nil => exact List.Subperm.refl _
  | append_singleton events e ih =>
    rw [Timeline.callsOf_concat, play, List.foldl_append]
    change ((play events).step e).seen.Subperm _
    have hact := seen_act { (play events).settle (some e.time) with
      now := max (play events).now e.time } e.action
    have hbefore : ((play events).settle (some e.time)).seen.Subperm (Timeline.callsOf events) :=
      (seen_serve _ _).subperm.trans ih
    exact (seen_serve _ _).subperm.trans (hact.trans ((List.subperm_append_right _).2 hbefore))

theorem nodup_finished {events : List Event} (hn : (Timeline.callsOf events).Nodup) :
    ((complete events).finished.map Finish.id).Nodup := by
  obtain ⟨l, hperm, hsub⟩ := (seen_serve (play events) _).subperm.trans (seen_play events)
  exact (List.nodup_append.1 (hperm.nodup_iff.1 (hn.sublist hsub))).2.1

end Queues

namespace Timeline

variable {key : String} {events : List Event}

theorem finish?_eq {events' : List Event} {others : List Nat} {id : Nat} (hid : id ∉ others)
    (hn : (callsOf events).Nodup) (hn' : (callsOf events').Nodup)
    (h : (Queues.complete events).finished.filter (fun f => f.id ∉ others) =
      (Queues.complete events').finished) :
    (complete events).finish? id = (complete events').finish? id := by
  obtain ⟨-, -, hperm, -⟩ := follows_queues hn
  obtain ⟨-, -, hperm', -⟩ := follows_queues hn'
  have hone : ∀ {l l' : List Finish}, l.Perm l' → (l'.map Finish.id).Nodup →
      l.find? (fun f => f.id = id) = l'.find? fun f => f.id = id := by
    intro l l' hl hnodup
    apply List.find?_eq_find?_of_perm hl
    rintro f ⟨hf, hfi⟩ g ⟨hg, hgi⟩
    have hi : f.id = g.id := by simp_all
    exact List.inj_on_of_nodup_map hnodup (hl.subset hf) (hl.subset hg) hi
  have hkept : (Queues.complete events').finished.find? (fun f => f.id = id) =
      (Queues.complete events).finished.find? fun f => f.id = id := by
    rw [← h, List.find?_filter]
    apply List.find?_congr
    intro f _
    by_cases hf : f.id = id
    · simp [hf, hid]
    · simp [hf]
  rw [finish?, finish?, hone hperm (Queues.nodup_finished hn),
    hone hperm' (Queues.nodup_finished hn'), hkept]

theorem mem_othersOf {id : Nat} :
    id ∈ othersOf key events ↔ ∃ e ∈ events, ∃ f, e.action = .run id f ∧ f.key ≠ key := by
  rw [othersOf, List.mem_filterMap]
  refine exists_congr fun e => and_congr_right fun _ => ?_
  cases e.action with
  | abort i => simp
  | run i f => by_cases hf : f.key = key <;> simp [hf]

theorem eq_of_call {d e : Event} {id : Nat} (hn : (callsOf events).Nodup) (hd : d ∈ events)
    (he : e ∈ events) (hdi : d.action.call? = some id) (hei : e.action.call? = some id) :
    d = e := by
  rw [callsOf, List.Nodup, List.pairwise_filterMap] at hn
  have : Std.Symm fun d e : Event => ∀ i, d.action.call? = some i →
      ∀ j, e.action.call? = some j → i ≠ j := ⟨fun d e h i hi j hj hij => h j hj i hi hij.symm⟩
  by_contra hne
  exact hn.forall hd he hne id hdi id hei rfl

theorem splits_of_nodup (hn : (callsOf events).Nodup) {e : Event} (he : e ∈ events) :
    e.action.Splits key (othersOf key events) := by
  cases ha : e.action with
  | abort id => exact trivial
  | run id f =>
    constructor
    · intro hk hother
      obtain ⟨d, hd, g, hdg, hg⟩ := mem_othersOf.1 hother
      have hcall : d.action.call? = some id := by rw [hdg]; rfl
      have hde := eq_of_call hn hd he hcall (by rw [ha]; rfl)
      rw [hde, ha] at hdg
      cases hdg
      exact hg hk
    · intro hid
      by_contra hk
      exact hid (mem_othersOf.2 ⟨e, he, f, ha, hk⟩)

theorem callsOf_alone (key : String) (events : List Event) :
    (callsOf (alone key events)).Sublist (callsOf events) :=
  List.filter_sublist.filterMap _

/-- Without the calls of other keys and their ends, each call of a key finishes at the same instant
with the same value, and the same fetches start for it. -/
theorem keys_are_independent (hn : (callsOf events).Nodup)
    (ht : events.Pairwise fun d e => d.time ≤ e.time) (key : String) :
    (∀ e ∈ events, ∀ id f, e.action = .run id f → f.key = key →
      (complete events).finish? id = (complete (alone key events)).finish? id) ∧
    (complete events).started.filter (fun s => s.2 ∉ othersOf key events) =
      (complete (alone key events)).started := by
  have hn' := hn.sublist (callsOf_alone key events)
  have hsplits : ∀ e ∈ events, e.action.Splits key (othersOf key events) :=
    fun e he => splits_of_nodup hn he
  obtain ⟨hstarted, hfinished⟩ := Queues.only_complete ht hsplits
  obtain ⟨-, hs, -⟩ := follows_queues hn
  obtain ⟨-, hs', -⟩ := follows_queues hn'
  refine ⟨fun e he id f hrun hk => ?_, ?_⟩
  · have hown := hsplits e he
    rw [hrun] at hown
    exact finish?_eq (hown.1 hk) hn hn' hfinished
  · rw [hs, hs']
    exact hstarted

def crossing : List Event :=
  [⟨0, .run 0 ⟨"j", 100, "x"⟩⟩, ⟨0, .run 1 ⟨"k", 30, "a"⟩⟩, ⟨5, .run 2 ⟨"j", 10, "y"⟩⟩,
    ⟨10, .run 3 ⟨"k", 20, "b"⟩⟩, ⟨20, .abort 0⟩, ⟨25, .abort 1⟩, ⟨30, .abort 2⟩]

theorem keys_are_independent_in_crossing :
    (callsOf crossing).Nodup ∧ crossing.Pairwise (fun d e => d.time ≤ e.time) ∧
      alone "k" crossing =
        [⟨0, .run 1 ⟨"k", 30, "a"⟩⟩, ⟨10, .run 3 ⟨"k", 20, "b"⟩⟩, ⟨25, .abort 1⟩] ∧
      (complete crossing).finish? 1 = none ∧ (complete crossing).finish? 3 = some ⟨3, 45, "b"⟩ ∧
      (complete crossing).started.filter (fun s => s.2 ∉ othersOf "k" crossing) =
        [(0, 1), (25, 3)] := by
  have hn : (callsOf crossing).Nodup := by decide
  have ht : crossing.Pairwise fun d e => d.time ≤ e.time := by simp [crossing]
  obtain ⟨hfinish, hstarted⟩ := keys_are_independent hn ht "k"
  have hfirst := hfinish ⟨0, .run 1 ⟨"k", 30, "a"⟩⟩ (by decide) 1 _ rfl rfl
  have hsecond := hfinish ⟨10, .run 3 ⟨"k", 20, "b"⟩⟩ (by decide) 3 _ rfl rfl
  exact ⟨hn, ht, by decide, hfirst.trans (by decide), hsecond.trans (by decide),
    hstarted.trans (by decide)⟩

end Timeline

end OrderLookup.Inflight
