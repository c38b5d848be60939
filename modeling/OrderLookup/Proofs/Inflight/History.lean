import OrderLookup.Inflight.Registry
import Mathlib.Data.List.Induction
import Mathlib.Data.List.Nodup

/-!
Histories of a register of shared fetches: calls come in, fetches end, waiting callers return and
callers are dropped, in any order. A dropped owner's turn may go to any of those who wait. Every
register that a history leads to is `Sound`: the open handles are the registered ones, and each
of them that has callers has exactly one owner.
-/

namespace OrderLookup.Inflight

inductive Move (α : Type)
  | join (id : Nat) (key : String)
  | start (id : Nat)
  | complete (id : Nat) (v : α)
  | collect (id : Nat) (v : α)
  | drop (id : Nat)
deriving DecidableEq

def Move.returned {α : Type} : Move α → Option (Nat × α)
  | .complete id v => some (id, v)
  | .collect id v => some (id, v)
  | _ => none

def Move.joined? {α : Type} : Move α → Option Nat
  | .join id _ => some id
  | _ => none

def calls {α : Type} (ms : List (Move α)) : List Nat := ms.filterMap Move.joined?

def Caller.owns (c : Caller) : Bool := c.stage ≠ .waiting

theorem Caller.owns_iff {c : Caller} : c.owns = true ↔ c.stage ≠ .waiting := by
  simp [owns]

namespace Registry

variable {α : Type} {r r' r'' : Registry α}

/-- What a move can do. Between two waits of a task nothing else happens, so an ended fetch takes
its key off the register, leaves its value and returns in one move. -/
inductive Step : Registry α → Move α → Registry α → Prop
  | join {r : Registry α} {id : Nat} (key : String) : r.caller? id = none →
      Step r (.join id key) (r.join id key).2
  | start {r : Registry α} {id : Nat} {c : Caller} : r.caller? id = some c → c.stage = .chosen →
      Step r (.start id) (r.start id)
  | complete {r : Registry α} {id : Nat} {c : Caller} (v : α) : r.caller? id = some c →
      c.stage = .leading → Step r (.complete id v) (r.complete id v)
  | collect {r r' : Registry α} {id : Nat} {v : α} : r.collect id = some (v, r') →
      Step r (.collect id v) r'
  | gone {r : Registry α} {id : Nat} : r.caller? id = none → Step r (.drop id) r
  | leave {r : Registry α} {id : Nat} {c : Caller} : r.caller? id = some c →
      c.stage = .waiting → Step r (.drop id) (r.without id)
  | abandon {r : Registry α} {id : Nat} {c : Caller} : r.caller? id = some c →
      c.stage ≠ .waiting → (r.without id).waiters c.handle = [] → Step r (.drop id) (r.without id)
  | handOver {r : Registry α} {id : Nat} {c heir : Caller} : r.caller? id = some c →
      c.stage ≠ .waiting → heir ∈ (r.without id).waiters c.handle →
      Step r (.drop id) ((r.without id).setStage heir.id .chosen)

inductive Run (r : Registry α) : List (Move α) → Registry α → Prop
  | nil : Run r [] r
  | move {ms : List (Move α)} {r' r'' : Registry α} {m : Move α} :
      Run r ms r' → Step r' m r'' → Run r (ms ++ [m]) r''

theorem Run.append {ms ms' : List (Move α)} (h : Run r ms r') (h' : Run r' ms' r'') :
    Run r (ms ++ ms') r'' := by
  induction h' with
  | nil => simpa using h
  | move _ hs ih => simpa only [List.append_assoc] using Run.move ih hs

theorem run_concat_iff {ms : List (Move α)} {m : Move α} :
    Run r (ms ++ [m]) r'' ↔ ∃ r', Run r ms r' ∧ Step r' m r'' := by
  constructor
  · intro h
    generalize hl : ms ++ [m] = l at h
    cases h with
    | nil => simp at hl
    | move h hs =>
      obtain ⟨rfl, hm⟩ := List.append_inj' hl rfl
      cases hm
      exact ⟨_, h, hs⟩
  · rintro ⟨r', h, hs⟩
    exact .move h hs

theorem Run.through {ms ms' : List (Move α)} {m : Move α} (h : Run r (ms ++ m :: ms') r') :
    ∃ r₁ r₂, Run r ms r₁ ∧ Step r₁ m r₂ ∧ Run r₂ ms' r' := by
  induction ms' using List.reverseRecOn generalizing r' with
  | nil =>
    obtain ⟨r₁, h₁, hs⟩ := run_concat_iff.1 h
    exact ⟨r₁, r', h₁, hs, .nil⟩
  | append_singleton ms' n ih =>
    have h' : Run r ((ms ++ m :: ms') ++ [n]) r' := by simpa using h
    obtain ⟨r₂, h₂, hs⟩ := run_concat_iff.1 h'
    obtain ⟨r₃, r₄, h₃, hm, h₄⟩ := ih h₂
    exact ⟨r₃, r₄, h₃, hm, .move h₄ hs⟩

theorem drop_step (r : Registry α) (id : Nat) : Step r (.drop id) (r.drop id) := by
  cases h : r.caller? id with
  | none =>
    simp only [drop, h]
    exact .gone h
  | some c =>
    simp only [drop, h]
    by_cases hw : c.stage = .waiting
    · rw [if_pos hw]
      exact .leave h hw
    · rw [if_neg hw, handOver]
      split
      · rename_i hn
        exact .abandon h hw hn
      · rename_i d ds hd
        exact .handOver h hw (by simp [hd])

/-- The open handles are the registered ones, and none of them has two owners. -/
structure Orderly (r : Registry α) : Prop where
  ids : (r.callers.map Caller.id).Nodup
  handle_lt : ∀ {c}, c ∈ r.callers → c.handle < r.fresh
  pending_lt : ∀ {k h}, r.pending.get? k = some h → h < r.fresh
  value_lt : ∀ {h v}, r.values.get? h = some v → h < r.fresh
  pending_injective : ∀ {k k' h}, r.pending.get? k = some h → r.pending.get? k' = some h → k = k'
  pending_open : ∀ {k h}, r.pending.get? k = some h → r.values.get? h = none
  registered : ∀ {c}, c ∈ r.callers → r.values.get? c.handle = none →
    r.pending.get? c.key = some c.handle
  owner_open : ∀ {c}, c ∈ r.callers → c.stage ≠ .waiting → r.values.get? c.handle = none
  owner_unique : ∀ {c d}, c ∈ r.callers → d ∈ r.callers → c.handle = d.handle →
    c.stage ≠ .waiting → d.stage ≠ .waiting → c.id = d.id

structure Sound (r : Registry α) : Prop extends Orderly r where
  owned : ∀ {c}, c ∈ r.callers → r.values.get? c.handle = none →
    ∃ d ∈ r.callers, d.handle = c.handle ∧ d.stage ≠ .waiting

namespace Orderly

theorem eq_of_id (hr : Orderly r) {c d : Caller} (hc : c ∈ r.callers) (hd : d ∈ r.callers)
    (h : c.id = d.id) : c = d :=
  List.inj_on_of_nodup_map hr.ids hc hd h

theorem caller?_eq_some_iff (hr : Orderly r) {id : Nat} {c : Caller} :
    r.caller? id = some c ↔ c ∈ r.callers ∧ c.id = id := by
  constructor
  · exact mem_of_caller?
  · rintro ⟨hc, hi⟩
    cases h : r.caller? id with
    | none => exact absurd hi (caller?_eq_none_iff.1 h c hc)
    | some d =>
      obtain ⟨hd, hdi⟩ := mem_of_caller? h
      rw [hr.eq_of_id hc hd (hi.trans hdi.symm)]

theorem key_eq (hr : Orderly r) {c d : Caller} (hc : c ∈ r.callers) (hd : d ∈ r.callers)
    (h : c.handle = d.handle) (ho : r.values.get? c.handle = none) : c.key = d.key := by
  have hcp := hr.registered hc ho
  have hdp := hr.registered hd (h ▸ ho)
  rw [← h] at hdp
  exact hr.pending_injective hcp hdp

theorem without (hr : Orderly r) (id : Nat) : Orderly (r.without id) where
  ids := hr.ids.sublist (List.filter_sublist.map _)
  handle_lt hc := hr.handle_lt (mem_without.1 hc).1
  pending_lt := hr.pending_lt
  value_lt := hr.value_lt
  pending_injective := hr.pending_injective
  pending_open := hr.pending_open
  registered hc := hr.registered (mem_without.1 hc).1
  owner_open hc := hr.owner_open (mem_without.1 hc).1
  owner_unique hc hd := hr.owner_unique (mem_without.1 hc).1 (mem_without.1 hd).1

theorem setStage (hr : Orderly r) {c : Caller} {stage : Stage} (hc : c ∈ r.callers)
    (ho : r.values.get? c.handle = none)
    (hu : ∀ d ∈ r.callers, d.handle = c.handle → d.stage ≠ .waiting → d.id = c.id) :
    Orderly (r.setStage c.id stage) := by
  have hpast {d : Caller} (hd : d ∈ (r.setStage c.id stage).callers) :
      ∃ e ∈ r.callers, e.id = d.id ∧ e.handle = d.handle ∧ e.key = d.key ∧
        (d.id = c.id ∨ e.stage = d.stage) := by
    rcases mem_setStage.1 hd with ⟨hd, _⟩ | ⟨e, he, hi, rfl⟩
    · exact ⟨d, hd, rfl, rfl, rfl, Or.inr rfl⟩
    · exact ⟨e, he, rfl, rfl, rfl, Or.inl hi⟩
  constructor
  case ids => rw [ids_setStage]; exact hr.ids
  case pending_lt => exact hr.pending_lt
  case value_lt => exact hr.value_lt
  case pending_injective => exact hr.pending_injective
  case pending_open => exact hr.pending_open
  case handle_lt =>
    intro d hd
    obtain ⟨e, he, -, hh, -⟩ := hpast hd
    exact hh ▸ hr.handle_lt he
  case registered =>
    intro d hd hv
    obtain ⟨e, he, -, hh, hk, -⟩ := hpast hd
    rw [← hh] at hv ⊢
    rw [← hk]
    exact hr.registered he hv
  case owner_open =>
    intro d hd hs
    obtain ⟨e, he, hi, hh, -, hst⟩ := hpast hd
    rcases hst with hst | hst
    · rw [← hh, hr.eq_of_id he hc (hi.trans hst)]
      exact ho
    · rw [← hh]
      exact hr.owner_open he (hst ▸ hs)
  case owner_unique =>
    intro d d' hd hd' hdd hs hs'
    obtain ⟨e, he, hi, hh, -, hst⟩ := hpast hd
    obtain ⟨e', he', hi', hh', -, hst'⟩ := hpast hd'
    have hee : e.handle = e'.handle := by rw [hh, hh', hdd]
    rcases hst with hst | hst <;> rcases hst' with hst' | hst'
    · rw [hst, hst']
    · have hec := hr.eq_of_id he hc (hi.trans hst)
      rw [hst, ← hi', hu e' he' (by rw [← hee, hec]) (hst' ▸ hs')]
    · have hec := hr.eq_of_id he' hc (hi'.trans hst')
      rw [hst', ← hi, hu e he (by rw [hee, hec]) (hst ▸ hs)]
    · rw [← hi, ← hi']
      exact hr.owner_unique he he' hee (hst ▸ hs) (hst' ▸ hs')

theorem register (hr : Orderly r) (key : String) {h : Nat} {r₁ : Registry α}
    (he : r.register key = (h, r₁)) :
    Orderly r₁ ∧ r₁.callers = r.callers ∧ r₁.values = r.values ∧ r₁.pending.get? key = some h := by
  cases hp : r.pending.get? key with
  | some g =>
    simp only [Registry.register, hp, Prod.mk.injEq] at he
    obtain ⟨rfl, rfl⟩ := he
    exact ⟨hr, rfl, rfl, hp⟩
  | none =>
    simp only [Registry.register, hp, Prod.mk.injEq] at he
    obtain ⟨rfl, rfl⟩ := he
    have hget (k : String) : (r.pending.insert key r.fresh).get? k =
        if key = k then some r.fresh else r.pending.get? k := Table.get?_insert _ _ _ _
    have hopen : r.values.get? r.fresh = none := by
      cases hv : r.values.get? r.fresh with
      | none => rfl
      | some v => exact absurd (hr.value_lt hv) (Nat.lt_irrefl _)
    refine ⟨?_, rfl, rfl, by simp⟩
    constructor
    case ids => exact hr.ids
    case handle_lt => exact fun hc => Nat.lt_succ_of_lt (hr.handle_lt hc)
    case value_lt => exact fun hv => Nat.lt_succ_of_lt (hr.value_lt hv)
    case owner_open => exact hr.owner_open
    case owner_unique => exact hr.owner_unique
    case pending_lt =>
      intro k g hg
      rw [hget] at hg
      split at hg
      · cases hg
        exact Nat.lt_succ_self _
      · exact Nat.lt_succ_of_lt (hr.pending_lt hg)
    case pending_injective =>
      intro k k' g hk hk'
      rw [hget] at hk hk'
      split at hk <;> split at hk'
      · simp_all
      · cases hk
        exact absurd (hr.pending_lt hk') (Nat.lt_irrefl _)
      · cases hk'
        exact absurd (hr.pending_lt hk) (Nat.lt_irrefl _)
      · exact hr.pending_injective hk hk'
    case pending_open =>
      intro k g hg
      rw [hget] at hg
      split at hg
      · cases hg
        exact hopen
      · exact hr.pending_open hg
    case registered =>
      intro c hc ho
      have hcp := hr.registered hc ho
      have hne : key ≠ c.key := by
        rintro rfl
        simp [hp] at hcp
      rw [hget, if_neg hne, hcp]

theorem enter (hr : Orderly r) {id h : Nat} {key : String} {stage : Stage}
    (hid : r.caller? id = none) (hp : r.pending.get? key = some h)
    (hs : stage ≠ .waiting → ∀ d ∈ r.callers, d.handle = h → d.stage = .waiting) :
    Orderly { r with callers := r.callers ++ [⟨id, key, h, stage⟩] } := by
  have hnew := caller?_eq_none_iff.1 hid
  constructor
  case pending_lt => exact hr.pending_lt
  case value_lt => exact hr.value_lt
  case pending_injective => exact hr.pending_injective
  case pending_open => exact hr.pending_open
  case ids =>
    simp only [List.map_append, List.map_cons, List.map_nil]
    refine List.nodup_append.2 ⟨hr.ids, by simp, ?_⟩
    intro a ha b hb
    obtain ⟨d, hd, rfl⟩ := List.mem_map.1 ha
    rw [List.mem_singleton.1 hb]
    exact hnew d hd
  case handle_lt =>
    intro d hd
    rcases List.mem_append.1 hd with hd | hd
    · exact hr.handle_lt hd
    · rw [List.mem_singleton.1 hd]
      exact hr.pending_lt hp
  case registered =>
    intro d hd ho
    rcases List.mem_append.1 hd with hd | hd
    · exact hr.registered hd ho
    · rw [List.mem_singleton.1 hd]
      exact hp
  case owner_open =>
    intro d hd hds
    rcases List.mem_append.1 hd with hd | hd
    · exact hr.owner_open hd hds
    · rw [List.mem_singleton.1 hd]
      exact hr.pending_open hp
  case owner_unique =>
    intro d e hd he hh hds hes
    rcases List.mem_append.1 hd with hd | hd <;> rcases List.mem_append.1 he with he | he
    · exact hr.owner_unique hd he hh hds hes
    · cases List.mem_singleton.1 he
      exact absurd (hs hes d hd hh) hds
    · cases List.mem_singleton.1 hd
      exact absurd (hs hds e he hh.symm) hes
    · rw [List.mem_singleton.1 hd, List.mem_singleton.1 he]

theorem fill (hr : Orderly r) {c : Caller} (hc : c ∈ r.callers) (ho : c.stage ≠ .waiting) (v : α) :
    Orderly ({ r.unregister c.key c.handle with values := r.values.insert c.handle v }.without
      c.id) := by
  have hp := hr.registered hc (hr.owner_open hc ho)
  have hget (k : String) : (r.pending.erase c.key).get? k =
      if c.key = k then none else r.pending.get? k := Table.get?_erase _ _ _
  have hval (g : Nat) : (r.values.insert c.handle v).get? g =
      if c.handle = g then some v else r.values.get? g := Table.get?_insert _ _ _ _
  have hpast {k : String} {g : Nat} (hk : (r.pending.erase c.key).get? k = some g) :
      c.key ≠ k ∧ r.pending.get? k = some g := by
    rw [hget] at hk
    split at hk
    · cases hk
    · exact ⟨‹_›, hk⟩
  rw [unregister, if_pos hp]
  constructor
  case ids => exact hr.ids.sublist (List.filter_sublist.map _)
  case handle_lt => exact fun hd => hr.handle_lt (mem_without.1 hd).1
  case pending_lt => exact fun hk => hr.pending_lt (hpast hk).2
  case pending_injective => exact fun hk hk' => hr.pending_injective (hpast hk).2 (hpast hk').2
  case owner_unique =>
    exact fun hd he => hr.owner_unique (mem_without.1 hd).1 (mem_without.1 he).1
  case value_lt =>
    intro g w hg
    change (r.values.insert c.handle v).get? g = some w at hg
    rw [hval] at hg
    split at hg
    · subst g
      exact hr.handle_lt hc
    · exact hr.value_lt hg
  case pending_open =>
    intro k g hk
    obtain ⟨hne, hk⟩ := hpast hk
    change (r.values.insert c.handle v).get? g = none
    rw [hval, if_neg, hr.pending_open hk]
    rintro rfl
    exact hne (hr.pending_injective hp hk)
  case registered =>
    intro d hd hv
    change (r.values.insert c.handle v).get? d.handle = none at hv
    change (r.pending.erase c.key).get? d.key = some d.handle
    rw [hval] at hv
    split at hv
    · cases hv
    · rename_i hne
      have hdp := hr.registered (mem_without.1 hd).1 hv
      rw [hget, if_neg, hdp]
      intro hk
      rw [hk, hdp] at hp
      exact hne (Option.some.inj hp).symm
  case owner_open =>
    intro d hd hs
    obtain ⟨hd, hi⟩ := mem_without.1 hd
    change (r.values.insert c.handle v).get? d.handle = none
    rw [hval, if_neg, hr.owner_open hd hs]
    intro hh
    exact hi (hr.owner_unique hd hc hh.symm hs ho)

end Orderly

namespace Sound

theorem empty : Sound (Registry.empty : Registry α) where
  ids := List.nodup_nil
  handle_lt h := by cases h
  pending_lt h := by cases h
  value_lt h := by cases h
  pending_injective h := by cases h
  pending_open h := by cases h
  registered h := by cases h
  owner_open h := by cases h
  owner_unique h := by cases h
  owned h := by cases h

theorem register (hr : Sound r) (key : String) {h : Nat} {r₁ : Registry α}
    (he : r.register key = (h, r₁)) : Sound r₁ := by
  obtain ⟨ho, hc, hv, -⟩ := hr.toOrderly.register key he
  refine ⟨ho, ?_⟩
  rw [hc, hv]
  exact hr.owned

theorem join (hr : Sound r) {id : Nat} (key : String) (hid : r.caller? id = none) :
    Sound (r.join id key).2 := by
  rcases he : r.register key with ⟨h, r₁⟩
  obtain ⟨ho, hc, -, hp⟩ := hr.toOrderly.register key he
  have hr₁ := hr.register key he
  have hid₁ : r₁.caller? id = none := by rwa [caller?, hc]
  rw [(join_eq he (ho.pending_open hp)).1]
  refine ⟨ho.enter hid₁ hp ?_, ?_⟩
  · intro hs d hd hdh
    by_contra hw
    exact hs (by rw [if_pos (isOwned_iff.2 ⟨d, hd, hdh, hw⟩)])
  · intro d hd hv
    rcases List.mem_append.1 hd with hd | hd
    · obtain ⟨e, he, heh, hes⟩ := hr₁.owned hd hv
      exact ⟨e, List.mem_append_left _ he, heh, hes⟩
    · rw [List.mem_singleton.1 hd]
      by_cases how : r₁.isOwned h = true
      · obtain ⟨e, he, heh, hes⟩ := isOwned_iff.1 how
        exact ⟨e, List.mem_append_left _ he, heh, hes⟩
      · exact ⟨_, by simp, rfl, by simp [how]⟩

theorem start (hr : Sound r) {c : Caller} (hc : c ∈ r.callers) (hs : c.stage = .chosen) :
    Sound (r.start c.id) := by
  have hw : c.stage ≠ .waiting := by simp [hs]
  have hv := hr.owner_open hc hw
  refine ⟨hr.toOrderly.setStage hc hv fun d hd hh hds => hr.owner_unique hd hc hh hds hw, ?_⟩
  intro d hd hdv
  have hown : ∃ e ∈ r.callers, e.handle = d.handle ∧ e.stage ≠ .waiting := by
    rcases mem_setStage.1 hd with ⟨hd, -⟩ | ⟨e, he, -, rfl⟩
    · exact hr.owned hd hdv
    · obtain ⟨e', he', heh', hes'⟩ := hr.owned he hdv
      exact ⟨e', he', heh', hes'⟩
  obtain ⟨e, he, heh, hes⟩ := hown
  by_cases hi : e.id = c.id
  · exact ⟨{ e with stage := .leading }, mem_setStage.2 (Or.inr ⟨e, he, hi, rfl⟩), heh, by simp⟩
  · exact ⟨e, mem_setStage.2 (Or.inl ⟨he, hi⟩), heh, hes⟩

theorem complete (hr : Sound r) {c : Caller} (v : α) (hc : c ∈ r.callers)
    (hs : c.stage = .leading) : Sound (r.complete c.id v) := by
  have hw : c.stage ≠ .waiting := by simp [hs]
  rw [complete_eq v (hr.caller?_eq_some_iff.2 ⟨hc, rfl⟩)]
  refine ⟨hr.toOrderly.fill hc hw v, ?_⟩
  intro d hd hv
  change (r.values.insert c.handle v).get? d.handle = none at hv
  rw [Table.get?_insert] at hv
  split at hv
  · cases hv
  · rename_i hne
    have hcallers : (r.unregister c.key c.handle).callers = r.callers := by
      rw [unregister]
      split <;> rfl
    simp only [mem_without, hcallers] at hd ⊢
    obtain ⟨e, he, heh, hes⟩ := hr.owned hd.1 hv
    exact ⟨e, ⟨he, fun hi => hne (by rw [← heh, hr.eq_of_id he hc hi])⟩, heh, hes⟩

theorem without (hr : Sound r) {c : Caller} (hc : c ∈ r.callers)
    (h : c.stage ≠ .waiting → (r.without c.id).waiters c.handle = []) : Sound (r.without c.id) := by
  refine ⟨hr.toOrderly.without c.id, ?_⟩
  intro d hd hv
  obtain ⟨hd', hi⟩ := mem_without.1 hd
  obtain ⟨e, he, heh, hes⟩ := hr.owned hd' hv
  refine ⟨e, mem_without.2 ⟨he, fun hei => ?_⟩, heh, hes⟩
  cases hr.eq_of_id he hc hei
  have hdw : d.stage = .waiting := by
    by_contra hdw
    exact hi (hr.owner_unique hd' hc heh.symm hdw hes)
  have hmem := mem_waiters.2 ⟨hd, heh.symm, hdw⟩
  rw [h hes] at hmem
  cases hmem

theorem handOver (hr : Sound r) {c heir : Caller} (hc : c ∈ r.callers) (hs : c.stage ≠ .waiting)
    (hh : heir ∈ (r.without c.id).waiters c.handle) :
    Sound ((r.without c.id).setStage heir.id .chosen) := by
  obtain ⟨hheir, hhh, -⟩ := mem_waiters.1 hh
  have hv := hr.owner_open hc hs
  have hnone : ∀ d ∈ (r.without c.id).callers, d.handle = heir.handle → d.stage = .waiting := by
    intro d hd hdh
    obtain ⟨hd, hi⟩ := mem_without.1 hd
    by_contra hdw
    exact hi (hr.owner_unique hd hc (hdh.trans hhh) hdw hs)
  refine ⟨(hr.toOrderly.without c.id).setStage hheir (hhh ▸ hv)
    fun d hd hdh hdw => absurd (hnone d hd hdh) hdw, ?_⟩
  intro d hd hdv
  have hchosen : { heir with stage := .chosen } ∈
      ((r.without c.id).setStage heir.id .chosen).callers :=
    mem_setStage.2 (Or.inr ⟨heir, hheir, rfl, rfl⟩)
  by_cases hdh : d.handle = c.handle
  · exact ⟨_, hchosen, hhh.trans hdh.symm, by simp⟩
  · have hdr : d ∈ r.callers := by
      rcases mem_setStage.1 hd with ⟨hd, -⟩ | ⟨e, he, hi, rfl⟩
      · exact (mem_without.1 hd).1
      · rw [(hr.toOrderly.without c.id).eq_of_id he hheir hi] at hdh
        exact absurd hhh hdh
    obtain ⟨e, he, heh, hes⟩ := hr.owned hdr hdv
    have hec : e.id ≠ c.id := fun hi => hdh (by rw [← heh, hr.eq_of_id he hc hi])
    refine ⟨e, mem_setStage.2 (Or.inl ⟨mem_without.2 ⟨he, hec⟩, fun hi => ?_⟩), heh, hes⟩
    rw [hr.eq_of_id he (mem_without.1 hheir).1 hi] at heh
    exact hdh (heh.symm.trans hhh)

theorem step (hr : Sound r) {m : Move α} (h : Step r m r') : Sound r' := by
  cases h with
  | join key hid => exact hr.join key hid
  | start hc hs =>
    obtain ⟨hm, rfl⟩ := mem_of_caller? hc
    exact hr.start hm hs
  | complete v hc hs =>
    obtain ⟨hm, rfl⟩ := mem_of_caller? hc
    exact hr.complete v hm hs
  | collect hv =>
    obtain ⟨c, hc, hcv, rfl⟩ := collect_eq_some_iff.1 hv
    obtain ⟨hm, rfl⟩ := mem_of_caller? hc
    refine hr.without hm fun hs => ?_
    rw [hr.owner_open hm hs] at hcv
    cases hcv
  | gone => exact hr
  | leave hc hs =>
    obtain ⟨hm, rfl⟩ := mem_of_caller? hc
    exact hr.without hm fun hw => absurd hs hw
  | abandon hc hs hn =>
    obtain ⟨hm, rfl⟩ := mem_of_caller? hc
    exact hr.without hm fun _ => hn
  | handOver hc hs hh =>
    obtain ⟨hm, rfl⟩ := mem_of_caller? hc
    exact hr.handOver hm hs hh

theorem run (hr : Sound r) {ms : List (Move α)} (h : Run r ms r') : Sound r' := by
  induction h with
  | nil => exact hr
  | move _ hs ih => exact ih.step hs

end Sound

end Registry

end OrderLookup.Inflight
