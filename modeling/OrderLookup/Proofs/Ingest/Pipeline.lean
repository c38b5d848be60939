import OrderLookup.Proofs.Ingest.Publishing
import OrderLookup.Proofs.Ingest.Redelivery
import OrderLookup.Proofs.Order.Sample
import OrderLookup.Proofs.Resolver.Once
import OrderLookup.Proofs.Resolver.Refreshing

/-!
The way of the sample orders from their publisher to the cache. All of them get through the topic,
each is stored as it was made, and a refresh then puts the newest of them into the cache.
-/

namespace OrderLookup

namespace Order

open Sample (second)

variable {n m : Nat} {o : Order}

def samples (n : Nat) : List Order := (List.range n).map fun i => sample (i + 1)

@[simp] theorem length_samples (n : Nat) : (samples n).length = n := by simp [samples]

theorem mem_samples : o ∈ samples n ↔ ∃ i < n, sample (i + 1) = o := by simp [samples]

theorem nodup_samples (n : Nat) : ((samples n).map uid).Nodup := by
  rw [samples, List.map_map]
  apply List.nodup_range.map
  intro i j h
  by_contra hne
  exact Sample.uid_ne_of_ne (by omega) h

theorem validate_of_mem_samples (h : Instant.Covers (second n)) (ho : o ∈ samples n) :
    o.validate = .ok () := by
  obtain ⟨i, hi, rfl⟩ := mem_samples.1 ho
  have hc : Instant.Covers (second (i + 1)) := Sample.covers_of_le hi h
  exact (validate_sample_iff (Sample.number_lt_of_covers hc)).2 hc

theorem uid_ne_nil_of_mem_samples (ho : o ∈ samples n) : o.uid ≠ "" := by
  obtain ⟨i, -, rfl⟩ := mem_samples.1 ho
  exact Sample.append_ne_nil (by decide) _

theorem samples_rise (h : Instant.Covers (second n)) :
    (samples n).Pairwise fun a b => b.isNewer a = true := by
  rw [samples, List.pairwise_map]
  apply List.pairwise_lt_range.imp_of_mem
  intro i j _ hj hlt
  have hc : Instant.Covers (second (j + 1)) := Sample.covers_of_le (List.mem_range.1 hj) h
  exact isNewer_iff.2 (Sample.created_lt (Sample.number_lt_of_covers hc) (by omega) hc)

theorem newestFirst_samples (h : Instant.Covers (second n)) :
    Repository.newestFirst (samples n) = (samples n).reverse :=
  Repository.newestFirst_of_falls (List.reverse_perm _).symm
    (List.pairwise_reverse.2 (samples_rise h))

theorem uids_newest (n limit : Nat) : ((samples n).reverse.take limit).map uid =
    (List.range (min n limit)).map fun i => Sample.uid (n - i) := by
  apply List.ext_getElem
  · simp [Nat.min_comm]
  · intro i hi hi'
    simp only [List.length_map, List.length_range] at hi'
    simp only [samples, List.getElem_map, List.getElem_take, List.getElem_reverse,
      List.length_map, List.length_range, List.getElem_range, sample]
    congr 1
    omega

theorem nodup_uids_newest (n limit : Nat) :
    (((samples n).reverse.take limit).map uid).Nodup := by
  have hall : ((samples n).reverse.map uid).Nodup := by
    rw [List.map_reverse, List.nodup_reverse]
    exact nodup_samples n
  exact hall.sublist ((List.take_sublist _ _).map _)

end Order

namespace Repository

open OrderLookup.Order (samples)

def ofSamples (n : Nat) : Repository := empty.putAll (samples n)

variable {n : Nat}

theorem entries_ofSamples (n : Nat) :
    (ofSamples n).orders.entries = Resolver.byUid (samples n) :=
  entries_putAll (Order.nodup_samples n)

theorem size_ofSamples (n : Nat) : (ofSamples n).size = n := by
  rw [size, Table.size, entries_ofSamples, Resolver.length_byUid, Order.length_samples]

theorem get_ofSamples_iff {uid : String} {o : Order} :
    (ofSamples n).get uid = .ok o ↔ o ∈ samples n ∧ o.uid = uid := by
  rw [get_eq_ok_iff, Table.get?_eq_some_iff, entries_ofSamples, Resolver.byUid, List.mem_map]
  constructor
  · rintro ⟨a, ha, he⟩
    cases he
    exact ⟨ha, rfl⟩
  · rintro ⟨ho, rfl⟩
    exact ⟨o, ho, rfl⟩

theorem recent_ofSamples (h : Instant.Covers (Order.Sample.second n)) (limit : Nat) :
    (ofSamples n).recent limit = (samples n).reverse.take limit := by
  have hall : (ofSamples n).all = samples n := by
    rw [all, entries_ofSamples, Resolver.byUid, List.map_map]
    exact List.map_id _
  rw [recent, hall, Order.newestFirst_samples h]

end Repository

namespace Resolver

variable {s : Resolver} {id : Nat}

theorem AtRest.refresh (h : AtRest s id)
    (ho : outcome (s.flightFor id .refresh).pending (.ok s.newest) = .ok s.newest) :
    (s.perform id .refresh).reply? id = some (.loaded (.ok s.newest.length)) ∧
      (s.perform id .refresh).cache = s.cache.fill (byUid s.newest) := by
  have hfresh : ∀ g ∈ s.finished, g.id ≠ id := fun g hg => Nat.ne_of_lt (h.past g hg)
  have hreply : (s.awaited id .refresh).replyTo (s.flightFor id .refresh) =
      .loaded (.ok s.newest.length) := by
    change Reply.loaded ((outcome _ (.ok s.newest)).map List.length) = _
    rw [ho]
    rfl
  have hbrought : (s.awaited id .refresh).brought (s.flightFor id .refresh) = byUid s.newest :=
    brought_of_refresh (s := s.awaited id .refresh) rfl ho
  have hfinished := land_finished_eq (s.awaited id .refresh) (s.flightFor id .refresh)
  rw [hreply] at hfinished
  rw [perform_refresh h.flights h.callers, refreshAlone_eq]
  constructor
  · exact reply?_of_fresh (s := s) hfresh rfl hfinished
  · rw [land_cache, hbrought]
    rfl

end Resolver

namespace Ingest

open OrderLookup.Order (samples)
open OrderLookup.Order.Sample (second)
open Resolver (AtRest verdict)

/-- Whether the store fails no call, and answers each write and each load within its deadline. -/
structure Prompt (settings : Settings) (script : Script) : Prop where
  sound : ∀ c, script.failure c = none
  writes : ∀ uid, script.delay ⟨.upsertOrder, uid⟩ ≤ settings.writeTimeout
  loads : ∀ limit, script.delay ⟨.getRecent, limit⟩ ≤ settings.readTimeout

variable {settings : Settings} {script : Script} {o : Order} {n id capacity : Nat} {s : Resolver}
  {l : Loop}

theorem Prompt.verdict_eq (h : Prompt settings script) (ho : o.uid ≠ "") :
    verdict settings script o = .ok o.uid := by
  apply Resolver.outcome_eq_ok_iff.2
  refine ⟨?_, h.sound _, ?_⟩
  · exact decide_eq_true (h.writes o.uid)
  · rw [Repository.upsert, if_neg ho]
    rfl

theorem Prompt.judge_eq (h : Prompt settings script) (ho : o.uid ≠ "") (hv : o.validate = .ok ()) :
    judge settings script (.ofOrder o) = .ok o := by
  rw [judge, examine_of_valid hv]
  simp only [h.verdict_eq ho]

theorem Prompt.outcome_refresh (h : Prompt s.settings s.script) (id : Nat) :
    Resolver.outcome (s.flightFor id .refresh).pending (.ok s.newest) = .ok s.newest := by
  apply Resolver.outcome_eq_ok_iff.2
  refine ⟨?_, h.sound _, rfl⟩
  exact decide_eq_true (h.loads _)

theorem refresh_ofSamples (hs : AtRest s id) (h : Prompt s.settings s.script)
    (hn : Instant.Covers (second n)) (hr : s.repository = .ofSamples n)
    (hc : s.cache = Cache.ofCapacity capacity) (hlimit : s.settings.warmLimit ≤ max capacity 1) :
    (s.perform id .refresh).reply? id = some (.loaded (.ok (min n s.settings.warmLimit))) ∧
      (s.perform id .refresh).cache.keys =
        (List.range (min n s.settings.warmLimit)).map fun i => Order.Sample.uid (n - i) := by
  have hnewest : s.newest = (samples n).reverse.take s.settings.warmLimit := by
    rw [Resolver.newest, hr, Repository.recent_ofSamples hn]
  have hlength : s.newest.length = min n s.settings.warmLimit := by
    rw [hnewest, List.length_take, List.length_reverse, Order.length_samples, Nat.min_comm]
  have hdistinct : (s.newest.map Order.uid).Nodup := hnewest ▸ Order.nodup_uids_newest _ _
  have hroom : s.newest.length - (Cache.ofCapacity capacity : Cache Order).capacity = 0 := by
    rw [hlength]
    change min n s.settings.warmLimit - max capacity 1 = 0
    omega
  obtain ⟨hloaded, hcache⟩ := hs.refresh (h.outcome_refresh id)
  constructor
  · rw [hloaded, hlength]
  · rw [hcache, hc, Resolver.keys_of_warm (.ofCapacity capacity) rfl hdistinct, hroom,
      List.drop_zero, hnewest, Order.uids_newest]

theorem samples_eq (n : Nat) : Message.samples n = (samples n).map Message.ofOrder := by
  rw [Message.samples, samples, List.map_map]
  rfl

theorem judge_sample (h : Prompt settings script) (hn : Instant.Covers (second n))
    (ho : o ∈ samples n) : judge settings script (.ofOrder o) = .ok o :=
  h.judge_eq (Order.uid_ne_nil_of_mem_samples ho) (Order.validate_of_mem_samples hn ho)

theorem stored_samples (h : Prompt settings script) (hn : Instant.Covers (second n)) :
    stored settings script (Message.samples n) = samples n := by
  rw [stored, samples_eq, List.filterMap_map]
  have hall : ∀ o ∈ samples n,
      ((fun m => (judge settings script m).toOption) ∘ Message.ofOrder) o = some o := by
    intro o ho
    rw [Function.comp_apply, judge_sample h hn ho]
    rfl
  rw [List.filterMap_congr hall, List.filterMap_some]

theorem eq_map_of_fst {α β γ : Type} {f : γ → α} {g : γ → β} {es : List (α × β)} {xs : List γ}
    (hf : es.map Prod.fst = xs.map f) (hg : ∀ e ∈ es, ∀ x ∈ xs, e.1 = f x → e.2 = g x) :
    es = xs.map fun x => (f x, g x) := by
  induction xs generalizing es with
  | nil => exact List.map_eq_nil_iff.1 hf
  | cons x xs ih =>
    obtain ⟨e, es, rfl, he, hes⟩ := List.map_eq_cons_iff.1 hf
    have hsnd : e.2 = g x := hg e (.head _) x (.head _) he
    have hrest : es = xs.map fun x => (f x, g x) :=
      ih hes fun d hd y hy => hg d (.tail _ hd) y (.tail _ hy)
    rw [List.map_cons, ← hrest, ← he, ← hsnd]

namespace Loop

theorem Isolated.drain (h : l.Isolated s) : (clock.drain l.run).Isolated s :=
  drain_induction (fun _ _ h ht => h.turn (turn_cases ht)) (fun _ => Isolated.wake) h

/-- How a loop stands that has been fed the first `n` samples: they are committed, they are what the
store holds, and a refresh loads the newest of them. -/
structure Fed (n limit : Nat) (l : Loop) : Prop where
  handled : l.handled = (samples n).map fun o => (.ofOrder o, .committed o.uid)
  counters : l.counters = { received := n, committed := n }
  size : l.worker.resolver.repository.size = n
  holds : ∀ uid o, l.worker.resolver.repository.get uid = .ok o ↔ o ∈ samples n ∧ o.uid = uid
  cold : l.worker.resolver.cache.keys = []
  loaded : (l.worker.resolver.perform l.worker.operations .refresh).reply? l.worker.operations =
    some (.loaded (.ok (min n limit)))
  primed : (l.worker.resolver.perform l.worker.operations .refresh).cache.keys =
    (List.range (min n limit)).map fun i => Order.Sample.uid (n - i)

theorem committed_of_decision {outcome : Outcome} {uid : String} (h : outcome.decision = .ok uid) :
    outcome = .committed uid := by
  cases outcome with
  | committed uid' => rw [Except.ok.inj h]
  | diverted => cases h

theorem handled_samples (hprompt : Prompt s.settings s.script) (hn : Instant.Covers (second n))
    (h : l.Isolated s) (hall : l.handled.map Prod.fst = Message.samples n) :
    l.handled = (samples n).map fun o => (.ofOrder o, .committed o.uid) := by
  apply eq_map_of_fst (hall.trans (samples_eq n))
  intro e he o ho hmessage
  apply committed_of_decision
  rw [h.rulings e he, hmessage, ruling, judge_sample hprompt hn ho]
  rfl

theorem tally_samples (n : Nat) :
    tally (Message.samples n) ((samples n).map fun o => (.ofOrder o, .committed o.uid)) =
      { received := n, committed := n } := by
  simp [tally, samples_eq, List.countP_map, Function.comp_def, Outcome.isCommitted, Outcome.isLost]

theorem Fed.ofHandled (hprompt : Prompt settings script) (hn : Instant.Covers (second n))
    (hlimit : settings.warmLimit ≤ max capacity 1)
    (h : l.Isolated (Resolver.ofParts settings capacity .empty script))
    (htidy : Tidy (Message.samples n) l) (hall : l.handled.map Prod.fst = Message.samples n)
    (hp : ∀ m number, l.phase ≠ .storing m number) : Fed n settings.warmLimit l := by
  have hhandled := handled_samples (s := .ofParts settings capacity .empty script) hprompt hn h hall
  have hcache : l.worker.resolver.cache = Cache.ofCapacity capacity := h.frame.cache
  have hsettings : l.worker.resolver.settings = settings := h.frame.settings
  have hscript : l.worker.resolver.script = script := h.frame.script
  obtain ⟨hidle, hsettled⟩ := h.between hp
  have hrepository : l.worker.resolver.repository = .ofSamples n := by
    rw [hsettled, settledRepository, hall]
    exact congrArg _ (stored_samples hprompt hn)
  have hrefresh : Prompt l.worker.resolver.settings l.worker.resolver.script := by
    rw [hsettings, hscript]
    exact hprompt
  obtain ⟨hloaded, hprimed⟩ :=
    refresh_ofSamples hidle hrefresh hn hrepository hcache (hsettings ▸ hlimit)
  rw [hsettings] at hloaded hprimed
  constructor
  case handled => exact hhandled
  case counters =>
    rw [htidy.counters, taken_of_not_storing hp, hall, hhandled]
    exact tally_samples n
  case size =>
    rw [hrepository]
    exact Repository.size_ofSamples n
  case holds =>
    intro uid o
    rw [hrepository]
    exact Repository.get_ofSamples_iff
  case cold =>
    rw [hcache]
    rfl
  case loaded => exact hloaded
  case primed => exact hprimed

theorem Fed.ofDrain (hprompt : Prompt settings script) (hn : Instant.Covers (second n))
    (hlimit : settings.warmLimit ≤ max capacity 1)
    (h : l.Isolated (Resolver.ofParts settings capacity .empty script))
    (htidy : Tidy (Message.samples n) l) (hc : l.cancelled = false) :
    Fed n settings.warmLimit (clock.drain l.run) := by
  obtain ⟨hall, hp⟩ := htidy.drain_handles hc
  exact .ofHandled hprompt hn hlimit h.drain htidy.drain hall hp

/-- Samples that are published to a loop with an empty, prompt store are all committed, and a
refresh leaves the newest in the cache, the newest of all in front. -/
theorem samples_reach_the_cache (hprompt : Prompt settings script)
    (hn : Instant.Covers (second n)) (hlimit : settings.warmLimit ≤ max capacity 1)
    (name : String) (room : Nat) (sink : Option Topic) (time : Instant) :
    let start := ofParts (Resolver.ofParts settings capacity .empty script)
      (Topic.ofCapacity name room) sink time
    let fed := start.publishAll (Message.samples n)
    (fed.1 = some (.ok ()) ∧ Fed n settings.warmLimit (clock.drain fed.2.run)) ∧
      ∀ moves, (∀ a, .ask a ∉ moves) → .cancel ∉ moves →
        start.published moves = Message.samples n →
          Fed n settings.warmLimit (clock.drain (start.follow moves).run) := by
  intro start fed
  have hidle : start.worker.Idle := ⟨rfl, rfl, fun f hf => by cases hf⟩
  have hiso : start.Isolated (Resolver.ofParts settings capacity .empty script) :=
    .ofIdle hidle _
  have htidy : Tidy [] start := .ofParts _ (.ofParts ..) (.ofParts ..) _ rfl sink time
  have hmoves : ∀ moves, (∀ a, .ask a ∉ moves) → .cancel ∉ moves →
      start.published moves = Message.samples n →
        Fed n settings.warmLimit (clock.drain (start.follow moves).run) := by
    intro moves ha hcancel hpublished
    apply Fed.ofDrain hprompt hn hlimit
    · exact hiso.follow ha
    · rw [← hpublished]
      exact htidy.follow moves
    · exact cancelled_follow rfl hcancel
  have hopen : start.Open := ⟨rfl, rfl, rfl, Nat.lt_of_lt_of_le Nat.one_pos (Nat.le_max_right ..)⟩
  obtain ⟨l, he, moves, hserves, hpublished, rfl⟩ :=
    publishAll_succeeds htidy hopen (Message.samples n)
  -- What publishing leads to is one of the runs that all is known of already.
  refine ⟨?_, hmoves⟩
  rw [show fed = _ from he]
  refine ⟨rfl, hmoves moves (fun a ha => ?_) (fun hc => ?_) hpublished⟩
  · exact hserves _ ha
  · exact hserves _ hc

def patience : Script := { delays := [(.upsertOrder, .uniform 5)] }

def narrow : Loop :=
  ofParts (Resolver.ofParts { warmLimit := 2 } 2 .empty patience) (Topic.ofCapacity "orders" 1) none
    Instant.epoch

theorem samples_reach_the_cache_of_two :
    let l := clock.drain (narrow.publishAll (Message.samples 3)).2.run
    Prompt { warmLimit := 2 } patience ∧ Instant.Covers (second 3) ∧ 2 ≤ max 2 1 ∧
      (narrow.publishAll (Message.samples 3)).1 = some (.ok ()) ∧
      l.counters = { received := 3, committed := 3 } ∧
      l.worker.resolver.repository.get "b2" = .ok (Order.sample 2) ∧
      (l.worker.resolver.perform l.worker.operations .refresh).cache.keys = ["b3", "b2"] := by
  intro l
  have hprompt : Prompt { warmLimit := 2 } patience := by
    constructor
    case sound => exact fun c => rfl
    case writes => exact fun uid => (by decide : 5 ≤ ({ warmLimit := 2 } : Settings).writeTimeout)
    case loads => exact fun limit => Nat.zero_le _
  have hn : Instant.Covers (second 3) := by decide
  have hlimit : 2 ≤ max 2 1 := by decide
  have hok : (narrow.publishAll (Message.samples 3)).1 = some (.ok ()) :=
    (samples_reach_the_cache hprompt hn hlimit "orders" 1 none Instant.epoch).1.1
  have hfed : Fed 3 2 l :=
    (samples_reach_the_cache hprompt hn hlimit "orders" 1 none Instant.epoch).1.2
  -- Nothing below may run the loop.
  clear_value l
  have hsecond : Order.sample 2 ∈ samples 3 := Order.mem_samples.2 ⟨1, by decide, rfl⟩
  refine ⟨hprompt, hn, hlimit, hok, hfed.counters, ?_, ?_⟩
  · exact (hfed.holds _ _).2 ⟨hsecond, by decide⟩
  · rw [hfed.primed]
    decide

end Loop

end Ingest

end OrderLookup
