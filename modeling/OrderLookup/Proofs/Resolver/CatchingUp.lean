import OrderLookup.Proofs.Resolver.Asking
import OrderLookup.Proofs.Resolver.Closing
import OrderLookup.Proofs.Resolver.Fetching
import OrderLookup.Proofs.Resolver.Once
import OrderLookup.Proofs.Resolver.Refreshing

/-!
What a refresh does for the lookups after it. What the cache holds under the ids of the load is what
the store holds, and whatever else is in the cache has been there. So the next lookup of one of
these ids brings an order from the store, either because the cache has it or because the store is
asked, by this lookup or by another one that is under way.
-/

namespace OrderLookup.Resolver

/-- Whether the store answers each call for the order of an id in time and without failure, be it in
flight or yet to begin. -/
structure Answering (s : Resolver) (uid : String) : Prop where
  delay : s.script.delay ⟨.getOrder, uid⟩ ≤ s.settings.readTimeout
  failure : s.script.failure ⟨.getOrder, uid⟩ = none
  flights : ∀ f ∈ s.flights, f.work = .fetch uid → f.pending.inTime ∧ f.pending.failure = none

variable {s : Resolver} {m : Move} {ms : List Move} {ids : List Nat} {id n : Nat} {uid : String}
  {o : Order} {held : List Order}

theorem Answering.move (ha : Answering s uid) (h : Coherent ids s)
    (hm : ∀ id r, m ≠ .start id (.script r)) : Answering (s.move m) uid := by
  obtain ⟨hsettings, hscript⟩ := move_rules s hm
  refine ⟨?_, ?_, fun f hf hw => ?_⟩
  · rw [hsettings, hscript]
    exact ha.delay
  · rw [hscript]
    exact ha.failure
  · rcases flights_move h m hf with hf | ⟨hnew, -⟩
    · exact ha.flights f hf hw
    · rw [hnew, hw]
      exact ⟨decide_eq_true ha.delay, ha.failure⟩

theorem Answering.run (ha : Answering s uid) (h : Coherent ids s)
    (hn : (ids ++ started ms).Nodup) (hm : ∀ id r, .start id (.script r) ∉ ms) :
    Answering (s.run ms) uid :=
  h.run_induction (P := fun s => Answering s uid) hn ha fun _ _ _ he hb _ ha =>
    ha.move hb fun id r hmem => hm id r (by simp [he, hmem])

theorem Origin.ok {r : Except OrderError Order} (ho : Origin s id uid ms r)
    (hs : (s.repository.orders.get? uid).isSome)
    (ha : ∀ before after, ms = before ++ after →
      Answering (s.run (.start id (.get uid) :: before)) uid) : ∃ o, r = .ok o := by
  cases ho with
  | cached => exact ⟨_, rfl⟩
  | takenOver => exact ⟨_, rfl⟩
  | @fetched before after f he hf hw =>
    obtain ⟨hintime, hfailure⟩ := (ha before _ he).flights f hf hw
    obtain ⟨o, ho⟩ := Option.isSome_iff_exists.1
      (stays_stored hs (.start id (.get uid) :: before))
    exact ⟨o, outcome_eq_ok_iff.2 ⟨hintime, hfailure, Repository.get_eq_ok_iff.2 ho⟩⟩

theorem upserted_past (hu : s.upserted? m = some o) :
    (∃ i, m = .start i (.store o)) ∨ ∃ f ∈ s.flights, f.work = .save o := by
  cases m with
  | start i a =>
    cases a with
    | store a =>
      obtain ⟨r, -, rfl⟩ := Option.map_eq_some_iff.1 hu
      exact .inl ⟨i, rfl⟩
    | _ => cases hu
  | land f =>
    rw [upserted?] at hu
    split at hu
    · rename_i a hw
      split at hu
      · rename_i hf
        obtain ⟨r, -, rfl⟩ := Option.map_eq_some_iff.1 hu
        exact .inr ⟨f, hf, hw⟩
      · cases hu
    · cases hu
  | _ => cases hu

theorem unwritten_upserts (h : Coherent ids s) (hn : (ids ++ started ms).Nodup)
    (hf : ∀ f ∈ s.flights, ¬Writes f uid)
    (hm : ∀ i o, .start i (.create o) ∉ ms ∧ .start i (.store o) ∉ ms) :
    ∀ o ∈ s.upserts ms, o.uid ≠ uid := by
  intro o ho hu
  obtain ⟨before, m, after, he, hup⟩ := mem_upserts_iff.1 ho
  subst he
  rw [started_append, ← List.append_assoc] at hn
  have hquiet : ∀ f ∈ (s.run before).flights, ¬Writes f uid := by
    refine h.run_induction (P := fun s => ∀ f ∈ s.flights, ¬Writes f uid) (List.nodup_append.1 hn).1
      hf fun past m' rest he hb _ hquiet f hfl hw => ?_
    obtain ⟨a, hw, ha⟩ := hw
    rcases flights_move hb m' hfl with hfl | ⟨-, hnew⟩
    · exact hquiet f hfl ⟨a, hw, ha⟩
    · exact (hm f.id a).1 (by simp [he, hnew a hw])
  rcases upserted_past hup with ⟨i, hi⟩ | ⟨f, hfl, hw⟩
  · exact (hm i o).2 (by simp [hi])
  · exact hquiet f hfl ⟨o, hw, hu⟩

theorem exists_run_perform (s : Resolver) (id : Nat) (uid : String) :
    ∃ ms, operations ms = [] ∧ s.run (.start id (.get uid) :: ms) = s.perform id (.get uid) := by
  have hleads : Leads (s.start id (.get uid)) [] (s.perform id (.get uid)) :=
    (Leads.proceed _).trans (Leads.advanceFor none _ _)
  exact hleads

theorem perform_get_finishes (h : Coherent ids s) (hm : Manned s) (hn : (ids ++ [id]).Nodup)
    (uid : String) : ∃ t r, ⟨id, t, .found r⟩ ∈ (s.perform id (.get uid)).finished := by
  obtain ⟨hact, hsettled⟩ := h.act hn (.get uid)
  have hrest : (s.perform id (.get uid)).registry.callers = [] :=
    (drain_rests hact ((Leads.act s id _).manned h hm hn) hn hsettled).2
  obtain ⟨ms, hops, hrun⟩ := exists_run_perform s id uid
  have hstarted : started ms = [] := started_eq_nil hops
  rw [← hrun] at hrest ⊢
  exact get_answered h (by rwa [hstarted]) (fun i => not_mem_of_operations hops i _) hrest

theorem start_get_cached (h : Coherent ids s) (hp : s.cache.peek uid = some o) (id : Nat) :
    s.start id (.get uid) =
      { s with cache := (s.cache.get uid).2 }.finish id (.found (.ok o)) := by
  rw [start, get_eq h.sound, hp]

/-- What a lookup of an order brings that is carried out: what the store has held since it began,
and just this order if the cache has it, or if nobody is about to write another one. -/
structure Brings (s : Resolver) (id : Nat) (o : Order) (moves : List Move) (a : Order) : Prop where
  asked : operations moves = [(id, .get o.uid)]
  performed : s.run moves = s.perform id (.get o.uid)
  reply : (s.perform id (.get o.uid)).reply? id = some (.found (.ok a))
  held : Held s moves o.uid a
  kept : s.cache.peek o.uid = some o → a = o
  alone : (∀ f ∈ s.flights, ¬Writes f o.uid) → a = o

theorem get_finds (h : Coherent ids s) (hm : Manned s) (hn : (ids ++ [id]).Nodup)
    (hr : s.repository.HoldsOnly held) (hs : s.repository.orders.get? o.uid = some o)
    (hp : s.cache.peek o.uid = none ∨ s.cache.peek o.uid = some o) (ha : Answering s o.uid)
    (hops : operations ms = [])
    (hrun : s.run (.start id (.get o.uid) :: ms) = s.perform id (.get o.uid)) :
    ∃ t a, ⟨id, t, .found (.ok a)⟩ ∈ (s.perform id (.get o.uid)).finished ∧
      Held s (.start id (.get o.uid) :: ms) o.uid a := by
  have hquiet := not_mem_of_operations hops
  have hstarted : started ms = [] := started_eq_nil hops
  have hnodup : (ids ++ id :: started ms).Nodup := by rwa [hstarted]
  obtain ⟨t, r, hfin⟩ := perform_get_finishes h hm hn o.uid
  have horigin : Origin s id o.uid ms r := origin_of_get h hnodup (hrun ▸ hfin) rfl rfl
  have hanswers : ∀ before after, ms = before ++ after →
      Answering (s.run (.start id (.get o.uid) :: before)) o.uid := by
    intro before after he
    refine ha.run h ?_ fun i a hi => ?_
    · rw [he, started_append, ← List.cons_append, ← List.append_assoc] at hnodup
      exact (List.nodup_append.1 hnodup).1
    · rcases List.mem_cons.1 hi with hi | hi
      · cases hi
      · exact hquiet i _ (he ▸ List.mem_append_left _ hi)
  obtain ⟨a, rfl⟩ := horigin.ok (hs ▸ rfl) hanswers
  refine ⟨t, a, hfin, ?_⟩
  by_cases hc : s.cache.peek o.uid = some a
  · rcases hp with hnone | hsame
    · rw [hnone] at hc
      cases hc
    · rw [hsame] at hc
      cases hc
      exact ⟨[], _, rfl, hs⟩
  · refine (horigin.kept h hnodup).held h hnodup hr (fun i key b hi => ?_) hc
    rcases List.mem_cons.1 hi with hi | hi
    · cases hi
    · exact hquiet i _ hi

theorem lookup_brings (h : Coherent ids s) (hm : Manned s) (hone : Single s)
    (hn : (ids ++ [id]).Nodup) (hr : s.repository.HoldsOnly held)
    (hs : s.repository.orders.get? o.uid = some o)
    (hp : s.cache.peek o.uid = none ∨ s.cache.peek o.uid = some o) (ha : Answering s o.uid) :
    ∃ moves a, Brings s id o moves a := by
  obtain ⟨ms, hops, hrun⟩ := exists_run_perform s id o.uid
  obtain ⟨t, a, hfin, hheld⟩ := get_finds h hm hn hr hs hp ha hops hrun
  have hsingle : Single (s.perform id (.get o.uid)) :=
    hone.ofLeads h hm (Leads.perform s id _) hn
  refine ⟨.start id (.get o.uid) :: ms, a, ?_⟩
  constructor
  case asked => exact congrArg ((id, .get o.uid) :: ·) hops
  case performed => exact hrun
  case reply => exact hsingle.reply?_eq hfin
  case held => exact hheld
  case kept =>
    intro hc
    have hlater : Leads (s.start id (.get o.uid)) [] (s.perform id (.get o.uid)) := ⟨ms, hops, hrun⟩
    have hearly : ⟨id, s.now, .found (.ok o)⟩ ∈ (s.start id (.get o.uid)).finished := by
      rw [start_get_cached h hc]
      exact List.mem_append_right _ (.head _)
    cases hsingle.eq_of_id (hlater.finished hearly) hfin rfl
    rfl
  case alone =>
    intro hw
    have hstarted : started ms = [] := started_eq_nil hops
    have hids : (ids ++ started (.start id (.get o.uid) :: ms)).Nodup := by
      rw [started_cons, hstarted]
      exact hn
    have hquiet : ∀ i b, .start i b ∈ .start id (.get o.uid) :: ms → b = .get o.uid := by
      intro i b hi
      rcases List.mem_cons.1 hi with hi | hi
      · exact (Move.start.inj hi).2
      · exact absurd hi (not_mem_of_operations hops i b)
    refine hheld.eq_of_unwritten hs (unwritten_upserts h hids hw fun i b => ⟨?_, ?_⟩)
    · intro hi
      cases hquiet i _ hi
    · intro hi
      cases hquiet i _ hi

/-- What a refresh that reports `n` orders leaves, and what the next lookup brings. -/
structure CaughtUp (s : Resolver) (n : Nat) (s' : Resolver) (later : Nat) : Prop where
  count : n = min s.settings.warmLimit s.repository.size
  repository : s'.repository = s.repository
  newest : ∀ o, o ∈ s.newest ↔ o ∈ s.repository.all ∧ s.repository.newer o < n
  stored : ∀ o ∈ s.newest, s'.repository.orders.get? o.uid = some o
  cached : ∀ o ∈ s.newest, ∀ a, s'.cache.peek o.uid = some a → a = o
  others : ∀ uid a, uid ∉ s.newest.map Order.uid → s'.cache.peek uid = some a →
    s.cache.peek uid = some a
  next : ∀ o ∈ s.newest, Answering s' o.uid → ∃ moves a, Brings s' later o moves a

/-- After a refresh that nothing comes between and that reports success, whatever else is under way,
the cache has caught up with the newest orders. -/
theorem refresh_catches_up {settings : Settings} {capacity : Nat} {orders : List Order}
    {script : Script} {later : Nat}
    (hs : s = (ofParts settings capacity (Repository.ofOrders orders) script).run ms)
    (hn : (started ms ++ [id, later]).Nodup)
    (hdates : (s.repository.all.map Order.dateCreated).Nodup)
    (hr : (s.refreshAlone id).reply? id = some (.loaded (.ok n))) :
    CaughtUp s n (s.refreshAlone id) later := by
  have hids : (started ms ++ [id] ++ [later]).Nodup := by simpa using hn
  have hn₁ := (List.nodup_append.1 hids).1
  obtain ⟨hc, hid, hord, held, hrepo⟩ := reached hs hn₁
  have hdistinct : (s.newest.map Order.uid).Nodup := hrepo.nodup_recent _
  obtain ⟨hload, hcache⟩ := cache_of_loaded hc hid hr
  have hrepository := s.refreshAlone_repository id
  have hsize : n = min s.settings.warmLimit s.repository.size :=
    hload.trans (Repository.length_recent ..)
  have hstored : ∀ o ∈ s.newest, (s.refreshAlone id).repository.orders.get? o.uid = some o := by
    intro o ho
    rw [hrepository]
    exact hrepo.get?_of_mem_recent ho
  have hpeek : ∀ o ∈ s.newest, (s.refreshAlone id).cache.peek o.uid = none ∨
      (s.refreshAlone id).cache.peek o.uid = some o :=
    fun o ho => peek_of_newest hord hdistinct hcache ho
  constructor
  case count => exact hsize
  case repository => exact hrepository
  case newest =>
    intro o
    rw [hsize]
    exact Repository.mem_recent_iff hdates
  case stored => exact hstored
  case cached =>
    intro o ho a ha
    rcases hpeek o ho with hnone | hsame
    · rw [hnone] at ha
      cases ha
    · rw [hsame] at ha
      exact (Option.some.inj ha).symm
  case others =>
    intro uid a hnew ha
    rw [← map_fst_byUid] at hnew
    rw [hcache] at ha
    rcases hord.fill_peek_of_not_mem hnew with hsame | ⟨hgone, -⟩
    · rwa [hsame] at ha
    · rw [hgone] at ha
      cases ha
  case next =>
    intro o ho ha
    have hafter : (started ms ++ started [.start id .refresh, .wait (s.flightFor id .refresh).due,
        .land (s.flightFor id .refresh)]).Nodup := hn₁
    have hstarted := (List.nodup_append.1 hn₁).1
    have hbase : Coherent [] (ofParts settings capacity (Repository.ofOrders orders) script) :=
      .ofParts ..
    have hm : Manned s := hs ▸ (Manned.ofParts ..).run hbase hstarted
    have hone : Single s := hs ▸ (Single.ofParts ..).run hbase (.ofParts ..) hstarted
    have hrepo' : (s.refreshAlone id).repository.HoldsOnly held := by rwa [hrepository]
    exact lookup_brings (hc.run hafter) (hm.run hc hafter) (hone.run hc hm hafter) hids hrepo'
      (hstored o ho) (hpeek o ho) ha

theorem refresh_catches_up_with_a_lost_order :
    ∃ ms, (started ms ++ [2, 3]).Nodup ∧
      ((tight.run ms).refreshAlone 2).reply? 2 = some (.loaded (.ok 2)) ∧
      ((tight.run ms).refreshAlone 2).cache.peek "a" = none ∧
      (((tight.run ms).refreshAlone 2).perform 3 (.get "a")).reply? 3 =
        some (.found (.ok (dated "a" 3))) := by
  have hn : (started lookups ++ [2, 3]).Nodup := by decide
  have hdates : ((tight.run lookups).repository.all.map Order.dateCreated).Nodup := by
    have hall : (tight.run lookups).repository = tight.repository := rfl
    rw [hall]
    decide
  have hflights : ((tight.run lookups).refreshAlone 2).flights = [] := by decide
  have hscript : ((tight.run lookups).refreshAlone 2).script = {} := by decide
  have ha : Answering ((tight.run lookups).refreshAlone 2) "a" := by
    refine ⟨?_, ?_, by simp [hflights]⟩
    · rw [hscript]
      exact Nat.zero_le _
    · rw [hscript]
      rfl
  have hcaught := refresh_catches_up (s := tight.run lookups) rfl hn hdates refresh_after_lookups
  obtain ⟨moves, o, hbrings⟩ :=
    hcaught.next (dated "a" 3) (newest_after_lookups ▸ .head _) ha
  have hsame := hbrings.alone (by simp [hflights])
  exact ⟨lookups, hn, refresh_after_lookups, peek_after_refresh, hsame ▸ hbrings.reply⟩

end OrderLookup.Resolver
