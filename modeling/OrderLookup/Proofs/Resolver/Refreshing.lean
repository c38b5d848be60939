import OrderLookup.Order.Sample
import OrderLookup.Proofs.Cache.Filling
import OrderLookup.Proofs.Repository.Newest
import OrderLookup.Proofs.Resolver.Alone

/-!
What a refresh loads. The newest orders go into the cache one after another, the newest first, and
each of them may push out another entry. So a refresh keeps all that it loads only if none of it
stands in the cache already where it has to leave, and an empty cache is left with the oldest
orders of the load if they are more than it has room for.
-/

namespace OrderLookup.Resolver

open Cache (Ordered)

def byUid (l : List Order) : List (String × Order) := l.map fun o => (o.uid, o)

def newest (s : Resolver) : List Order := s.repository.recent s.settings.warmLimit

def brought (s : Resolver) (f : Flight) : List (String × Order) :=
  match f.work with
  | .fetch uid =>
    match outcome f.pending (s.repository.get uid) with
    | .ok o => [(uid, o)]
    | .error _ => []
  | .save _ => []
  | .refresh =>
    match outcome f.pending (.ok s.newest) with
    | .ok l => byUid l
    | .error _ => []

/-- A refresh that nothing comes between: it starts, and its store call ends when it is due. -/
def refreshAlone (s : Resolver) (id : Nat) : Resolver :=
  let f := s.flightFor id .refresh
  s.run [.start id .refresh, .wait f.due, .land f]

variable {s s' : Resolver} {m : Move} {ms : List Move} {ids : List Nat} {id n : Nat} {uid : String}
  {o : Order} {l before rest : List Order}

@[simp] theorem byUid_append (l l' : List Order) : byUid (l ++ l') = byUid l ++ byUid l' :=
  List.map_append

@[simp] theorem byUid_cons (o : Order) (l : List Order) : byUid (o :: l) = (o.uid, o) :: byUid l :=
  rfl

@[simp] theorem map_fst_byUid (l : List Order) : (byUid l).map Prod.fst = l.map Order.uid := by
  rw [byUid, List.map_map]
  rfl

@[simp] theorem length_byUid (l : List Order) : (byUid l).length = l.length := List.length_map _

theorem fillAll_cache (s : Resolver) (l : List Order) :
    (l.foldl (fun s o => s.fillCache o.uid o) s).cache = s.cache.fill (byUid l) := by
  induction l generalizing s with
  | nil => rfl
  | cons o l ih => exact ih (s.fillCache o.uid o)

theorem get_cache (h : Coherent ids s) (id : Nat) (uid : String) :
    (s.get id uid).cache = (s.cache.get uid).2 := by
  rw [get_eq h.sound]
  split
  · rfl
  · dsimp only
    split <;> rfl

theorem land_cache (s : Resolver) (f : Flight) :
    (s.land f).cache = s.cache.fill (s.brought f) := by
  rw [land, resume, brought]
  cases f.work with
  | fetch uid =>
    dsimp only
    rw [withoutFlight_repository]
    cases outcome f.pending (s.repository.get uid) <;> rfl
  | save o =>
    dsimp only
    split <;> rfl
  | refresh =>
    have hnewest : (s.withoutFlight f.id).repository.recent
        (s.withoutFlight f.id).settings.warmLimit = s.newest := rfl
    dsimp only
    rw [hnewest]
    cases outcome f.pending (.ok s.newest) with
    | ok l => exact fillAll_cache _ l
    | error e => rfl

theorem brought_of_refresh {f : Flight} (hw : f.work = .refresh)
    (ho : outcome f.pending (.ok s.newest) = .ok s.newest) : s.brought f = byUid s.newest := by
  rw [brought, hw]
  dsimp only
  rw [ho]

theorem ordered_move (h : Coherent ids s) (hc : s.cache.Ordered) (m : Move) :
    (s.move m).cache.Ordered := by
  cases m with
  | start id a =>
    cases a with
    | get uid =>
      rw [move, start, get_cache h]
      exact hc.get uid
    | cacheSet key o => exact hc.set key o
    | cacheGet key => exact hc.get key
    | store o =>
      rw [move, start]
      split <;> exact hc
    | _ => exact hc
  | land f =>
    rw [move]
    split
    · rw [land_cache]
      exact hc.fill _
    · exact hc
  | takeOver id => rwa [move, takeOver_cache]
  | collect id => rwa [move, collect_cache]
  | wait time => exact hc

theorem ordered_run (h : Coherent ids s) (hc : s.cache.Ordered) (hn : (ids ++ started ms).Nodup) :
    (s.run ms).cache.Ordered :=
  h.run_induction (P := fun s => s.cache.Ordered) hn hc
    fun _ m _ _ hb _ hord => ordered_move hb hord m

theorem refreshAlone_eq (s : Resolver) (id : Nat) :
    s.refreshAlone id = (s.awaited id .refresh).land (s.flightFor id .refresh) :=
  if_pos (List.mem_append_right _ (.head _))

theorem land_refresh {f : Flight} (hw : f.work = .refresh) :
    (s.land f).finished = s.finished ++
      [⟨f.id, s.now, .loaded ((outcome f.pending (.ok s.newest)).map List.length)⟩] := by
  have hnewest : (s.withoutFlight f.id).repository.recent
      (s.withoutFlight f.id).settings.warmLimit = s.newest := rfl
  rw [land, resume, hw]
  dsimp only
  rw [hnewest]
  cases outcome f.pending (.ok s.newest) with
  | ok l =>
    dsimp only
    rw [finish, fillAll_finished, fillAll_now]
    rfl
  | error e => rfl

theorem reply?_refreshAlone (h : Coherent ids s) (hid : id ∉ ids) :
    (s.refreshAlone id).reply? id = some (.loaded
      ((outcome (s.flightFor id .refresh).pending (.ok s.newest)).map List.length)) := by
  have hfin := land_refresh (s := s.awaited id .refresh) (f := s.flightFor id .refresh) rfl
  have hold : ∀ g ∈ s.finished, g.id ≠ id := fun g hg hi => hid (hi ▸ h.finished g hg)
  rw [refreshAlone_eq]
  exact reply?_of_fresh hold rfl hfin

theorem cache_of_loaded (h : Coherent ids s) (hid : id ∉ ids)
    (hr : (s.refreshAlone id).reply? id = some (.loaded (.ok n))) :
    n = s.newest.length ∧ (s.refreshAlone id).cache = s.cache.fill (byUid s.newest) := by
  rw [reply?_refreshAlone h hid] at hr
  have hloaded := Reply.loaded.inj (Option.some.inj hr)
  cases ho : outcome (s.flightFor id .refresh).pending (.ok s.newest) with
  | error e =>
    rw [ho] at hloaded
    cases hloaded
  | ok l =>
    rw [ho] at hloaded
    have hl : s.newest = l := Except.ok.inj (outcome_eq_ok_iff.1 ho).2.2
    rw [← hl] at ho hloaded
    refine ⟨(Except.ok.inj hloaded).symm, ?_⟩
    rw [refreshAlone_eq, land_cache]
    exact congrArg s.cache.fill (brought_of_refresh (s := s.awaited id .refresh) rfl ho)

theorem refreshAlone_repository (s : Resolver) (id : Nat) :
    (s.refreshAlone id).repository = s.repository := by
  rw [refreshAlone_eq]
  exact land_repository _ _

theorem perform_refresh (hf : s.flights = []) (hc : s.registry.callers = []) (id : Nat) :
    s.perform id .refresh = s.refreshAlone id := by
  rw [refreshAlone_eq]
  exact drain_launch hf hc fun s' => land_registry s' (by simp [flightFor])

/-- Whether a load is in the cache when it has gone in, and no order of it has pushed out one that
went in before. -/
structure Loaded (c : Cache Order) (load : List Order) : Prop where
  held : ∀ o ∈ load, (c.fill (byUid load)).peek o.uid = some o
  spared : ∀ before o rest, load = before ++ o :: rest → ∀ d ∈ before,
    ((c.fill (byUid before)).set o.uid o).1 ≠ .evicted d.uid

def leaving (c : Cache Order) (load : List Order) : Nat :=
  (c.fill (byUid load)).counters.evictions - c.counters.evictions

/-- Whether the first order of a load is lost again: it was in the cache, with no more entries in
front of it than leave while the load goes in. -/
def Overtaken (c : Cache Order) (o : Order) (rest : List Order) : Prop :=
  o.uid ∈ c.keys.take (leaving c (o :: rest))

section Loading

variable {c : Cache Order} {load : List Order}

theorem uid_not_mem_of_nodup (h : ((before ++ o :: rest).map Order.uid).Nodup) :
    o.uid ∉ rest.map Order.uid := by
  rw [List.map_append, List.map_cons] at h
  exact (List.nodup_cons.1 (List.nodup_append.1 h).2.1).1

theorem peek_of_load (h : c.Ordered) (hn : ((before ++ o :: rest).map Order.uid).Nodup) :
    (c.fill (byUid (before ++ o :: rest))).peek o.uid = none ∨
      (c.fill (byUid (before ++ o :: rest))).peek o.uid = some o := by
  have hnew : o.uid ∉ (byUid rest).map Prod.fst := by
    rw [map_fst_byUid]
    exact uid_not_mem_of_nodup hn
  rw [byUid_append, byUid_cons]
  rcases h.fill_peek hnew with hs | ⟨hs, -⟩
  · exact .inr hs
  · exact .inl hs

theorem peek_of_load_eq_none_iff (h : c.Ordered)
    (hn : ((before ++ o :: rest).map Order.uid).Nodup) (hl : rest.length < c.capacity) :
    (c.fill (byUid (before ++ o :: rest))).peek o.uid = none ↔
      Overtaken (c.fill (byUid before)) o rest := by
  have hnew : o.uid ∉ (byUid rest).map Prod.fst := by
    rw [map_fst_byUid]
    exact uid_not_mem_of_nodup hn
  have hlen : (byUid rest).length < (c.fill (byUid before)).capacity := by
    rwa [length_byUid, Cache.fill_capacity]
  rw [byUid_append, byUid_cons, Cache.fill_append, (h.fill _).fill_peek_eq_none_iff hnew hlen]
  rfl

theorem loaded_iff (h : c.Ordered) (hn : (load.map Order.uid).Nodup)
    (hl : load.length ≤ c.capacity) :
    Loaded c load ↔ ∀ before o rest, load = before ++ o :: rest →
      ¬Overtaken (c.fill (byUid before)) o rest := by
  have hpeek : ∀ before o rest, load = before ++ o :: rest →
      ((c.fill (byUid load)).peek o.uid = none ↔ Overtaken (c.fill (byUid before)) o rest) := by
    rintro before o rest rfl
    rw [List.length_append, List.length_cons] at hl
    exact peek_of_load_eq_none_iff h hn (by omega)
  constructor
  · intro hload before o rest he hlost
    have hheld := hload.held o (he ▸ by simp)
    rw [(hpeek before o rest he).2 hlost] at hheld
    cases hheld
  · intro hkept
    have hheld : ∀ o ∈ load, (c.fill (byUid load)).peek o.uid = some o := by
      intro o ho
      obtain ⟨before, rest, rfl⟩ := List.append_of_mem ho
      refine (peek_of_load h hn).resolve_left fun hnone => ?_
      exact hkept before o rest rfl ((hpeek before o rest rfl).1 hnone)
    refine ⟨hheld, ?_⟩
    rintro before o rest rfl d hd hout
    have hdlater : d.uid ∉ (byUid (o :: rest)).map Prod.fst := by
      rw [map_fst_byUid]
      rw [List.map_append] at hn
      exact fun hm => (List.nodup_append.1 hn).2.2 _ (List.mem_map_of_mem hd) _ hm rfl
    have hgone : (c.fill (byUid (before ++ o :: rest))).peek d.uid = none := by
      rw [byUid_append]
      exact h.fill_peek_of_evicted hout hdlater
    rw [hheld d (by simp [hd])] at hgone
    cases hgone

theorem not_overtaken_of_new (h : c.Ordered) (hn : ((before ++ o :: rest).map Order.uid).Nodup)
    (hnew : o.uid ∉ c.keys) : ¬Overtaken (c.fill (byUid before)) o rest := by
  intro hlost
  rcases h.mem_keys_fill (List.mem_of_mem_take hlost) with hm | hm
  · exact hnew hm
  · rw [map_fst_byUid] at hm
    rw [List.map_append, List.map_cons] at hn
    exact (List.nodup_append.1 hn).2.2 _ hm _ (.head _) rfl

end Loading

theorem reached {settings : Settings} {capacity : Nat} {orders : List Order} {script : Script}
    (hs : s = (ofParts settings capacity (Repository.ofOrders orders) script).run ms)
    (hn : (started ms ++ [id]).Nodup) :
    Coherent (started ms) s ∧ id ∉ started ms ∧ s.cache.Ordered ∧
      ∃ held, s.repository.HoldsOnly held := by
  have hstarted : (started ms).Nodup := (List.nodup_append.1 hn).1
  have hstart : Coherent [] (ofParts settings capacity (Repository.ofOrders orders) script) :=
    .ofParts ..
  rw [hs]
  refine ⟨?_, fun hm => (List.nodup_append.1 hn).2.2 _ hm _ (.head _) rfl, ?_, ?_⟩
  · simpa using hstart.run (by simpa using hstarted)
  · exact ordered_run hstart (.ofCapacity capacity) hstarted
  · exact ⟨_, holdsOnly_run (.ofOrders orders) ms⟩

theorem peek_of_newest (hord : s.cache.Ordered) (hdistinct : (s.newest.map Order.uid).Nodup)
    (hcache : (s.refreshAlone id).cache = s.cache.fill (byUid s.newest)) (ho : o ∈ s.newest) :
    (s.refreshAlone id).cache.peek o.uid = none ∨
      (s.refreshAlone id).cache.peek o.uid = some o := by
  obtain ⟨before, rest, he⟩ := List.append_of_mem ho
  rw [hcache, he]
  exact peek_of_load hord (he ▸ hdistinct)

/-- A refresh that reports no more orders than there is room for has loaded them all exactly if none
of them is overtaken. -/
theorem refresh_loads_iff {settings : Settings} {capacity : Nat} {orders : List Order}
    {script : Script}
    (hs : s = (ofParts settings capacity (Repository.ofOrders orders) script).run ms)
    (hn : (started ms ++ [id]).Nodup)
    (hr : (s.refreshAlone id).reply? id = some (.loaded (.ok n))) (hcap : n ≤ s.cache.capacity) :
    s.newest.length = n ∧ (s.refreshAlone id).cache = s.cache.fill (byUid s.newest) ∧
      (∀ o ∈ s.newest, (s.refreshAlone id).repository.orders.get? o.uid = some o ∧
        ((s.refreshAlone id).cache.peek o.uid = none ∨
          (s.refreshAlone id).cache.peek o.uid = some o)) ∧
      (Loaded s.cache s.newest ↔ ∀ before o rest, s.newest = before ++ o :: rest →
        ¬Overtaken (s.cache.fill (byUid before)) o rest) ∧
      ∀ before o rest, s.newest = before ++ o :: rest → o.uid ∉ s.cache.keys →
        ¬Overtaken (s.cache.fill (byUid before)) o rest := by
  obtain ⟨hc, hid, hord, held, hrepo⟩ := reached hs hn
  have hdistinct : (s.newest.map Order.uid).Nodup := hrepo.nodup_recent _
  obtain ⟨rfl, hcache⟩ := cache_of_loaded hc hid hr
  refine ⟨rfl, hcache, fun o ho => ⟨?_, ?_⟩, loaded_iff hord hdistinct hcap, ?_⟩
  · rw [refreshAlone_repository]
    exact hrepo.get?_of_mem_recent ho
  · exact peek_of_newest hord hdistinct hcache ho
  · exact fun before o rest he => not_overtaken_of_new hord (he ▸ hdistinct)

def dated (uid : String) (minutes : Nat) : Order where
  uid := uid
  dateCreated := Order.Sample.created minutes

def fetchingOf (id : Nat) (uid : String) : Flight :=
  ⟨id, .fetch uid, .start {} ⟨.getOrder, uid⟩ 0 2000⟩

def tight : Resolver :=
  ofParts { warmLimit := 2 } 2 (Repository.ofOrders [dated "a" 3, dated "b" 2, dated "x" 1]) {}

theorem refresh_loads_after_get :
    ∃ ms, (started ms ++ [1]).Nodup ∧
      ((tight.run ms).refreshAlone 1).reply? 1 = some (.loaded (.ok 2)) ∧
      2 ≤ (tight.run ms).cache.capacity ∧ Loaded (tight.run ms).cache (tight.run ms).newest := by
  let ms : List Move := [.start 0 (.get "x"), .land (fetchingOf 0 "x")]
  have hr : ((tight.run ms).refreshAlone 1).reply? 1 = some (.loaded (.ok 2)) := rfl
  obtain ⟨-, -, -, hiff, hnew⟩ :=
    refresh_loads_iff (s := tight.run ms) rfl (by decide) hr (Nat.le_refl 2)
  refine ⟨ms, by decide, hr, Nat.le_refl 2, hiff.2 fun before o rest he => hnew before o rest he ?_⟩
  have hkeys : (tight.run ms).cache.keys = ["x"] := rfl
  have hnewest : (tight.run ms).newest = [dated "a" 3, dated "b" 2] := rfl
  have hload : ∀ o ∈ [dated "a" 3, dated "b" 2], o.uid ∉ ["x"] := by decide
  rw [hkeys]
  exact hload o (hnewest ▸ he ▸ by simp)

/-- The newest order is looked up, and then the oldest one. -/
def lookups : List Move :=
  [.start 0 (.get "a"), .land (fetchingOf 0 "a"), .start 1 (.get "x"), .land (fetchingOf 1 "x")]

theorem newest_after_lookups : (tight.run lookups).newest = [dated "a" 3, dated "b" 2] := rfl

theorem refresh_after_lookups :
    ((tight.run lookups).refreshAlone 2).reply? 2 = some (.loaded (.ok 2)) := by
  have hc : Coherent ([] ++ started lookups) (tight.run lookups) :=
    (Coherent.ofParts ..).run (by decide)
  rw [reply?_refreshAlone hc (by decide), newest_after_lookups]
  rfl

theorem peek_after_refresh : ((tight.run lookups).refreshAlone 2).cache.peek "a" = none := by
  decide

/-- The newest order keeps its place in front, and the second one of the load pushes it out. -/
theorem refresh_loses_what_it_loads :
    ∃ ms o, (started ms ++ [2]).Nodup ∧
      ((tight.run ms).refreshAlone 2).reply? 2 = some (.loaded (.ok 2)) ∧
      2 ≤ (tight.run ms).cache.capacity ∧ o ∈ (tight.run ms).newest ∧
      ((tight.run ms).refreshAlone 2).cache.peek o.uid = none ∧
      ¬Loaded (tight.run ms).cache (tight.run ms).newest := by
  have hm : dated "a" 3 ∈ (tight.run lookups).newest := newest_after_lookups ▸ .head _
  refine ⟨lookups, dated "a" 3, by decide, refresh_after_lookups, Nat.le_refl 2, hm,
    peek_after_refresh, fun hload => ?_⟩
  have hgone : ((tight.run lookups).cache.fill (byUid (tight.run lookups).newest)).peek "a" =
      none := by decide
  exact Option.some_ne_none _ ((hload.held (dated "a" 3) hm).symm.trans hgone)

theorem keys_of_warm {c : Cache Order} {load : List Order} (h : c.Ordered) (he : c.keys = [])
    (hn : (load.map Order.uid).Nodup) :
    (c.fill (byUid load)).keys = (load.drop (load.length - c.capacity)).map Order.uid := by
  have hnew : ∀ k ∈ (byUid load).map Prod.fst, k ∉ c.keys := by simp [he]
  rw [h.keys_fill_of_new (by rwa [map_fst_byUid]) hnew, he, map_fst_byUid, length_byUid,
    List.nil_append, List.length_nil, Nat.zero_add, List.map_drop]

theorem exists_newest {r : Repository} (h : (r.all.map Order.dateCreated).Nodup)
    (hpos : 0 < r.size) : ∃ o ∈ r.all, r.newer o = 0 := by
  have hlen : 0 < (r.recent 1).length := by
    rw [Repository.length_recent]
    omega
  obtain ⟨o, ho⟩ := List.exists_mem_of_length_pos hlen
  have hfirst : o ∈ (r.recent 1).drop 0 := ho
  obtain ⟨hall, -, hlt⟩ := (Repository.mem_drop_recent_iff h).1 hfirst
  exact ⟨o, hall, by omega⟩

/-- A refresh of an empty cache leaves the newest orders in it exactly if there is room for the
whole load; otherwise the oldest of the load stay. -/
theorem warm_up_keeps_newest_iff {settings : Settings} {capacity : Nat} {orders : List Order}
    {script : Script}
    (hs : s = (ofParts settings capacity (Repository.ofOrders orders) script).run ms)
    (hn : (started ms ++ [id]).Nodup) (hempty : s.cache.keys = [])
    (hdates : (s.repository.all.map Order.dateCreated).Nodup)
    (hr : (s.refreshAlone id).reply? id = some (.loaded (.ok n))) :
    n = min s.settings.warmLimit s.repository.size ∧
      (∀ uid, uid ∈ (s.refreshAlone id).cache.keys ↔
        ∃ o ∈ s.repository.all, o.uid = uid ∧ n - s.cache.capacity ≤ s.repository.newer o ∧
          s.repository.newer o < n) ∧
      ((∀ uid, uid ∈ (s.refreshAlone id).cache.keys ↔
        ∃ o ∈ s.repository.all, o.uid = uid ∧ s.repository.newer o < min s.cache.capacity n) ↔
          n ≤ s.cache.capacity) := by
  obtain ⟨hc, hid, hord, held, hrepo⟩ := reached hs hn
  have hdistinct : (s.newest.map Order.uid).Nodup := hrepo.nodup_recent _
  obtain ⟨hload, hcache⟩ := cache_of_loaded hc hid hr
  have hsize : n = min s.settings.warmLimit s.repository.size :=
    hload.trans (Repository.length_recent ..)
  have hkept : ∀ uid, uid ∈ (s.refreshAlone id).cache.keys ↔
      ∃ o ∈ s.repository.all, o.uid = uid ∧ n - s.cache.capacity ≤ s.repository.newer o ∧
        s.repository.newer o < n := by
    intro uid
    rw [hcache, keys_of_warm hord hempty hdistinct, ← hload, List.mem_map]
    constructor
    · rintro ⟨o, ho, rfl⟩
      obtain ⟨hall, hle, hlt⟩ := (Repository.mem_drop_recent_iff hdates).1 ho
      have hfew := Repository.newer_lt_size hall
      exact ⟨o, hall, rfl, hle, by omega⟩
    · rintro ⟨o, hall, rfl, hle, hlt⟩
      exact ⟨o, (Repository.mem_drop_recent_iff hdates).2 ⟨hall, hle, by omega⟩, rfl⟩
  refine ⟨hsize, hkept, fun hnewest => ?_, fun hroom uid => ?_⟩
  · by_contra hfull
    -- The newest order of all would have to be in the cache, but it went in first and left.
    have hpos : 0 < s.cache.capacity := hord.capacity_pos
    obtain ⟨o, ho, hzero⟩ := exists_newest hdates (by omega)
    obtain ⟨d, hd, hu, hle, -⟩ := (hkept o.uid).1 ((hnewest o.uid).2 ⟨o, ho, rfl, by omega⟩)
    have hsame : d = o := List.inj_on_of_nodup_map hrepo.nodup_uids hd ho hu
    subst hsame
    omega
  · rw [hkept, Nat.min_eq_right hroom, Nat.sub_eq_zero_of_le hroom]
    simp

theorem warm_up_keeps_newest_of_three :
    (tight.refreshAlone 0).reply? 0 = some (.loaded (.ok 2)) ∧ ∀ uid,
      uid ∈ (tight.refreshAlone 0).cache.keys ↔
        ∃ o ∈ tight.repository.all, o.uid = uid ∧ tight.repository.newer o < 2 := by
  have hr : (tight.refreshAlone 0).reply? 0 = some (.loaded (.ok 2)) := rfl
  obtain ⟨-, -, hiff⟩ :=
    warm_up_keeps_newest_iff (s := tight.run []) rfl (by decide) rfl (by decide) hr
  exact ⟨hr, hiff.2 (Nat.le_refl 2)⟩

/-- A cache for one order, and a limit of two: the newer order goes in first, and the older one
pushes it out. -/
theorem warm_up_loses_the_newest :
    ∃ s : Resolver, s = ofParts { warmLimit := 2 } 1
        (Repository.ofOrders [dated "a" 2, dated "b" 1]) {} ∧
      (s.repository.all.map Order.dateCreated).Nodup ∧ s.cache.keys = [] ∧
      (s.refreshAlone 0).reply? 0 = some (.loaded (.ok 2)) ∧
      (s.refreshAlone 0).cache.keys = ["b"] ∧
      ¬∀ uid, uid ∈ (s.refreshAlone 0).cache.keys ↔ ∃ o ∈ s.repository.all, o.uid = uid ∧
        s.repository.newer o <
          min s.cache.capacity (min s.settings.warmLimit s.repository.size) := by
  let s : Resolver :=
    ofParts { warmLimit := 2 } 1 (Repository.ofOrders [dated "a" 2, dated "b" 1]) {}
  have hkeys : (s.refreshAlone 0).cache.keys = ["b"] := rfl
  refine ⟨s, rfl, by decide, rfl, rfl, hkeys, fun hall => ?_⟩
  have hnewest : ∃ o ∈ s.repository.all, o.uid = "a" ∧ s.repository.newer o <
      min s.cache.capacity (min s.settings.warmLimit s.repository.size) :=
    ⟨dated "a" 2, .head _, rfl, by decide⟩
  have hmem := (hall "a").2 hnewest
  rw [hkeys] at hmem
  simp at hmem

end OrderLookup.Resolver
