import OrderLookup.Proofs.Resolver.Contents

/-!
Where the answer to a lookup comes from: from the cache as it was when the lookup began, from a
fetch of the same id that ended since, or from the cache as it was when a caller of that id took
the turn over from one who had been dropped.
-/

namespace OrderLookup.Resolver

open Inflight (Registry Caller)

structure Answers (G : Except OrderError Order → Prop) (id : Nat) (uid : String)
    (s : Resolver) : Prop where
  given : ∀ f ∈ s.finished, f.id = id → ∀ r, f.reply = .found r → G r
  key : ∀ c ∈ s.registry.callers, c.id = id → c.key = uid
  waiting : ∀ c ∈ s.registry.callers, c.id = id →
    ∀ r, s.registry.values.get? c.handle = some r → G r

/-- Whether an operation is a caller on the handle of `c`, be it `c` itself or one who waits for
it. -/
def Shares (s : Resolver) (id : Nat) (c : Caller) : Prop :=
  ∃ d ∈ s.registry.callers, d.id = id ∧ d.handle = c.handle

/-- Where a lookup can get its answer from: the cache, a fetch that ends later, or the cache at the
moment at which a turn is taken over. -/
inductive Origin (s : Resolver) (id : Nat) (uid : String) (ms : List Move) :
    Except OrderError Order → Prop
  | cached {o : Order} : s.cache.peek uid = some o → Origin s id uid ms (.ok o)
  | fetched {before after : List Move} {f : Flight} : ms = before ++ .land f :: after →
      f ∈ (s.run (.start id (.get uid) :: before)).flights → f.work = .fetch uid →
      Origin s id uid ms
        (outcome f.pending ((s.run (.start id (.get uid) :: before)).repository.get uid))
  | takenOver {before after : List Move} {c : Caller} {o : Order} :
      ms = before ++ .takeOver c.id :: after →
      c ∈ (s.run (.start id (.get uid) :: before)).registry.callers → c.key = uid →
      c.stage = .chosen → (s.run (.start id (.get uid) :: before)).cache.peek uid = some o →
      Origin s id uid ms (.ok o)

variable {s : Resolver} {m : Move} {ms : List Move} {ids : List Nat} {id i : Nat} {uid : String}
  {G : Except OrderError Order → Prop}

theorem Shares.ofStart {c : Caller}
    (h : Shares { s with registry := s.registry.start i } id { c with stage := .leading }) :
    s.Shares id c := by
  obtain ⟨d, hd, hdi, hh⟩ := h
  rcases Inflight.Registry.mem_setStage.1 hd with ⟨hd, -⟩ | ⟨e, he, -, rfl⟩
  · exact ⟨d, hd, hdi, hh⟩
  · exact ⟨e, he, hdi, hh⟩

namespace Answers

theorem step (ha : Answers G id uid s) (h : Coherent ids s)
    {m : Inflight.Move (Except OrderError Order)} {r : Registry (Except OrderError Order)}
    (hs : Registry.Step s.registry m r) (hj : ∀ key, m ≠ .join id key)
    (hg : ∀ c ∈ s.registry.callers, ∀ v, m = .complete c.id v → c.key = uid → s.Shares id c → G v) :
    Answers G id uid { s with registry := r } where
  given := ha.given
  key := by
    intro c hc hi
    rcases hs.caller_past h.sound hc with ⟨d, hd, hdi, hk, -⟩ | ⟨hm, -⟩
    · rw [← hk]
      exact ha.key d hd (hdi.trans hi)
    · exact absurd (hi ▸ hm) (hj c.key)
  waiting := by
    intro c hc hi v hv
    rcases hs.caller_past h.sound hc with ⟨d, hd, hdi, hk, hh⟩ | ⟨hm, -⟩
    · have hdid := hdi.trans hi
      rw [← hh] at hv
      rcases hs.values h.sound with hvs | ⟨e, w, hm, he, hl, hvs⟩
      · rw [hvs] at hv
        exact ha.waiting d hd hdid v hv
      · rw [hvs, Table.get?_insert] at hv
        split at hv
        · rename_i heh
          cases hv
          -- The value has come onto the handle of the lookup, so it was fetched for its id.
          have hopen := h.sound.owner_open he (by simp [hl])
          have hkey := h.sound.key_eq he hd heh hopen
          exact hg e he v hm (hkey.trans (ha.key d hd hdid)) ⟨d, hd, hdid, heh.symm⟩
        · exact ha.waiting d hd hdid v hv
    · exact absurd (hi ▸ hm) (hj c.key)

theorem finish (ha : Answers G id uid s) {reply : Reply}
    (hg : i = id → ∀ r, reply = .found r → G r) : Answers G id uid (s.finish i reply) where
  given := by
    intro f hf hi r hr
    rcases List.mem_append.1 hf with hf | hf
    · exact ha.given f hf hi r hr
    · rw [List.mem_singleton.1 hf] at hi hr
      exact hg hi r hr
  key := ha.key
  waiting := ha.waiting

theorem launch (ha : Answers G id uid s) (i : Nat) (work : Work) :
    Answers G id uid (s.launch i work) :=
  ⟨ha.given, ha.key, ha.waiting⟩

theorem withCache (ha : Answers G id uid s) (cache : Cache Order) :
    Answers G id uid { s with cache := cache } :=
  ⟨ha.given, ha.key, ha.waiting⟩

theorem withoutFlight (ha : Answers G id uid s) (i : Nat) :
    Answers G id uid (s.withoutFlight i) :=
  ⟨ha.given, ha.key, ha.waiting⟩

theorem withRepository (ha : Answers G id uid s) (r : Repository) :
    Answers G id uid { s with repository := r } :=
  ⟨ha.given, ha.key, ha.waiting⟩

theorem fillAll (ha : Answers G id uid s) (l : List Order) :
    Answers G id uid (l.foldl (fun s o => s.fillCache o.uid o) s) := by
  induction l generalizing s with
  | nil => exact ha
  | cons o l ih => exact ih (ha.withCache _)

theorem settle (ha : Answers G id uid s) (h : Coherent ids s) {c : Caller}
    (hc : c ∈ s.registry.callers) (hi : c.id = i) (hl : c.stage = .leading)
    {r : Except OrderError Order} (hg : c.key = uid → s.Shares id c → G r) :
    Answers G id uid (s.settle i r) := by
  subst i
  refine (ha.step h (h.completes hc hl r) (by simp) ?_).finish ?_
  · intro d hd v hv hk hsh
    simp only [Inflight.Move.complete.injEq] at hv
    obtain ⟨hi, rfl⟩ := hv
    rw [← h.sound.eq_of_id hc hd hi] at hk hsh
    exact hg hk hsh
  · rintro hi _ ⟨⟩
    exact hg (ha.key c hc hi) ⟨c, hc, hi, rfl⟩

theorem lead (ha : Answers G id uid s) (h : Coherent ids s) {c : Caller} {k : String}
    (hc : c ∈ s.registry.callers) (hi : c.id = i) (hk : c.key = k) (hl : c.stage = .leading)
    (hg : k = uid → s.Shares id c → ∀ o, s.cache.peek uid = some o → G (.ok o)) :
    Answers G id uid (s.lead i k) := by
  rw [Resolver.lead]
  split
  · rename_i o ho
    refine ha.settle h hc hi hl fun hcu hsh => ?_
    have hku := hk.symm.trans hcu
    exact hg hku hsh o (hku ▸ ho)
  · exact ha.launch i _

theorem land (ha : Answers G id uid s) (h : Coherent ids s) {f : Flight} (hf : f ∈ s.flights)
    (hg : f.work = .fetch uid → (∃ c ∈ s.registry.callers, c.id = f.id ∧ s.Shares id c) →
      G (outcome f.pending (s.repository.get uid))) :
    Answers G id uid (s.land f) := by
  have h' := h.withoutFlight f.id
  have ha' := ha.withoutFlight f.id
  rw [Resolver.land, resume]
  split
  · rename_i k hw
    obtain ⟨c, hc, hi, hk, hl⟩ := h.fetching f hf k hw
    have hgk : c.key = uid → s.Shares id c → G (outcome f.pending (s.repository.get k)) := by
      rintro rfl hsh
      rw [← hk] at hw ⊢
      exact hg hw ⟨c, hc, hi, hsh⟩
    split
    · rename_i o ho
      exact (ha'.withCache _).settle (h'.fillCache k o) hc hi hl (ho ▸ hgk)
    · rename_i e he
      exact ha'.settle h' hc hi hl (he ▸ hgk)
  · split
    · exact (ha'.withRepository _).finish (by simp)
    · exact ha'.finish (by simp)
  · split
    · exact (ha'.fillAll _).finish (by simp)
    · exact ha'.finish (by simp)

theorem takeOver (ha : Answers G id uid s) (h : Coherent ids s) (i : Nat)
    (hg : ∀ c ∈ s.registry.callers, c.id = i → c.key = uid → c.stage = .chosen → s.Shares id c →
      ∀ o, s.cache.peek uid = some o → G (.ok o)) :
    Answers G id uid (s.takeOver i) := by
  rw [Resolver.takeOver]
  split
  · exact ha
  · rename_i c hc
    split
    · rename_i hch
      obtain ⟨hm, rfl⟩ := Inflight.Registry.mem_of_caller? hc
      have ha' := ha.step h (.start hc hch) (by simp) (by simp)
      have h' := h.step (.start hc hch) (by simp) (by simp)
      refine ha'.lead h' (Inflight.Registry.mem_start hm) rfl rfl rfl fun hk hsh => ?_
      exact hg c hm rfl hk hch hsh.ofStart
    · exact ha

theorem collect (ha : Answers G id uid s) (h : Coherent ids s) (i : Nat) :
    Answers G id uid (s.collect i) := by
  rw [Resolver.collect]
  split
  · exact ha
  · rename_i r registry hc
    refine (ha.step h (.collect hc) (by simp) (by simp)).finish ?_
    rintro rfl _ ⟨⟩
    obtain ⟨c, hcc, hv, -⟩ := Inflight.Registry.collect_eq_some_iff.1 hc
    obtain ⟨hm, hi⟩ := Inflight.Registry.mem_of_caller? hcc
    exact ha.waiting c hm hi r hv

theorem abort (ha : Answers G id uid s) (h : Coherent ids s) (i : Nat) :
    Answers G id uid (s.abort i) :=
  (ha.withoutFlight i).step (h.withoutFlight i) (Inflight.Registry.drop_step _ i) (by simp)
    (by simp)

theorem get (ha : Answers G id uid s) (h : Coherent ids s) (hi : i ≠ id)
    (hnew : s.registry.caller? i = none) (k : String) : Answers G id uid (s.get i k) := by
  have ha' := ha.withCache (s.cache.get k).2
  rw [get_eq h.sound]
  split
  · exact ha'.finish fun he => absurd he hi
  · have hs : Registry.Step s.registry (.join i k) (s.registry.join i k).2 := .join k hnew
    have hj := ha'.step (h.withCache (h.indexed.get k).2.1) hs (by simp [hi]) (by simp)
    dsimp only
    split
    · exact hj.launch i _
    · exact hj

theorem start (ha : Answers G id uid s) (h : Coherent ids s) (hi : i ≠ id) (hids : i ∉ ids)
    (a : Action) : Answers G id uid (s.start i a) := by
  cases a with
  | get k => exact ha.get h hi (h.caller?_eq_none hids) k
  | create o => exact ha.launch i _
  | refresh => exact ha.launch i _
  | cacheSet k o => exact (ha.withCache _).finish (by simp)
  | cacheGet k => exact (ha.withCache _).finish (by simp)
  | cachePeek k => exact ha.finish (by simp)
  | store o =>
    rw [Resolver.start]
    split
    · exact (ha.withRepository _).finish (by simp)
    · exact ha.finish (by simp)
  | script r =>
    have hs : Answers G id uid { s with script := s.script.revise r } :=
      ⟨ha.given, ha.key, ha.waiting⟩
    exact hs.finish (by simp)
  | abort target => exact ha.abort h target

theorem move (ha : Answers G id uid s) (h : Coherent ids s) (hn : (ids ++ m.started).Nodup)
    (hid : id ∉ m.started)
    (htake : ∀ c ∈ s.registry.callers, m = .takeOver c.id → c.key = uid → c.stage = .chosen →
      s.Shares id c → ∀ o, s.cache.peek uid = some o → G (.ok o))
    (hland : ∀ f ∈ s.flights, m = .land f → f.work = .fetch uid →
      (∃ c ∈ s.registry.callers, c.id = f.id ∧ s.Shares id c) →
      G (outcome f.pending (s.repository.get uid))) :
    Answers G id uid (s.move m) := by
  cases m with
  | start i a =>
    have hi : i ≠ id := fun he => hid (List.mem_singleton.2 he.symm)
    have hids : i ∉ ids := fun h => List.disjoint_of_nodup_append hn h (List.mem_singleton.2 rfl)
    exact ha.start h hi hids a
  | land f =>
    rw [Resolver.move]
    split
    · rename_i hf
      exact ha.land h hf (hland f hf rfl)
    · exact ha
  | takeOver i =>
    refine ha.takeOver h i ?_
    rintro c hc rfl hk hs hsh
    exact htake c hc rfl hk hs hsh
  | collect i => exact ha.collect h i
  | wait time => exact ⟨ha.given, ha.key, ha.waiting⟩

theorem run (ha : Answers G id uid s) (h : Coherent ids s) (hn : (ids ++ started ms).Nodup)
    (hid : id ∉ started ms)
    (htake : ∀ a b c o, ms = a ++ .takeOver c.id :: b → c ∈ (s.run a).registry.callers →
      c.key = uid → c.stage = .chosen → (s.run a).Shares id c →
      (s.run a).cache.peek uid = some o → G (.ok o))
    (hland : ∀ a b f, ms = a ++ .land f :: b → f ∈ (s.run a).flights → f.work = .fetch uid →
      (∃ c ∈ (s.run a).registry.callers, c.id = f.id ∧ (s.run a).Shares id c) →
      G (outcome f.pending ((s.run a).repository.get uid))) :
    Answers G id uid (s.run ms) := by
  refine h.run_induction (P := Answers G id uid) hn ha fun before m after he hb hn' ha => ?_
  have hold : id ∉ m.started := fun hi => hid (by simp [he, hi])
  apply ha.move hb hn' hold
  · intro c hc hm hk hs hsh o ho
    exact htake before after c o (hm ▸ he) hc hk hs hsh ho
  · intro f hf hm hw hsh
    exact hland before after f (hm ▸ he) hf hw hsh

theorem ofFresh (h : Coherent ids s) (hid : id ∉ ids) : Answers G id uid s where
  given f hf hi := absurd (hi ▸ h.finished f hf) hid
  key c hc hi := absurd (hi ▸ h.callers c hc) hid
  waiting c hc hi := absurd (hi ▸ h.callers c hc) hid

theorem ofJoin (h : Coherent ids s) (hid : id ∉ ids) (uid : String) :
    Answers G id uid { s with registry := (s.registry.join id uid).2 } := by
  have hnone := h.caller?_eq_none hid
  have hcall := Inflight.Registry.caller?_eq_none_iff.1 hnone
  have hs : Registry.Step s.registry (.join id uid) (s.registry.join id uid).2 := .join uid hnone
  constructor
  case given => exact fun f hf hi => absurd (hi ▸ h.finished f hf) hid
  case key =>
    intro c hc hi
    rcases hs.caller_past h.sound hc with ⟨d, hd, hdi, -⟩ | ⟨hm, -⟩
    · exact absurd (hdi.trans hi) (hcall d hd)
    · exact (Inflight.Move.join.inj hm).2.symm
  case waiting =>
    intro c hc hi r hr
    rcases hs.caller_past h.sound hc with ⟨d, hd, hdi, -⟩ | ⟨-, hv⟩
    · exact absurd (hdi.trans hi) (hcall d hd)
    · rcases hs.values h.sound with hvs | ⟨_, _, hm, -⟩
      · rw [hvs, hv] at hr
        cases hr
      · cases hm

theorem ofGet (h : Coherent ids s) (hid : id ∉ ids)
    (hit : ∀ o, s.cache.peek uid = some o → G (.ok o)) :
    Answers G id uid (s.get id uid) := by
  have hc := h.withCache (h.indexed.get uid).2.1
  have hj := ofJoin (G := G) hc hid uid
  rw [get_eq h.sound]
  split
  · rename_i o ho
    refine (ofFresh hc hid).finish ?_
    rintro - _ ⟨⟩
    exact hit o ho
  · dsimp only
    split
    · exact hj.launch id _
    · exact hj

end Answers

theorem origin_of_get {f : Finish} {r : Except OrderError Order} (h : Coherent ids s)
    (hn : (ids ++ id :: started ms).Nodup)
    (hf : f ∈ (s.run (.start id (.get uid) :: ms)).finished) (hi : f.id = id)
    (hr : f.reply = .found r) : Origin s id uid ms r := by
  have hids : id ∉ ids := fun h => List.disjoint_of_nodup_append hn h (List.mem_cons_self ..)
  have hmove : (ids ++ [id] ++ started ms).Nodup := by simpa using hn
  have hid : id ∉ started ms := (List.nodup_cons.1 (List.nodup_append.1 hn).2.1).1
  have hget : Answers (Origin s id uid ms) id uid (s.get id uid) :=
    Answers.ofGet h hids fun o ho => .cached ho
  have hrun := hget.run (h.start hids (.get uid)) hmove hid
    (fun a b c o he hc hk hs _ ho => .takenOver he hc hk hs ho)
    (fun a b g he hg hw _ => .fetched he hg hw)
  exact hrun.given f hf hi r hr

end OrderLookup.Resolver
