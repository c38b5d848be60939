import OrderLookup.Proofs.Resolver.Answers

/-!
How old the answer to a lookup can be. An answer was in the cache at some moment while the lookup
lasted, and what comes into the cache is in the store at that moment. So answers never go back
behind an answer given before, and a lookup that misses gets nothing older than itself.
-/

namespace OrderLookup.Resolver

/-- Whether the numbers of the orders with an id never fall along a list. -/
def Ascending (number : Order → Nat) (uid : String) (l : List Order) : Prop :=
  (l.filter fun o => o.uid = uid).Pairwise fun a b => number a ≤ number b

instance (number : Order → Nat) (uid : String) (l : List Order) :
    Decidable (Ascending number uid l) :=
  inferInstanceAs (Decidable (List.Pairwise _ _))

variable {s : Resolver} {ms ms' : List Move} {ids : List Nat} {id : Nat} {uid : String}
  {o o' : Order} {l : List Order} {number : Order → Nat}

theorem Ascending.le {l' : List Order} (h : Ascending number uid (l ++ l')) (ho : o ∈ l)
    (ho' : o' ∈ l') (hu : o.uid = uid) (hu' : o'.uid = uid) : number o ≤ number o' := by
  rw [Ascending, List.filter_append, List.pairwise_append] at h
  exact h.2.2 o (List.mem_filter.2 ⟨ho, by simp [hu]⟩) o' (List.mem_filter.2 ⟨ho', by simp [hu']⟩)

theorem Ascending.left {l' : List Order} (h : Ascending number uid (l ++ l')) :
    Ascending number uid l := by
  rw [Ascending, List.filter_append] at h
  exact (List.pairwise_append.1 h).1

theorem number_le_of_stored (hr : s.repository.HoldsOnly l)
    (ha : Ascending number uid (l ++ s.upserts ms))
    (ho : s.repository.orders.get? uid = some o)
    (ho' : (s.run ms).repository.orders.get? uid = some o') : number o ≤ number o' := by
  obtain ⟨hl, hu⟩ := hr uid o ho
  rcases stored_run ho' with hs | ⟨hs, hu'⟩
  · rw [ho] at hs
    cases hs
    exact Nat.le_refl _
  · exact ha.le hl hs hu hu'

theorem Held.le (hr : s.repository.HoldsOnly l)
    (ha : Ascending number uid (l ++ s.upserts (ms ++ ms'))) (h : Held s ms uid o)
    (h' : Held (s.run ms) ms' uid o') : number o ≤ number o' := by
  obtain ⟨a, b, rfl, ho⟩ := h
  obtain ⟨c, d, rfl, ho'⟩ := h'
  rw [show a ++ b ++ (c ++ d) = a ++ (b ++ c) ++ d by simp, upserts_append, upserts_append,
    ← List.append_assoc, ← List.append_assoc] at ha
  rw [← run_append, List.append_assoc, run_append] at ho'
  exact number_le_of_stored (holdsOnly_run hr a) ha.left ho ho'

theorem Kept.prepend (h : Kept (s.run ms) ms' uid o) : Kept s (ms ++ ms') uid o := by
  obtain ⟨a, b, rfl, ho⟩ := h
  exact ⟨ms ++ a, b, by simp, by rwa [run_append]⟩

theorem Kept.held (h : Kept s ms uid o) (hc : Coherent ids s) (hn : (ids ++ started ms).Nodup)
    (hr : s.repository.HoldsOnly l) (hu : Untouched ms) (hp : s.cache.peek uid ≠ some o) :
    Held s ms uid o := by
  obtain ⟨a, b, rfl, ho⟩ := h
  rw [started_append, ← List.append_assoc] at hn
  have hua := (untouched_append.1 hu).1
  rcases peek_run hc (List.nodup_append.1 hn).1 hr hua ho with hs | hs
  · exact absurd hs hp
  · exact hs.append b

theorem Origin.kept (h : Origin s id uid ms (.ok o)) (hc : Coherent ids s)
    (hn : (ids ++ id :: started ms).Nodup) : Kept s (.start id (.get uid) :: ms) uid o := by
  generalize hr : (Except.ok o : Except OrderError Order) = r at h
  cases h with
  | cached hp =>
    cases hr
    exact ⟨[], _, rfl, hp⟩
  | takenOver he _ _ _ hp =>
    cases hr
    exact ⟨_, _, by rw [he, ← List.cons_append], hp⟩
  | @fetched a b f he hf hw =>
    subst he
    have hrun : Coherent (ids ++ started (.start id (.get uid) :: a))
        (s.run (.start id (.get uid) :: a)) := by
      apply hc.run
      rw [started_append, ← List.cons_append, ← List.append_assoc] at hn
      exact (List.nodup_append.1 hn).1
    refine ⟨.start id (.get uid) :: a ++ [.land f], b, by simp, ?_⟩
    rw [run_concat, move, if_pos hf]
    exact land_keeps hrun hw hr.symm

theorem Kept.le (h : Kept s ms uid o) (h' : Kept (s.run ms) ms' uid o') (hc : Coherent ids s)
    (hn : (ids ++ started (ms ++ ms')).Nodup) (hr : s.repository.HoldsOnly l)
    (hu : Untouched (ms ++ ms')) (hp : s.cache.peek uid = none)
    (ha : Ascending number uid (l ++ s.upserts (ms ++ ms'))) : number o ≤ number o' := by
  obtain ⟨a, b, rfl, ho⟩ := h
  by_cases he : (s.run a).cache.peek uid = some o'
  · rw [ho] at he
    cases he
    exact Nat.le_refl _
  · rw [List.append_assoc] at hn hu ha
    rw [started_append, ← List.append_assoc] at hn
    obtain ⟨hu₁, hu₂⟩ := untouched_append.1 hu
    have hn' := (List.nodup_append.1 hn).1
    have hk : Kept s a uid o := ⟨a, [], by simp, ho⟩
    have hk' : Kept (s.run a) (b ++ ms') uid o' := by
      rw [run_append] at h'
      exact h'.prepend
    have hheld := hk.held hc hn' hr hu₁ (by simp [hp])
    have hheld' := hk'.held (hc.run hn') hn (holdsOnly_run hr a) hu₂ he
    exact hheld.le hr ha hheld'

theorem started_nodup_of_append (h : (started (ms ++ ms')).Nodup) : (started ms).Nodup := by
  rw [started_append] at h
  exact (List.nodup_append.1 h).1

theorem kept_of_get {f : Finish} (hc : Coherent [] s)
    (hn : (started (ms ++ .start id (.get uid) :: ms')).Nodup)
    (hf : f ∈ (s.run (ms ++ .start id (.get uid) :: ms')).finished) (hi : f.id = id)
    (hr : f.reply = .found (.ok o)) : Kept (s.run ms) (.start id (.get uid) :: ms') uid o := by
  have hrun : Coherent (started ms) (s.run ms) := hc.run (started_nodup_of_append hn)
  have hn' : (started ms ++ id :: started ms').Nodup := by
    simpa only [started_append, started_cons, Move.started, List.singleton_append] using hn
  rw [run_append] at hf
  exact (origin_of_get hrun hn' hf hi hr).kept hrun hn'

/-- If a lookup has returned an order before another one starts, that one returns none that was
stored earlier. -/
theorem reads_never_go_back {settings : Settings} {capacity : Nat} {orders : List Order}
    {script : Script} {before after : List Move} {id₁ id₂ t₁ t₂ : Nat} {o₁ o₂ : Order}
    (hs : s = ofParts settings capacity (Repository.ofOrders orders) script)
    (hn : (started (before ++ .start id₂ (.get uid) :: after)).Nodup)
    (hu : Untouched (before ++ .start id₂ (.get uid) :: after))
    (ha : Ascending number uid
      (orders ++ s.upserts (before ++ .start id₂ (.get uid) :: after)))
    (hget : .start id₁ (.get uid) ∈ before)
    (h₁ : ⟨id₁, t₁, .found (.ok o₁)⟩ ∈ (s.run before).finished)
    (h₂ : ⟨id₂, t₂, .found (.ok o₂)⟩ ∈
      (s.run (before ++ .start id₂ (.get uid) :: after)).finished) :
    number o₁ ≤ number o₂ := by
  have hc : Coherent [] s := hs ▸ .ofParts ..
  have hr : s.repository.HoldsOnly orders := hs ▸ .ofOrders orders
  have hp : s.cache.peek uid = none := by rw [hs]; rfl
  obtain ⟨a, b, rfl⟩ := List.append_of_mem hget
  have hk₁ := (kept_of_get hc (started_nodup_of_append hn) h₁ rfl rfl).prepend
  have hk₂ := kept_of_get hc hn h₂ rfl rfl
  exact hk₁.le hk₂ hc hn hr hu hp ha

def version (n : Nat) : Order := { uid := "a", items := List.replicate n {} }

def stocked : Resolver := ofParts {} 2 (Repository.ofOrders [version 1]) {}

def fetching (id : Nat) : Flight := ⟨id, .fetch "a", .start {} ⟨.getOrder, "a"⟩ 0 2000⟩

def refreshing (id : Nat) : Flight := ⟨id, .refresh, .start {} ⟨.getRecent, "10"⟩ 0 2000⟩

theorem reads_never_go_back_after_refresh :
    ∃ before : List Move, ⟨1, 0, .found (.ok (version 1))⟩ ∈ (stocked.run before).finished ∧
      ⟨4, 0, .found (.ok (version 2))⟩ ∈
        (stocked.run (before ++ .start 4 (.get "a") :: [])).finished ∧
      (version 1).items.length ≤ (version 2).items.length := by
  let before : List Move := [.start 1 (.get "a"), .land (fetching 1), .start 2 (.store (version 2)),
    .start 3 .refresh, .land (refreshing 3)]
  have h₁ : ⟨1, 0, .found (.ok (version 1))⟩ ∈ (stocked.run before).finished := .head _
  have h₂ : ⟨4, 0, .found (.ok (version 2))⟩ ∈
      (stocked.run (before ++ .start 4 (.get "a") :: [])).finished :=
    .tail _ (.tail _ (.tail _ (.head _)))
  have ha : Ascending (fun o => o.items.length) "a"
      ([version 1] ++ stocked.upserts (before ++ .start 4 (.get "a") :: [])) := by decide
  have hu : Untouched (before ++ .start 4 (.get "a") :: []) := by simp [Untouched, before]
  exact ⟨before, h₁, h₂, reads_never_go_back rfl (by decide) hu ha (.head _) h₁ h₂⟩

theorem not_found_of_origin {k : String} (h : Origin s id uid ms (.error (.notFound k)))
    (ho : (s.repository.orders.get? uid).isSome) :
    ∃ before after f, ms = before ++ .land f :: after ∧
      f ∈ (s.run (.start id (.get uid) :: before)).flights ∧ f.work = .fetch uid ∧
      f.pending.failure = some (.notFound k) := by
  generalize hr : (Except.error (.notFound k) : Except OrderError Order) = r at h
  cases h with
  | cached => cases hr
  | takenOver => cases hr
  | @fetched a b f he hf hw =>
    rcases outcome_eq_error_iff.1 hr.symm with ⟨-, hfail | ⟨-, hget⟩⟩ | ⟨-, ht⟩
    · exact ⟨a, b, f, he, hf, hw, hfail⟩
    · have hnone := (Repository.get_eq_error_iff.1 hget).1
      have hsome := stays_stored ho (.start id (.get uid) :: a)
      rw [hnone] at hsome
      cases hsome
    · cases ht

/-- A lookup that misses the cache returns an order that the store has held since the lookup began.
It finds none only if there was none, or if the store was made to say so. -/
theorem misses_are_fresh {settings : Settings} {capacity : Nat} {orders : List Order}
    {script : Script} {before after : List Move} {t : Nat} {r : Except OrderError Order}
    (hs : s = ofParts settings capacity (Repository.ofOrders orders) script)
    (hn : (started (before ++ .start id (.get uid) :: after)).Nodup)
    (hu : Untouched (before ++ .start id (.get uid) :: after))
    (hmiss : (s.run before).cache.peek uid = none)
    (hf : ⟨id, t, .found r⟩ ∈ (s.run (before ++ .start id (.get uid) :: after)).finished) :
    (∀ o, r = .ok o → Held (s.run before) (.start id (.get uid) :: after) uid o) ∧
    (∀ o o₀ number, r = .ok o → (s.run before).repository.orders.get? uid = some o₀ →
      Ascending number uid (orders ++ s.upserts (before ++ .start id (.get uid) :: after)) →
      number o₀ ≤ number o) ∧
    ((s.run before).repository.orders.get? uid ≠ none → ∀ k, r = .error (.notFound k) →
      ∃ past rest f, after = past ++ .land f :: rest ∧
        f ∈ (s.run (before ++ .start id (.get uid) :: past)).flights ∧ f.work = .fetch uid ∧
        f.pending.failure = some (.notFound k)) := by
  have hc : Coherent [] s := hs ▸ .ofParts ..
  have hr : s.repository.HoldsOnly orders := hs ▸ .ofOrders orders
  have hrun : Coherent (started before) (s.run before) := hc.run (started_nodup_of_append hn)
  have hu' := (untouched_append.1 hu).2
  have hheld : ∀ o, r = .ok o → Held (s.run before) (.start id (.get uid) :: after) uid o := by
    rintro o rfl
    have hk := kept_of_get hc hn hf rfl rfl
    rw [started_append] at hn
    exact hk.held hrun hn (holdsOnly_run hr before) hu' (by simp [hmiss])
  refine ⟨hheld, ?_, ?_⟩
  · intro o o₀ number ho ho₀ ha
    have hheld₀ : Held s before uid o₀ := ⟨before, [], by simp, ho₀⟩
    exact hheld₀.le hr ha (hheld o ho)
  · rintro ho k rfl
    rw [run_append] at hf
    simp only [run_append]
    exact not_found_of_origin (origin_of_get hrun (by simpa [Move.started] using hn) hf rfl rfl)
      (Option.isSome_iff_ne_none.2 ho)

theorem misses_are_fresh_after_takeover :
    ∃ before after : List Move, (stocked.run before).cache.peek "a" = none ∧
      (stocked.run before).repository.orders.get? "a" = some (version 2) ∧
      ⟨2, 0, .found (.ok (version 2))⟩ ∈
        (stocked.run (before ++ .start 2 (.get "a") :: after)).finished ∧
      Held (stocked.run before) (.start 2 (.get "a") :: after) "a" (version 2) := by
  let before : List Move := [.start 0 (.get "a"), .start 1 (.store (version 2))]
  let after : List Move := [.start 3 (.abort 0), .takeOver 2, .land (fetching 2)]
  have hf : ⟨2, 0, .found (.ok (version 2))⟩ ∈
      (stocked.run (before ++ .start 2 (.get "a") :: after)).finished := .tail _ (.head _)
  obtain ⟨hheld, -⟩ := misses_are_fresh rfl (by decide) (by simp [Untouched, before, after]) rfl hf
  exact ⟨before, after, rfl, rfl, hf, hheld (version 2) rfl⟩

end OrderLookup.Resolver
