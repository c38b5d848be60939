import OrderLookup.Proofs.Cache.Accounts
import OrderLookup.Proofs.Resolver.Once
import OrderLookup.Proofs.Resolver.Refreshing

/-!
Whose work the store and the cache show. Each order that comes into the store and each entry that
comes into the cache is put there by one operation, at the moment at which that operation is
answered, and the answer is no error. So both are what these operations have made of them, and who
fails or is dropped has had no part in it and will not have one.
-/

namespace OrderLookup

namespace Resolver

/-- The order that a move puts into the store, with the number of the operation that puts it
there. -/
def storedBy (s : Resolver) : Move → List (Nat × Order)
  | .start id a => (s.upserted? (.start id a)).toList.map (Prod.mk id)
  | .land f => (s.upserted? (.land f)).toList.map (Prod.mk f.id)
  | _ => []

/-- The entries that a move puts into the cache, with the number of the operation that puts them
there. -/
def cachedBy (s : Resolver) : Move → List (Nat × String × Order)
  | .start id (.cacheSet key o) => [(id, key, o)]
  | .land f => if f ∈ s.flights then (s.brought f).map (Prod.mk f.id) else []
  | _ => []

def writes (s : Resolver) : List Move → List (Nat × Order)
  | [] => []
  | m :: ms => s.storedBy m ++ (s.move m).writes ms

def fills (s : Resolver) : List Move → List (Nat × String × Order)
  | [] => []
  | m :: ms => s.cachedBy m ++ (s.move m).fills ms

def Reply.isError : Reply → Bool
  | .found (.error _) => true
  | .stored (.error _) => true
  | .loaded (.error _) => true
  | _ => false

def Ended (s : Resolver) (id : Nat) (error : Bool) : Prop :=
  ∃ f ∈ s.finished, f.id = id ∧ f.reply.isError = error

def Dropped (s : Resolver) (ms : List Move) (id : Nat) : Prop :=
  ∃ before i after, ms = before ++ .start i (.abort id) :: after ∧ id ∈ started before ∧
    ∀ f ∈ (s.run before).finished, f.id ≠ id

variable {s : Resolver} {m : Move} {ms ms' : List Move} {ids : List Nat} {id : Nat} {uid : String}
  {o : Order} {p : Nat × Order} {q : Nat × String × Order}

theorem map_snd_storedBy (s : Resolver) (m : Move) :
    (s.storedBy m).map Prod.snd = (s.upserted? m).toList := by
  cases m with
  | start id a => simp [storedBy]
  | land f => simp [storedBy]
  | _ => rfl

theorem map_snd_writes (s : Resolver) (ms : List Move) :
    (s.writes ms).map Prod.snd = s.upserts ms := by
  induction ms generalizing s with
  | nil => rfl
  | cons m ms ih => rw [writes, List.map_append, map_snd_storedBy, ih, upserts]

theorem repository_run (s : Resolver) (ms : List Move) :
    (s.run ms).repository = s.repository.putAll (s.upserts ms) := by
  induction ms generalizing s with
  | nil => rfl
  | cons m ms ih =>
    rw [run_cons, ih, upserts, Repository.putAll_append]
    rcases s.repository_move m with ⟨hu, hr⟩ | ⟨o, hu, hr⟩
    · rw [hu, hr]
      rfl
    · rw [hu, (Repository.upsert_eq_ok_iff.1 hr).2]
      rfl

theorem uncounted_move (h : Coherent ids s) (m : Move) :
    (s.move m).cache.uncounted = (s.cache.fill ((s.cachedBy m).map Prod.snd)).uncounted := by
  cases m with
  | start id a =>
    cases a with
    | get uid =>
      rw [move, start, get_cache h]
      exact s.cache.get_uncounted uid
    | cacheGet key => exact s.cache.get_uncounted key
    | store o =>
      rw [move, start]
      split <;> rfl
    | _ => rfl
  | land f =>
    rw [move, cachedBy]
    split
    · rw [land_cache, List.map_map]
      exact congrArg (fun l => (s.cache.fill l).uncounted) (List.map_id _).symm
    · rfl
  | takeOver id =>
    rw [move, takeOver_cache]
    rfl
  | collect id =>
    rw [move, collect_cache]
    rfl
  | wait time => rfl

theorem uncounted_run (h : Coherent ids s) (hn : (ids ++ started ms).Nodup) :
    (s.run ms).cache.uncounted = (s.cache.fill ((s.fills ms).map Prod.snd)).uncounted := by
  induction ms generalizing ids s with
  | nil => rfl
  | cons m ms ih =>
    rw [started_cons, ← List.append_assoc] at hn
    rw [run_cons, ih (h.move (List.nodup_append.1 hn).1) hn, fills, List.map_append,
      Cache.fill_append]
    exact Cache.uncounted_fill (uncounted_move h m) _

theorem ended_of_storedBy (hp : p ∈ s.storedBy m) : Ended (s.move m) p.1 false := by
  cases m with
  | start id a =>
    obtain ⟨o, ho, rfl⟩ := List.mem_map.1 hp
    cases a with
    | store a =>
      obtain ⟨r, hr, rfl⟩ := Option.map_eq_some_iff.1 (Option.mem_toList.1 ho)
      cases hu : s.repository.upsert a with
      | error e => simp [hu, Except.toOption] at hr
      | ok r' =>
        rw [move, start, hu]
        exact ⟨_, List.mem_append_right _ (.head _), rfl, rfl⟩
    | _ => cases ho
  | land f =>
    obtain ⟨o, ho, rfl⟩ := List.mem_map.1 hp
    rw [upserted?] at ho
    split at ho
    · rename_i a hw
      split at ho
      · rename_i hf
        obtain ⟨r, hr, rfl⟩ := Option.map_eq_some_iff.1 (Option.mem_toList.1 ho)
        cases hu : outcome f.pending (s.repository.upsert a) with
        | error e => simp [hu, Except.toOption] at hr
        | ok r' =>
          refine ⟨⟨f.id, s.now, s.replyTo f⟩, ?_, rfl, ?_⟩
          · rw [move, if_pos hf, land_finished_eq]
            exact List.mem_append_right _ (.head _)
          · simp only [replyTo, hw, hu]
            rfl
      · cases ho
    · cases ho
  | _ => cases hp

theorem ended_of_cachedBy (hq : q ∈ s.cachedBy m) : Ended (s.move m) q.1 false := by
  cases m with
  | start id a =>
    cases a with
    | cacheSet key o =>
      rw [List.mem_singleton.1 hq]
      exact ⟨_, List.mem_append_right _ (.head _), rfl, rfl⟩
    | _ => cases hq
  | land f =>
    rw [cachedBy] at hq
    split at hq
    · rename_i hf
      obtain ⟨e, he, rfl⟩ := List.mem_map.1 hq
      refine ⟨⟨f.id, s.now, s.replyTo f⟩, ?_, rfl, ?_⟩
      · rw [move, if_pos hf, land_finished_eq]
        exact List.mem_append_right _ (.head _)
      · rw [brought] at he
        split at he
        · rename_i uid hw
          split at he
          · rename_i o ho
            simp only [replyTo, hw, ho]
            rfl
          · cases he
        · cases he
        · rename_i hw
          split at he
          · rename_i l hl
            have hreply : s.replyTo f =
                .loaded ((outcome f.pending (.ok s.newest)).map List.length) := by
              rw [replyTo, hw]
              rfl
            rw [hreply, hl]
            rfl
          · cases he
    · cases hq
  | _ => cases hq

theorem Ended.run {error : Bool} (h : Ended s id error) (ms : List Move) :
    Ended (s.run ms) id error := by
  obtain ⟨f, hf, hi⟩ := h
  have hl : Leads s (operations ms) (s.run ms) := ⟨ms, rfl, rfl⟩
  exact ⟨f, hl.finished hf, hi⟩

theorem ended_run (ms : List Move) :
    (∀ p ∈ s.writes ms, Ended (s.run ms) p.1 false) ∧
      ∀ q ∈ s.fills ms, Ended (s.run ms) q.1 false := by
  induction ms generalizing s with
  | nil => simp [writes, fills]
  | cons m ms ih =>
    obtain ⟨hwrites, hfills⟩ := ih (s := s.move m)
    refine ⟨fun p hp => ?_, fun q hq => ?_⟩
    · rcases List.mem_append.1 hp with hp | hp
      · exact (ended_of_storedBy hp).run ms
      · exact hwrites p hp
    · rcases List.mem_append.1 hq with hq | hq
      · exact (ended_of_cachedBy hq).run ms
      · exact hfills q hq

theorem Single.ended_eq (hs : Single s) {error error' : Bool} (h : Ended s id error)
    (h' : Ended s id error') : error = error' := by
  obtain ⟨f, hf, hfi, hfr⟩ := h
  obtain ⟨g, hg, hgi, hgr⟩ := h'
  rw [← hfr, ← hgr, hs.eq_of_id hf hg (hfi.trans hgi.symm)]

theorem Dropped.unanswered (hd : Dropped s ms id) (h : Coherent ids s) (hm : Manned s)
    (hn : (ids ++ started ms).Nodup) : ∀ f ∈ (s.run ms).finished, f.id ≠ id := by
  obtain ⟨before, i, after, rfl, hid, hnone⟩ := hd
  rw [started_append, started_cons, ← List.append_assoc, ← List.append_assoc] at hn
  have hn₂ := (List.nodup_append.1 hn).1
  have hn₁ := (List.nodup_append.1 hn₂).1
  have hi : i ∉ ids ++ started before := fun hi => List.disjoint_of_nodup_append hn₂ hi (.head _)
  have hbefore := h.run hn₁
  have hmanned := (hm.run h hn₁).step hbefore hn₂ (shift_move hbefore hn₂)
  have hgone := gone_run (hbefore.start hi (.abort id)) hmanned
    (List.mem_append_left _ (List.mem_append_right _ hid)) (not_underWay_abort _ id) hn
  intro f hf hfi
  rw [run_append, run_cons] at hf
  exact hnone f (hgone.2 f hf hfi) hfi

/-- What a run leaves in the store and in the cache, and whose work that is. -/
structure Attributed (s : Resolver) (ms : List Move) : Prop where
  store : (s.run ms).repository = s.repository.putAll ((s.writes ms).map Prod.snd)
  cache : (s.run ms).cache.uncounted = (s.cache.fill ((s.fills ms).map Prod.snd)).uncounted
  succeeded : ∀ id, id ∈ (s.writes ms).map Prod.fst ∨ id ∈ (s.fills ms).map Prod.fst →
    Ended (s.run ms) id false
  failed : ∀ before after id, ms = before ++ after →
    Ended (s.run before) id true ∨ Dropped s before id →
    id ∉ (s.writes ms).map Prod.fst ∧ id ∉ (s.fills ms).map Prod.fst

theorem Dropped.append (hd : Dropped s ms id) (ms' : List Move) : Dropped s (ms ++ ms') id := by
  obtain ⟨before, i, after, rfl, hrest⟩ := hd
  exact ⟨before, i, after ++ ms', by simp, hrest⟩

theorem Attributed.ofRun (h : Coherent ids s) (hm : Manned s) (hone : Single s)
    (hn : (ids ++ started ms).Nodup) : Attributed s ms := by
  obtain ⟨hwrites, hfills⟩ := s.ended_run ms
  have hsucceeded : ∀ id, id ∈ (s.writes ms).map Prod.fst ∨ id ∈ (s.fills ms).map Prod.fst →
      Ended (s.run ms) id false := by
    rintro id (hi | hi)
    · obtain ⟨p, hp, rfl⟩ := List.mem_map.1 hi
      exact hwrites p hp
    · obtain ⟨q, hq, rfl⟩ := List.mem_map.1 hi
      exact hfills q hq
  refine ⟨?_, uncounted_run h hn, hsucceeded, ?_⟩
  · rw [map_snd_writes, repository_run]
  · rintro before after id rfl hlost
    have hnever : ¬Ended (s.run (before ++ after)) id false := by
      rcases hlost with hfailed | hdropped
      · have hend := hfailed.run after
        rw [← run_append] at hend
        exact fun hgood => Bool.false_ne_true ((hone.run h hm hn).ended_eq hgood hend)
      · rintro ⟨f, hf, hi, -⟩
        exact (hdropped.append after).unanswered h hm hn f hf hi
    exact ⟨fun hi => hnever (hsucceeded id (.inl hi)), fun hi => hnever (hsucceeded id (.inr hi))⟩

end Resolver

end OrderLookup
