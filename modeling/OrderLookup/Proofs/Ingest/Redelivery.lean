import OrderLookup.Proofs.Ingest.Isolation

/-!
A topic may hand messages out again, from some point on. Each of them is then ruled as it was
before, and the store passes through its older states again and comes back to where it was.
-/

namespace OrderLookup.Ingest

variable {settings : Settings} {script : Script} {s : Resolver} {w : Worker} {ms : List Message}

theorem stored_drop (ms : List Message) (k : Nat) :
    stored settings script (ms.drop k) <:+ stored settings script ms :=
  ⟨stored settings script (ms.take k), by rw [← stored_append, List.take_append_drop]⟩

theorem Worker.processAll_idle (h : w.Idle) (ms : List Message) : (w.processAll ms).2.Idle := by
  induction ms generalizing w with
  | nil => exact h
  | cons m ms ih => exact ih (Worker.process_spec h m).2.1

namespace Loop

variable {l : Loop}

theorem Isolated.between (h : l.Isolated s) (hp : ∀ m number, l.phase ≠ .storing m number) :
    l.worker.Idle ∧ l.worker.resolver.repository = l.settledRepository s := by
  have hkeeps := h.keeps
  cases hphase : l.phase with
  | storing m number => exact absurd hphase (hp m number)
  | _ =>
    rw [hphase] at hkeeps
    exact hkeeps

theorem Isolated.repository (h : l.Isolated s) (hp : ∀ m number, l.phase ≠ .storing m number) :
    l.worker.resolver.repository = l.settledRepository s :=
  (h.between hp).2

theorem Isolated.decisions (h : l.Isolated s) :
    l.handled.map (fun e => e.2.decision) =
      (l.handled.map Prod.fst).map (ruling s.settings s.script) := by
  rw [List.map_map]
  exact List.map_congr_left h.rulings

end Loop

/-- Messages that are handed out once more leave the same store, whatever it held in between, and
each of them is decided as before. -/
theorem redelivery_is_harmless (h : w.Idle) (ms : List Message) (k : Nat) :
    let once := w.processAll ms
    let again := once.2.processAll (ms.drop k)
    again.2.resolver.repository = once.2.resolver.repository ∧
      again.1.map (Option.map Outcome.decision) =
        (once.1.drop k).map (Option.map Outcome.decision) ∧
      none ∉ again.1 ∧
      ∀ (source : Topic) (moves : List Loop.Move), (∀ a, .ask a ∉ moves) →
        let l := Loop.follow { worker := w, source := source } moves
        l.handled.map Prod.fst = ms ++ ms.drop k → (∀ m number, l.phase ≠ .storing m number) →
        l.worker.resolver.repository = once.2.resolver.repository ∧
          (l.handled.drop ms.length).map (fun e => e.2.decision) =
            ((l.handled.take ms.length).drop k).map fun e => e.2.decision := by
  intro once again
  obtain ⟨hfirst, hframe, honce⟩ := Worker.processAll_spec h ms
  obtain ⟨hsecond, -, hagain⟩ := Worker.processAll_spec (Worker.processAll_idle h ms) (ms.drop k)
  rw [hframe.settings, hframe.script] at hsecond hagain
  have hsame : again.1.map (Option.map Outcome.decision) =
      (once.1.drop k).map (Option.map Outcome.decision) := by
    rw [hsecond, List.map_drop, List.map_drop, hfirst]
  have hstore (r : Repository) : (r.putAll (stored w.resolver.settings w.resolver.script ms)).putAll
      (stored w.resolver.settings w.resolver.script (ms.drop k)) =
        r.putAll (stored w.resolver.settings w.resolver.script ms) :=
    Repository.putAll_of_suffix r (stored_drop ms k)
  refine ⟨?_, hsame, ?_, ?_⟩
  · rw [hagain, honce, hstore]
  · intro hn
    have hnone : none ∈ again.1.map (Option.map Outcome.decision) := List.mem_map.2 ⟨none, hn, rfl⟩
    rw [hsecond] at hnone
    obtain ⟨m, -, hm⟩ := List.mem_map.1 hnone
    cases hm
  · intro source moves ha l hall hp
    have hl : l.Isolated w.resolver := (Loop.Isolated.ofIdle h source).follow ha
    refine ⟨?_, ?_⟩
    · rw [hl.repository hp, Loop.settledRepository, hall, stored_append, Repository.putAll_append,
        hstore, honce]
    · have hdecisions := hl.decisions
      rw [hall, List.map_append] at hdecisions
      rw [List.map_drop, List.map_drop, List.map_take, hdecisions]
      simp

def parcels : List Message :=
  [.ofOrder (parcel "a" "first"), .ofOrder (parcel "" "none"), .ofOrder (parcel "a" "second")]

theorem redelivery_is_harmless_from_the_start :
    choosy.Idle ∧
      ((choosy.processAll parcels).2.processAll (parcels.drop 0)).2.resolver.repository =
        (choosy.processAll parcels).2.resolver.repository ∧
      ((choosy.processAll parcels).2.processAll (parcels.drop 0)).1.map
          (Option.map Outcome.decision) =
        [some (.ok "a"), some (.error (.schemaValidation, .validation ["order_uid is required"])),
          some (.ok "a")] := by
  obtain ⟨hstore, hdecisions, -⟩ := redelivery_is_harmless choosy_idle parcels 0
  obtain ⟨hfirst, -⟩ := Worker.processAll_spec choosy_idle parcels
  refine ⟨choosy_idle, hstore, ?_⟩
  rw [hdecisions, List.drop_zero, hfirst]
  change [some (ruling _ _ _), some (ruling _ _ _), some (ruling _ _ _)] = _
  rw [ruling, ruling, ruling, judge_parcel "first" rfl, judge_blank,
    judge_parcel "second" rfl]
  rfl

end OrderLookup.Ingest
