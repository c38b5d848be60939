import OrderLookup.Proofs.Inflight.History

/-!
Fetches of one key exclude each other. Whatever happens to a register, the callers of a key that
are still without a value share the registered handle, and one of them owns its fetch.
-/

namespace OrderLookup.Inflight.Registry

variable {α : Type} {r : Registry α}

def unserved (r : Registry α) (key : String) : List Caller :=
  r.callers.filter fun c => c.key = key && (r.values.get? c.handle).isNone

theorem mem_unserved {key : String} {c : Caller} :
    c ∈ r.unserved key ↔ c ∈ r.callers ∧ c.key = key ∧ r.values.get? c.handle = none := by
  simp [unserved]

theorem Sound.handle_unserved (hr : Sound r) {key : String} {c : Caller}
    (hc : c ∈ r.unserved key) : r.pending.get? key = some c.handle := by
  obtain ⟨hm, rfl, hv⟩ := mem_unserved.1 hc
  exact hr.registered hm hv

theorem Sound.owner_eq (hr : Sound r) {c d : Caller} (hc : c ∈ r.callers) (hd : d ∈ r.callers)
    (hk : c.key = d.key) (hcs : c.stage ≠ .waiting) (hds : d.stage ≠ .waiting) : c = d := by
  have hcp := hr.registered hc (hr.owner_open hc hcs)
  have hdp := hr.registered hd (hr.owner_open hd hds)
  rw [hk, hdp] at hcp
  have hh : c.handle = d.handle := (Option.some.inj hcp).symm
  exact hr.eq_of_id hc hd (hr.owner_unique hc hd hh hcs hds)

theorem Sound.owner_unserved (hr : Sound r) {key : String} (hne : r.unserved key ≠ []) :
    ∃ c, (r.unserved key).filter Caller.owns = [c] := by
  obtain ⟨d, hd⟩ := List.exists_mem_of_ne_nil _ hne
  obtain ⟨hdm, hdk, hdv⟩ := mem_unserved.1 hd
  obtain ⟨c, hc, hch, hcs⟩ := hr.owned hdm hdv
  have hkey : c.key = key := by rw [← hdk, hr.key_eq hdm hc hch.symm hdv]
  have hmem : c ∈ (r.unserved key).filter Caller.owns :=
    List.mem_filter.2 ⟨mem_unserved.2 ⟨hc, hkey, hch ▸ hdv⟩, Caller.owns_iff.2 hcs⟩
  -- The callers have distinct numbers, so a list of equal callers has one element.
  have hnodup : ((r.unserved key).filter Caller.owns).Nodup :=
    ((List.Nodup.of_map _ hr.ids).filter _).filter _
  have hall : ∀ e ∈ (r.unserved key).filter Caller.owns, e = c := by
    intro e he
    obtain ⟨heu, hes⟩ := List.mem_filter.1 he
    obtain ⟨hem, hek, -⟩ := mem_unserved.1 heu
    exact hr.owner_eq hem hc (hek.trans hkey.symm) (Caller.owns_iff.1 hes) hcs
  refine ⟨c, List.perm_singleton.1 ((List.perm_ext_iff_of_nodup hnodup (by simp)).2 fun e => ?_)⟩
  constructor
  · exact fun he => List.mem_singleton.2 (hall e he)
  · exact fun he => List.mem_singleton.1 he ▸ hmem

/-- The callers of a key that have no value yet share the handle registered under it, and exactly
one of them owns the fetch. -/
theorem single_flight {ms : List (Move α)} (h : Run Registry.empty ms r) (key : String) :
    (∀ c ∈ r.unserved key, r.pending.get? key = some c.handle) ∧
    (r.unserved key ≠ [] → ∃ c, (r.unserved key).filter Caller.owns = [c]) ∧
    (∀ c ∈ r.callers, ∀ d ∈ r.callers, c.key = key → d.key = key →
      c.stage = .leading → d.stage = .leading → c = d) ∧
    (∀ c ∈ r.callers, c.key = key → c.stage = .waiting → r.values.get? c.handle = none →
      ∃ d ∈ r.callers, d.key = key ∧ d.handle = c.handle ∧ d.owns) := by
  have hr := Sound.empty.run h
  refine ⟨fun c hc => hr.handle_unserved hc, hr.owner_unserved, ?_, ?_⟩
  · rintro c hc d hd rfl hk hcs hds
    exact hr.owner_eq hc hd hk.symm (by simp [hcs]) (by simp [hds])
  · rintro c hc rfl - hv
    obtain ⟨d, hd, hh, hs⟩ := hr.owned hc hv
    exact ⟨d, hd, (hr.key_eq hc hd hh.symm hv).symm, hh, Caller.owns_iff.2 hs⟩

theorem single_flight_after_drop :
    ∃ r : Registry String,
      Run Registry.empty [.join 0 "a", .join 1 "a", .join 2 "b", .join 3 "a", .drop 0] r ∧
      r.unserved "a" = [⟨1, "a", 0, .chosen⟩, ⟨3, "a", 0, .waiting⟩] ∧
      r.pending.get? "a" = some 0 ∧ ∃ c, (r.unserved "a").filter Caller.owns = [c] := by
  have h : Run (Registry.empty : Registry String)
      [.join 0 "a", .join 1 "a", .join 2 "b", .join 3 "a", .drop 0] _ :=
    .move (.move (.move (.move (.move .nil (.join "a" rfl)) (.join "a" rfl)) (.join "b" rfl))
      (.join "a" rfl)) (drop_step _ 0)
  have hs := single_flight h "a"
  exact ⟨_, h, by decide, hs.1 ⟨1, "a", 0, .chosen⟩ (by decide), hs.2.1 (by decide)⟩

end OrderLookup.Inflight.Registry
