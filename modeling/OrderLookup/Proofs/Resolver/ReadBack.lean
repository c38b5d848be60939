import OrderLookup.Proofs.Resolver.CatchingUp

/-!
Reading back what has been written. The answer to a write comes with the move by which the store
takes the order, and the store holds it until another write of its id takes effect. So a lookup that
begins in between and misses the cache finds just this order, whatever goes on beside it.
-/

namespace OrderLookup.Resolver

open Inflight (Caller)
open Inflight.Registry (Step)

/-- Whether an order is what a lookup of an id can find while some moves are made. -/
structure Stands (s : Resolver) (uid : String) (o : Order) (ms : List Move) : Prop where
  stored : s.repository.orders.get? uid = some o
  missed : s.cache.peek uid = none
  unwritten : ∀ a ∈ s.upserts ms, a.uid ≠ uid
  untouched : Untouched ms

variable {s : Resolver} {m : Move} {ms : List Move} {ids : List Nat} {id t : Nat} {uid : String}
  {o a : Order} {held : List Order}

theorem Author.stored (ha : Author s id o) (hold : id ∉ m.started)
    (hopen : ∀ f ∈ s.finished, f.id ≠ id)
    (hf : ⟨id, t, .stored (.ok uid)⟩ ∈ (s.move m).finished) :
    (s.move m).repository.orders.get? o.uid = some o := by
  rcases finished_past hf with hf | hi | ⟨c, hc, hi⟩ | ⟨g, hg, rfl, hi, -⟩
  · exact absurd rfl (hopen _ hf)
  · exact absurd hi hold
  · exact absurd hi (ha.callers c hc)
  · have hw := ha.flights g hg hi
    rw [Resolver.move, if_pos hg, land_save s hw] at hf ⊢
    rcases mem_finish.1 hf with hf | hf
    · exact absurd rfl (hopen _ hf)
    · have hanswer : answer g.pending o = .ok uid :=
        (Reply.stored.inj (congrArg Finish.reply hf)).symm
      change (absorb s.repository g).orders.get? o.uid = some o
      rw [absorb, hw]
      dsimp only
      rw [hanswer]
      exact Table.get?_insert_self ..

namespace Stands

theorem peek_eq (hs : Stands s uid o ms) (h : Coherent ids s) (hn : (ids ++ started ms).Nodup)
    (hr : s.repository.HoldsOnly held) (hp : (s.run ms).cache.peek uid = some a) : a = o := by
  rcases peek_run h hn hr hs.untouched hp with hc | hheld
  · rw [hs.missed] at hc
    cases hc
  · exact hheld.eq_of_unwritten hs.stored hs.unwritten

theorem found (hs : Stands s uid o (.start id (.get uid) :: ms)) (h : Coherent ids s)
    (hn : (ids ++ id :: started ms).Nodup) (hr : s.repository.HoldsOnly held)
    (ha : ∀ before after, ms = before ++ after →
      Answering (s.run (.start id (.get uid) :: before)) uid)
    {r : Except OrderError Order}
    (hf : ⟨id, t, .found r⟩ ∈ (s.run (.start id (.get uid) :: ms)).finished) : r = .ok o := by
  have horigin : Origin s id uid ms r := origin_of_get h hn hf rfl rfl
  obtain ⟨a, rfl⟩ := horigin.ok (hs.stored ▸ rfl) ha
  have hheld := (horigin.kept h hn).held h hn hr hs.untouched (by simp [hs.missed])
  rw [hheld.eq_of_unwritten hs.stored hs.unwritten]

end Stands

theorem found_of_answered (h : Coherent ids s) (hn : (ids ++ id :: started ms).Nodup)
    (hone : Single (s.run (.start id (.get uid) :: ms))) (hd : ∀ i, .start i (.abort id) ∉ ms)
    {f : Finish} (hf : f ∈ (s.run (.start id (.get uid) :: ms)).finished) (hi : f.id = id) :
    ∃ r, f = ⟨id, f.time, .found r⟩ := by
  have hid : id ∉ ids := fun hi => List.disjoint_of_nodup_append hn hi (.head _)
  have hids : (ids ++ [id] ++ started ms).Nodup := by simpa using hn
  rcases (Accounted.ofGet h id uid).run (h.start hid (.get uid)) hids hd with
    ⟨c, hc, hci⟩ | ⟨t, r, hfin⟩
  · exact absurd (Or.inl ⟨c, hc, hci.trans hi.symm⟩) (hone.settled f hf)
  · exact ⟨r, by rw [hone.eq_of_id hf hfin hi]⟩

theorem leading_move (h : Coherent ids s) (hn : (ids ++ m.started).Nodup) {c : Caller}
    (hc : c ∈ s.registry.callers) (hl : c.stage = .leading) :
    c ∈ (s.move m).registry.callers ∨ (∃ f ∈ s.flights, m = .land f ∧ f.id = c.id) ∨
      ∃ i, m = .start i (.abort c.id) := by
  have hshift := shift_move h hn
  generalize s.move m = s' at hshift
  have hstays : ∀ {n r}, s'.registry = r → Step s.registry n r → n ≠ .drop c.id →
      (∀ v, n ≠ .complete c.id v) → c ∈ s'.registry.callers := by
    intro n r hr hst hdrop hcomplete
    rcases hst.leading_stays h.sound hc hl with hc' | hm | ⟨v, hm⟩
    · exact hr ▸ hc'
    · exact absurd hm hdrop
    · exact absurd hm (hcomplete v)
  cases hshift with
  | idle hr => exact .inl (hr ▸ hc)
  | launched _ hr => exact .inl (hr ▸ hc)
  | ended _ _ hr => exact .inl (hr ▸ hc)
  | joined hi _ _ hr => exact .inl (hstays hr (.join _ hi) (by simp) (by simp))
  | asked hi _ _ hr => exact .inl (hstays hr (.join _ hi) (by simp) (by simp))
  | resumed hd hch _ hr => exact .inl (hstays hr (h.starts hd hch) (by simp) (by simp))
  | collected hd hv hr => exact .inl (hstays hr (h.collects hd hv) (by simp) (by simp))
  | @fetched f d r _ hf hd hdi hdl hr =>
    by_cases hi : d.id = c.id
    · exact .inr (.inl ⟨f, hf, rfl, hdi.symm.trans hi⟩)
    · exact .inl (hstays hr (h.completes hd hdl r) (by simp) (by simp [hi]))
  | @found d a hd hch _ hr =>
    -- Whoever takes a turn over has not led before.
    have hne : d.id ≠ c.id := by
      intro hi
      rw [h.sound.eq_of_id hd hc hi, hl] at hch
      cases hch
    have hstart := h.starts hd hch
    have hc₁ : c ∈ (s.registry.start d.id).callers := by
      rcases hstart.leading_stays h.sound hc hl with hc' | hm | ⟨v, hm⟩
      · exact hc'
      · cases hm
      · cases hm
    rcases (h.finds hd hch (.ok a)).leading_stays (h.sound.step hstart) hc₁ hl with hc' | hm | hm
    · exact .inl (hr ▸ hc')
    · cases hm
    · obtain ⟨v, hm⟩ := hm
      exact absurd (Inflight.Move.complete.inj hm).1 hne
  | @dropped i target hr =>
    by_cases hi : target = c.id
    · exact .inr (.inr ⟨i, by rw [hi]⟩)
    · exact .inl (hstays hr (Inflight.Registry.drop_step _ target) (by simp [hi]) (by simp))

theorem leading_run (h : Coherent ids s) (hn : (ids ++ started ms).Nodup) {c : Caller}
    (hc : c ∈ s.registry.callers) (hl : c.stage = .leading)
    (hd : ∀ i, .start i (.abort c.id) ∉ ms) :
    c ∈ (s.run ms).registry.callers ∨ ∃ f ∈ (s.run ms).finished, f.id = c.id := by
  refine h.run_induction
    (P := fun s => c ∈ s.registry.callers ∨ ∃ f ∈ s.finished, f.id = c.id) hn (.inl hc)
    fun before m after he hb hn' hpast => ?_
  rcases hpast with hc' | ⟨f, hf, hi⟩
  · rcases leading_move hb hn' hc' hl with hc' | ⟨f, hf, hm, hi⟩ | ⟨i, hm⟩
    · exact .inl hc'
    · right
      rw [hm, move, if_pos hf, ← hi]
      exact land_answers (s.run before) f
    · exact absurd (by simp [he, hm]) (hd i)
  · exact .inr ⟨f, finished_move (s.run before) m hf, hi⟩

/-- If nobody owns the turn of its id when a lookup begins that misses the cache, the cache holds
what the lookup has found when the answer comes. -/
theorem kept_when_answered (h : Coherent ids s) (hm : Manned s) (hone : Single s)
    (hn : (ids ++ id :: started (ms ++ [m])).Nodup)
    (hp : s.cache.peek uid = none)
    (hc : ∀ c ∈ s.registry.callers, c.key = uid → c.stage = .waiting)
    (hd : ∀ i, .start i (.abort id) ∉ ms ++ [m])
    (hopen : ∀ f ∈ (s.run (.start id (.get uid) :: ms)).finished, f.id ≠ id)
    (hf : ⟨id, t, .found (.ok o)⟩ ∈ (s.run (.start id (.get uid) :: (ms ++ [m]))).finished) :
    (s.run (.start id (.get uid) :: (ms ++ [m]))).cache.peek uid = some o := by
  obtain ⟨hlead, handle, hcallers, -⟩ := h.sound.join_unowned hc id
  let c : Caller := ⟨id, uid, handle, .leading⟩
  have hmem : c ∈ (s.start id (.get uid)).registry.callers := by
    rw [start, get_eq h.sound, hp]
    dsimp only
    rw [if_pos hlead]
    exact hcallers ▸ List.mem_append_right _ (.head _)
  have hids : (ids ++ started (.start id (.get uid) :: ms) ++ m.started).Nodup := by
    simpa [Move.started] using hn
  have hids₀ := (List.nodup_append.1 hids).1
  have hids₁ : (ids ++ [id] ++ started ms).Nodup := by simpa [Move.started] using hids₀
  have hid : id ∉ ids := fun hi => List.disjoint_of_nodup_append hn hi (.head _)
  have hbefore := h.run hids₀
  have hmanned := hm.run h hids₀
  have hleads : c ∈ (s.run (.start id (.get uid) :: ms)).registry.callers := by
    rcases leading_run (h.start hid (.get uid)) hids₁ hmem rfl
      fun i hi => hd i (List.mem_append_left _ hi) with hc' | ⟨f, hf, hi⟩
    · exact hc'
    · exact absurd hi (hopen f hf)
  rw [← List.cons_append, run_concat] at hf ⊢
  have hsingle := (hone.run h hm hids₀).move hbefore hmanned hids
  generalize s.run (.start id (.get uid) :: ms) = before at *
  rcases leading_move hbefore hids hleads rfl with hc' | ⟨f, hfl, rfl, hi⟩ | ⟨i, rfl⟩
  · exact absurd (Or.inl ⟨c, hc', rfl⟩) (hsingle.settled _ hf)
  · have hwork := hmanned.own c hleads f hfl hi
    rw [move, if_pos hfl] at hf hsingle ⊢
    have hanswer : ⟨f.id, before.now, before.replyTo f⟩ ∈ (before.land f).finished := by
      rw [land_finished_eq]
      exact List.mem_append_right _ (.head _)
    have hreply := congrArg Finish.reply (hsingle.eq_of_id hanswer hf hi)
    rw [replyTo, hwork] at hreply
    exact land_keeps hbefore hwork (Reply.found.inj hreply)
  · exact absurd (List.mem_append_right _ (.head _)) (hd i)

end OrderLookup.Resolver
