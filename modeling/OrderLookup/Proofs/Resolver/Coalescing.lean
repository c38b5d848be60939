import OrderLookup.Proofs.Resolver.Draining
import OrderLookup.Proofs.Resolver.Reads

/-!
Lookups that miss the cache share their access to the store. Calls for one id never overlap, none
begins while the cache holds the id, and there are no more of them than lookups that missed. Each
of these lookups returns with the outcome of a call that ended while it waited, or with what the
cache held when the turn that it waited for was taken over.
-/

namespace OrderLookup.Resolver

open Inflight (Caller)

/-- The moves by which a waiting lookup comes to its answer: the fetch of its handle ends, or a
caller on its handle takes over and finds the order in the cache. -/
inductive Settles (s : Resolver) (id : Nat) (uid : String) :
    Move → Except OrderError Order → Prop
  | fetched {f : Flight} {c : Caller} : f ∈ s.flights → f.work = .fetch uid →
      c ∈ s.registry.callers → c.id = f.id → s.Shares id c →
      Settles s id uid (.land f) (outcome f.pending (s.repository.get uid))
  | takenOver {c : Caller} {o : Order} : c ∈ s.registry.callers → c.key = uid →
      c.stage = .chosen → s.Shares id c → s.cache.peek uid = some o →
      Settles s id uid (.takeOver c.id) (.ok o)

structure Coalesced (s : Resolver) (ms : List Move) : Prop where
  alone : ∀ uid before after, ms = before ++ after → ((s.run before).fetches uid).length ≤ 1
  unheld : ∀ uid before m after, ms = before ++ m :: after →
    ⟨.getOrder, uid⟩ ∈ (s.run before).asked m →
    (s.run before).cache.peek uid = none ∧ (s.run before).fetches uid = []
  bounded : ∀ uid, (s.run ms).asks uid ≤ (s.misses uid ms).length
  settled : ∀ uid before id after t r, ms = before ++ .start id (.get uid) :: after →
    (s.run before).cache.peek uid = none → ⟨id, t, .found r⟩ ∈ (s.run ms).finished →
    ∃ past m rest, after = past ++ m :: rest ∧
      Settles (s.run (before ++ .start id (.get uid) :: past)) id uid m r

variable {s : Resolver} {ms : List Move} {ids : List Nat} {id : Nat} {uid : String}

theorem settles_of_get {f : Finish} {r : Except OrderError Order} (h : Coherent ids s)
    (hn : (ids ++ id :: started ms).Nodup) (hmiss : s.cache.peek uid = none)
    (hf : f ∈ (s.run (.start id (.get uid) :: ms)).finished) (hi : f.id = id)
    (hr : f.reply = .found r) :
    ∃ past m rest, ms = past ++ m :: rest ∧
      Settles (s.run (.start id (.get uid) :: past)) id uid m r := by
  have hids : id ∉ ids := fun h => List.disjoint_of_nodup_append hn h (List.mem_cons_self ..)
  have hmove : (ids ++ [id] ++ started ms).Nodup := by simpa using hn
  have hid : id ∉ started ms := (List.nodup_cons.1 (List.nodup_append.1 hn).2.1).1
  let G : Except OrderError Order → Prop := fun r => ∃ past m rest, ms = past ++ m :: rest ∧
    Settles (s.run (.start id (.get uid) :: past)) id uid m r
  have hget : Answers G id uid (s.get id uid) := Answers.ofGet h hids fun o ho => by
    rw [hmiss] at ho
    cases ho
  have hrun := hget.run (h.start hids (.get uid)) hmove hid
    (fun a b c o he hc hk hs hsh ho => ⟨a, _, b, he, .takenOver hc hk hs hsh ho⟩)
    (fun a b g he hg hw ⟨c, hc, hci, hsh⟩ => ⟨a, _, b, he, .fetched hg hw hc hci hsh⟩)
  exact hrun.given f hf hi r hr

theorem Coalesced.ofRun (h : Coherent [] s) (hm : Manned s) (ha : s.calls = [])
    (hr : s.registry.callers = []) (hn : (started ms).Nodup) : Coalesced s ms where
  alone := by
    intro uid before after hms
    subst hms
    have hn' : (started before).Nodup := started_nodup_of_append hn
    exact (hm.run h hn').fetches_le (h.run hn') uid
  unheld := by
    intro uid before m after hms hask
    subst hms
    rw [List.append_cons] at hn
    have hn' := started_nodup_of_append hn
    have hbefore : (started before).Nodup := started_nodup_of_append hn'
    rw [started_append, started_cons, started_nil, List.append_nil] at hn'
    exact (hm.run h hbefore).unheld_of_asked (h.run hbefore) hn' hask
  bounded := by
    intro uid
    have hle := asks_run h hn uid
    have hasks : s.asks uid = 0 := by rw [asks, ha, List.countP_nil]
    have hreserve : s.registry.reserve uid = 0 := by
      rw [Inflight.Registry.reserve, hr, List.countP_nil]
    omega
  settled := by
    intro uid before id after t r hms hmiss hf
    subst hms
    have hbefore : Coherent (started before) (s.run before) := h.run (started_nodup_of_append hn)
    rw [run_append] at hf
    simp only [run_append]
    exact settles_of_get hbefore (by simpa [Move.started] using hn) hmiss hf rfl rfl

/-- Calls for an id never overlap, and there are no more of them than misses. A lookup that missed
shares the outcome of such a call, or what was in the cache at a takeover. -/
theorem store_access_is_coalesced {settings : Settings} {capacity : Nat} {repository : Repository}
    {script : Script} (hs : s = ofParts settings capacity repository script) :
    (∀ ms, (started ms).Nodup → Coalesced s ms) ∧
    ∀ events : List Event, (events.map Event.id).Nodup →
      (∃ ms, operations ms = events.map (fun e => (e.id, e.action)) ∧
        s.run ms = s.complete events ∧ Coalesced s ms) ∧
      ∀ past e rest uid, events = past ++ e :: rest → e.action = .get uid →
        (∀ d ∈ rest, d.action ≠ .abort e.id) →
        ∃ t r, ⟨e.id, t, .found r⟩ ∈ (s.complete events).finished := by
  have h : Coherent [] s := hs ▸ .ofParts ..
  have hm : Manned s := hs ▸ .ofParts ..
  have hruns : ∀ ms, (started ms).Nodup → Coalesced s ms := by
    intro ms hn
    apply Coalesced.ofRun h hm _ _ hn
    · rw [hs]
      rfl
    · rw [hs]
      rfl
  refine ⟨hruns, fun events hn => ⟨?_, ?_⟩⟩
  · obtain ⟨ms, hops, hrun⟩ := Leads.complete s events
    exact ⟨ms, hops, hrun, hruns ms (by rwa [started_of_operations hops])⟩
  · intro past e rest uid he hg hd
    subst he
    exact get_finishes hs hn hg hd

def slow : Resolver :=
  ofParts {} 2 (Repository.ofOrders [version 1]) ⟨[(.getOrder, .uniform 100)], []⟩

def givenUp : List Event :=
  [⟨0, 0, .get "a"⟩, ⟨10, 1, .get "a"⟩, ⟨20, 2, .get "a"⟩, ⟨30, 3, .cacheSet "a" (version 2)⟩,
    ⟨40, 4, .abort 0⟩]

theorem store_access_is_coalesced_after_takeover :
    (givenUp.map Event.id).Nodup ∧
    (∃ ms, operations ms = givenUp.map (fun e => (e.id, e.action)) ∧
      slow.run ms = slow.complete givenUp ∧ Coalesced slow ms) ∧
    ∃ t r, ⟨1, t, .found r⟩ ∈ (slow.complete givenUp).finished := by
  have hn : (givenUp.map Event.id).Nodup := by decide
  obtain ⟨hrun, hreturn⟩ := (store_access_is_coalesced (s := slow) rfl).2 givenUp hn
  refine ⟨hn, hrun, ?_⟩
  exact hreturn [⟨0, 0, .get "a"⟩] ⟨10, 1, .get "a"⟩
    [⟨20, 2, .get "a"⟩, ⟨30, 3, .cacheSet "a" (version 2)⟩, ⟨40, 4, .abort 0⟩] "a" rfl rfl (by simp)

/-- A lookup can return with what another one found in the cache when it took over: no call ended
while it lasted, and the store holds another order. -/
theorem followers_share_what_a_takeover_finds :
    ∃ before after : List Move,
      slow.complete givenUp = slow.run (before ++ .start 2 (.get "a") :: after) ∧
      (slow.run before).cache.peek "a" = none ∧
      ⟨2, 40, .found (.ok (version 2))⟩ ∈ (slow.complete givenUp).finished ∧
      .takeOver 2 ∉ after ∧ (∀ f, .land f ∉ after) ∧
      (slow.complete givenUp).calls = [⟨0, ⟨.getOrder, "a"⟩⟩] ∧
      (slow.complete givenUp).repository.get "a" = .ok (version 1) ∧ version 1 ≠ version 2 :=
  ⟨[.start 0 (.get "a"), .wait 10, .start 1 (.get "a"), .wait 20],
    [.wait 30, .start 3 (.cacheSet "a" (version 2)), .wait 40, .start 4 (.abort 0), .takeOver 1,
      .collect 2],
    rfl, rfl, .tail _ (.tail _ (.head _)), by simp, by simp, rfl, rfl, by decide⟩

end OrderLookup.Resolver
