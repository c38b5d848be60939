import OrderLookup.Proofs.Resolver.Reads
import OrderLookup.Proofs.Resolver.Refreshing

/-!
Where the orders in the cache come from. The store files each order under its id, a fetch caches it
under the id that was asked for, and a refresh under the order's own id. So an id never leads to an
order of another id, neither in the cache nor in the answer to a lookup.
-/

namespace OrderLookup

/-- Whether each order is stored under its own id, and none under the empty one. -/
def Repository.Filed (r : Repository) : Prop :=
  ∀ uid o, r.orders.get? uid = some o → o.uid = uid ∧ uid ≠ ""

namespace Repository.Filed

theorem empty : Filed Repository.empty := by
  intro uid o h
  cases h

theorem upsert {r r' : Repository} {o : Order} (h : r.Filed) (hu : r.upsert o = .ok r') :
    r'.Filed := by
  obtain ⟨hne, rfl⟩ := upsert_eq_ok_iff.1 hu
  intro uid a ha
  rw [Table.get?_insert] at ha
  split at ha
  · rename_i huid
    cases ha
    exact ⟨huid, huid ▸ hne⟩
  · exact h uid a ha

theorem ofOrders (l : List Order) : (Repository.ofOrders l).Filed := by
  rw [Repository.ofOrders]
  induction l using List.reverseRecOn with
  | nil => exact empty
  | append_singleton l o ih =>
    rw [List.foldl_append, List.foldl_cons, List.foldl_nil]
    generalize l.foldl _ Repository.empty = r at ih ⊢
    cases hu : r.upsert o with
    | error e => exact ih
    | ok r' => exact ih.upsert hu

end Repository.Filed

namespace Resolver

open Repository (Filed)

variable {s : Resolver} {m : Move} {ms : List Move} {ids : List Nat} {uid : String} {o : Order}

theorem filed_run (h : s.repository.Filed) (ms : List Move) : (s.run ms).repository.Filed := by
  refine run_induction (P := fun s => s.repository.Filed) h fun before m _ _ hb => ?_
  rcases (s.run before).repository_move m with ⟨-, hr⟩ | ⟨o, -, hr⟩
  · exact hr ▸ hb
  · exact hb.upsert hr

theorem Held.filed (h : Held s ms uid o) (hf : s.repository.Filed) : o.uid = uid ∧ uid ≠ "" := by
  obtain ⟨before, after, -, ho⟩ := h
  exact filed_run hf before uid o ho

theorem capacity_move (h : Coherent ids s) (m : Move) :
    (s.move m).cache.capacity = s.cache.capacity := by
  have hget (key : String) : (s.cache.get key).2.capacity = s.cache.capacity := by
    rw [Cache.get]
    split <;> rfl
  cases m with
  | start id a =>
    cases a with
    | get uid =>
      rw [move, start, get_cache h]
      exact hget uid
    | cacheSet key o => exact (s.cache.set_frame key o).1
    | cacheGet key => exact hget key
    | store o =>
      rw [move, start]
      split <;> rfl
    | _ => rfl
  | land f =>
    rw [move]
    split
    · rw [land_cache, Cache.fill_capacity]
    · rfl
  | takeOver id => rw [move, takeOver_cache]
  | collect id => rw [move, collect_cache]
  | wait time => rfl

theorem capacity_run (h : Coherent ids s) (hn : (ids ++ started ms).Nodup) :
    (s.run ms).cache.capacity = s.cache.capacity :=
  h.run_induction (P := fun s' => s'.cache.capacity = s.cache.capacity) hn rfl
    fun _ m _ _ hb _ hc => (capacity_move hb m).trans hc

/-- What the cache holds under an id is an order of that id that the store has held under it, and so
is what a lookup of the id returns. -/
theorem cache_never_mixes_up_orders {settings : Settings} {capacity : Nat} {orders : List Order}
    {script : Script} (hs : s = ofParts settings capacity (Repository.ofOrders orders) script)
    (hn : (started ms).Nodup) (hu : Untouched ms) :
    (∀ uid o, (s.run ms).cache.peek uid = some o → o.uid = uid ∧ uid ≠ "" ∧ Held s ms uid o) ∧
    (∀ uid, uid ∈ (s.run ms).cache.keys ↔ ((s.run ms).cache.peek uid).isSome) ∧
    (s.run ms).cache.keys.Nodup ∧ (s.run ms).cache.keys.length ≤ max capacity 1 ∧
    ∀ before after id uid time o, ms = before ++ after → .start id (.get uid) ∈ before →
      ⟨id, time, .found (.ok o)⟩ ∈ (s.run before).finished →
      o.uid = uid ∧ uid ≠ "" ∧ Held s before uid o := by
  have hc : Coherent [] s := hs ▸ .ofParts ..
  have hr : s.repository.HoldsOnly orders := hs ▸ .ofOrders orders
  have hf : s.repository.Filed := hs ▸ .ofOrders orders
  have hp : ∀ uid, s.cache.peek uid = none := fun uid => by rw [hs]; rfl
  have hord : (s.run ms).cache.Ordered := ordered_run hc (hs ▸ .ofCapacity capacity) hn
  have hcap : (s.run ms).cache.capacity = max capacity 1 := by
    rw [capacity_run hc hn, hs]
    rfl
  have hheld : ∀ before after uid o, ms = before ++ after → Kept s before uid o →
      o.uid = uid ∧ uid ≠ "" ∧ Held s before uid o := by
    rintro before after uid o rfl hk
    have hh := hk.held hc (started_nodup_of_append hn) hr (untouched_append.1 hu).1 (by simp [hp])
    exact ⟨(hh.filed hf).1, (hh.filed hf).2, hh⟩
  have hlen : (s.run ms).cache.keys.length ≤ max capacity 1 := by
    rw [← hcap]
    exact hord.length_keys_le
  refine ⟨?_, ?_, hord.nodup_keys, hlen, ?_⟩
  · exact fun uid o ho => hheld ms [] uid o (by simp) ⟨ms, [], by simp, ho⟩
  · intro uid
    rw [Option.isSome_iff_ne_none, ne_eq, hord.peek_eq_none_iff, not_not]
  · rintro before after id uid time o rfl hget hfin
    obtain ⟨past, rest, rfl⟩ := List.append_of_mem hget
    have hk := (kept_of_get hc (started_nodup_of_append hn) hfin rfl rfl).prepend
    exact hheld _ after uid o rfl hk

def narrow : Resolver := ofParts {} 1 (Repository.ofOrders [version 1, { uid := "b" }]) {}

def fetchingOther (id : Nat) : Flight := ⟨id, .fetch "b", .start {} ⟨.getOrder, "b"⟩ 0 2000⟩

theorem cache_never_mixes_up_orders_of_two :
    ∃ ms : List Move, Untouched ms ∧ (narrow.run ms).cache.peek "b" = some { uid := "b" } ∧
      (narrow.run ms).cache.keys.length ≤ 1 ∧ Held narrow ms "b" { uid := "b" } ∧
      ⟨1, 0, .found (.ok (version 2))⟩ ∈ (narrow.run ms).finished ∧
      Held narrow ms "a" (version 2) := by
  let ms : List Move := [.start 1 (.get "a"), .start 2 (.get "b"), .start 3 (.store (version 2)),
    .land (fetching 1), .land (fetchingOther 2)]
  have hu : Untouched ms := by simp [Untouched, ms]
  have hp : (narrow.run ms).cache.peek "b" = some { uid := "b" } := by decide
  have hfin : ⟨1, 0, .found (.ok (version 2))⟩ ∈ (narrow.run ms).finished := .tail _ (.head _)
  obtain ⟨hkept, -, -, hlen, hans⟩ := cache_never_mixes_up_orders (s := narrow) rfl (by decide) hu
  exact ⟨ms, hu, hp, hlen, (hkept "b" _ hp).2.2, hfin,
    (hans ms [] 1 "a" 0 _ (by simp) (.head _) hfin).2.2⟩

end Resolver

end OrderLookup
