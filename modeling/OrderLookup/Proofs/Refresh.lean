import OrderLookup.Refresh
import Mathlib.Order.Monotone.Basic
import Mathlib.Data.List.Range

/-!
When the cache is refreshed. The ticks fall due at the multiples of the period, and the task waits
for one tick after another, so each refresh begins at its own tick, or as soon as the one before it
has ended where that is later. Nothing else counts: a refresh that fails takes its time like any
other, and a tick that has been missed is made up for by the next refresh, none of them is lost.
-/

namespace OrderLookup.Refresh

def endBefore (calls : List Call) : Nat → Nat
  | 0 => 0
  | k + 1 => (calls[k]?.map Call.ended).getD 0

namespace Service

/-- When the task is free for a call, if each call waits for its tick and for the one before. -/
def freeAt (s : Service) (period : Nat) : Nat → Nat
  | 0 => 0
  | k + 1 => max ((k + 1) * period) (s.freeAt period k) + s.takes k

def planned (s : Service) (period k : Nat) : Call :=
  let begun := max ((k + 1) * period) (s.freeAt period k)
  ⟨begun, begun + s.takes k, s.fails k⟩

def plan (s : Service) (period n : Nat) : List Call := (List.range n).map (s.planned period)

variable (s : Service) (period : Nat) {k n : Nat}

theorem ended_planned (k : Nat) : (s.planned period k).ended = s.freeAt period (k + 1) := rfl

theorem freeAt_le_begun (k : Nat) : s.freeAt period k ≤ (s.planned period k).begun :=
  Nat.le_max_right _ _

theorem tick_le_begun (k : Nat) : (k + 1) * period ≤ (s.planned period k).begun :=
  Nat.le_max_left _ _

theorem freeAt_mono : Monotone (s.freeAt period) := by
  refine monotone_nat_of_le_succ fun k => ?_
  calc s.freeAt period k ≤ (s.planned period k).begun := s.freeAt_le_begun period k
    _ ≤ (s.planned period k).begun + s.takes k := Nat.le_add_right _ _

theorem freeAt_fails (fails : Nat → Bool) :
    Service.freeAt { s with fails := fails } period k = s.freeAt period k := by
  induction k with
  | zero => rfl
  | succ k ih => rw [freeAt, freeAt, ih]

@[simp] theorem length_plan : (s.plan period n).length = n := by simp [plan]

theorem plan_succ : s.plan period (n + 1) = s.plan period n ++ [s.planned period n] := by
  rw [plan, List.range_succ, List.map_append]
  rfl

theorem getElem_plan (hk : k < (s.plan period n).length) :
    (s.plan period n)[k] = s.planned period k := by simp [plan]

theorem endBefore_plan (hk : k ≤ n) : endBefore (s.plan period n) k = s.freeAt period k := by
  cases k with
  | zero => rfl
  | succ k =>
    have hlt : k < (s.plan period n).length := by rw [length_plan]; omega
    rw [endBefore, List.getElem?_eq_getElem hlt, getElem_plan]
    rfl

theorem plan_apart : (s.plan period n).Pairwise fun c d => c.ended ≤ d.begun := by
  refine List.pairwise_map.2 (List.pairwise_lt_range.imp fun {i j} hij => ?_)
  calc (s.planned period i).ended = s.freeAt period (i + 1) := s.ended_planned period i
    _ ≤ s.freeAt period j := s.freeAt_mono period hij
    _ ≤ (s.planned period j).begun := s.freeAt_le_begun period j

theorem begun_le_ended {c : Call} (hc : c ∈ s.plan period n) : c.begun ≤ c.ended := by
  obtain ⟨k, -, rfl⟩ := List.mem_map.1 hc
  exact Nat.le_add_right _ _

end Service

/-- Whether the task has followed the plan so far, and waits for the tick of the next call from the
end of the last one on. -/
structure Follows (s : Service) (period n : Nat) (t : Task) : Prop where
  pace : t.ticker.period = period
  due : t.ticker.due = (n + 1) * period
  now : t.now = s.freeAt period n
  calls : t.calls = s.plan period n

namespace Follows

variable {s : Service} {period n : Nat} {t : Task}

theorem start (s : Service) (seconds : Nat) :
    Follows s (Refresh.period seconds) 0 (Task.start seconds) where
  pace := rfl
  due := by simp [Task.start, Ticker.tick]
  now := rfl
  calls := rfl

theorem next (h : Follows s period n t) : Follows s period (n + 1) (t.next s) := by
  have hbegun : max t.now t.ticker.due = (s.planned period n).begun := by
    rw [h.now, h.due, max_comm]
    rfl
  have hplace : t.calls.length = n := by rw [h.calls, Service.length_plan]
  constructor
  case pace => exact h.pace
  case due =>
    change t.ticker.due + t.ticker.period = _
    rw [h.due, h.pace, Nat.succ_mul (n + 1)]
  case now =>
    change max t.now t.ticker.due + s.takes t.calls.length = _
    rw [hbegun, hplace]
    rfl
  case calls =>
    change t.calls ++ [(⟨max t.now t.ticker.due, max t.now t.ticker.due + s.takes t.calls.length,
      s.fails t.calls.length⟩ : Call)] = _
    rw [hbegun, hplace, h.calls, Service.plan_succ]
    rfl

theorem after (s : Service) (seconds n : Nat) :
    Follows s (Refresh.period seconds) n (Task.after s seconds n) := by
  induction n with
  | zero => exact .start s seconds
  | succ n ih => exact ih.next

end Follows

theorem takeWhile_eq_filter {α : Type} {p : α → Bool} {l : List α}
    (h : l.Pairwise fun a b => p b = true → p a = true) : l.takeWhile p = l.filter p := by
  induction l with
  | nil => rfl
  | cons a l ih =>
    obtain ⟨ha, hl⟩ := List.pairwise_cons.1 h
    rw [List.takeWhile_cons, List.filter_cons]
    cases hp : p a with
    | true => rw [ih hl]; rfl
    | false =>
      have hnone : l.filter p = [] := by
        refine List.filter_eq_nil_iff.2 fun b hb hpb => ?_
        rw [ha b hb hpb] at hp
        cases hp
      rw [hnone]
      rfl

theorem callsUntil_eq_filter (s : Service) {seconds n instant : Nat}
    (h : instant < (n + 1) * period seconds) :
    Task.callsUntil s seconds instant =
      (s.plan (period seconds) n).filter fun c => c.begun ≤ instant := by
  have hpos : 0 < period seconds := by rw [period]; omega
  have hle : instant / period seconds ≤ n := Nat.le_of_lt_succ ((Nat.div_lt_iff_lt_mul hpos).2 h)
  obtain ⟨more, rfl⟩ := Nat.exists_eq_add_of_le hle
  have hsorted : (s.plan (period seconds) (instant / period seconds)).Pairwise fun c d =>
      decide (d.begun ≤ instant) = true → decide (c.begun ≤ instant) = true := by
    refine (s.plan_apart _).imp_of_mem fun hc _ hcd hd => ?_
    have hce := s.begun_le_ended _ hc
    simp only [decide_eq_true_eq] at hd ⊢
    omega
  have hlater : ((List.range more).map fun k =>
      s.planned (period seconds) (instant / period seconds + k)).filter
        (fun c => c.begun ≤ instant) = [] := by
    refine List.filter_eq_nil_iff.2 fun c hc => ?_
    obtain ⟨k, -, rfl⟩ := List.mem_map.1 hc
    have htick := s.tick_le_begun (period seconds) (instant / period seconds + k)
    have hinstant : instant < (instant / period seconds + 1) * period seconds :=
      (Nat.div_lt_iff_lt_mul hpos).1 (Nat.lt_succ_self _)
    have hmore : (instant / period seconds + 1) * period seconds ≤
        (instant / period seconds + k + 1) * period seconds :=
      Nat.mul_le_mul_right _ (by omega)
    simp only [decide_eq_true_eq]
    omega
  rw [Task.callsUntil, (Follows.after s seconds _).calls, takeWhile_eq_filter hsorted,
    Service.plan, Service.plan, List.range_add, List.map_append, List.filter_append, List.map_map]
  exact (List.append_nil _).symm.trans (congrArg (_ ++ ·) hlater.symm)

/-- Each refresh begins at its own multiple of the period, or at the end of the one before where
that is later, whether or not refreshes fail. -/
theorem refreshes_keep_to_the_ticks (s : Service) (seconds n : Nat) :
    let P := max 1 seconds * 1000
    let calls := (Task.after s seconds n).calls
    calls.length = n ∧
      (∀ k (hk : k < calls.length),
        calls[k].begun = max ((k + 1) * P) (endBefore calls k) ∧
        calls[k].ended = calls[k].begun + s.takes k ∧ calls[k].failed = s.fails k) ∧
      calls.Pairwise (fun c d => c.ended ≤ d.begun) ∧
      (∀ c ∈ calls, 0 < c.begun) ∧
      (∀ instant, instant < (n + 1) * P →
        Task.callsUntil s seconds instant = calls.filter fun c => c.begun ≤ instant) ∧
      ∀ fails, (Task.after { s with fails := fails } seconds n).calls.map Call.begun =
        calls.map Call.begun := by
  intro P calls
  have hcalls : calls = s.plan P n := (Follows.after s seconds n).calls
  have hpos : 0 < P := by omega
  rw [hcalls]
  refine ⟨s.length_plan P, fun k hk => ?_, s.plan_apart P, fun c hc => ?_,
    fun instant hi => callsUntil_eq_filter s hi, fun fails => ?_⟩
  · rw [s.getElem_plan, s.endBefore_plan P (by simpa using Nat.le_of_lt hk)]
    exact ⟨rfl, rfl, rfl⟩
  · obtain ⟨k, -, rfl⟩ := List.mem_map.1 hc
    have htick := s.tick_le_begun P k
    have hfirst : P ≤ (k + 1) * P := Nat.le_mul_of_pos_left P (Nat.succ_pos k)
    omega
  · rw [(Follows.after _ seconds n).calls]
    change (Service.plan _ P n).map _ = _
    rw [Service.plan, Service.plan, List.map_map, List.map_map]
    refine List.map_congr_left fun k _ => ?_
    change max _ (Service.freeAt _ P k) = max _ (s.freeAt P k)
    rw [s.freeAt_fails P fails]

def slowStart : Service where
  takes k := if k = 0 then 3500 else 10
  fails k := k == 1

/-- The ticks that a slow refresh has missed are made up for one right after another. -/
theorem refreshes_keep_to_the_ticks_after_delay :
    let calls := (Task.after slowStart 0 5).calls
    calls.map Call.begun = [1000, 4500, 4510, 4520, 5000] ∧
      calls[2]?.map Call.begun = some (max 3000 (endBefore calls 2)) ∧
      4515 < 6000 ∧ (Task.callsUntil slowStart 0 4515).map Call.begun = [1000, 4500, 4510] := by
  intro calls
  obtain ⟨-, hbegun, -, -, huntil, -⟩ := refreshes_keep_to_the_ticks slowStart 0 5
  have hlong : 2 < calls.length := by decide
  refine ⟨by decide, ?_, by decide, ?_⟩
  · rw [List.getElem?_eq_getElem hlong, Option.map_some, (hbegun 2 hlong).1]
    rfl
  · rw [huntil 4515 (by decide)]
    decide

end OrderLookup.Refresh
