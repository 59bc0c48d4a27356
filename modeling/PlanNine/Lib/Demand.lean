import Mathlib.Algebra.Order.BigOperators.Group.List
import Mathlib.Tactic

/-!
# Processor demand of periodic tasks

A periodic task releases a job at every multiple of its period, each with the same cost and the
same time until its deadline. The demand of a set of tasks up to a time is the cost of the jobs
that are released and due by then. When the work released before some time is done by that time,
no later demand is too large if none was up to there: the schedule begins anew.

## Main definitions

* `Periodic`: cost, relative deadline and period.
* `Periodic.due`, `Periodic.released`: how many jobs are due by a time, or released before it.
* `demand`, `work`: the cost of these jobs over a list of tasks.

## Main results

* `lt_due`, `lt_released`: the jobs that count.
* `due_add_le`: the jobs due after a time were released before it or are those of a later start.
* `demand_le_of_idle`: the demand is met at all times if it is met up to an idle time.
-/

namespace PlanNine.Demand

/-- A periodic task. -/
structure Periodic where
  cost : ℕ
  deadline : ℕ
  period : ℕ

namespace Periodic

/-- The number of jobs that are due by the time `t`. -/
def due (p : Periodic) (t : ℕ) : ℕ :=
  if t < p.deadline then 0 else (t - p.deadline) / p.period + 1

/-- The number of jobs that are released before the time `t`. -/
def released (p : Periodic) (t : ℕ) : ℕ := (t + p.period - 1) / p.period

variable {p : Periodic} {t k : ℕ}

theorem lt_due (h : 0 < p.period) : k < p.due t ↔ k * p.period + p.deadline ≤ t := by
  unfold due
  split_ifs with ht
  · constructor
    · intro hk
      exact absurd hk (Nat.not_lt_zero k)
    · intro hk
      exact absurd ht (not_lt.mpr ((Nat.le_add_left _ _).trans hk))
  · rw [Nat.lt_succ_iff, Nat.le_div_iff_mul_le h]
    omega

theorem lt_released (h : 0 < p.period) : k < p.released t ↔ k * p.period < t := by
  unfold released
  rw [← Nat.succ_le_iff, Nat.le_div_iff_mul_le h, Nat.succ_mul]
  omega

/-- Jobs due by a time that are not due by an earlier one. -/
theorem due_le (h : 0 < p.period) (hk : t < k * p.period + p.deadline) : p.due t ≤ k := by
  by_contra hlt
  exact absurd ((lt_due h).mp (not_le.mp hlt)) (not_le.mpr hk)

theorem released_le (h : 0 < p.period) (hk : t ≤ k * p.period) : p.released t ≤ k := by
  by_contra hlt
  exact absurd ((lt_released h).mp (not_le.mp hlt)) (not_lt.mpr hk)

/-- The jobs due by `l + t` are released before `l`, or come as early after `l` as those due by `t`
after the start. -/
theorem due_add_le (h : 0 < p.period) (l t : ℕ) : p.due (l + t) ≤ p.released l + p.due t := by
  by_contra hlt
  have hdue : p.released l + p.due t < p.due (l + t) := not_le.mp hlt
  have hlast := (lt_due h).mp hdue
  have hl : l ≤ p.released l * p.period := by
    by_contra hlate
    exact absurd ((lt_released h).mpr (not_le.mp hlate)) (lt_irrefl _)
  have ht : t < p.due t * p.period + p.deadline := by
    by_contra hearly
    exact absurd ((lt_due h).mpr (not_lt.mp hearly)) (lt_irrefl _)
  rw [add_mul] at hlast
  omega

end Periodic

/-- The cost of the jobs that are due by the time `t`. -/
def demand (ps : List Periodic) (t : ℕ) : ℕ := (ps.map fun p => p.due t * p.cost).sum

/-- The cost of the jobs that are released before the time `t`. -/
def work (ps : List Periodic) (t : ℕ) : ℕ := (ps.map fun p => p.released t * p.cost).sum

variable {ps : List Periodic}

theorem demand_add_le (h : ∀ p ∈ ps, 0 < p.period) (l t : ℕ) :
    demand ps (l + t) ≤ work ps l + demand ps t := by
  unfold demand work
  rw [← List.sum_map_add]
  refine List.sum_le_sum fun p hp => ?_
  rw [← add_mul]
  exact Nat.mul_le_mul_right _ (Periodic.due_add_le (h p hp) l t)

/-- If the work released before `l` is done by then, and every demand up to `l` is met, then every
demand is met. -/
theorem demand_le_of_idle (h : ∀ p ∈ ps, 0 < p.period) {l : ℕ} (hpos : 0 < l)
    (hwork : work ps l ≤ l) (hdemand : ∀ t ≤ l, demand ps t ≤ t) (t : ℕ) : demand ps t ≤ t := by
  induction t using Nat.strong_induction_on with
  | _ t ih =>
    rcases Nat.lt_or_ge l t with hlt | hge
    · obtain ⟨s, rfl⟩ := Nat.exists_eq_add_of_lt hlt
      have hrest : demand ps (s + 1) ≤ s + 1 := ih (s + 1) (by omega)
      calc demand ps (l + s + 1) ≤ work ps l + demand ps (s + 1) := demand_add_le h l (s + 1)
        _ ≤ l + (s + 1) := Nat.add_le_add hwork hrest
    · exact hdemand t hge

end PlanNine.Demand
