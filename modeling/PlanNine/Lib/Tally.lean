import Mathlib.Data.List.Basic
import Mathlib.Logic.Function.Basic
import Mathlib.Tactic.Linarith

/-!
# Tallies

Every row of a table holds a number of something, and a tally is the sum over the rows. When one
row changes, the tally changes by what the row holds more or less.

## Main definitions

* `tally n w f`: the sum of the weights `w` of the first `n` rows of a table `f`.

## Main results

* `tally_update`: what a tally is behind a change of one row.
* `tally_pos_iff`: a tally is positive when some row has a weight.
-/

namespace PlanNine

variable {α : Type*} {w w' : α → ℕ} {f g : ℕ → α} {n i : ℕ} {a : α}

/-- The sum of the weights of the first `n` rows of a table. -/
def tally (n : ℕ) (w : α → ℕ) (f : ℕ → α) : ℕ :=
  match n with
  | 0 => 0
  | n + 1 => tally n w f + w (f n)

theorem tally_congr (h : ∀ i < n, w (f i) = w' (g i)) : tally n w f = tally n w' g := by
  induction n with
  | zero => rfl
  | succ n ih => rw [tally, tally, ih fun i hi => h i (by omega), h n (by omega)]

/-- A row changes. -/
theorem tally_update (w : α → ℕ) (f : ℕ → α) (hi : i < n) (a : α) :
    tally n w (Function.update f i a) + w (f i) = tally n w f + w a := by
  induction n with
  | zero => omega
  | succ n ih =>
    rw [tally, tally]
    rcases Nat.lt_succ_iff_lt_or_eq.mp hi with hin | rfl
    · rw [Function.update_of_ne (by omega : n ≠ i)]
      have := ih hin
      omega
    · have hsame : tally i w (Function.update f i a) = tally i w f :=
        tally_congr fun j hj => by rw [Function.update_of_ne (by omega : j ≠ i)]
      rw [hsame, Function.update_self]
      omega

/-- A row changes, and keeps its weight. -/
theorem tally_update_of_eq (hi : i < n) (h : w a = w (f i)) :
    tally n w (Function.update f i a) = tally n w f := by
  have := tally_update w f hi a
  omega

theorem tally_eq_zero_iff : tally n w f = 0 ↔ ∀ i < n, w (f i) = 0 := by
  induction n with
  | zero => exact iff_of_true rfl (by omega)
  | succ n ih =>
    rw [tally, Nat.add_eq_zero_iff, ih]
    constructor
    · rintro ⟨h, hn⟩ i hi
      rcases Nat.lt_succ_iff_lt_or_eq.mp hi with hin | rfl
      · exact h i hin
      · exact hn
    · intro h
      exact ⟨fun i hi => h i (by omega), h n (by omega)⟩

theorem tally_pos_iff : 0 < tally n w f ↔ ∃ i < n, 0 < w (f i) := by
  rw [Nat.pos_iff_ne_zero, ne_eq, tally_eq_zero_iff]
  push Not
  simp only [Nat.pos_iff_ne_zero]

/-- A row holds no more than all of them. -/
theorem le_tally (w : α → ℕ) (f : ℕ → α) (hi : i < n) : w (f i) ≤ tally n w f := by
  induction n with
  | zero => omega
  | succ n ih =>
    rw [tally]
    rcases Nat.lt_succ_iff_lt_or_eq.mp hi with hin | rfl
    · exact (ih hin).trans (Nat.le_add_right _ _)
    · exact Nat.le_add_left _ _

end PlanNine
