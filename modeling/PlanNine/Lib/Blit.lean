import Mathlib.Tactic

/-!
# Copies between memories

A memory is a function from addresses. A copy replaces the contents of a range by those at the
beginning of another memory.

## Main definitions

* `blit f a n g`: the first `n` places of `g` are copied to `a` in `f`.

## Main results

* `blit_apply_add`: what is found in the range.
* `blit_of_lt`, `blit_of_le`: what is found before and behind it.
-/

namespace PlanNine

variable {β : Type*} {f g : ℕ → β} {a n i x : ℕ}

/-- Copy the first `n` places of `g` to `a`. -/
def blit (f : ℕ → β) (a n : ℕ) (g : ℕ → β) (x : ℕ) : β :=
  if a ≤ x ∧ x < a + n then g (x - a) else f x

theorem blit_apply_add (h : i < n) : blit f a n g (a + i) = g i := by
  unfold blit
  rw [if_pos ⟨Nat.le_add_right a i, Nat.add_lt_add_left h a⟩, Nat.add_sub_cancel_left]

theorem blit_of_lt (h : x < a) : blit f a n g x = f x :=
  if_neg fun hx => absurd hx.1 (not_le.mpr h)

theorem blit_of_le (h : a + n ≤ x) : blit f a n g x = f x :=
  if_neg fun hx => absurd hx.2 (not_lt.mpr h)

/-- A place that has changed is in the range. -/
theorem exists_of_blit_ne (h : blit f a n g x ≠ f x) : ∃ i < n, x = a + i := by
  obtain hx | hx := lt_or_ge x a
  · exact absurd (blit_of_lt hx) h
  · obtain hx' | hx' := lt_or_ge x (a + n)
    · exact ⟨x - a, by omega, by omega⟩
    · exact absurd (blit_of_le hx') h

end PlanNine
