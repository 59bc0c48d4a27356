import Mathlib.Tactic

/-!
# Contiguous parts of a list

`slice l a n` are the `n` entries of `l` from the offset `a` on. Adjacent parts make up a part, and
what is cut off a part at either end leaves a part.

## Main results

* `slice_append_slice`: two adjacent parts.
* `take_slice`, `drop_slice`: parts of a part.
-/

namespace PlanNine

variable {α : Type*}

/-- The `n` entries of `l` from the offset `a` on. -/
def slice (l : List α) (a n : ℕ) : List α := (l.drop a).take n

theorem length_slice {l : List α} {a n : ℕ} (h : a + n ≤ l.length) : (slice l a n).length = n := by
  rw [slice, List.length_take, List.length_drop]
  omega

@[simp] theorem slice_zero_right (l : List α) (a : ℕ) : slice l a 0 = [] := List.take_zero

theorem slice_zero_left (l : List α) (n : ℕ) : slice l 0 n = l.take n := rfl

theorem slice_append_slice (l : List α) (a m n : ℕ) :
    slice l a m ++ slice l (a + m) n = slice l a (m + n) := by
  rw [slice, slice, slice, ← List.drop_drop, List.take_add]

theorem take_slice {l : List α} {a m n : ℕ} (h : m ≤ n) : (slice l a n).take m = slice l a m := by
  rw [slice, slice, List.take_take, min_eq_left h]

theorem drop_slice (l : List α) (a m n : ℕ) : (slice l a n).drop m = slice l (a + m) (n - m) := by
  rw [slice, slice, List.drop_take, List.drop_drop]

theorem slice_eq_drop {l : List α} {a n : ℕ} (h : l.length ≤ a + n) : slice l a n = l.drop a := by
  rw [slice, List.take_of_length_le]
  rw [List.length_drop]
  omega

end PlanNine
