import Mathlib.Data.List.Rotate
import Mathlib.Tactic

/-!
# Cyclic buffers

The entries of a buffer from a place on, which go on at its beginning behind its end. Entries are
taken off in front and put in behind.

## Main definitions

* `cyclic buf r n`: the `n` entries of `buf` from `r` on.

## Main results

* `drop_cyclic`, `take_cyclic`: parts of them.
* `cyclic_set`: an entry is put in behind the last one.
* `cyclic_eq`: the two parts of the buffer that they are in.
-/

namespace PlanNine

variable {α : Type*} {buf : List α} {r n i : ℕ} {x : α}

/-- The `n` entries of a cyclic buffer from the place `r` on. -/
def cyclic (buf : List α) (r n : ℕ) : List α := (buf.rotate r).take n

@[simp] theorem cyclic_zero : cyclic buf r 0 = [] := List.take_zero

theorem length_cyclic (h : n ≤ buf.length) : (cyclic buf r n).length = n := by
  rw [cyclic, List.length_take, List.length_rotate, min_eq_left h]

/-- A place behind the end is one at the beginning. -/
theorem cyclic_mod : cyclic buf (r % buf.length) n = cyclic buf r n := by
  rw [cyclic, List.rotate_mod, cyclic]

theorem take_cyclic (h : i ≤ n) : (cyclic buf r n).take i = cyclic buf r i := by
  rw [cyclic, List.take_take, min_eq_left h, cyclic]

theorem drop_cyclic (h : n ≤ buf.length) :
    (cyclic buf r n).drop i = cyclic buf (r + i) (n - i) := by
  obtain hi | hi := le_total i n
  · have hlen := List.length_rotate buf r
    rw [cyclic, cyclic, List.drop_take, ← List.rotate_rotate,
      List.rotate_eq_drop_append_take (l := buf.rotate r) (by omega),
      List.take_append_of_le_length (by rw [List.length_drop]; omega)]
  · rw [List.drop_eq_nil_of_le ((length_cyclic h).trans_le hi), Nat.sub_eq_zero_of_le hi,
      cyclic_zero]

/-- An entry is put in behind the last one. -/
theorem cyclic_set (h : n < buf.length) :
    cyclic (buf.set ((r + n) % buf.length) x) r (n + 1) = cyclic buf r n ++ [x] := by
  have hpos : 0 < buf.length := by omega
  have hlen : (buf.set ((r + n) % buf.length) x).length = buf.length := List.length_set
  refine List.ext_getElem ?_ fun k hk hk' => ?_
  · rw [length_cyclic (by omega), List.length_append, length_cyclic h.le, List.length_singleton]
  · rw [length_cyclic (by omega)] at hk
    simp only [cyclic, List.getElem_take, List.getElem_rotate, List.length_set]
    obtain rfl | hlt := (Nat.lt_succ_iff.mp hk).eq_or_lt
    · rw [List.getElem_append_right (by simp)]
      simp only [List.length_take, List.length_rotate, List.getElem_singleton]
      rw [List.getElem_set, if_pos (by rw [Nat.add_comm])]
    · rw [List.getElem_append_left (by simp; omega)]
      simp only [List.getElem_take, List.getElem_rotate]
      rw [List.getElem_set_ne]
      intro heq
      have hmod : (r + n) ≡ (r + k) [MOD buf.length] := by rw [Nat.ModEq, heq, Nat.add_comm k]
      have hmod' := Nat.ModEq.add_left_cancel' r hmod
      rw [Nat.ModEq, Nat.mod_eq_of_lt h, Nat.mod_eq_of_lt (hlt.trans h)] at hmod'
      omega

/-- The entries are some at the end of the buffer and some at its beginning. -/
theorem cyclic_eq (hr : r ≤ buf.length) (hn : n ≤ buf.length) :
    cyclic buf r n = (buf.drop r).take n ++ buf.take (n - (buf.length - r)) := by
  rw [cyclic, List.rotate_eq_drop_append_take hr, List.take_append, List.take_take,
    List.length_drop, min_eq_left (by omega)]

end PlanNine
