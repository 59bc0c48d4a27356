import Mathlib.Data.List.Basic
import Mathlib.Tactic

/-!
# Ranges of addresses

A range holds the addresses from its first one on, as many as its size says. How many ranges of a
list hold an address is a sum over the list, so splitting a range, joining two that touch and
moving one to another list are equations of sums. Ranges that are not empty are apart exactly when
no address is held twice.

## Main definitions

* `Range`, `Range.Holds`, `Range.Apart`: ranges, the addresses of one, two that share none.
* `count`: how many ranges of a list hold an address.

## Main results

* `pairwise_apart`: where no address is held twice, the ranges are pairwise apart.
* `count_le_one`: where the ranges are pairwise apart, no address is held twice.
* `count_join`: a range is counted as its two parts.
-/

namespace PlanNine

/-- The addresses from `addr` on, `size` of them. -/
structure Range where
  addr : ℕ
  size : ℕ
  deriving DecidableEq, Repr

namespace Range

/-- The range holds the address. -/
def Holds (r : Range) (a : ℕ) : Prop := r.addr ≤ a ∧ a < r.addr + r.size

/-- One range ends before the other begins. -/
def Apart (r s : Range) : Prop := r.addr + r.size ≤ s.addr ∨ s.addr + s.size ≤ r.addr

instance (r : Range) (a : ℕ) : Decidable (r.Holds a) := inferInstanceAs (Decidable (_ ∧ _))

instance (r s : Range) : Decidable (r.Apart s) := inferInstanceAs (Decidable (_ ∨ _))

/-- How many of the ranges hold the address. -/
def count (l : List Range) (a : ℕ) : ℕ := l.countP fun r => r.Holds a

variable {r s : Range} {l l' : List Range} {a : ℕ}

theorem holds_mk {b n : ℕ} : (⟨b, n⟩ : Range).Holds a ↔ b ≤ a ∧ a < b + n := Iff.rfl

/-- Ranges that are not empty and share no address are apart. -/
theorem apart_of_forall (hr : 0 < r.size) (hs : 0 < s.size) (h : ∀ a, r.Holds a → ¬ s.Holds a) :
    r.Apart s := by
  unfold Holds at h
  unfold Apart
  have h1 := h r.addr
  have h2 := h s.addr
  omega

theorem Apart.not_holds (h : r.Apart s) (hr : r.Holds a) : ¬ s.Holds a := by
  unfold Apart at h
  unfold Holds at hr ⊢
  omega

@[simp] theorem count_nil : count [] a = 0 := rfl

theorem count_cons : count (r :: l) a = count l a + if r.Holds a then 1 else 0 := by
  simp [count, List.countP_cons]

theorem count_append : count (l ++ l') a = count l a + count l' a := List.countP_append

theorem count_perm (h : l.Perm l') : count l a = count l' a := h.countP_eq _

theorem count_pos : 0 < count l a ↔ ∃ r ∈ l, r.Holds a := by
  simp [count, List.countP_pos_iff]

theorem count_eq_zero : count l a = 0 ↔ ∀ r ∈ l, ¬ r.Holds a := by
  simp [count, List.countP_eq_zero]

theorem count_erase (h : r ∈ l) :
    count (l.erase r) a + (if r.Holds a then 1 else 0) = count l a := by
  rw [count_perm (List.perm_cons_erase h), count_cons]

/-- A range is counted as the two parts it is cut into. -/
theorem count_join {b m n : ℕ} :
    count (⟨b, m + n⟩ :: l) a = count (⟨b, m⟩ :: ⟨b + m, n⟩ :: l) a := by
  simp only [count_cons, holds_mk]
  by_cases h1 : b ≤ a ∧ a < b + m
  · rw [if_pos h1, if_pos (by omega), if_neg (by omega)]
  · by_cases h2 : b + m ≤ a ∧ a < b + m + n
    · rw [if_neg h1, if_pos (by omega), if_pos h2]
    · rw [if_neg h1, if_neg (by omega), if_neg h2]

/-- Where no address is held twice, ranges that are not empty are pairwise apart. -/
theorem pairwise_apart (hpos : ∀ r ∈ l, 0 < r.size) (h : ∀ a, count l a ≤ 1) :
    l.Pairwise Apart := by
  induction l with
  | nil => exact .nil
  | cons r l ih =>
    obtain ⟨hr, hl⟩ := List.forall_mem_cons.mp hpos
    simp only [count_cons] at h
    refine List.pairwise_cons.mpr
      ⟨fun s hs => ?_, ih hl fun a => (Nat.le_add_right _ _).trans (h a)⟩
    refine apart_of_forall hr (hl s hs) fun a hra hsa => ?_
    have hpos : 0 < count l a := count_pos.mpr ⟨s, hs, hsa⟩
    have := h a
    rw [if_pos hra] at this
    omega

/-- Where the ranges are pairwise apart, no address is held twice. -/
theorem count_le_one (h : l.Pairwise Apart) : count l a ≤ 1 := by
  induction l with
  | nil => exact Nat.zero_le 1
  | cons r l ih =>
    obtain ⟨hr, hl⟩ := List.pairwise_cons.mp h
    rw [count_cons]
    split
    · rename_i hra
      rw [count_eq_zero.mpr fun s hs => (hr s hs).not_holds hra]
    · exact ih hl

end Range

end PlanNine
