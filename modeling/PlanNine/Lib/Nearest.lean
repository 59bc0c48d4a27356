import Mathlib.Data.Nat.Dist
import Mathlib.Tactic

/-!
# The nearest entry of a table

The entries of a table grow, up to a last one. An entry is the nearest one to a number when no other
is closer, and of two that are as close it is the one at the even place.

## Main definitions

* `Nearest S top x m`: the entry `S m` is the nearest one to `x`.
* `grade p m`: the number with a fraction of `p` bits below its exponent.

## Main results

* `nearest_iff_of_between`: of two entries around a number, when the lower one is the nearest.
* `nearest_zero_iff`: when the first entry is the nearest.
* `nearest_top`: the last entry is the nearest one to all above it.
* `grade_succ`: the distance to the next number.
-/

namespace PlanNine

/-- The entry at the place `m` is the nearest one to `x`, and ties go to even places. -/
def Nearest (S : ℕ → ℕ) (top x m : ℕ) : Prop :=
  m ≤ top ∧ ∀ k ≤ top, Nat.dist x (S m) ≤ Nat.dist x (S k) ∧
    (Nat.dist x (S m) = Nat.dist x (S k) → k = m ∨ m % 2 = 0)

variable {S : ℕ → ℕ} {top x m : ℕ}

/-- Between two entries the lower one is the nearest below their middle, and in it at an even
place. -/
theorem nearest_iff_of_between (hS : StrictMono S) (hm : m < top) (hle : S m ≤ x)
    (hlt : x < S (m + 1)) : Nearest S top x m ↔
      2 * (x - S m) < S (m + 1) - S m ∨ 2 * (x - S m) = S (m + 1) - S m ∧ m % 2 = 0 := by
  constructor
  · rintro ⟨-, h⟩
    obtain ⟨hnear, htie⟩ := h (m + 1) hm
    unfold Nat.dist at hnear htie
    by_cases heq : 2 * (x - S m) = S (m + 1) - S m
    · obtain hsame | heven := htie (by omega)
      · omega
      · exact .inr ⟨heq, heven⟩
    · exact .inl (by omega)
  · intro h
    refine ⟨hm.le, fun k _ => ?_⟩
    unfold Nat.dist
    obtain hk | rfl | hk := Nat.lt_trichotomy k m
    · have := hS hk
      omega
    · exact ⟨le_rfl, fun _ => .inl rfl⟩
    · have := hS.monotone (show m + 1 ≤ k from hk)
      omega

theorem nearest_zero_iff (hS : StrictMono S) (h0 : S 0 = 0) (htop : 0 < top) :
    Nearest S top x 0 ↔ 2 * x ≤ S 1 := by
  have hpos : S 0 < S 1 := hS Nat.zero_lt_one
  by_cases hlt : x < S 1
  · rw [nearest_iff_of_between hS htop (h0.trans_le (Nat.zero_le x)) hlt, Nat.zero_add, h0]
    omega
  · refine iff_of_false (fun h => ?_) (by omega)
    obtain ⟨hnear, -⟩ := h.2 1 htop
    unfold Nat.dist at hnear
    omega

/-- The last entry is the nearest one to all numbers above it. -/
theorem nearest_top (hS : StrictMono S) (h : S top ≤ x) : Nearest S top x top := by
  refine ⟨le_rfl, fun k hk => ?_⟩
  unfold Nat.dist
  obtain rfl | hlt := hk.eq_or_lt
  · exact ⟨le_rfl, fun _ => .inl rfl⟩
  · have := hS hlt
    omega

/-- Two entries are not both the nearest one. -/
theorem Nearest.unique {n : ℕ} (hS : StrictMono S) (hm : Nearest S top x m)
    (hn : Nearest S top x n) : m = n := by
  obtain ⟨hm1, hm2⟩ := hm.2 n hn.1
  obtain ⟨hn1, hn2⟩ := hn.2 m hm.1
  have heq := le_antisymm hm1 hn1
  by_contra hne
  wlog hlt : m < n generalizing m n
  · exact this hn hm hn1 hn2 hm1 hm2 heq.symm (Ne.symm hne) (by omega)
  have h1 := hS hlt
  have heven := (hm2 heq).resolve_left (Ne.symm hne)
  have heven' := (hn2 heq.symm).resolve_left hne
  -- The entry between them would be nearer.
  have hmid : m + 1 < n := by omega
  have h2 := hS (Nat.lt_add_one m)
  have h3 := hS hmid
  obtain ⟨hnear, -⟩ := hm.2 (m + 1) (hmid.le.trans hn.1)
  unfold Nat.dist at heq hnear
  omega

/-! ### Floating point numbers

The bits of a number below its sign are an exponent and, below it, a fraction of `p` bits. The
numbers with these bits are a table: a number with the exponent 0 is its fraction, and one with a
greater exponent has one bit more in front of it. -/

/-- The number with the bits `m`, in units of the smallest one. -/
def grade (p m : ℕ) : ℕ :=
  if m / 2 ^ p = 0 then m else (2 ^ p + m % 2 ^ p) * 2 ^ (m / 2 ^ p - 1)

theorem grade_succ (p m : ℕ) : grade p (m + 1) = grade p m + 2 ^ (m / 2 ^ p - 1) := by
  obtain ⟨b, hb⟩ : ∃ b, b = 2 ^ p := ⟨_, rfl⟩
  have hpos : 0 < b := hb ▸ Nat.two_pow_pos p
  have hdiv := Nat.div_add_mod m b
  have hmod := Nat.mod_lt m hpos
  unfold grade
  rw [← hb]
  by_cases hlast : m % b = b - 1
  · -- The next number has the next exponent.
    have hq : (m + 1) / b = m / b + 1 := by
      rw [show m + 1 = b * (m / b + 1) by rw [Nat.mul_add]; omega, Nat.mul_div_cancel_left _ hpos]
    have hr : (m + 1) % b = 0 := by
      rw [show m + 1 = b * (m / b + 1) by rw [Nat.mul_add]; omega, Nat.mul_mod_right]
    rw [hq, hr, if_neg (Nat.succ_ne_zero _), Nat.add_sub_cancel, hlast]
    split_ifs with h0
    · rw [h0, Nat.zero_sub]
      rw [h0, Nat.mul_zero, Nat.zero_add, hlast] at hdiv
      omega
    · obtain ⟨q, hq⟩ := Nat.exists_eq_succ_of_ne_zero h0
      rw [hq, Nat.succ_sub_one, Nat.pow_succ, Nat.add_zero, ← Nat.succ_mul,
        show (b + (b - 1)).succ = b * 2 by omega]
      ring
  · have hnext : m + 1 = b * (m / b) + (m % b + 1) := by omega
    have hlt : m % b + 1 < b := by omega
    have hq : (m + 1) / b = m / b := by
      conv_lhs => rw [hnext]
      rw [Nat.mul_add_div hpos, Nat.div_eq_of_lt hlt, Nat.add_zero]
    have hr : (m + 1) % b = m % b + 1 := by
      conv_lhs => rw [hnext]
      rw [Nat.mul_add_mod, Nat.mod_eq_of_lt hlt]
    rw [hq, hr]
    split_ifs with h0
    · rw [h0, Nat.zero_sub, Nat.pow_zero]
    · rw [← Nat.add_assoc, Nat.succ_mul]

theorem strictMono_grade (p : ℕ) : StrictMono (grade p) :=
  strictMono_nat_of_lt_succ fun m => by
    rw [grade_succ]
    exact Nat.lt_add_of_pos_right (Nat.two_pow_pos _)

/-- The number with the exponent `e` and the fraction `f`. -/
theorem grade_of_exp {p e f : ℕ} (he : 0 < e) (hf : f < 2 ^ p) :
    grade p (e * 2 ^ p + f) = (2 ^ p + f) * 2 ^ (e - 1) := by
  have hq : (e * 2 ^ p + f) / 2 ^ p = e := by
    rw [Nat.mul_comm, Nat.mul_add_div (Nat.two_pow_pos p), Nat.div_eq_of_lt hf, Nat.add_zero]
  have hr : (e * 2 ^ p + f) % 2 ^ p = f := by
    rw [Nat.mul_comm, Nat.mul_add_mod, Nat.mod_eq_of_lt hf]
  unfold grade
  rw [hq, hr, if_neg he.ne']

theorem grade_of_lt {p m : ℕ} (h : m < 2 ^ p) : grade p m = m :=
  if_pos (Nat.div_eq_of_lt h)

end PlanNine
