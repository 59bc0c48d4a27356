import Mathlib.Tactic

/-!
# Ones' complement sums

The ones' complement sum of the big-endian words of a string of bytes, where a last odd byte is
padded with zero. A word stands for a number when it is congruent to it modulo 65535 and zero only
for zero, and then it is the only such word. The numbers of the words are added up byte by byte, so
that a string may be cut anywhere: from an odd place on, the weights of the bytes are exchanged,
which multiplies the number by 256.

## Main definitions

* `onesadd`, `onessum`: the addition of words and the sum of a string.
* `wordsum`: the sum of the bytes with their weights.
* `Stands`: a word stands for a number.

## Main results

* `Stands.unique`: a number has one word.
* `stands_onessum`: the ones' complement sum stands for the sum of the bytes.
* `wordsum_append`, `wordsum_not`: a string that is cut, and one that begins at an odd place.
-/

namespace PlanNine.Onessum

/-- Addition with the carry added at the low end. -/
def onesadd (x y : ℕ) : ℕ := if x + y < 65536 then x + y else x + y - 65535

/-- The big-endian words of a string. -/
def words : List UInt8 → List ℕ
  | [] => []
  | [a] => [256 * a.toNat]
  | a :: b :: p => (256 * a.toNat + b.toNat) :: words p

def onessum (p : List UInt8) : ℕ := (words p).foldl onesadd 0

/-- The weight of a byte at an even or odd place. -/
def weight (odd : Bool) : ℕ := if odd then 1 else 256

/-- The sum of the bytes, the first of which is at an even or odd place. -/
def wordsum : Bool → List UInt8 → ℕ
  | _, [] => 0
  | odd, a :: p => weight odd * a.toNat + wordsum (!odd) p

/-- The word `s` stands for the number `n`. -/
structure Stands (s n : ℕ) : Prop where
  lt : s < 65536
  mod : s % 65535 = n % 65535
  zero : s = 0 ↔ n = 0

variable {s t n m w : ℕ} {odd : Bool} {p q : List UInt8} {a : UInt8}

namespace Stands

theorem unique (h : Stands s n) (h' : Stands t m) (hmod : n % 65535 = m % 65535)
    (hzero : n = 0 ↔ m = 0) : s = t := by
  have hlt := h.lt
  have hlt' := h'.lt
  have hst : s % 65535 = t % 65535 := h.mod.trans (hmod.trans h'.mod.symm)
  have hz : s = 0 ↔ t = 0 := h.zero.trans (hzero.trans h'.zero.symm)
  omega

theorem le (h : Stands s n) : s ≤ n := by
  have hlt := h.lt
  have hmod := h.mod
  have hzero := h.zero
  omega

theorem onesadd (h : Stands s n) (hw : w < 65536) : Stands (onesadd s w) (n + w) := by
  have hlt := h.lt
  have hmod := h.mod
  have hzero := h.zero
  unfold Onessum.onesadd
  split_ifs with hcarry
  · exact ⟨hcarry, by omega, by omega⟩
  · exact ⟨by omega, by omega, by omega⟩

end Stands

/-- Words are added one by one. -/
theorem Stands.foldl {l : List ℕ} (h : Stands s n) (hl : ∀ w ∈ l, w < 65536) :
    Stands (l.foldl Onessum.onesadd s) (n + l.sum) := by
  induction l generalizing s n with
  | nil => exact h
  | cons w l ih =>
    obtain ⟨hw, hl⟩ := List.forall_mem_cons.mp hl
    rw [List.foldl_cons, List.sum_cons, ← Nat.add_assoc]
    exact ih (h.onesadd hw) hl

theorem words_lt (p : List UInt8) : ∀ w ∈ words p, w < 65536 := by
  induction p using words.induct with
  | case1 => exact fun _ h => by cases h
  | case2 a =>
    intro w hw
    have ha := a.toNat_lt
    rw [List.mem_singleton.mp hw]
    omega
  | case3 a b p ih =>
    have ha := a.toNat_lt
    have hb := b.toNat_lt
    exact List.forall_mem_cons.mpr ⟨by omega, ih⟩

theorem sum_words (p : List UInt8) : (words p).sum = wordsum false p := by
  induction p using words.induct with
  | case1 => rfl
  | case2 a => rfl
  | case3 a b p ih =>
    rw [words, List.sum_cons, ih]
    simp only [wordsum, weight, Bool.not_false, Bool.not_true, if_true, Bool.false_eq_true,
      if_false]
    omega

/-- The ones' complement sum stands for the sum of the bytes. -/
theorem stands_onessum (p : List UInt8) : Stands (onessum p) (wordsum false p) := by
  have hstart : Stands 0 0 := ⟨by decide, rfl, Iff.rfl⟩
  have h := hstart.foldl (words_lt p)
  rwa [Nat.zero_add, sum_words] at h

/-! ### Sums of bytes -/

@[simp] theorem wordsum_nil (odd : Bool) : wordsum odd [] = 0 := rfl

theorem weight_le (odd : Bool) : weight odd ≤ 256 := by cases odd <;> decide

theorem weight_pos (odd : Bool) : 0 < weight odd := by cases odd <;> decide

/-- The weights of a byte at a place of either kind. -/
theorem weight_not_mod (odd : Bool) (n : ℕ) :
    256 * (weight odd * n) % 65535 = weight (!odd) * n % 65535 := by
  cases odd with
  | false =>
    simp only [weight, Bool.not_false, if_true, Bool.false_eq_true, if_false]
    omega
  | true =>
    simp only [weight, Bool.not_true, if_true, Bool.false_eq_true, if_false]
    omega

/-- A place further. -/
theorem wordsum_not (odd : Bool) (p : List UInt8) :
    256 * wordsum odd p % 65535 = wordsum (!odd) p % 65535 := by
  induction p generalizing odd with
  | nil => rfl
  | cons a p ih =>
    rw [wordsum, wordsum, Nat.mul_add, Nat.add_mod, weight_not_mod, ih, ← Nat.add_mod]

theorem wordsum_append (odd : Bool) (p q : List UInt8) :
    wordsum odd (p ++ q) = wordsum odd p + wordsum (xor odd (p.length % 2 == 1)) q := by
  induction p generalizing odd with
  | nil => simp
  | cons a p ih =>
    have hpar : xor (!odd) (p.length % 2 == 1) = xor odd ((a :: p).length % 2 == 1) := by
      rw [List.length_cons]
      obtain h | h := Nat.mod_two_eq_zero_or_one p.length
      · cases odd <;> simp [h, Nat.add_mod]
      · cases odd <;> simp [h, Nat.add_mod]
    rw [List.cons_append, wordsum, wordsum, ih, hpar, Nat.add_assoc]

theorem wordsum_le (odd : Bool) (p : List UInt8) : wordsum odd p ≤ 65280 * p.length := by
  induction p generalizing odd with
  | nil => exact le_rfl
  | cons a p ih =>
    have ha : a.toNat ≤ 255 := Nat.le_of_lt_succ a.toNat_lt
    have hmul : weight odd * a.toNat ≤ 256 * 255 := Nat.mul_le_mul (weight_le odd) ha
    have hrest := ih (!odd)
    rw [wordsum, List.length_cons]
    omega

/-- The sum is zero just when all bytes are. -/
theorem wordsum_eq_zero_iff (odd : Bool) (p : List UInt8) :
    wordsum odd p = 0 ↔ ∀ a ∈ p, a = 0 := by
  induction p generalizing odd with
  | nil => exact iff_of_true rfl nofun
  | cons a p ih =>
    have hpos := weight_pos odd
    have hzero : a.toNat = 0 ↔ a = 0 := UInt8.toNat_inj (b := 0)
    rw [wordsum, Nat.add_eq_zero_iff, ih, List.forall_mem_cons, Nat.mul_eq_zero,
      or_iff_right hpos.ne', hzero]

end PlanNine.Onessum
