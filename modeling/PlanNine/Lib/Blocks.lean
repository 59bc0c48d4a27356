import PlanNine.Lib.Ternary

/-!
# Masks and aligned blocks

A mask whose ones stand before its zeros cuts the words into blocks, each with a power of two
words. Two such blocks are apart or one lies in the other.

## Main definitions

* `Contiguous`: masks with their ones first.
* `IsBlock`: the intervals that begin at a multiple of their size, a power of two. What they are
  intervals of is read as natural numbers.

## Main results

* `toNat_and_mask`, `toNat_or_mask`: the ends of the block of a word.
* `IsBlock.laminar`: blocks are apart or nested.
* `IsBlock.mod_le`: the remainders of a block lie between those of its ends.
-/

namespace PlanNine

section Masks

variable {w v k : ℕ}

/-- Masks with their ones first. -/
def Contiguous (m : BitVec w) : Prop := ∃ k ≤ w, m = BitVec.allOnes w <<< k

theorem toNat_append_eq (x : BitVec w) (y : BitVec v) :
    (x ++ y).toNat = x.toNat * 2 ^ v + y.toNat := by
  rw [BitVec.toNat_append, ← Nat.shiftLeft_add_eq_or_of_lt y.isLt, Nat.shiftLeft_eq]

theorem toNat_and_mask (x : BitVec w) :
    (x &&& BitVec.allOnes w <<< k).toNat = x.toNat / 2 ^ k * 2 ^ k := by
  have heq : x &&& BitVec.allOnes w <<< k = (x >>> k) <<< k := by
    ext i hi
    simp only [BitVec.getElem_and, BitVec.getElem_shiftLeft, BitVec.getElem_allOnes,
      BitVec.getElem_ushiftRight]
    by_cases hik : i < k
    · simp [hik]
    · simp [hik, Nat.add_sub_cancel' (not_lt.mp hik), hi]
  have hlt := x.isLt
  rw [heq, BitVec.toNat_shiftLeft, BitVec.toNat_ushiftRight, Nat.shiftLeft_eq,
    Nat.shiftRight_eq_div_pow, Nat.mod_eq_of_lt ((Nat.div_mul_le_self _ _).trans_lt hlt)]

theorem toNat_or_mask (x : BitVec w) (hk : k ≤ w) :
    (x &&& BitVec.allOnes w <<< k ||| ~~~(BitVec.allOnes w <<< k)).toNat =
      x.toNat / 2 ^ k * 2 ^ k + (2 ^ k - 1) := by
  have hnot : ~~~(BitVec.allOnes w <<< k) = (BitVec.allOnes k).setWidth w := by
    ext i hi
    simp
  have hpow := Nat.pow_le_pow_right two_pos hk
  have hpos := Nat.two_pow_pos k
  rw [BitVec.toNat_or, toNat_and_mask, hnot, BitVec.toNat_setWidth, BitVec.toNat_allOnes,
    Nat.mod_eq_of_lt (by omega), mul_comm, Nat.two_pow_add_eq_or_of_lt (by omega)]

theorem toNat_and_le_or (x m : BitVec w) : (x &&& m).toNat ≤ (x ||| ~~~m).toNat := by
  rw [BitVec.toNat_or, BitVec.toNat_and]
  exact Nat.and_le_left.trans Nat.left_le_or

/-- What a mask says again is what it said. -/
theorem and_or_not (x m : BitVec w) : x &&& m ||| ~~~m = x ||| ~~~m := by
  ext i hi
  simp only [BitVec.getElem_or, BitVec.getElem_and, BitVec.getElem_not]
  cases x[i] <;> cases m[i] <;> rfl

/-- The mask is read off from the ends of the block. -/
theorem not_xor_eq (x m : BitVec w) : ~~~((x ||| ~~~m) ^^^ (x &&& m)) = m := by
  ext i hi
  simp only [BitVec.getElem_or, BitVec.getElem_and, BitVec.getElem_not, BitVec.getElem_xor]
  cases x[i] <;> cases m[i] <;> rfl

end Masks

section Blocks

variable {α : Type*} [LinearOrder α] {val : α → ℕ} {s s' : NonemptyInterval α} {a : α}

/-- The intervals that begin at a multiple of their size, a power of two. -/
def IsBlock (val : α → ℕ) (s : NonemptyInterval α) : Prop :=
  ∃ k q, val s.fst = 2 ^ k * q ∧ val s.snd = 2 ^ k * q + (2 ^ k - 1)

theorem IsBlock.laminar (hval : StrictMono val) (h : IsBlock val s) (h' : IsBlock val s') :
    Laminar s s' := by
  obtain ⟨k, q, hfst, hsnd⟩ := h
  obtain ⟨k', q', hfst', hsnd'⟩ := h'
  wlog hle : k ≤ k' generalizing s s' k k' q q'
  · exact (this k' q' hfst' hsnd' k q hfst hsnd (Nat.le_of_not_le hle)).symm
  obtain ⟨c, hc⟩ := Nat.pow_dvd_pow 2 hle
  have hpos := Nat.two_pow_pos k
  rw [hc, mul_assoc] at hfst' hsnd'
  rcases Nat.lt_or_ge q (c * q') with hlt | hge
  · have hend := Nat.mul_le_mul_left (2 ^ k) (Nat.succ_le_of_lt hlt)
    rw [Nat.mul_succ] at hend
    exact .inl (hval.lt_iff_lt.mp (by omega))
  rcases Nat.lt_or_ge q (c * q' + c) with hlt | hge'
  · have hend := Nat.mul_le_mul_left (2 ^ k) (Nat.succ_le_of_lt hlt)
    have hstart := Nat.mul_le_mul_left (2 ^ k) hge
    rw [Nat.mul_succ, mul_add] at hend
    exact .inr (.inr (.inl ⟨hval.le_iff_le.mp (by omega), hval.le_iff_le.mp (by omega)⟩))
  · have hstart := Nat.mul_le_mul_left (2 ^ k) hge'
    have hc0 : 0 < 2 ^ k * c := hc ▸ Nat.two_pow_pos k'
    rw [mul_add] at hstart
    exact .inr (.inl (hval.lt_iff_lt.mp (by omega)))

theorem IsBlock.mod_le (hval : StrictMono val) (h : IsBlock val s) (ha : a ∈ s) (n : ℕ) :
    val s.fst % 2 ^ n ≤ val a % 2 ^ n ∧ val a % 2 ^ n ≤ val s.snd % 2 ^ n := by
  obtain ⟨k, q, hfst, hsnd⟩ := h
  have hpos := Nat.two_pow_pos k
  have hle := hval.le_iff_le.mpr ha.1
  have hge := hval.le_iff_le.mpr ha.2
  rcases Nat.lt_or_ge n k with hlt | hnk
  · -- a block of this size has all remainders
    obtain ⟨c, hc⟩ := Nat.pow_dvd_pow 2 hlt.le
    have hc0 : 0 < c := Nat.pos_of_mul_pos_left (hc ▸ hpos)
    have hfst0 : val s.fst % 2 ^ n = 0 := by
      rw [hfst, hc, mul_assoc, Nat.mul_mod_right]
    have hsndn : val s.snd % 2 ^ n = 2 ^ n - 1 := by
      have hval : val s.snd = 2 ^ n * (c * q + (c - 1)) + (2 ^ n - 1) := by
        have hsub : 2 ^ n * (c - 1) + 2 ^ n = 2 ^ k := by
          rw [hc, ← Nat.mul_succ, Nat.succ_eq_add_one, Nat.sub_add_cancel hc0]
        have hn := Nat.two_pow_pos n
        rw [hsnd, mul_add, ← mul_assoc, ← hc]
        omega
      rw [hval, Nat.mul_add_mod, Nat.mod_eq_of_lt (Nat.sub_one_lt (Nat.two_pow_pos n).ne')]
    rw [hfst0, hsndn]
    exact ⟨Nat.zero_le _, Nat.le_sub_one_of_lt (Nat.mod_lt _ (Nat.two_pow_pos n))⟩
  · -- in a smaller one they begin anew nowhere
    obtain ⟨c, hc⟩ := Nat.pow_dvd_pow 2 hnk
    have hmod {j : ℕ} (hj : j < 2 ^ k) : (2 ^ k * q + j) % 2 ^ n = j + 2 ^ k * (q % c) := by
      rw [hc, Nat.mod_mul, Nat.mul_add_mod, Nat.mod_eq_of_lt hj, Nat.mul_add_div hpos,
        Nat.div_eq_of_lt hj, add_zero]
    obtain ⟨j, hj⟩ := Nat.exists_eq_add_of_le (hfst ▸ hle)
    have hzero := hmod hpos
    rw [add_zero, zero_add] at hzero
    rw [hfst, hsnd, hj, hzero, hmod (by omega), hmod (by omega)]
    omega

end Blocks

end PlanNine
