import Mathlib.Data.Nat.Size
import PlanNine.Bitsy.Fpi
import PlanNine.Lib.Ulong

/-!
# Numbers in memory

The conversions of `fpimem.c` between the internal format and the words, single and double numbers
in memory.

## Main definitions

* `fpis2i`, `fpid2i`, `fpiw2i`: numbers from memory.
* `fpii2s`, `fpii2d`, `fpii2w`: numbers to memory.

## Main results

* `canonical_fpid2i`, `canonical_fpiw2i`: what is loaded is canonical.
-/

namespace PlanNine.Fpi

open Internal

structure Double where
  l : UInt32
  h : UInt32
  deriving DecidableEq, Repr

def fpis2i (v : UInt32) : Internal :=
  let s := v.toNat
  let sign := decide (s &&& 0x80000000 ≠ 0)
  if s &&& 0x7FFFFFFF = 0 then SetZero sign
  else
    let e : ℤ := ((s >>> 23 &&& 0x00FF : ℕ) : ℤ) - SingleExpBias + ExpBias
    let h := (s &&& 0x007FFFFF) <<< (1 + NGuardBits)
    if e ≠ 0 then ⟨sign, e, 0, h ||| HiddenBit⟩ else ⟨sign, e + 1, 0, h⟩

def fpid2i (d : Double) : Internal :=
  let dh := d.h.toNat
  let dl := d.l.toNat
  let s := decide (dh &&& 0x80000000 ≠ 0)
  let e := dh >>> 20 &&& 0x07FF
  let h := (dh &&& 0x000FFFFF) <<< (4 + NGuardBits) ||| (dl >>> 25 &&& 0x7F)
  let l := (dl &&& 0x01FFFFFF) <<< NGuardBits
  if e ≠ 0 then ⟨s, e, l, h ||| HiddenBit⟩ else ⟨s, e + 1, l, h⟩

/-- The negation of the most negative word is itself. A word `h` that is negative is given by its
bits. -/
def fpiw2i (v : Int32) : Internal :=
  let s := decide (v.toInt < 0)
  let word := if v.toInt < 0 then long (ulong (-v.toInt)) else v.toInt
  if word = 0 then SetZero s
  else
    -- The loop counts the bits of a positive word.
    let e := if 0 < word then Nat.size word.toNat else 32
    let (h, l) :=
      if FractBits < e then
        (ulong (word >>> (e - FractBits)),
          (ulong word &&& (1 <<< (e - FractBits) - 1)) <<< (2 * FractBits - e))
      else (ulong word <<< (FractBits - e), 0)
    ⟨s, (e : ℤ) - 1 + ExpBias, l, h⟩

def fpii2s (i : Internal) : UInt32 :=
  let i := fpiround i
  let i :=
    if i.h &&& HiddenBit ≠ 0 then { i with h := i.h - HiddenBit } else { i with e := i.e - 1 }
  let s := if i.s then 0x80000000 else 0
  if i.e < ExpBias ∧ i.e ≤ ExpBias - SingleExpBias then .ofNat s
  else if ¬ i.e < ExpBias ∧ ExpBias + (SingleExpMax - SingleExpBias) ≤ i.e then
    .ofNat (s ||| SingleExpMax.toNat <<< 23)
  else
    let e :=
      if i.e < ExpBias then SingleExpBias - (ExpBias - i.e) else SingleExpBias + (i.e - ExpBias)
    .ofNat (s ||| (e.toNat <<< 23 ||| i.h >>> (1 + NGuardBits)))

def fpii2d (i : Internal) : Double :=
  let i := fpiround i
  let i :=
    if i.h &&& HiddenBit ≠ 0 then { i with h := i.h - HiddenBit } else { i with e := i.e - 1 }
  let l := (i.h &&& GuardMask) <<< 25 ||| i.l >>> NGuardBits
  let h := i.h >>> NGuardBits
  let s := if i.s then 0x80000000 else 0
  ⟨.ofNat (h <<< 28 ||| l), .ofNat (s ||| (i.e.toNat <<< 20 ||| (h &&& 0x00FFFFFF) >>> 4))⟩

def fpii2w (i : Internal) : Int32 :=
  let i := fpiround i
  let e := i.e - ExpBias + 1
  let w : ℤ :=
    if e ≤ 0 then 0
    else if 31 < e then 0x7FFFFFFF
    else if FractBits < e then
      (i.h <<< (e - FractBits).toNat ||| i.l >>> (2 * FractBits - e).toNat : ℕ)
    else (i.h >>> (FractBits - e).toNat : ℕ)
  .ofInt (if i.s then -w else w)

/-! ### What is loaded -/

/-- The fields of a double number: the exponent, the first word of the fraction and the rest. -/
theorem fpid2i_eq (d : Double) : fpid2i d =
    let s := decide (d.h.toNat &&& 0x80000000 ≠ 0)
    let e := d.h.toNat / 0x100000 % 0x800
    let h := d.h.toNat % 0x100000 * 0x80 + d.l.toNat / 0x2000000
    let l := d.l.toNat % 0x2000000 * 8
    if e ≠ 0 then ⟨s, e, l, 0x08000000 + h⟩ else ⟨s, 1, l, h⟩ := by
  have hl := d.l.toNat_lt
  have he : d.h.toNat >>> 20 &&& 0x07FF = d.h.toNat / 0x100000 % 0x800 := by
    rw [Nat.shiftRight_eq_div_pow]
    exact Nat.and_two_pow_sub_one_eq_mod _ 11
  have htop : d.h.toNat &&& 0x000FFFFF = d.h.toNat % 0x100000 :=
    Nat.and_two_pow_sub_one_eq_mod _ 20
  have hmid : d.l.toNat >>> 25 &&& 0x7F = d.l.toNat / 0x2000000 := by
    rw [Nat.shiftRight_eq_div_pow, show (0x7F : ℕ) = 2 ^ 7 - 1 from rfl,
      Nat.and_two_pow_sub_one_eq_mod]
    exact Nat.mod_eq_of_lt (by omega)
  have hlow : (d.l.toNat &&& 0x01FFFFFF) <<< NGuardBits = d.l.toNat % 0x2000000 * 8 := by
    rw [show (0x01FFFFFF : ℕ) = 2 ^ 25 - 1 from rfl, Nat.and_two_pow_sub_one_eq_mod,
      Nat.shiftLeft_eq]
    rfl
  have hh : (d.h.toNat % 0x100000) <<< (4 + NGuardBits) ||| d.l.toNat / 0x2000000 =
      d.h.toNat % 0x100000 * 0x80 + d.l.toNat / 0x2000000 := by
    rw [Nat.shiftLeft_eq, Nat.mul_comm]
    exact (Nat.two_pow_add_eq_or_of_lt (i := 7) (by omega) _).symm.trans (by rw [Nat.mul_comm])
  have hor : d.h.toNat % 0x100000 * 0x80 + d.l.toNat / 0x2000000 ||| HiddenBit =
      0x08000000 + (d.h.toNat % 0x100000 * 0x80 + d.l.toNat / 0x2000000) := by
    rw [Nat.or_comm]
    exact (Nat.two_pow_add_eq_or_of_lt (i := 27) (by omega) 1).symm
  unfold fpid2i
  dsimp only
  rw [he, htop, hmid, hlow, hh, hor]
  split_ifs with h0
  · rfl
  · rw [not_not.mp h0]
    rfl

theorem canonical_fpid2i (d : Double) : Canonical (fpid2i d) := by
  have hl := d.l.toNat_lt
  have hinf : ExpInfinity = 2047 := rfl
  rw [fpid2i_eq]
  dsimp only
  split_ifs with h0
  · refine ⟨⟨?_, ?_⟩, ?_, ?_, fun _ => ?_⟩
    all_goals dsimp only; omega
  · refine ⟨⟨?_, ?_⟩, le_rfl, ?_, fun h1 => absurd h1 (lt_irrefl _)⟩
    all_goals dsimp only; omega

/-- The words of the significand of a positive word with `e` bits. -/
theorem words_spec {w e : ℕ} (hlow : 2 ^ (e - 1) ≤ w) (hhigh : w < 2 ^ e) (he : 0 < e)
    (he' : e ≤ 31) :
    let p := if FractBits < e then (w / 2 ^ (e - FractBits),
        w % 2 ^ (e - FractBits) * 2 ^ (2 * FractBits - e)) else (w * 2 ^ (FractBits - e), 0)
    0x08000000 ≤ p.1 ∧ p.1 < 0x10000000 ∧ p.2 < 0x10000000 ∧
      p.1 * 0x10000000 + p.2 = w * 2 ^ (2 * FractBits - e) := by
  have hbits : FractBits = 28 := rfl
  rw [hbits]
  dsimp only
  by_cases hbig : 28 < e
  · rw [if_pos hbig]
    have hcases : e = 29 ∨ e = 30 ∨ e = 31 := by omega
    obtain rfl | rfl | rfl := hcases
    all_goals norm_num at hlow hhigh ⊢; omega
  · rw [if_neg hbig]
    have h27 : 2 ^ (e - 1) * 2 ^ (28 - e) = 0x08000000 := by
      rw [← Nat.pow_add, show e - 1 + (28 - e) = 27 by omega]
    have h28 : 2 ^ e * 2 ^ (28 - e) = 0x10000000 := by
      rw [← Nat.pow_add, show e + (28 - e) = 28 by omega]
    have hsplit : 2 ^ (2 * 28 - e) = 2 ^ (28 - e) * 0x10000000 := by
      rw [show 2 * 28 - e = 28 - e + 28 by omega, Nat.pow_add]
    refine ⟨?_, ?_, Nat.zero_lt_succ _, ?_⟩
    · exact h27.symm.le.trans (Nat.mul_le_mul_right _ hlow)
    · exact (Nat.mul_lt_mul_of_pos_right hhigh (Nat.two_pow_pos _)).trans_eq h28
    · rw [hsplit, Nat.add_zero, Nat.mul_assoc]

/-- A word that is not 0 or the most negative one. -/
theorem fpiw2i_spec {v : Int32} (hv : v ≠ Int32.minValue) (h0 : v.toInt ≠ 0) :
    ∃ h l, fpiw2i v = ⟨decide (v.toInt < 0), Nat.size v.toInt.natAbs + 1022, l, h⟩ ∧
      0x08000000 ≤ h ∧ h < 0x10000000 ∧ l < 0x10000000 ∧
      h * 0x10000000 + l = v.toInt.natAbs * 2 ^ (2 * FractBits - Nat.size v.toInt.natAbs) ∧
      0 < Nat.size v.toInt.natAbs ∧ Nat.size v.toInt.natAbs ≤ 31 := by
  have hlow := v.le_toInt
  have hhigh := v.toInt_lt
  have hmin : v.toInt ≠ -2147483648 := fun h => hv (Int32.toInt_inj.mp h)
  obtain ⟨w, hw⟩ : ∃ w : ℕ, w = v.toInt.natAbs := ⟨_, rfl⟩
  have hpos : 0 < w := by omega
  have hlt : w < 2 ^ 31 := by omega
  have hword : (if v.toInt < 0 then long (ulong (-v.toInt)) else v.toInt) = (w : ℤ) := by
    split_ifs
    · rw [long_ulong_of_small (by omega) (by omega)]
      omega
    · omega
  have hsize : 0 < Nat.size w := Nat.size_pos.mpr hpos
  have hsize' : Nat.size w ≤ 31 := Nat.size_le.mpr hlt
  have hw1 : 2 ^ (Nat.size w - 1) ≤ w := Nat.lt_size.mp (by omega)
  have hw2 : w < 2 ^ Nat.size w := Nat.lt_size_self w
  obtain ⟨h1, h2, h3, h4⟩ := words_spec hw1 hw2 hsize hsize'
  rw [← hw]
  have hulong : ulong (w : ℤ) = w := ulong_natCast_of_lt (by omega)
  have hshift (n : ℕ) : ulong ((w : ℤ) >>> n) = w / 2 ^ n := by
    rw [Int.shiftRight_eq_div_pow]
    have : ((w : ℤ) / ((2 ^ n : ℕ) : ℤ)) = ((w / 2 ^ n : ℕ) : ℤ) := by push_cast; rfl
    rw [this, ulong_natCast_of_lt ((Nat.div_le_self _ _).trans_lt (by omega))]
  have hmask (n m : ℕ) : (w &&& (1 <<< n - 1)) <<< m = w % 2 ^ n * 2 ^ m := by
    rw [Nat.shiftLeft_eq, Nat.shiftLeft_eq, Nat.one_mul, Nat.and_two_pow_sub_one_eq_mod]
  refine ⟨_, _, ?_, h1, h2, h3, h4, hsize, hsize'⟩
  unfold fpiw2i
  dsimp only
  rw [hword, if_neg (by omega), if_pos (by omega), Int.toNat_natCast, hulong]
  simp only [hshift, hmask]
  rw [Nat.shiftLeft_eq]
  have he : ((Nat.size w : ℕ) : ℤ) - 1 + ExpBias = (Nat.size w : ℤ) + 1022 := by
    have hbias : ExpBias = 1023 := rfl
    omega
  rw [he]

theorem canonical_fpiw2i {v : Int32} (hv : v ≠ Int32.minValue) : Canonical (fpiw2i v) := by
  by_cases h0 : v.toInt = 0
  · have hzero : fpiw2i v = SetZero (decide (v.toInt < 0)) := by
      unfold fpiw2i
      dsimp only
      rw [h0]
      rfl
    rw [hzero]
    exact canonical_SetZero _
  · obtain ⟨h, l, heq, h1, h2, h3, -, hsize, hsize'⟩ := fpiw2i_spec hv h0
    have hinf : ExpInfinity = 2047 := rfl
    rw [heq]
    refine ⟨⟨h2, h3⟩, ?_, ?_, fun _ => h1⟩
    · dsimp only
      omega
    · dsimp only
      omega

end PlanNine.Fpi
