import PlanNine.Bitsy.Fpiarm
import PlanNine.Lib.Nearest

/-!
# Conversions between the formats

Words, doubles and singles that pass through the internal format. A single with the exponent field 0
gets a hidden bit when it is loaded, since the exponent is tested after the bias of the internal
format was added to it, and a number that is too small for a normal single is stored as a zero. What
a double has beyond the precision of a single is cut off: the guard bits, which `fpiround` looks at,
are those of a double.

## Main definitions

* `Single.Exact`: an internal number has the value of a single.
* `Rounded`: a single is the nearest one to a double.

## Main results

* `fpii2d_fpid2i`: doubles come back.
* `converts_iff`: which words and singles come back, and which doubles are rounded.
-/

namespace PlanNine.Fpi

open Internal

/-! ### Singles and doubles -/

namespace Single

def IsNaN (s : UInt32) : Prop := 0x7F800000 < s.toNat % 0x80000000

def IsInfinity (s : UInt32) : Prop := s.toNat % 0x80000000 = 0x7F800000

/-- The number that a finite single is. -/
def value (s : UInt32) : ℚ :=
  (if 0x80000000 ≤ s.toNat then -1 else 1) * grade 23 (s.toNat % 0x80000000) * 2 ^ (-149 : ℤ)

/-- The internal number is an infinity for an infinite single, and has the value of a finite one. -/
def Exact (i : Internal) (s : UInt32) : Prop :=
  (i.s = true ↔ 0x80000000 ≤ s.toNat) ∧ (i.IsInfinity ↔ IsInfinity s) ∧
    (¬ IsInfinity s → Fpi.value i = value s)

/-- Zeros, and numbers with an exponent field that is neither 0 nor that of the infinities. -/
def IsNormal (s : UInt32) : Prop :=
  s.toNat % 0x80000000 = 0 ∨
    0x00800000 ≤ s.toNat % 0x80000000 ∧ s.toNat % 0x80000000 < 0x7F800000

end Single

namespace Double

/-- The bits below the sign. -/
def bits (d : Double) : ℕ := d.h.toNat % 0x80000000 * 0x100000000 + d.l.toNat

def IsFinite (d : Double) : Prop := d.bits < 0x7FF0000000000000

/-- The magnitude of a finite double, in units of the smallest one. -/
def magnitude (d : Double) : ℕ := grade 52 d.bits

/-- The last 29 bits are less than half of the bit before them, or half of it when it is 0. -/
def CutsDown (d : Double) : Prop :=
  d.bits % 2 ^ 29 < 2 ^ 28 ∨ d.bits % 2 ^ 29 = 2 ^ 28 ∧ d.bits / 2 ^ 29 % 2 = 0

end Double

/-- The single is the nearest one to the double, in units of the smallest double. The infinity has
the place after the last finite single, and counts as the number that would be next. -/
def Rounded (d : Double) (s : UInt32) : Prop :=
  (0x80000000 ≤ s.toNat ↔ 0x80000000 ≤ d.h.toNat) ∧
    Nearest (fun m => grade 23 m * 2 ^ 925) 0x7F800000 d.magnitude (s.toNat % 0x80000000)

variable {i : Internal} {d : Double} {s : UInt32}

/-! ### Bits -/

theorem and_sign_ne_zero {n : ℕ} (hn : n < 0x100000000) :
    n &&& 0x80000000 ≠ 0 ↔ 0x80000000 ≤ n := by
  rw [Ne, show (0x80000000 : ℕ) = 2 ^ 31 from rfl, and_two_pow_eq_zero (k := 31) hn]
  exact not_lt

/-- The sign in front of other bits. -/
theorem sign_or (b : Bool) {n : ℕ} (hn : n < 0x80000000) :
    (if b then 0x80000000 else 0) ||| n = (if b then 0x80000000 else 0) + n := by
  cases b
  · rw [if_neg Bool.false_ne_true, Nat.zero_or, Nat.zero_add]
  · rw [if_pos rfl]
    exact (Nat.two_pow_add_eq_or_of_lt (i := 31) hn 1).symm

theorem split_sign (n : ℕ) (hn : n < 0x100000000) :
    n = (if decide (n &&& 0x80000000 ≠ 0) then 0x80000000 else 0) + n % 0x80000000 := by
  simp only [decide_eq_true_eq, and_sign_ne_zero hn]
  split_ifs <;> omega

/-- Without guard bits there is nothing to round. -/
theorem fpiround_of_guard (h : i.l % 8 = 0) : fpiround i = i := by
  have hguard : i.l &&& GuardMask = 0 := (Nat.and_two_pow_sub_one_eq_mod i.l 3).trans h
  unfold fpiround
  dsimp only
  rw [hguard, Nat.sub_zero, if_neg]
  rintro (hlt | ⟨heq, -⟩)
  · exact absurd hlt (by decide)
  · exact absurd heq (by decide)

/-! ### To singles -/

/-- A number without guard bits as a single: what is below the last bit of the fraction is left. -/
theorem fpii2s_of_hidden (hg : i.l % 8 = 0) (hh : i.h < 0x10000000) (hhid : 0x08000000 ≤ i.h) :
    (fpii2s i).toNat = (if i.s then 0x80000000 else 0) +
      (if i.e ≤ 896 then 0 else if 1151 ≤ i.e then 0x7F800000
        else (i.e - 896).toNat * 0x800000 + (i.h - 0x08000000) / 16) := by
  have hbias : ExpBias = 1023 := rfl
  have hsbias : SingleExpBias = 127 := rfl
  have hsmax : SingleExpMax = 255 := rfl
  have hbit : i.h &&& HiddenBit ≠ 0 := by
    rw [Ne, and_hidden_eq_zero hh]
    omega
  have hhb : HiddenBit = 0x08000000 := rfl
  unfold fpii2s
  dsimp only
  rw [fpiround_of_guard hg, if_pos hbit]
  dsimp only
  rw [hbias, hsbias, hsmax, hhb]
  by_cases hsmall : i.e ≤ 896
  · rw [if_pos (by omega), if_pos hsmall]
    cases i.s <;> rfl
  rw [if_neg (by omega), if_neg hsmall]
  by_cases hlarge : 1151 ≤ i.e
  · rw [if_pos (by omega), if_pos hlarge]
    cases i.s <;> rfl
  rw [if_neg (by omega), if_neg hlarge]
  have he : (if i.e < 1023 then 127 - (1023 - i.e) else 127 + (i.e - 1023)) = i.e - 896 := by
    split_ifs <;> omega
  have hfrac : (i.h - 0x08000000) / 16 < 2 ^ 23 := by omega
  have hor : (i.e - 896).toNat <<< 23 ||| (i.h - 0x08000000) >>> (1 + NGuardBits) =
      (i.e - 896).toNat * 0x800000 + (i.h - 0x08000000) / 16 := by
    rw [Nat.shiftRight_eq_div_pow, Nat.shiftLeft_eq, Nat.mul_comm]
    exact (Nat.two_pow_add_eq_or_of_lt (i := 23) hfrac _).symm.trans (by rw [Nat.mul_comm])
  rw [he, hor, sign_or _ (by omega), UInt32.toNat_ofNat_of_lt']
  show _ < 2 ^ 32
  split_ifs <;> omega

/-- A number without a hidden bit becomes a zero. -/
theorem fpii2s_of_small (hg : i.l % 8 = 0) (hh : i.h < 0x08000000) (he : i.e = 1) :
    (fpii2s i).toNat = if i.s then 0x80000000 else 0 := by
  have hbit : i.h &&& HiddenBit = 0 := (and_hidden_eq_zero (by omega)).mpr hh
  unfold fpii2s
  dsimp only
  rw [fpiround_of_guard hg, if_neg (not_not.mpr hbit)]
  dsimp only
  rw [he, if_pos (by decide)]
  cases i.s <;> rfl

/-! ### Singles -/

theorem fpis2i_eq (s : UInt32) : fpis2i s =
    let sign := decide (s.toNat &&& 0x80000000 ≠ 0)
    if s.toNat % 0x80000000 = 0 then SetZero sign
    else ⟨sign, (s.toNat / 0x800000 % 0x100 : ℕ) + 896, 0,
      0x08000000 + s.toNat % 0x800000 * 16⟩ := by
  have hmag : s.toNat &&& 0x7FFFFFFF = s.toNat % 0x80000000 :=
    Nat.and_two_pow_sub_one_eq_mod _ 31
  have hexp : s.toNat >>> 23 &&& 0x00FF = s.toNat / 0x800000 % 0x100 := by
    rw [Nat.shiftRight_eq_div_pow]
    exact Nat.and_two_pow_sub_one_eq_mod _ 8
  have hfrac : (s.toNat &&& 0x007FFFFF) <<< (1 + NGuardBits) = s.toNat % 0x800000 * 16 := by
    rw [show (0x007FFFFF : ℕ) = 2 ^ 23 - 1 from rfl, Nat.and_two_pow_sub_one_eq_mod,
      Nat.shiftLeft_eq]
    rfl
  have hor : s.toNat % 0x800000 * 16 ||| HiddenBit = 0x08000000 + s.toNat % 0x800000 * 16 := by
    rw [Nat.or_comm]
    exact (Nat.two_pow_add_eq_or_of_lt (i := 27) (by omega) 1).symm
  have he (n : ℕ) : (n : ℤ) - SingleExpBias + ExpBias = n + 896 := by
    rw [show SingleExpBias = 127 from rfl, show ExpBias = 1023 from rfl]
    omega
  unfold fpis2i
  dsimp only
  rw [hmag, hexp, hfrac, hor, he]
  by_cases h0 : s.toNat % 0x80000000 = 0
  · rw [if_pos h0, if_pos h0]
  · rw [if_neg h0, if_neg h0, if_pos (by omega)]

theorem fpii2s_fpis2i (hs : ¬ Single.IsNaN s) : fpii2s (fpis2i s) = s ↔
    s.toNat % 0x80000000 = 0 ∨ 0x00800000 ≤ s.toNat % 0x80000000 := by
  have hlt := s.toNat_lt
  have hsplit := split_sign s.toNat hlt
  have hfields : s.toNat % 0x80000000 =
      s.toNat / 0x800000 % 0x100 * 0x800000 + s.toNat % 0x800000 := by omega
  unfold Single.IsNaN at hs
  rw [← UInt32.toNat_inj, fpis2i_eq]
  dsimp only
  generalize decide (s.toNat &&& 0x80000000 ≠ 0) = sign at *
  by_cases h0 : s.toNat % 0x80000000 = 0
  · rw [if_pos h0, fpii2s_of_small rfl (show 0 < 0x08000000 by decide) rfl]
    refine iff_of_true ?_ (.inl h0)
    exact (Nat.add_zero _).symm.trans ((congrArg _ h0.symm).trans hsplit.symm)
  · rw [if_neg h0, fpii2s_of_hidden rfl (by dsimp only; omega) (by dsimp only; omega)]
    dsimp only
    -- The exponents of infinities and normal numbers are kept, and that of denormals is not.
    generalize (if sign = true then 0x80000000 else 0) = t at *
    split_ifs <;> omega

theorem value_of_single (sign : Bool) (k f : ℕ) :
    value ⟨sign, (k : ℤ) + 896, 0, 0x08000000 + f * 16⟩ =
      (if sign then -1 else 1) * ((0x800000 + f) * 2 ^ k : ℕ) * 2 ^ (-150 : ℤ) := by
  have hbias : ExpBias = 1023 := rfl
  have hexp : (k : ℤ) + 896 - ExpBias - 55 = k + (-150) + (-32) := by omega
  have hsig : sig ⟨sign, (k : ℤ) + 896, 0, 0x08000000 + f * 16⟩ = (0x800000 + f) * 2 ^ 32 := by
    unfold sig
    dsimp only
    omega
  unfold value
  dsimp only
  rw [hsig, hexp, zpow_add₀ (by norm_num), zpow_add₀ (by norm_num), zpow_natCast]
  have hcancel : (2 : ℚ) ^ 32 * 2 ^ (-32 : ℤ) = 1 := by norm_num
  push_cast
  linear_combination
    (if sign then (-1 : ℚ) else 1) * (0x800000 + f) * 2 ^ k * 2 ^ (-150 : ℤ) * hcancel

/-- The value of an infinity or a denormal is not kept. -/
theorem exact_fpis2i (hs : ¬ Single.IsNaN s) : Single.Exact (fpis2i s) s ↔ Single.IsNormal s := by
  have hlt := s.toNat_lt
  have hfields : s.toNat % 0x80000000 =
      s.toNat / 0x800000 % 0x100 * 2 ^ 23 + s.toNat % 0x800000 := by omega
  have hinf : ExpInfinity = 2047 := rfl
  have hsign : decide (s.toNat &&& 0x80000000 ≠ 0) = true ↔ 0x80000000 ≤ s.toNat := by
    rw [decide_eq_true_eq, and_sign_ne_zero hlt]
  unfold Single.IsNaN at hs
  unfold Single.Exact Single.IsNormal Single.IsInfinity Single.value
  rw [fpis2i_eq]
  dsimp only
  simp only [← hsign]
  generalize decide (s.toNat &&& 0x80000000 ≠ 0) = sign at *
  generalize hm : s.toNat % 0x80000000 = m at *
  by_cases h0 : m = 0
  · rw [if_pos h0]
    refine iff_of_true ⟨Iff.rfl, ?_, fun _ => ?_⟩ (.inl h0)
    · refine iff_of_false (fun h => absurd h.1 ?_) (by omega)
      exact show ¬ (2047 : ℤ) ≤ 1 by decide
    · subst h0
      unfold Fpi.value SetZero sig
      simp [grade]
  · rw [if_neg h0, value_of_single]
    have hfin : ¬ IsInfinity ⟨sign, ((s.toNat / 0x800000 % 0x100 : ℕ) : ℤ) + 896, 0,
        0x08000000 + s.toNat % 0x800000 * 16⟩ := by
      rintro ⟨hweird, -, -⟩
      unfold IsWeird at hweird
      dsimp only at hweird
      omega
    generalize s.toNat / 0x800000 % 0x100 = e at *
    have hf : s.toNat % 0x800000 < 2 ^ 23 := by omega
    generalize s.toNat % 0x800000 = f at *
    have hval : (if sign = true then (-1 : ℚ) else 1) * ((0x800000 + f) * 2 ^ e : ℕ) *
        2 ^ (-150 : ℤ) = (if sign = true then (-1 : ℚ) else 1) * (grade 23 m : ℕ) *
          2 ^ (-149 : ℤ) ↔ (0x800000 + f) * 2 ^ e = 2 * grade 23 m := by
      have htwo : (2 : ℚ) ^ (-149 : ℤ) = 2 * 2 ^ (-150 : ℤ) := by norm_num
      have hne : (if sign = true then (-1 : ℚ) else 1) ≠ 0 := by split_ifs <;> norm_num
      have hpow : (2 : ℚ) ^ (-150 : ℤ) ≠ 0 := by positivity
      rw [htwo, ← mul_assoc, mul_left_inj' hpow, mul_assoc _ _ (2 : ℚ), mul_right_inj' hne,
        mul_comm _ (2 : ℚ)]
      exact_mod_cast Iff.rfl
    rw [hval]
    constructor
    · rintro ⟨-, hinfinity, hvalue⟩
      have hm' : m ≠ 0x7F800000 := fun h => hfin (hinfinity.mpr h)
      have heq := hvalue hm'
      refine .inr ⟨?_, by omega⟩
      by_contra hden
      have he : e = 0 := by omega
      rw [grade_of_lt (by omega), he] at heq
      omega
    · rintro (h | ⟨hlow, hhigh⟩)
      · exact absurd h h0
      refine ⟨Iff.rfl, iff_of_false hfin (by omega), fun _ => ?_⟩
      obtain ⟨k, rfl⟩ : ∃ k, e = k + 1 := ⟨e - 1, by omega⟩
      rw [hfields, grade_of_exp k.succ_pos hf, Nat.succ_sub_one, Nat.pow_succ]
      ring

/-! ### Doubles -/

theorem fpii2d_fpid2i (d : Double) : fpii2d (fpid2i d) = d := by
  have hl := d.l.toNat_lt
  have hh := d.h.toNat_lt
  have hsplit := split_sign d.h.toNat hh
  have hhb : HiddenBit = 0x08000000 := rfl
  generalize hsgn : decide (d.h.toNat &&& 0x80000000 ≠ 0) = sign at hsplit
  -- Without the hidden bit the exponent is the field of the double.
  have hopen : (let i := fpiround (fpid2i d)
      if i.h &&& HiddenBit ≠ 0 then { i with h := i.h - HiddenBit } else { i with e := i.e - 1 }) =
      ⟨sign, (d.h.toNat / 0x100000 % 0x800 : ℕ), d.l.toNat % 0x2000000 * 8,
        d.h.toNat % 0x100000 * 0x80 + d.l.toNat / 0x2000000⟩ := by
    rw [fpid2i_eq, hsgn]
    dsimp only
    split_ifs with he hbit hbit
    · rw [fpiround_of_guard (Nat.mul_mod_left _ _)]
      dsimp only
      rw [hhb, Nat.add_sub_cancel_left]
    · rw [fpiround_of_guard (Nat.mul_mod_left _ _)] at hbit
      rw [not_not, and_hidden_eq_zero (by dsimp only; omega)] at hbit
      dsimp only at hbit
      omega
    · rw [fpiround_of_guard (Nat.mul_mod_left _ _)] at hbit
      rw [Ne, and_hidden_eq_zero (by dsimp only; omega)] at hbit
      dsimp only at hbit
      omega
    · rw [fpiround_of_guard (Nat.mul_mod_left _ _)]
      dsimp only
      rw [not_not.mp he]
      rfl
  obtain ⟨H, hH⟩ : ∃ H, H = d.h.toNat % 0x100000 * 0x80 + d.l.toNat / 0x2000000 := ⟨_, rfl⟩
  have hlow : (H &&& GuardMask) <<< 25 ||| (d.l.toNat % 0x2000000 * 8) >>> NGuardBits =
      d.l.toNat % 0x10000000 := by
    rw [show GuardMask = 2 ^ 3 - 1 from rfl, show NGuardBits = 3 from rfl,
      Nat.and_two_pow_sub_one_eq_mod, Nat.shiftRight_eq_div_pow, Nat.shiftLeft_eq, Nat.mul_comm]
    refine (Nat.two_pow_add_eq_or_of_lt (i := 25) (by omega) _).symm.trans ?_
    omega
  have hhigh : (H >>> NGuardBits) <<< 28 ||| d.l.toNat % 0x10000000 =
      H / 8 * 0x10000000 + d.l.toNat % 0x10000000 := by
    rw [Nat.shiftRight_eq_div_pow, Nat.shiftLeft_eq, Nat.mul_comm]
    refine (Nat.two_pow_add_eq_or_of_lt (i := 28) (by omega) _).symm.trans ?_
    rw [Nat.mul_comm]
    rfl
  have hfrac : (H >>> NGuardBits &&& 0x00FFFFFF) >>> 4 = d.h.toNat % 0x100000 := by
    rw [show (0x00FFFFFF : ℕ) = 2 ^ 24 - 1 from rfl, Nat.and_two_pow_sub_one_eq_mod,
      Nat.shiftRight_eq_div_pow, Nat.shiftRight_eq_div_pow, show NGuardBits = 3 from rfl]
    omega
  have hexp : (d.h.toNat / 0x100000 % 0x800) <<< 20 ||| d.h.toNat % 0x100000 =
      d.h.toNat % 0x80000000 := by
    rw [Nat.shiftLeft_eq, Nat.mul_comm]
    refine (Nat.two_pow_add_eq_or_of_lt (i := 20) (by omega) _).symm.trans ?_
    omega
  unfold fpii2d
  dsimp only at hopen ⊢
  rw [hopen]
  dsimp only
  rw [← hH, hlow, hhigh, hfrac, Int.toNat_natCast, hexp, sign_or sign (by omega), ← hsplit,
    UInt32.ofNat_toNat]
  have hword : UInt32.ofNat (H / 8 * 0x10000000 + d.l.toNat % 0x10000000) = d.l := by
    rw [← UInt32.toNat_inj, UInt32.toNat_ofNat']
    omega
  rw [hword]

/-- A finite double as a single. -/
theorem fpii2s_fpid2i (d : Double) : (fpii2s (fpid2i d)).toNat =
    (if decide (d.h.toNat &&& 0x80000000 ≠ 0) then 0x80000000 else 0) +
      (if d.bits / 2 ^ 52 ≤ 896 then 0 else if 1151 ≤ d.bits / 2 ^ 52 then 0x7F800000
        else (d.bits / 2 ^ 52 - 896) * 0x800000 + d.bits % 2 ^ 52 / 2 ^ 29) := by
  have hl := d.l.toNat_lt
  have hexp : d.h.toNat / 0x100000 % 0x800 = d.bits / 2 ^ 52 := by
    unfold Double.bits
    omega
  have hfrac : (d.h.toNat % 0x100000 * 0x80 + d.l.toNat / 0x2000000) / 16 =
      d.bits % 2 ^ 52 / 2 ^ 29 := by
    unfold Double.bits
    omega
  rw [fpid2i_eq, hexp]
  dsimp only
  generalize d.bits / 2 ^ 52 = e
  by_cases h0 : e = 0
  · have hsmall : e ≤ 896 := by omega
    rw [if_neg (not_not.mpr h0), if_pos hsmall, Nat.add_zero]
    exact fpii2s_of_small (Nat.mul_mod_left _ _) (by dsimp only; omega) rfl
  rw [if_pos h0, fpii2s_of_hidden (Nat.mul_mod_left _ _) (by dsimp only; omega)
    (by dsimp only; omega)]
  dsimp only
  congr 1
  by_cases hsmall : e ≤ 896
  · rw [if_pos (by omega), if_pos hsmall]
  rw [if_neg (by omega), if_neg hsmall]
  by_cases hlarge : 1151 ≤ e
  · rw [if_pos (by omega), if_pos hlarge]
  · have he : ((e : ℕ) - 896 : ℤ).toNat = e - 896 := by omega
    rw [if_neg (by omega), if_neg hlarge, Nat.add_sub_cancel_left, hfrac, he]

/-- The singles, in units of the smallest double. -/
theorem strictMono_singles : StrictMono fun m => grade 23 m * 2 ^ 925 := fun _ _ h =>
  Nat.mul_lt_mul_of_pos_right (strictMono_grade 23 h) (Nat.two_pow_pos _)

/-- A double with the exponent `e` and the fraction `f`, between the powers of 2. -/
theorem magnitude_bounds {e f : ℕ} (he : 0 < e) (hf : f < 2 ^ 52) :
    2 ^ (51 + e) ≤ grade 52 (e * 2 ^ 52 + f) ∧ grade 52 (e * 2 ^ 52 + f) < 2 ^ (52 + e) := by
  obtain ⟨k, rfl⟩ : ∃ k, e = k + 1 := ⟨e - 1, by omega⟩
  rw [grade_of_exp he hf, Nat.add_sub_cancel, show 51 + (k + 1) = 52 + k by omega,
    show 52 + (k + 1) = 53 + k by omega, Nat.pow_add, Nat.pow_add]
  exact ⟨Nat.mul_le_mul_right _ (Nat.le_add_right _ _),
    Nat.mul_lt_mul_of_pos_right (by omega) (Nat.two_pow_pos _)⟩

/-- A double in the range of the normal singles: the fraction that is kept is the nearest one unless
more than half of its last bit is cut off. -/
theorem nearest_cut_iff {e f : ℕ} (hlow : 897 ≤ e) (hhigh : e ≤ 1150) (hf : f < 2 ^ 52) :
    Nearest (fun m => grade 23 m * 2 ^ 925) 0x7F800000 (grade 52 (e * 2 ^ 52 + f))
        ((e - 896) * 0x800000 + f / 2 ^ 29) ↔
      f % 2 ^ 29 < 2 ^ 28 ∨ f % 2 ^ 29 = 2 ^ 28 ∧ f / 2 ^ 29 % 2 = 0 := by
  obtain ⟨k, rfl⟩ : ∃ k, e = k + 897 := ⟨e - 897, by omega⟩
  obtain ⟨m, hm⟩ : ∃ m, m = (k + 897 - 896) * 0x800000 + f / 2 ^ 29 := ⟨_, rfl⟩
  have hq : f / 2 ^ 29 < 2 ^ 23 := by omega
  -- The place, the distance to the next one, and the number itself, in units of half the last bit.
  have hplace : grade 23 m * 2 ^ 925 = (2 ^ 23 + f / 2 ^ 29) * 2 ^ 29 * 2 ^ (k + 896) := by
    rw [hm, show k + 897 - 896 = k + 1 by omega]
    have := grade_of_exp (Nat.succ_pos k) hq
    rw [Nat.succ_sub_one] at this
    rw [show (0x800000 : ℕ) = 2 ^ 23 from rfl, this, Nat.mul_assoc, Nat.mul_assoc, ← Nat.pow_add,
      ← Nat.pow_add, show k + 925 = 29 + (k + 896) by omega]
  have hgap : grade 23 (m + 1) * 2 ^ 925 = grade 23 m * 2 ^ 925 + 2 ^ 29 * 2 ^ (k + 896) := by
    have hk : m / 2 ^ 23 - 1 = k := by omega
    rw [grade_succ, hk, Nat.add_mul, ← Nat.pow_add, ← Nat.pow_add,
      show k + 925 = 29 + (k + 896) by omega]
  have hnum : grade 52 ((k + 897) * 2 ^ 52 + f) =
      grade 23 m * 2 ^ 925 + f % 2 ^ 29 * 2 ^ (k + 896) := by
    rw [grade_of_exp (by omega) hf, hplace, ← Nat.add_mul, show k + 897 - 1 = k + 896 by omega]
    exact congrArg (· * 2 ^ (k + 896)) (show _ = _ by omega)
  have hr : f % 2 ^ 29 < 2 ^ 29 := Nat.mod_lt _ (Nat.two_pow_pos _)
  have hpos : 0 < 2 ^ (k + 896) := Nat.two_pow_pos _
  have hlt : f % 2 ^ 29 * 2 ^ (k + 896) < 2 ^ 29 * 2 ^ (k + 896) :=
    Nat.mul_lt_mul_of_pos_right hr hpos
  rw [← hm, nearest_iff_of_between strictMono_singles (by omega)]
  · simp only [hgap, hnum, Nat.add_sub_cancel_left, ← Nat.mul_assoc]
    rw [Nat.mul_lt_mul_right hpos, Nat.mul_right_cancel_iff hpos]
    have heven : m % 2 = f / 2 ^ 29 % 2 := by omega
    rw [heven]
    omega
  · rw [hnum]
    exact Nat.le_add_right _ _
  · rw [hgap, hnum]
    exact Nat.add_lt_add_left hlt _

theorem rounded_iff (hd : d.IsFinite) : Rounded d (fpii2s (fpid2i d)) ↔
    d.magnitude ≤ 2 ^ 924 ∨ 2 ^ 1202 ≤ d.magnitude ∨
      2 ^ 948 ≤ d.magnitude ∧ d.CutsDown := by
  have hh := d.h.toNat_lt
  have heq := fpii2s_fpid2i d
  unfold Double.IsFinite at hd
  unfold Rounded Double.magnitude Double.CutsDown
  obtain ⟨e, f, hbits, hf, he⟩ : ∃ e f, d.bits = e * 2 ^ 52 + f ∧ f < 2 ^ 52 ∧ e < 2047 :=
    ⟨d.bits / 2 ^ 52, d.bits % 2 ^ 52, by omega, Nat.mod_lt _ (by decide), by omega⟩
  obtain ⟨hq, hr⟩ : d.bits / 2 ^ 52 = e ∧ d.bits % 2 ^ 52 = f := by omega
  obtain ⟨hr', hq'⟩ : d.bits % 2 ^ 29 = f % 2 ^ 29 ∧ d.bits / 2 ^ 29 % 2 = f / 2 ^ 29 % 2 := by
    omega
  rw [hq, hr] at heq
  simp only [and_sign_ne_zero hh, decide_eq_true_eq] at heq
  obtain ⟨m, hm⟩ : ∃ m, m = if e ≤ 896 then 0 else if 1151 ≤ e then 0x7F800000
      else (e - 896) * 0x800000 + f / 2 ^ 29 := ⟨_, rfl⟩
  have hmle : m ≤ 0x7F800000 := by
    rw [hm]
    split_ifs <;> omega
  rw [← hm] at heq
  have hsign : 0x80000000 ≤ (fpii2s (fpid2i d)).toNat ↔ 0x80000000 ≤ d.h.toNat := by
    rw [heq]
    split_ifs <;> omega
  have hmag : (fpii2s (fpid2i d)).toNat % 0x80000000 = m := by
    rw [heq]
    split_ifs <;> omega
  rw [hmag, and_iff_right hsign, hbits, ← hbits, hr', hq', hbits]
  by_cases hsmall : e ≤ 896
  · -- A zero is the nearest single up to half of the smallest one.
    have hlt : grade 52 (e * 2 ^ 52 + f) < 2 ^ 948 := by
      obtain rfl | hpos := Nat.eq_zero_or_pos e
      · rw [Nat.zero_mul, Nat.zero_add, grade_of_lt hf]
        have hpow : (2 : ℕ) ^ 52 < 2 ^ 948 := Nat.pow_lt_pow_right Nat.one_lt_two (by decide)
        exact hf.trans hpow
      · exact (magnitude_bounds hpos hf).2.trans_le
          (Nat.pow_le_pow_right (by decide) (by omega))
    have hpow : (2 : ℕ) ^ 948 ≤ 2 ^ 1202 := Nat.pow_le_pow_right (by decide) (by decide)
    have hzero : grade 23 0 * 2 ^ 925 = 0 := by rw [grade_of_lt (by decide), Nat.zero_mul]
    have hone : grade 23 1 * 2 ^ 925 = 2 * 2 ^ 924 := by
      rw [grade_of_lt (by decide), Nat.one_mul, Nat.pow_succ, Nat.mul_comm]
    rw [hm, if_pos hsmall, nearest_zero_iff strictMono_singles hzero (by decide), hone,
      Nat.mul_le_mul_left_iff Nat.two_pos]
    refine ⟨.inl, fun h => ?_⟩
    obtain h | h | ⟨h, -⟩ := h
    · exact h
    · exact absurd (hpow.trans h) hlt.not_ge
    · exact absurd h hlt.not_ge
  have hlow := (magnitude_bounds (show 0 < e by omega) hf).1
  by_cases hlarge : 1151 ≤ e
  · have hge : 2 ^ 1202 ≤ grade 52 (e * 2 ^ 52 + f) :=
      (Nat.pow_le_pow_right (by decide) (by omega)).trans hlow
    have htop : grade 23 0x7F800000 * 2 ^ 925 = 2 ^ 1202 := by
      rw [show (0x7F800000 : ℕ) = 255 * 2 ^ 23 + 0 from rfl, grade_of_exp (by decide) (by decide),
        Nat.add_zero, Nat.mul_assoc, ← Nat.pow_add, ← Nat.pow_add]
    rw [hm, if_neg hsmall, if_pos hlarge]
    exact iff_of_true (nearest_top strictMono_singles (htop.trans_le hge)) (.inr (.inl hge))
  · have hlt : grade 52 (e * 2 ^ 52 + f) < 2 ^ 1202 :=
      (magnitude_bounds (show 0 < e by omega) hf).2.trans_le
        (Nat.pow_le_pow_right (by decide) (by omega))
    have hge : 2 ^ 948 ≤ grade 52 (e * 2 ^ 52 + f) :=
      (Nat.pow_le_pow_right (by decide) (by omega)).trans hlow
    have hpow : (2 : ℕ) ^ 924 < 2 ^ 948 := Nat.pow_lt_pow_right (by decide) (by decide)
    rw [hm, if_neg hsmall, if_neg hlarge, nearest_cut_iff (by omega) (by omega) hf,
      or_iff_right (hpow.trans_le hge).not_ge, or_iff_right hlt.not_ge, and_iff_right hge]

/-! ### Words -/

theorem fpii2w_fpiw2i {w : Int32} (hw : w ≠ Int32.minValue) : fpii2w (fpiw2i w) = w := by
  by_cases h0 : w.toInt = 0
  · have hzero : w = 0 := Int32.toInt_inj.mp h0
    rw [hzero]
    rfl
  obtain ⟨h, l, heq, -, -, hl, hsig, hpos, hle⟩ := fpiw2i_spec hw h0
  have hbias : ExpBias = 1023 := rfl
  have hbits : FractBits = 28 := rfl
  obtain ⟨n, hn⟩ : ∃ n, n = Nat.size w.toInt.natAbs := ⟨_, rfl⟩
  obtain ⟨a, ha⟩ : ∃ a, a = w.toInt.natAbs := ⟨_, rfl⟩
  rw [← hn, ← ha, hbits] at hsig
  rw [← hn] at heq hpos hle
  -- The word has at most 31 bits, and the guard bits are the last of 56.
  have hguard : l % 8 = 0 := by
    rw [show 2 * 28 - n = 3 + (2 * 28 - n - 3) by omega, Nat.pow_add] at hsig
    generalize 2 ^ (2 * 28 - n - 3) = p at hsig
    rw [show a * (2 ^ 3 * p) = 8 * (a * p) by ring] at hsig
    omega
  have hword : (if FractBits < ((n : ℤ) + 1022) - ExpBias + 1 then
      (h <<< (((n : ℤ) + 1022) - ExpBias + 1 - FractBits).toNat |||
        l >>> (2 * FractBits - (((n : ℤ) + 1022) - ExpBias + 1)).toNat)
      else h >>> (FractBits - (((n : ℤ) + 1022) - ExpBias + 1)).toNat) = a := by
    rw [hbias, hbits, show (n : ℤ) + 1022 - 1023 + 1 = n by omega]
    by_cases hbig : 28 < n
    · rw [if_pos (by omega), show ((n : ℤ) - (28 : ℕ)).toNat = n - 28 by omega,
        show (2 * ((28 : ℕ) : ℤ) - n).toNat = 56 - n by omega, Nat.shiftLeft_eq,
        Nat.shiftRight_eq_div_pow]
      have hcases : n = 29 ∨ n = 30 ∨ n = 31 := by omega
      obtain rfl | rfl | rfl := hcases
      · rw [Nat.mul_comm]
        refine (Nat.two_pow_add_eq_or_of_lt (i := 1) (by omega) _).symm.trans ?_
        omega
      · rw [Nat.mul_comm]
        refine (Nat.two_pow_add_eq_or_of_lt (i := 2) (by omega) _).symm.trans ?_
        omega
      · rw [Nat.mul_comm]
        refine (Nat.two_pow_add_eq_or_of_lt (i := 3) (by omega) _).symm.trans ?_
        omega
    · rw [if_neg (by omega), show (((28 : ℕ) : ℤ) - n).toNat = 28 - n by omega,
        Nat.shiftRight_eq_div_pow]
      refine Nat.div_eq_of_eq_mul_left (Nat.two_pow_pos _) ?_
      rw [show 2 * 28 - n = 28 - n + 28 by omega, Nat.pow_add, ← Nat.mul_assoc] at hsig
      omega
  have hsmall : ¬ ((n : ℤ) + 1022 - ExpBias + 1 ≤ 0) := by omega
  have hlarge : ¬ 31 < (n : ℤ) + 1022 - ExpBias + 1 := by omega
  have hsigned : (if decide (w.toInt < 0) = true then -(a : ℤ) else a) = w.toInt := by
    simp only [decide_eq_true_eq]
    split_ifs <;> omega
  unfold fpii2w
  dsimp only
  rw [heq, fpiround_of_guard hguard]
  dsimp only
  rw [if_neg hsmall, if_neg hlarge, ← Nat.cast_ite, hword, hsigned, Int32.ofInt_toInt]

/-! ### The conversions -/

/-- Every word but the most negative one comes back, and every double. A single keeps its value and
comes back if it is a zero or normal. A double becomes the nearest single if it is at most half of
the smallest one, is above them all, or is in the range of the normal ones and rounds down. -/
theorem converts_iff (w : Int32) (d : Double) (s : UInt32) :
    (fpii2w (fpiw2i w) = w ↔ w ≠ Int32.minValue) ∧ fpii2d (fpid2i d) = d ∧
    (¬ Single.IsNaN s →
      (Single.Exact (fpis2i s) s ∧ fpii2s (fpis2i s) = s ↔ Single.IsNormal s)) ∧
    (d.IsFinite → (Rounded d (fpii2s (fpid2i d)) ↔
      d.magnitude ≤ 2 ^ 924 ∨ 2 ^ 1202 ≤ d.magnitude ∨
        2 ^ 948 ≤ d.magnitude ∧ d.CutsDown)) := by
  refine ⟨⟨?_, fpii2w_fpiw2i⟩, fpii2d_fpid2i d, fun hs => ?_, rounded_iff⟩
  · rintro h rfl
    revert h
    decide +kernel
  · rw [exact_fpis2i hs, fpii2s_fpis2i hs]
    refine and_iff_left_of_imp fun h => ?_
    unfold Single.IsNormal at h
    omega

/-- The numbers one, and a double that is cut to it. -/
theorem ones_convert :
    fpii2w (fpiw2i 1) = 1 ∧ Single.Exact (fpis2i 0x3F800000) 0x3F800000 ∧
      Rounded ⟨1, 0x3FF00000⟩ (fpii2s (fpid2i ⟨1, 0x3FF00000⟩)) := by
  obtain ⟨hw, -, hs, hd⟩ := converts_iff 1 ⟨1, 0x3FF00000⟩ 0x3F800000
  refine ⟨hw.mpr (by decide), ((hs ?_).mpr ?_).1, (hd ?_).mpr (.inr (.inr ⟨?_, .inl ?_⟩))⟩
  · unfold Single.IsNaN
    decide
  · unfold Single.IsNormal
    decide
  · unfold Double.IsFinite Double.bits
    decide
  · unfold Double.magnitude
    decide +kernel
  · decide +kernel

/-- The smallest single is stored as a zero. -/
theorem smallest_lost : ¬ ((∀ w : Int32, fpii2w (fpiw2i w) = w) ∧
    (∀ d : Double, d.bits ≤ 0x7FF0000000000000 → fpii2d (fpid2i d) = d) ∧
    (∀ s : UInt32, ¬ Single.IsNaN s →
      Single.Exact (fpis2i s) s ∧ fpii2s (fpis2i s) = s) ∧
    ∀ d : Double, d.IsFinite → Rounded d (fpii2s (fpid2i d))) := by
  rintro ⟨-, -, hs, -⟩
  have hback := (hs 1 (show ¬ 0x7F800000 < 1 by decide)).2
  revert hback
  decide +kernel

end PlanNine.Fpi
