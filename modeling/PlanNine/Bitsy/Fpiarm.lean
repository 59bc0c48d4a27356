import PlanNine.Bitsy.Fpimem

/-!
# The arithmetic of the emulated coprocessor

The operations of `fpiarm.c` on the registers of the ARM floating point coprocessor, and the flags
of its comparison. The comparison looks at signs, exponents and significands as they are, and that
is the order of the numbers because every number but zero has one form. The two zeros are the
exception: the positive one counts as greater.

## Main definitions

* `fadd`, `fsub`, `fsubr`, `fmul`, `fdiv`, `fmovn`, `fabsf`, `fcmp`: the operations.
* `Produced`: the contents of registers.
* `value`: the number in a register.

## Main results

* `Produced.canonical`: registers hold numbers in canonical form.
* `below_iff`: in this form the comparison is that of the magnitudes.
* `compares_iff`: the flags are right but for two zeros of different signs.
-/

namespace PlanNine.Fpi

open Internal

/-- The flags. -/
def N : ℕ := 1 <<< 31

def Z : ℕ := 1 <<< 30

def Cflag : ℕ := 1 <<< 29

def V : ℕ := 1 <<< 28

def fadd (m n : Internal) : Internal := if m.s = n.s then fpiadd m n else fpisub m n

def fsub (m n : Internal) : Internal :=
  let m := { m with s := !m.s }
  if m.s = n.s then fpiadd m n else fpisub m n

def fsubr (m n : Internal) : Internal :=
  let n := { n with s := !n.s }
  if n.s = m.s then fpiadd n m else fpisub n m

def fmul (m n : Internal) : Option Internal := fpimul m n

def fdiv (m n : Internal) : Option Internal := fpidiv m n

def fmovn (m : Internal) : Internal := { m with s := !m.s }

def fabsf (m : Internal) : Internal := { m with s := false }

def fcmp (n m : Internal) : ℕ :=
  if m.IsWeird ∨ n.IsWeird then V ||| Cflag
  else
    let i := fpicmp n m
    if 0 < i then Cflag else if i = 0 then Cflag ||| Z else N

/-- What registers hold: numbers that were loaded, and results. -/
inductive Produced : Internal → Prop
  | fpid2i (d : Double) : Produced (fpid2i d)
  | fpiw2i (v : Int32) (hv : v ≠ Int32.minValue) : Produced (fpiw2i v)
  | fadd {m n : Internal} (hm : Produced m) (hn : Produced n) : Produced (fadd m n)
  | fsub {m n : Internal} (hm : Produced m) (hn : Produced n) : Produced (fsub m n)
  | fsubr {m n : Internal} (hm : Produced m) (hn : Produced n) : Produced (fsubr m n)
  | fmul {m n d : Internal} (hm : Produced m) (hn : Produced n) (hd : fmul m n = some d) :
      Produced d
  | fdiv {m n d : Internal} (hm : Produced m) (hn : Produced n) (hd : fdiv m n = some d) :
      Produced d
  | fmovn {m : Internal} (hm : Produced m) : Produced (fmovn m)
  | fabsf {m : Internal} (hm : Produced m) : Produced (fabsf m)

/-- The number in a register. -/
def value (x : Internal) : ℚ := (if x.s then -1 else 1) * sig x * 2 ^ (x.e - ExpBias - 55)

/-- The flags for the order of two numbers. -/
def flags (a b : ℚ) : ℕ := if a < b then N else if a = b then Cflag ||| Z else Cflag

variable {m n d x y : Internal}

/-! ### Registers -/

theorem Canonical.sign (hm : Canonical m) (s : Bool) : Canonical { m with s } :=
  ⟨⟨hm.h, hm.l⟩, hm.pos, hm.le, hm.hidden⟩

theorem Produced.canonical (h : Produced x) : Canonical x := by
  induction h with
  | fpid2i d => exact canonical_fpid2i d
  | fpiw2i v hv => exact canonical_fpiw2i hv
  | fadd _ _ hm hn =>
    unfold Fpi.fadd
    split_ifs
    · exact canonical_fpiadd hm hn
    · exact canonical_fpisub hm hn
  | fsub _ _ hm hn =>
    unfold Fpi.fsub
    dsimp only
    split_ifs
    · exact canonical_fpiadd (hm.sign _) hn
    · exact canonical_fpisub (hm.sign _) hn
  | fsubr _ _ hm hn =>
    unfold Fpi.fsubr
    dsimp only
    split_ifs
    · exact canonical_fpiadd (hn.sign _) hm
    · exact canonical_fpisub (hn.sign _) hm
  | fmul _ _ hd hm hn =>
    obtain ⟨i, hi, hcanon⟩ := canonical_fpimul hm hn
    cases hi.symm.trans hd
    exact hcanon
  | fdiv _ _ hd hm hn =>
    obtain ⟨i, hi, hcanon⟩ := canonical_fpidiv hm hn
    cases hi.symm.trans hd
    exact hcanon
  | fmovn _ hm => exact hm.sign _
  | fabsf _ hm => exact hm.sign _

/-! ### Magnitudes -/

/-- The magnitude as a natural number. -/
def mag (x : Internal) : ℕ := sig x * 2 ^ x.e.toNat

/-- A number with the smaller exponent is smaller. -/
theorem mag_lt_of_exp (hx : Canonical x) (hy : Canonical y) (h : x.e < y.e) : mag x < mag y := by
  have hxpos := hx.pos
  have hhidden := hy.hidden (by omega)
  have hlow : 2 ^ 55 ≤ sig y := by
    unfold sig
    omega
  obtain ⟨k, hk⟩ : ∃ k, y.e.toNat = x.e.toNat + 1 + k := ⟨y.e.toNat - x.e.toNat - 1, by omega⟩
  unfold mag
  calc sig x * 2 ^ x.e.toNat < 2 ^ 56 * 2 ^ x.e.toNat :=
        Nat.mul_lt_mul_of_pos_right (sig_lt hx.toFits) (Nat.two_pow_pos _)
    _ = 2 ^ 55 * 2 ^ (x.e.toNat + 1) := by ring
    _ ≤ 2 ^ 55 * 2 ^ y.e.toNat :=
        Nat.mul_le_mul_left _ (Nat.pow_le_pow_right (by decide) (by omega))
    _ ≤ sig y * 2 ^ y.e.toNat := Nat.mul_le_mul_right _ hlow

theorem mag_lt_of_below (hx : Canonical x) (hy : Canonical y) (h : Below x y) : mag x < mag y := by
  obtain h | ⟨he, h⟩ := h
  · exact mag_lt_of_exp hx hy h
  · have hxl := hx.l
    unfold mag
    rw [he]
    refine Nat.mul_lt_mul_of_pos_right ?_ (Nat.two_pow_pos _)
    unfold sig
    omega

/-- The same magnitude is the same exponent and significand. -/
theorem mag_eq_iff (hx : Canonical x) (hy : Canonical y) :
    mag x = mag y ↔ x.e = y.e ∧ x.h = y.h ∧ x.l = y.l := by
  constructor
  · intro h
    by_contra hne
    obtain hlt | hlt : Below x y ∨ Below y x := by
      unfold Below
      omega
    · exact (mag_lt_of_below hx hy hlt).ne h
    · exact (mag_lt_of_below hy hx hlt).ne h.symm
  · rintro ⟨he, hh, hl⟩
    unfold mag sig
    rw [he, hh, hl]

theorem below_iff (hx : Canonical x) (hy : Canonical y) : Below x y ↔ mag x < mag y := by
  refine ⟨mag_lt_of_below hx hy, fun h => ?_⟩
  by_contra hnot
  obtain hback | hsame : Below y x ∨ (x.e = y.e ∧ x.h = y.h ∧ x.l = y.l) := by
    unfold Below at hnot ⊢
    omega
  · exact (mag_lt_of_below hy hx hback).not_gt h
  · exact h.ne ((mag_eq_iff hx hy).mpr hsame)

theorem mag_eq_zero_iff (hx : Canonical x) : mag x = 0 ↔ x.IsZero := by
  unfold mag
  rw [Nat.mul_eq_zero, or_iff_left (Nat.two_pow_pos _).ne']
  constructor
  · intro h
    unfold sig at h
    refine ⟨?_, by omega, by omega⟩
    by_contra he
    have hpos := hx.pos
    have := hx.hidden (by omega)
    omega
  · rintro ⟨-, hh, hl⟩
    unfold sig
    omega

/-- The magnitude with the sign. -/
def signed (x : Internal) : ℤ := if x.s then -mag x else mag x

theorem value_eq (hx : Canonical x) : value x = signed x * 2 ^ (-1078 : ℤ) := by
  have hbias : ExpBias = 1023 := rfl
  have hpos := hx.pos
  obtain ⟨k, hk⟩ : ∃ k : ℕ, x.e = k := ⟨x.e.toNat, by omega⟩
  have hexp : x.e - ExpBias - 55 = (k : ℤ) + (-1078) := by omega
  unfold value signed mag
  rw [hexp, zpow_add₀ (by norm_num), zpow_natCast, hk, Int.toNat_natCast]
  generalize (2 : ℚ) ^ (-1078 : ℤ) = c
  cases x.s with
  | false =>
    simp only [Bool.false_eq_true, if_false]
    push_cast
    ring
  | true =>
    simp only [if_true]
    push_cast
    ring

/-- Numbers compare as the magnitudes with their signs. -/
theorem flags_eq (hx : Canonical x) (hy : Canonical y) : flags (value x) (value y) =
    if signed x < signed y then N else if signed x = signed y then Cflag ||| Z else Cflag := by
  have hpos : (0 : ℚ) < 2 ^ (-1078 : ℤ) := zpow_pos (by norm_num) _
  have hlt : value x < value y ↔ signed x < signed y := by
    rw [value_eq hx, value_eq hy, mul_lt_mul_iff_left₀ hpos, Int.cast_lt]
  have heq : value x = value y ↔ signed x = signed y := by
    rw [value_eq hx, value_eq hy, mul_left_inj' hpos.ne', Int.cast_inj]
  unfold flags
  simp only [hlt, heq]

/-! ### Comparison -/

theorem fcmp_eq (hx : ¬ x.IsWeird) (hy : ¬ y.IsWeird) : fcmp x y =
    if x.e = y.e ∧ x.h = y.h ∧ x.l = y.l then
      if x.s = y.s then Cflag ||| Z else if y.s then Cflag else N
    else if Below x y then if y.s then Cflag else N
    else if x.s then N else Cflag := by
  have hnan : ¬ (x.IsNaN ∧ y.IsNaN) := fun h => hx h.1.1
  have hinf : ¬ (x.IsInfinity ∧ y.IsInfinity) := fun h => hx h.1.1
  have hweird : ¬ (y.IsWeird ∨ x.IsWeird) := fun h => h.elim hy hx
  unfold fcmp
  rw [if_neg hweird]
  unfold fpicmp
  rw [if_neg hnan, if_neg hinf]
  dsimp only
  by_cases hsame : x.e = y.e ∧ x.h = y.h ∧ x.l = y.l
  · rw [if_pos hsame, if_pos hsame]
    cases x.s <;> cases y.s <;> rfl
  · rw [if_neg hsame, if_neg hsame]
    by_cases hbelow : Below x y
    · rw [if_pos hbelow, if_pos hbelow]
      cases y.s <;> rfl
    · rw [if_neg hbelow, if_neg hbelow]
      cases x.s <;> rfl

/-- What the comparison of signs and magnitudes says. -/
theorem cases_iff (a b : ℕ) (s t : Bool) :
    (if a = b then if s = t then Cflag ||| Z else if t then Cflag else N
      else if a < b then if t then Cflag else N
      else if s then N else Cflag) =
      (if (if s then -(a : ℤ) else a) < (if t then -(b : ℤ) else b) then N
        else if (if s then -(a : ℤ) else a) = (if t then -(b : ℤ) else b) then Cflag ||| Z
        else Cflag) ↔
      ¬ (a = 0 ∧ b = 0 ∧ s ≠ t) := by
  have hNZ : N ≠ Cflag ||| Z := by decide
  have hCZ : Cflag ≠ Cflag ||| Z := by decide
  cases s <;> cases t
  · refine iff_of_true ?_ (fun h => h.2.2 rfl)
    simp only [Bool.false_eq_true, if_false, if_true, Nat.cast_lt, Nat.cast_inj]
    split_ifs <;> first | rfl | omega
  · -- The first number is not negative, and the second one not positive.
    have hge : ¬ (a : ℤ) < -b := by omega
    have heq : (a : ℤ) = -b ↔ a = 0 ∧ b = 0 := by omega
    simp only [Bool.false_eq_true, if_false, if_true, ite_self, hge, heq]
    by_cases hzero : a = 0 ∧ b = 0
    · simp [hzero, hCZ]
    · simp [hzero]
  · have heq : (-a : ℤ) = b ↔ a = 0 ∧ b = 0 := by omega
    have hlt : (-a : ℤ) < b ↔ ¬ (a = 0 ∧ b = 0) := by omega
    simp only [Bool.true_eq_false, Bool.false_eq_true, if_false, if_true, ite_self, hlt, heq]
    by_cases hzero : a = 0 ∧ b = 0
    · simp [hzero, hNZ]
    · simp [hzero]
  · refine iff_of_true ?_ (fun h => h.2.2 rfl)
    simp only [if_true, neg_lt_neg_iff, neg_inj, Nat.cast_lt, Nat.cast_inj]
    split_ifs <;> first | rfl | omega

/-- The flags say how two finite registers compare, but for zeros of different signs. -/
theorem compares_iff (hx : Produced x) (hy : Produced y) (hfx : ¬ x.IsWeird) (hfy : ¬ y.IsWeird) :
    fcmp x y = flags (value x) (value y) ↔ ¬ (x.IsZero ∧ y.IsZero ∧ x.s ≠ y.s) := by
  have hcx := hx.canonical
  have hcy := hy.canonical
  rw [fcmp_eq hfx hfy, flags_eq hcx hcy, ← mag_eq_zero_iff hcx, ← mag_eq_zero_iff hcy]
  simp only [below_iff hcx hcy, ← mag_eq_iff hcx hcy]
  exact cases_iff (mag x) (mag y) x.s y.s

theorem one_below_two : fcmp (fpiw2i 1) (fpiw2i 2) = flags (value (fpiw2i 1)) (value (fpiw2i 2)) :=
  (compares_iff (.fpiw2i 1 (by decide)) (.fpiw2i 2 (by decide)) (by decide +kernel)
    (by decide +kernel)).mpr (by decide +kernel)

/-- The positive zero is greater than the negative one. -/
theorem zeros_differ : ¬ ∀ x y : Internal, Produced x → Produced y → ¬ x.IsWeird → ¬ y.IsWeird →
    fcmp x y = flags (value x) (value y) := by
  intro h
  have hzero : Produced (fpiw2i 0) := .fpiw2i 0 (by decide)
  have hflags := h (fpiw2i 0) (fmovn (fpiw2i 0)) hzero hzero.fmovn (by decide +kernel)
    (by decide +kernel)
  have hvalue : value (fpiw2i 0) = 0 ∧ value (fmovn (fpiw2i 0)) = 0 := by
    have hsig : sig (fpiw2i 0) = 0 ∧ sig (fmovn (fpiw2i 0)) = 0 := by decide +kernel
    unfold value
    rw [hsig.1, hsig.2]
    simp
  rw [hvalue.1, hvalue.2] at hflags
  revert hflags
  decide +kernel

end PlanNine.Fpi
