import Mathlib.Tactic

/-!
# The floating point interpreter

The operations of `fpi.c` on numbers in the internal format: a sign, an exponent, and two words
`h` and `l` of 28 bits for the significand, whose last three bits are guard bits. The significand
of a normal number has its first bit set, and numbers below the normal ones have the exponent 1.

Words are natural numbers here. A bit that is known to be set is cleared by a subtraction.
Loops that do not end for every number have a bound on their rounds and no result behind it.

## Main definitions

* `Internal`: numbers in the internal format.
* `fpiround`, `fpiadd`, `fpisub`, `fpimul`, `fpidiv`, `fpicmp`: the operations.
* `Canonical`: the form in which they leave numbers.

## Main results

* `canonical_fpiadd`, `canonical_fpisub`, `canonical_fpimul`, `canonical_fpidiv`: the operations
  have results, and keep the form.
-/

namespace PlanNine.Fpi

def FractBits : ℕ := 28

def CarryBit : ℕ := 0x10000000

def HiddenBit : ℕ := 0x08000000

def NGuardBits : ℕ := 3

def GuardMask : ℕ := 0x07

def LsBit : ℕ := 1 <<< NGuardBits

def SingleExpBias : ℤ := 127

def SingleExpMax : ℤ := 255

def ExpBias : ℤ := 1023

def ExpInfinity : ℤ := 2047

structure Internal where
  s : Bool
  e : ℤ
  l : ℕ
  h : ℕ
  deriving DecidableEq, Repr

namespace Internal

def IsWeird (n : Internal) : Prop := ExpInfinity ≤ n.e

def IsInfinity (n : Internal) : Prop := n.IsWeird ∧ n.h = HiddenBit ∧ n.l = 0

/-- The mask is `~HiddenBit`. -/
def IsNaN (n : Internal) : Prop := n.IsWeird ∧ (n.h &&& 0xF7FFFFFF ≠ 0 ∨ n.l ≠ 0)

def IsZero (n : Internal) : Prop := n.e = 1 ∧ n.h = 0 ∧ n.l = 0

instance (n : Internal) : Decidable n.IsWeird := inferInstanceAs (Decidable (_ ≤ _))
instance (n : Internal) : Decidable n.IsInfinity := inferInstanceAs (Decidable (_ ∧ _))
instance (n : Internal) : Decidable n.IsNaN := inferInstanceAs (Decidable (_ ∧ _))
instance (n : Internal) : Decidable n.IsZero := inferInstanceAs (Decidable (_ ∧ _))

end Internal

open Internal

def SetInfinity (s : Bool) : Internal := ⟨s, ExpInfinity, 0, HiddenBit⟩

def SetQNaN : Internal := ⟨false, ExpInfinity, 0, HiddenBit ||| LsBit <<< 1⟩

def SetZero (s : Bool) : Internal := ⟨s, 1, 0, 0⟩

def fpiround (i : Internal) : Internal :=
  let guard := i.l &&& GuardMask
  let l := i.l - guard
  if LsBit >>> 1 < guard ∨ guard = LsBit >>> 1 ∧ l &&& LsBit ≠ 0 then
    let l := l + LsBit
    if l &&& CarryBit ≠ 0 then
      let l := l - CarryBit
      let h := i.h + 1
      if h &&& CarryBit ≠ 0 then
        let l := if h &&& 1 ≠ 0 then l ||| CarryBit else l
        { i with e := i.e + 1, l := l >>> 1, h := h >>> 1 }
      else { i with l, h }
    else { i with l }
  else { i with l }

/-- A round of the loop of `matchexponents`. -/
def matchStep (x : Internal) : Internal :=
  let l := if x.h &&& 1 ≠ 0 then x.l ||| CarryBit else x.l
  let l := if l &&& 1 ≠ 0 then l ||| 2 else l
  { x with l := l >>> 1, h := x.h >>> 1 }

/-- The number `x` with the exponent of `y`. -/
def matchexponents (x y : Internal) : Internal :=
  let count := y.e - x.e
  let x := { x with e := y.e }
  if 2 * FractBits ≤ count then { x with l := if x.l ≠ 0 ∨ x.h ≠ 0 then 1 else 0, h := 0 }
  else if FractBits ≤ count then
    matchStep^[(count - FractBits).toNat] { x with l := x.h ||| (if x.l ≠ 0 then 1 else 0), h := 0 }
  else matchStep^[count.toNat] x

def shift (i : Internal) : Internal :=
  let h := i.h <<< 1
  let l := i.l <<< 1
  if l &&& CarryBit ≠ 0 then { i with e := i.e - 1, l := l - CarryBit, h := h ||| 1 }
  else { i with e := i.e - 1, l, h }

/-- The loop of `normalise`, which does not end for a significand of 0. -/
def normaliseLoop : ℕ → Internal → Option Internal
  | 0, i => if i.h &&& HiddenBit = 0 then none else some i
  | n + 1, i => if i.h &&& HiddenBit = 0 then normaliseLoop n (shift i) else some i

def normalise (i : Internal) : Option Internal := normaliseLoop (2 * FractBits) i

/-- A round of the loop of `renormalise`. -/
def renormaliseStep (i : Internal) : Internal :=
  let l := if i.h &&& 1 ≠ 0 then i.l ||| CarryBit else i.l
  { i with e := i.e + 1, h := i.h >>> 1, l := l >>> 1 ||| l &&& 1 }

def renormalise (i : Internal) : Internal :=
  let i := if i.e < -2 * FractBits then { i with e := -2 * FractBits } else i
  let i := renormaliseStep^[(1 - i.e).toNat] i
  if ExpInfinity ≤ i.e then SetInfinity i.s else i

/-- The sum of the significands, when the exponent of `y` is not below the one of `x`. -/
def addOrdered (s : Bool) (x y : Internal) : Internal :=
  let x := matchexponents x y
  let h := x.h + y.h
  let l := x.l + y.l
  let (h, l) := if l &&& CarryBit ≠ 0 then (h + 1, l - CarryBit) else (h, l)
  let i : Internal :=
    if h &&& HiddenBit <<< 1 ≠ 0 then
      let l := if h &&& 1 ≠ 0 then l ||| CarryBit else l
      ⟨s, x.e + 1, l >>> 1 ||| l &&& 1, h >>> 1⟩
    else ⟨s, x.e, l, h⟩
  if i.IsWeird then SetInfinity s else i

def fpiadd (x y : Internal) : Internal :=
  if x.IsWeird ∨ y.IsWeird then
    if x.IsNaN ∨ y.IsNaN then SetQNaN else SetInfinity x.s
  else if y.e < x.e then addOrdered x.s y x
  else addOrdered x.s x y

/-- The words of `y` less those of `x`. -/
def subwords (y x : Internal) : ℕ × ℕ :=
  let l : ℤ := y.l - x.l
  if l < 0 then (y.h - x.h - 1, (l + CarryBit).toNat) else (y.h - x.h, l.toNat)

/-- The loop of `fpisub`, with at most as many rounds as the exponent is above 1. -/
def subLoop : ℕ → Internal → Internal
  | 0, i => i
  | n + 1, i => if i.h &&& HiddenBit = 0 then subLoop n (shift i) else i

/-- The magnitude of `x` is below the one of `y`. -/
def Below (x y : Internal) : Prop :=
  x.e < y.e ∨ x.e = y.e ∧ (x.h < y.h ∨ x.h = y.h ∧ x.l < y.l)

instance (x y : Internal) : Decidable (Below x y) := inferInstanceAs (Decidable (_ ∨ _))

/-- The difference, when the magnitude of `y` is not below the one of `x`. -/
def subOrdered (x y : Internal) : Internal :=
  if y.IsNaN then SetQNaN
  else if y.IsInfinity then
    if x.IsInfinity then SetQNaN else SetInfinity y.s
  else
    let x := matchexponents x y
    let (h, l) := subwords y x
    if h = 0 ∧ l = 0 then SetZero y.s else subLoop (y.e - 1).toNat ⟨y.s, y.e, l, h⟩

def fpisub (x y : Internal) : Internal := if Below y x then subOrdered y x else subOrdered x y

def CHUNK : ℕ := FractBits / 2

def CMASK : ℕ := 1 <<< CHUNK - 1

def HI (x : ℕ) : ℕ := x >>> CHUNK &&& CMASK

def LO (x : ℕ) : ℕ := x &&& CMASK

def SPILL (x : ℕ) : ℕ := x >>> CHUNK

def C (h l : ℕ) : ℕ := (h &&& CMASK) <<< CHUNK ||| (l &&& CMASK)

/-- The words `f` of the product of two significands. -/
def mulwords (x y : Internal) : ℕ × ℕ × ℕ × ℕ :=
  let a0 := HI x.h
  let b0 := HI y.h
  let a1 := LO x.h
  let b1 := LO y.h
  let a2 := HI x.l
  let b2 := HI y.l
  let a3 := LO x.l
  let b3 := LO y.l
  let c6 := a3 * b3
  let c5 := a2 * b3 + a3 * b2 + SPILL c6
  let c4 := a1 * b3 + a2 * b2 + a3 * b1 + SPILL c5
  let c3 := a0 * b3 + a1 * b2 + a2 * b1 + a3 * b0 + SPILL c4
  let c2 := a0 * b2 + a1 * b1 + a2 * b0 + SPILL c3
  let c1 := a0 * b1 + a1 * b0 + SPILL c2
  let c0 := a0 * b0 + SPILL c1
  (c0, C c1 c2, C c3 c4, C c5 c6)

/-- A word that is shifted, with the carry of the word behind it. -/
def shiftword (f next : ℕ) : ℕ :=
  let f := f <<< 1
  let f := if f &&& CarryBit ≠ 0 then f - CarryBit else f
  if next <<< 1 &&& CarryBit ≠ 0 then f ||| 1 else f

def fpimul (x y : Internal) : Option Internal :=
  let s := xor x.s y.s
  if x.IsWeird ∨ y.IsWeird then
    if x.IsNaN ∨ y.IsNaN ∨ x.IsZero ∨ y.IsZero then some SetQNaN else some (SetInfinity s)
  else if x.IsZero ∨ y.IsZero then some (SetZero s)
  else do
    let x ← normalise x
    let y ← normalise y
    let e := x.e + y.e - (ExpBias - 1)
    let (f0, f1, f2, f3) := mulwords x y
    let (e, f0, f1, f2, f3) :=
      if f0 &&& HiddenBit = 0 then
        (e - 1, if f1 <<< 1 &&& CarryBit ≠ 0 then f0 <<< 1 ||| 1 else f0 <<< 1, shiftword f1 f2,
          shiftword f2 f3, shiftword f3 0)
      else (e, f0, f1, f2, f3)
    let l := if f2 ≠ 0 ∨ f3 ≠ 0 then f1 ||| 1 else f1
    return renormalise ⟨s, e, l, f0⟩

/-- A round of the loop of `fpidiv`: what is left of the dividend, and the quotient. -/
def divRound (x y i : Internal) : Internal × Internal :=
  if y.h > x.h ∨ y.h = x.h ∧ y.l ≥ x.l then
    let (h, l) := subwords y x
    (shift { y with h, l }, shift { i with l := i.l ||| 0x01 })
  else (shift y, shift i)

def divLoop (x : Internal) : ℕ → Internal → Internal → Option (Internal × Internal)
  | 0, _, _ => none
  | n + 1, y, i =>
    let (y, i) := divRound x y i
    if i.h &&& HiddenBit = 0 then divLoop x n y i else some (y, i)

/-- The number `y` divided by `x`. -/
def fpidiv (x y : Internal) : Option Internal :=
  let s := xor x.s y.s
  if x.IsNaN ∨ y.IsNaN ∨ x.IsInfinity ∧ y.IsInfinity ∨ x.IsZero ∧ y.IsZero then some SetQNaN
  else if x.IsZero ∨ y.IsInfinity then some (SetInfinity s)
  else if x.IsInfinity ∨ y.IsZero then some (SetZero s)
  else do
    let x ← normalise x
    let y ← normalise y
    let e := y.e - x.e + (ExpBias + 2 * FractBits - 1)
    let (y, i) ← divLoop x (2 * FractBits) y ⟨s, e, 0, 0⟩
    let i := if y.h ≠ 0 ∨ y.l ≠ 0 then { i with l := i.l ||| 0x01 } else i
    return renormalise i

/-- The sign as a number. -/
def sign (s : Bool) : ℤ := if s then 1 else 0

def fpicmp (x y : Internal) : ℤ :=
  if x.IsNaN ∧ y.IsNaN then 0
  else if x.IsInfinity ∧ y.IsInfinity then sign y.s - sign x.s
  else if x.e = y.e ∧ x.h = y.h ∧ x.l = y.l then sign y.s - sign x.s
  else if Below x y then if y.s then 1 else -1
  else if x.s then -1 else 1

variable {i j x y : Internal} {n l h : ℕ} {s : Bool}

/-! ### Bits -/

theorem and_two_pow_eq_zero {k : ℕ} (hn : n < 2 ^ (k + 1)) : n &&& 2 ^ k = 0 ↔ n < 2 ^ k := by
  constructor
  · intro h0
    by_contra hge
    have hbit : (n &&& 2 ^ k).testBit k = (0 : ℕ).testBit k := by rw [h0]
    rw [Nat.testBit_and, Nat.testBit_two_pow_self, Nat.zero_testBit, Bool.and_true] at hbit
    have hset : n.testBit k = true := by
      obtain ⟨r, rfl⟩ := Nat.exists_eq_add_of_le (not_lt.mp hge)
      rw [Nat.pow_succ] at hn
      rw [Nat.testBit_two_pow_add_eq, Nat.testBit_lt_two_pow (by omega)]
      rfl
    exact Bool.false_ne_true (hbit.symm.trans hset)
  · intro hlt
    refine Nat.eq_of_testBit_eq fun j => ?_
    rw [Nat.testBit_and, Nat.zero_testBit]
    by_cases hj : j = k
    · rw [hj, Nat.testBit_lt_two_pow hlt, Bool.false_and]
    · rw [Nat.testBit_two_pow_of_ne (Ne.symm hj), Bool.and_false]

theorem and_hidden_eq_zero (hn : n < 0x10000000) : n &&& HiddenBit = 0 ↔ n < 0x08000000 :=
  and_two_pow_eq_zero (k := 27) hn

theorem and_carry_ne_zero (hn : n < 0x20000000) : n &&& CarryBit ≠ 0 ↔ 0x10000000 ≤ n := by
  rw [Ne, show CarryBit = 2 ^ 28 from rfl, and_two_pow_eq_zero (k := 28) hn]
  exact not_lt

theorem or_carry_lt (hl : l < 0x10000000) : l ||| CarryBit < 0x20000000 :=
  Nat.or_lt_two_pow (n := 29) (by omega) (by decide)

theorem or_one_lt (hl : l < 0x10000000) : l ||| 1 < 0x10000000 :=
  Nat.or_lt_two_pow (n := 28) hl (by decide)

theorem shiftRight_one_lt (hl : l < 0x20000000) : l >>> 1 < 0x10000000 := by
  rw [Nat.shiftRight_eq_div_pow]
  omega

/-- A word that is halved with its last bit kept. -/
theorem sticky_lt (hl : l < 0x20000000) : l >>> 1 ||| l &&& 1 < 0x10000000 :=
  Nat.or_lt_two_pow (n := 28) (shiftRight_one_lt hl)
    (Nat.and_lt_two_pow (n := 28) l (by decide))

/-! ### Canonical numbers -/

/-- Both words have 28 bits. -/
structure Fits (i : Internal) : Prop where
  h : i.h < 0x10000000
  l : i.l < 0x10000000

/-- The significand of a normal number has its first bit set, and other numbers have the
exponent 1. -/
structure Canonical (i : Internal) : Prop extends Fits i where
  pos : 1 ≤ i.e
  le : i.e ≤ ExpInfinity
  hidden : 1 < i.e → 0x08000000 ≤ i.h

theorem canonical_SetInfinity (s : Bool) : Canonical (SetInfinity s) := by
  cases s <;> exact ⟨⟨by decide, by decide⟩, by decide, by decide, by decide⟩

theorem canonical_SetQNaN : Canonical SetQNaN :=
  ⟨⟨by decide, by decide⟩, by decide, by decide, by decide⟩

theorem canonical_SetZero (s : Bool) : Canonical (SetZero s) := by
  cases s <;> exact ⟨⟨by decide, by decide⟩, by decide, by decide, by decide⟩

theorem fits_matchStep (hi : Fits i) : Fits (matchStep i) ∧ (matchStep i).h = i.h / 2 ∧
    (matchStep i).e = i.e := by
  obtain ⟨hh, hl⟩ := hi
  have hhalf : i.h >>> 1 = i.h / 2 := Nat.shiftRight_eq_div_pow _ 1
  have hcarry : (if i.h &&& 1 ≠ 0 then i.l ||| CarryBit else i.l) < 0x20000000 := by
    split_ifs
    · exact or_carry_lt hl
    · omega
  refine ⟨⟨?_, ?_⟩, hhalf, rfl⟩
  · change i.h >>> 1 < _
    omega
  · refine shiftRight_one_lt ?_
    split_ifs
    all_goals first
      | exact Nat.or_lt_two_pow (n := 29) (or_carry_lt hl) (by decide)
      | exact Nat.or_lt_two_pow (n := 29) (show i.l < 2 ^ 29 by omega) (by decide)
      | exact or_carry_lt hl
      | omega

theorem fits_iterate_matchStep (n : ℕ) (hi : Fits i) : Fits (matchStep^[n] i) ∧
    (matchStep^[n] i).h ≤ i.h ∧ (0 < n → (matchStep^[n] i).h ≤ i.h / 2) ∧
      (matchStep^[n] i).e = i.e := by
  induction n generalizing i with
  | zero => exact ⟨hi, le_rfl, fun h => absurd h (lt_irrefl 0), rfl⟩
  | succ n ih =>
    obtain ⟨hfits, hh, he⟩ := fits_matchStep hi
    obtain ⟨hfits', hle, -, he'⟩ := ih hfits
    rw [Function.iterate_succ_apply]
    refine ⟨hfits', ?_, fun _ => ?_, he'.trans he⟩
    · omega
    · omega

/-- The number that was matched has the exponent, and room for a bit when it was shifted. -/
theorem fits_matchexponents (hx : Fits x) (hle : x.e ≤ y.e) : Fits (matchexponents x y) ∧
    (matchexponents x y).e = y.e ∧ (x.e < y.e → (matchexponents x y).h < 0x08000000) ∧
      (x.e = y.e → (matchexponents x y).h = x.h ∧ (matchexponents x y).l = x.l) := by
  obtain ⟨hh, hl⟩ := hx
  have hbits : FractBits = 28 := rfl
  unfold matchexponents
  dsimp only
  split_ifs with h1 h2 h3 h4
  · exact ⟨⟨Nat.zero_lt_succ _, Nat.lt_of_sub_pos (Nat.zero_lt_succ _)⟩, rfl,
      fun _ => Nat.zero_lt_succ _, fun he => by omega⟩
  · exact ⟨⟨Nat.zero_lt_succ _, Nat.zero_lt_succ _⟩, rfl, fun _ => Nat.zero_lt_succ _,
      fun he => by omega⟩
  · obtain ⟨hfits, hle', -, he⟩ := fits_iterate_matchStep (y.e - x.e - FractBits).toNat
      (i := ⟨x.s, y.e, x.h ||| 1, 0⟩) ⟨Nat.zero_lt_succ _, or_one_lt hh⟩
    dsimp only at hle' he
    exact ⟨hfits, he, fun _ => by omega, fun he => by omega⟩
  · obtain ⟨hfits, hle', -, he⟩ := fits_iterate_matchStep (y.e - x.e - FractBits).toNat
      (i := ⟨x.s, y.e, x.h ||| 0, 0⟩) ⟨Nat.zero_lt_succ _, by rwa [Nat.or_zero]⟩
    dsimp only at hle' he
    exact ⟨hfits, he, fun _ => by omega, fun he => by omega⟩
  · obtain ⟨hfits, -, hhalf, he⟩ := fits_iterate_matchStep (y.e - x.e).toNat
      (i := ⟨x.s, y.e, x.l, x.h⟩) ⟨hh, hl⟩
    dsimp only at hhalf he
    refine ⟨hfits, he, fun hlt => ?_, fun heq => ?_⟩
    · have := hhalf (by omega)
      omega
    · rw [heq, Int.sub_self]
      exact ⟨rfl, rfl⟩

/-- A sum whose carry is taken out. -/
theorem canonical_carried {e : ℤ} (s : Bool) (hh : h < 0x20000000) (hl : l < 0x10000000)
    (hpos : 1 ≤ e) (hlt : e < ExpInfinity) (hhidden : 1 < e → 0x08000000 ≤ h) :
    let i : Internal :=
      if h &&& HiddenBit <<< 1 ≠ 0 then
        ⟨s, e + 1, (if h &&& 1 ≠ 0 then l ||| CarryBit else l) >>> 1 |||
          (if h &&& 1 ≠ 0 then l ||| CarryBit else l) &&& 1, h >>> 1⟩
      else ⟨s, e, l, h⟩
    Canonical (if i.IsWeird then SetInfinity s else i) := by
  have hhalf : h >>> 1 = h / 2 := Nat.shiftRight_eq_div_pow _ 1
  have hcarry : (if h &&& 1 ≠ 0 then l ||| CarryBit else l) < 0x20000000 := by
    split_ifs
    · exact or_carry_lt hl
    · omega
  have h2 : h &&& HiddenBit <<< 1 ≠ 0 ↔ 0x10000000 ≤ h := and_carry_ne_zero hh
  simp only [h2]
  by_cases hbig : 0x10000000 ≤ h
  · rw [if_pos hbig]
    by_cases hw : ExpInfinity ≤ e + 1
    · rw [if_pos (by exact hw)]
      exact canonical_SetInfinity s
    · rw [if_neg (by exact hw)]
      refine ⟨⟨?_, sticky_lt hcarry⟩, ?_, (not_le.mp hw).le, fun _ => ?_⟩
      · dsimp only
        omega
      · dsimp only
        omega
      · dsimp only
        omega
  · rw [if_neg hbig, if_neg (by exact not_le.mpr hlt)]
    exact ⟨⟨not_le.mp hbig, hl⟩, hpos, hlt.le, hhidden⟩

theorem canonical_addOrdered (s : Bool) (hx : Canonical x) (hy : Canonical y) (hle : x.e ≤ y.e)
    (hweird : ¬ y.IsWeird) : Canonical (addOrdered s x y) := by
  have hc : CarryBit = 0x10000000 := rfl
  obtain ⟨⟨hxh, hxl⟩, he, -, -⟩ := fits_matchexponents hx.toFits hle
  obtain ⟨⟨hyh, hyl⟩, hpos, -, hhidden⟩ := hy
  have hlt : y.e < ExpInfinity := not_le.mp hweird
  have hl := and_carry_ne_zero (n := (matchexponents x y).l + y.l) (by omega)
  rw [← he] at hpos hlt hhidden
  unfold addOrdered
  dsimp only
  by_cases hcarry : 0x10000000 ≤ (matchexponents x y).l + y.l
  · rw [if_pos (hl.mpr hcarry)]
    exact canonical_carried s (by omega) (by omega) hpos hlt fun h1 => by
      have := hhidden h1
      omega
  · rw [if_neg (hl.not.mpr hcarry)]
    exact canonical_carried s (by omega) (by omega) hpos hlt fun h1 => by
      have := hhidden h1
      omega

theorem canonical_fpiadd (hx : Canonical x) (hy : Canonical y) : Canonical (fpiadd x y) := by
  unfold fpiadd
  split_ifs with hweird hnan hlt
  · exact canonical_SetQNaN
  · exact canonical_SetInfinity x.s
  · exact canonical_addOrdered x.s hy hx hlt.le fun h => hweird (.inl h)
  · exact canonical_addOrdered x.s hx hy (not_lt.mp hlt) fun h => hweird (.inr h)

/-! ### Significands -/

/-- The significand as a number. -/
def sig (i : Internal) : ℕ := i.h * 0x10000000 + i.l

theorem sig_lt (hi : Fits i) : sig i < 2 ^ 56 := by
  obtain ⟨hh, hl⟩ := hi
  unfold sig
  omega

/-- A shift doubles the significand. -/
theorem sig_shift (hl : i.l < 0x10000000) : sig (shift i) = 2 * sig i ∧
    (shift i).l < 0x10000000 ∧ (shift i).h < 2 * i.h + 2 ∧ (shift i).e = i.e - 1 := by
  have hc : CarryBit = 0x10000000 := rfl
  have h1 : i.h <<< 1 = 2 * i.h := by rw [Nat.shiftLeft_eq]; omega
  have h2 : i.l <<< 1 = 2 * i.l := by rw [Nat.shiftLeft_eq]; omega
  have hor : 2 * i.h ||| 1 = 2 * i.h + 1 :=
    (Nat.two_pow_add_eq_or_of_lt (i := 1) (by decide) i.h).symm
  have hcarry := and_carry_ne_zero (n := 2 * i.l) (by omega)
  unfold shift sig
  dsimp only
  rw [h1, h2, hor]
  by_cases hbig : 0x10000000 ≤ 2 * i.l
  · rw [if_pos (hcarry.mpr hbig)]
    dsimp only
    exact ⟨by omega, by omega, by omega, rfl⟩
  · rw [if_neg (hcarry.not.mpr hbig)]
    dsimp only
    exact ⟨by omega, by omega, by omega, rfl⟩

/-- A shift of a number without the hidden bit. -/
theorem fits_shift (hi : Fits i) (h0 : i.h < 0x08000000) : Fits (shift i) := by
  obtain ⟨-, hl, hh, -⟩ := sig_shift hi.l
  exact ⟨by omega, hl⟩

/-! ### Subtraction -/

theorem canonical_subLoop (n : ℕ) (hi : Fits i) (he : i.e = n + 1) (hle : i.e ≤ ExpInfinity) :
    Canonical (subLoop n i) := by
  induction n generalizing i with
  | zero =>
    have he1 : i.e = 1 := by simpa using he
    rw [subLoop]
    exact ⟨hi, he1.ge, hle, fun h1 => absurd h1 (by omega)⟩
  | succ n ih =>
    rw [subLoop]
    split_ifs with h0
    · obtain ⟨-, -, -, hes⟩ := sig_shift hi.l
      refine ih (fits_shift hi ((and_hidden_eq_zero hi.h).mp h0)) ?_ ?_
      · rw [hes, he]
        push_cast
        omega
      · omega
    · refine ⟨hi, by omega, hle, fun _ => ?_⟩
      exact not_lt.mp fun hlt => h0 ((and_hidden_eq_zero hi.h).mpr hlt)

/-- The words of a difference. -/
theorem subwords_spec (hy : y.l < 0x10000000) (hx : x.l < 0x10000000)
    (hle : x.h < y.h ∨ x.h = y.h ∧ x.l ≤ y.l) : (subwords y x).1 ≤ y.h ∧
      (subwords y x).2 < 0x10000000 ∧
      (subwords y x).1 * 0x10000000 + (subwords y x).2 + sig x = sig y := by
  have hc : CarryBit = 0x10000000 := rfl
  unfold subwords sig
  dsimp only
  split_ifs with hneg
  · dsimp only
    omega
  · dsimp only
    omega

/-- The mask leaves something of a word above the hidden bit. -/
theorem and_mask_ne_zero (hlt : h < 0x10000000) (hgt : 0x08000000 < h) : h &&& 0xF7FFFFFF ≠ 0 := by
  intro h0
  have hmod : h &&& 0x07FFFFFF = h % 0x08000000 := Nat.and_two_pow_sub_one_eq_mod h 27
  have hmask : (0xF7FFFFFF : ℕ) &&& 0x07FFFFFF = 0x07FFFFFF := by decide
  have hsplit : h &&& 0x07FFFFFF = (h &&& 0xF7FFFFFF) &&& 0x07FFFFFF := by
    rw [Nat.and_assoc, hmask]
  rw [h0, Nat.zero_and] at hsplit
  omega

/-- A number that is weird is no number or infinite. -/
theorem Canonical.nan_or_infinity (hi : Canonical i) (hw : i.IsWeird) : i.IsNaN ∨ i.IsInfinity := by
  have hinf : ExpInfinity = 2047 := rfl
  have hbit : HiddenBit = 0x08000000 := rfl
  have hw' := hw
  unfold IsWeird at hw'
  have hh := hi.hidden (by omega)
  by_cases hl : i.l = 0
  · by_cases hb : i.h = HiddenBit
    · exact .inr ⟨hw, hb, hl⟩
    · exact .inl ⟨hw, .inl (and_mask_ne_zero hi.h (by omega))⟩
  · exact .inl ⟨hw, .inr hl⟩

theorem canonical_subOrdered (hx : Canonical x) (hy : Canonical y) (hle : ¬ Below y x) :
    Canonical (subOrdered x y) := by
  have hinf : ExpInfinity = 2047 := rfl
  unfold Below at hle
  unfold subOrdered
  split_ifs with hnan hinfy hinfx
  · exact canonical_SetQNaN
  · exact canonical_SetQNaN
  · exact canonical_SetInfinity y.s
  · have hlt : y.e < ExpInfinity := not_le.mp fun hw =>
      (hy.nan_or_infinity hw).elim hnan hinfy
    have hexp : x.e ≤ y.e := by omega
    obtain ⟨⟨hmh, hml⟩, -, hsmall, hsame⟩ := fits_matchexponents hx.toFits hexp
    have hpos := hx.pos
    have hyh := hy.h
    have hyl := hy.l
    have hlex : (matchexponents x y).h < y.h ∨
        (matchexponents x y).h = y.h ∧ (matchexponents x y).l ≤ y.l := by
      by_cases heq : x.e = y.e
      · obtain ⟨h1, h2⟩ := hsame heq
        rw [h1, h2]
        omega
      · have h1 := hsmall (by omega)
        have h2 := hy.hidden (by omega)
        omega
    obtain ⟨hh, hl, -⟩ := subwords_spec hyl hml hlex
    dsimp only
    split_ifs
    · exact canonical_SetZero y.s
    · refine canonical_subLoop _ ⟨hh.trans_lt hyh, hl⟩ ?_ hlt.le
      dsimp only
      omega

theorem canonical_fpisub (hx : Canonical x) (hy : Canonical y) : Canonical (fpisub x y) := by
  unfold fpisub
  split_ifs with hbelow
  · refine canonical_subOrdered hy hx fun hback => ?_
    unfold Below at hbelow hback
    omega
  · exact canonical_subOrdered hx hy hbelow

/-! ### Products and quotients -/

/-- A normal significand. -/
structure Normal (i : Internal) : Prop extends Fits i where
  hidden : 0x08000000 ≤ i.h

/-- A significand is normalised in as many rounds as it has leading zeros. -/
theorem normaliseLoop_spec (n : ℕ) (hi : Fits i) (hsig : 2 ^ 55 ≤ sig i * 2 ^ n) :
    ∃ j, normaliseLoop n i = some j ∧ Normal j := by
  have hiff := and_hidden_eq_zero hi.h
  induction n generalizing i with
  | zero =>
    have hh : ¬ i.h < 0x08000000 := fun hlt => by
      have hl := hi.l
      unfold sig at hsig
      omega
    exact ⟨i, by rw [normaliseLoop, if_neg (hiff.not.mpr hh)], hi, not_lt.mp hh⟩
  | succ n ih =>
    rw [normaliseLoop]
    split_ifs with h0
    · have hfits := fits_shift hi (hiff.mp h0)
      refine ih hfits ?_ (and_hidden_eq_zero hfits.h)
      rw [(sig_shift hi.l).1]
      rw [Nat.pow_succ] at hsig
      calc 2 ^ 55 ≤ sig i * (2 ^ n * 2) := hsig
        _ = 2 * sig i * 2 ^ n := by ring
    · exact ⟨i, rfl, hi, not_lt.mp (hiff.not.mp h0)⟩

/-- A canonical number is normalised, but for zero. -/
theorem exists_normalise (hi : Canonical i) (h0 : ¬ i.IsZero) :
    ∃ j, normalise i = some j ∧ Normal j := by
  have hpos : 0 < sig i := by
    by_contra hzero
    unfold sig at hzero
    refine h0 ⟨?_, by omega, by omega⟩
    by_contra he
    have := hi.hidden (by have := hi.pos; omega)
    omega
  refine normaliseLoop_spec _ hi.toFits ?_
  calc 2 ^ 55 ≤ 1 * 2 ^ 56 := by decide
    _ ≤ sig i * 2 ^ 56 := Nat.mul_le_mul_right _ hpos

theorem fits_renormaliseStep (hi : Fits i) : Fits (renormaliseStep i) ∧
    (renormaliseStep i).e = i.e + 1 := by
  have hhalf : i.h >>> 1 = i.h / 2 := Nat.shiftRight_eq_div_pow _ 1
  have hh := hi.h
  have hcarry : (if i.h &&& 1 ≠ 0 then i.l ||| CarryBit else i.l) < 0x20000000 := by
    have hl := hi.l
    split_ifs
    · exact or_carry_lt hl
    · omega
  refine ⟨⟨?_, sticky_lt hcarry⟩, rfl⟩
  change i.h >>> 1 < _
  omega

theorem fits_iterate_renormaliseStep (n : ℕ) (hi : Fits i) : Fits (renormaliseStep^[n] i) ∧
    (renormaliseStep^[n] i).e = i.e + n := by
  induction n generalizing i with
  | zero => exact ⟨hi, (Int.add_zero _).symm⟩
  | succ n ih =>
    obtain ⟨hfits, he⟩ := fits_renormaliseStep hi
    obtain ⟨hfits', he'⟩ := ih hfits
    rw [Function.iterate_succ_apply]
    refine ⟨hfits', ?_⟩
    rw [he', he]
    push_cast
    ring

theorem canonical_renormalise (hi : Normal i) : Canonical (renormalise i) := by
  have hinf : ExpInfinity = 2047 := rfl
  obtain ⟨j, hj, hfits, hhidden⟩ : ∃ j,
      j = (if i.e < -2 * FractBits then { i with e := -2 * FractBits } else i) ∧ Fits j ∧
        (1 ≤ j.e → 0x08000000 ≤ j.h) := by
    refine ⟨_, rfl, ?_⟩
    split_ifs
    · exact ⟨⟨hi.h, hi.l⟩, fun _ => hi.hidden⟩
    · exact ⟨hi.toFits, fun _ => hi.hidden⟩
  obtain ⟨hfits', he⟩ := fits_iterate_renormaliseStep (1 - j.e).toNat hfits
  unfold renormalise
  rw [← hj]
  dsimp only
  split_ifs with hbig
  · exact canonical_SetInfinity _
  · refine ⟨hfits', by omega, (not_le.mp hbig).le, fun h1 => ?_⟩
    have hzero : (1 - j.e).toNat = 0 := by omega
    rw [hzero]
    exact hhidden (by omega)

theorem HI_eq (hn : n < 0x10000000) : HI n = n / 16384 := by
  have hshift : n >>> CHUNK = n / 16384 := Nat.shiftRight_eq_div_pow n 14
  have hmask : n / 16384 &&& CMASK = n / 16384 % 16384 := Nat.and_two_pow_sub_one_eq_mod _ 14
  unfold HI
  rw [hshift, hmask, Nat.mod_eq_of_lt (by omega)]

theorem LO_eq (n : ℕ) : LO n = n % 16384 := Nat.and_two_pow_sub_one_eq_mod n 14

theorem SPILL_eq (n : ℕ) : SPILL n = n / 16384 := Nat.shiftRight_eq_div_pow n 14

theorem C_lt (a b : ℕ) : C a b < 0x10000000 := by
  have ha : a &&& CMASK = a % 16384 := Nat.and_two_pow_sub_one_eq_mod a 14
  have hb : b &&& CMASK = b % 16384 := Nat.and_two_pow_sub_one_eq_mod b 14
  unfold C
  rw [ha, hb, Nat.shiftLeft_eq]
  refine Nat.or_lt_two_pow (n := 28) ?_ (by omega)
  have hchunk : 2 ^ CHUNK = 16384 := rfl
  rw [hchunk]
  omega

/-- The words of a product of normal significands fit, and the first one lacks one bit at most. -/
theorem mulwords_spec (hx : Normal x) (hy : Normal y) :
    0x04000000 ≤ (mulwords x y).1 ∧ (mulwords x y).1 < 0x10000000 ∧
      (mulwords x y).2.1 < 0x10000000 ∧ (mulwords x y).2.2.1 < 0x10000000 ∧
        (mulwords x y).2.2.2 < 0x10000000 := by
  refine ⟨?_, ?_, C_lt _ _, C_lt _ _, C_lt _ _⟩
  · have ha := hx.hidden
    have hb := hy.hidden
    unfold mulwords
    dsimp only
    rw [HI_eq hx.h, HI_eq hy.h]
    have hprod : 8192 * 8192 ≤ x.h / 16384 * (y.h / 16384) :=
      Nat.mul_le_mul (by omega) (by omega)
    omega
  · have hh : ∀ {n : ℕ}, n < 0x10000000 → HI n ≤ 16383 := fun hn => by
      rw [HI_eq hn]
      omega
    have hlo (n : ℕ) : LO n ≤ 16383 := by
      rw [LO_eq]
      omega
    have hmul {a b : ℕ} (ha : a ≤ 16383) (hb : b ≤ 16383) : a * b ≤ 268402689 :=
      Nat.mul_le_mul ha hb
    have ha0 := hh hx.h
    have hb0 := hh hy.h
    have ha2 := hh hx.l
    have hb2 := hh hy.l
    have ha1 := hlo x.h
    have hb1 := hlo y.h
    have ha3 := hlo x.l
    have hb3 := hlo y.l
    have h33 := hmul ha3 hb3
    have h23 := hmul ha2 hb3
    have h32 := hmul ha3 hb2
    have h13 := hmul ha1 hb3
    have h22 := hmul ha2 hb2
    have h31 := hmul ha3 hb1
    have h03 := hmul ha0 hb3
    have h12 := hmul ha1 hb2
    have h21 := hmul ha2 hb1
    have h30 := hmul ha3 hb0
    have h02 := hmul ha0 hb2
    have h11 := hmul ha1 hb1
    have h20 := hmul ha2 hb0
    have h01 := hmul ha0 hb1
    have h10 := hmul ha1 hb0
    have h00 := hmul ha0 hb0
    unfold mulwords
    dsimp only
    simp only [SPILL_eq]
    have h6 : LO x.l * LO y.l / 16384 ≤ 16382 := by omega
    omega

theorem shiftword_lt (a b : ℕ) (ha : a < 0x10000000) : shiftword a b < 0x10000000 := by
  have hc : CarryBit = 0x10000000 := rfl
  have h1 : a <<< 1 = 2 * a := by rw [Nat.shiftLeft_eq]; omega
  have hcarry := and_carry_ne_zero (n := 2 * a) (by omega)
  have hlow : (if 2 * a &&& CarryBit ≠ 0 then 2 * a - CarryBit else 2 * a) < 0x10000000 := by
    by_cases hbig : 0x10000000 ≤ 2 * a
    · rw [if_pos (hcarry.mpr hbig)]
      omega
    · rw [if_neg (hcarry.not.mpr hbig)]
      omega
  unfold shiftword
  dsimp only
  rw [h1]
  by_cases hb : b <<< 1 &&& CarryBit ≠ 0
  · rw [if_pos hb]
    exact or_one_lt hlow
  · rw [if_neg hb]
    exact hlow

theorem canonical_fpimul (hx : Canonical x) (hy : Canonical y) :
    ∃ i, fpimul x y = some i ∧ Canonical i := by
  unfold fpimul
  split_ifs with hweird hnan hzero
  · exact ⟨_, rfl, canonical_SetQNaN⟩
  · exact ⟨_, rfl, canonical_SetInfinity _⟩
  · exact ⟨_, rfl, canonical_SetZero _⟩
  · obtain ⟨x', hx', hnx⟩ := exists_normalise hx fun h => hzero (.inl h)
    obtain ⟨y', hy', hny⟩ := exists_normalise hy fun h => hzero (.inr h)
    obtain ⟨hlow, h0, h1, h2, h3⟩ := mulwords_spec hnx hny
    dsimp only
    rw [hx', hy']
    refine ⟨_, rfl, canonical_renormalise ?_⟩
    have hh := and_hidden_eq_zero h0
    have hshift : (mulwords x' y').1 <<< 1 = 2 * (mulwords x' y').1 := by
      rw [Nat.shiftLeft_eq]
      omega
    have hl := shiftword_lt (mulwords x' y').2.1 (mulwords x' y').2.2.1 h1
    by_cases hbit : (mulwords x' y').1 &&& HiddenBit = 0
    · have hsmall := hh.mp hbit
      have hor := or_one_lt (l := 2 * (mulwords x' y').1) (by omega)
      have hge : 2 * (mulwords x' y').1 ≤ 2 * (mulwords x' y').1 ||| 1 := Nat.left_le_or
      simp only [hbit, if_true, hshift]
      refine ⟨⟨?_, ?_⟩, ?_⟩
      · dsimp only
        split_ifs
        · exact hor
        · omega
      · dsimp only
        split_ifs
        · exact or_one_lt hl
        · exact hl
      · dsimp only
        split_ifs
        · omega
        · omega
    · simp only [hbit, if_false]
      refine ⟨⟨h0, ?_⟩, not_lt.mp (hh.not.mp hbit)⟩
      dsimp only
      split_ifs
      · exact or_one_lt h1
      · exact h1

/-! ### Division -/

/-- A round keeps the remainder below twice the divisor, and a bit of the quotient is set when the
divisor goes into it. -/
theorem divRound_spec (hx : Fits x) (hy : y.l < 0x10000000) (hlt : sig y < 2 * sig x)
    (hi : Fits i) (h0 : i.h < 0x08000000) : (divRound x y i).1.l < 0x10000000 ∧
      sig (divRound x y i).1 < 2 * sig x ∧ Fits (divRound x y i).2 ∧
      2 * sig i ≤ sig (divRound x y i).2 ∧ (sig x ≤ sig y → 2 ≤ sig (divRound x y i).2) ∧
      (sig y < sig x → sig (divRound x y i).1 = 2 * sig y) := by
  have hiff : y.h > x.h ∨ y.h = x.h ∧ y.l ≥ x.l ↔ sig x ≤ sig y := by
    have hxl := hx.l
    unfold sig
    omega
  unfold divRound
  by_cases hge : sig x ≤ sig y
  · rw [if_pos (hiff.mpr hge)]
    have hle : x.h < y.h ∨ x.h = y.h ∧ x.l ≤ y.l := (hiff.mpr hge).imp id fun h => ⟨h.1.symm, h.2⟩
    obtain ⟨-, hl, hsum⟩ := subwords_spec hy hx.l hle
    obtain ⟨hs, hsl, -, -⟩ := sig_shift (i := ⟨y.s, y.e, (subwords y x).2, (subwords y x).1⟩) hl
    have hor := or_one_lt hi.l
    have hfits : Fits ⟨i.s, i.e, i.l ||| 0x01, i.h⟩ := ⟨hi.h, hor⟩
    have hor1 : i.l ≤ i.l ||| 1 := Nat.left_le_or
    have hor2 : 1 ≤ i.l ||| 1 := Nat.right_le_or
    dsimp only
    refine ⟨hsl, ?_, fits_shift hfits h0, ?_, fun _ => ?_, fun h => absurd h (not_lt.mpr hge)⟩
    · rw [hs]
      unfold sig at hsum hlt ⊢
      dsimp only
      omega
    · rw [(sig_shift hfits.l).1]
      unfold sig
      dsimp only
      omega
    · rw [(sig_shift hfits.l).1]
      unfold sig
      dsimp only
      omega
  · rw [if_neg (hiff.not.mpr hge)]
    obtain ⟨hs, hsl, -, -⟩ := sig_shift hy
    dsimp only
    refine ⟨hsl, by omega, fits_shift hi h0, ?_, fun h => absurd h hge, fun _ => hs⟩
    rw [(sig_shift hi.l).1]

/-- The loop ends in as many rounds as the quotient lacks bits. -/
theorem divLoop_spec (n : ℕ) (hx : Fits x) (hy : y.l < 0x10000000)
    (hlt : sig y < 2 * sig x) (hi : Fits i) (h0 : i.h < 0x08000000)
    (hn : 2 ^ 55 ≤ sig i * 2 ^ n ∨ 2 ^ 55 ≤ 2 ^ n ∧ sig x ≤ sig y ∨
      2 * 2 ^ 55 ≤ 2 ^ n ∧ sig x ≤ 2 * sig y) :
    ∃ r, divLoop x n y i = some r ∧ Normal r.2 := by
  induction n generalizing y i with
  | zero =>
    have hil := hi.l
    unfold sig at hn
    omega
  | succ n ih =>
    obtain ⟨hl, hlt', hfits, hdouble, hset, hkeep⟩ := divRound_spec hx hy hlt hi h0
    have hiff := and_hidden_eq_zero hfits.h
    rw [divLoop]
    dsimp only
    split_ifs with hbit
    · refine ih hl hlt' hfits (hiff.mp hbit) ?_
      rw [Nat.pow_succ] at hn
      obtain hn | ⟨hn, hge⟩ | ⟨hn, hge⟩ := hn
      · left
        calc 2 ^ 55 ≤ sig i * (2 ^ n * 2) := hn
          _ = 2 * sig i * 2 ^ n := by ring
          _ ≤ sig (divRound x y i).2 * 2 ^ n := Nat.mul_le_mul_right _ hdouble
      · left
        calc 2 ^ 55 ≤ 2 ^ n * 2 := hn
          _ = 2 * 2 ^ n := Nat.mul_comm _ _
          _ ≤ sig (divRound x y i).2 * 2 ^ n := Nat.mul_le_mul_right _ (hset hge)
      · by_cases hnow : sig x ≤ sig y
        · left
          calc 2 ^ 55 ≤ 2 ^ n * 2 := by omega
            _ = 2 * 2 ^ n := Nat.mul_comm _ _
            _ ≤ sig (divRound x y i).2 * 2 ^ n := Nat.mul_le_mul_right _ (hset hnow)
        · right
          left
          rw [hkeep (not_le.mp hnow)]
          exact ⟨by omega, hge⟩
    · exact ⟨_, rfl, hfits, not_lt.mp (hiff.not.mp hbit)⟩

theorem canonical_fpidiv (hx : Canonical x) (hy : Canonical y) :
    ∃ i, fpidiv x y = some i ∧ Canonical i := by
  unfold fpidiv
  split_ifs with hnan hinf hzero
  · exact ⟨_, rfl, canonical_SetQNaN⟩
  · exact ⟨_, rfl, canonical_SetInfinity _⟩
  · exact ⟨_, rfl, canonical_SetZero _⟩
  · obtain ⟨x', hx', hnx⟩ := exists_normalise hx fun h => hinf (.inl h)
    obtain ⟨y', hy', hny⟩ := exists_normalise hy fun h => hzero (.inr h)
    have hsx := sig_lt hnx.toFits
    have hsy := sig_lt hny.toFits
    have hxh := hnx.hidden
    have hyh := hny.hidden
    have hxl := hnx.l
    have hyl := hny.l
    obtain ⟨r, hr, hnormal⟩ := divLoop_spec (x := x') (y := y')
      (i := ⟨xor x.s y.s, y'.e - x'.e + (ExpBias + 2 * FractBits - 1), 0, 0⟩) (2 * FractBits)
      hnx.toFits hyl (by unfold sig at hsy ⊢; omega) ⟨Nat.zero_lt_succ _, Nat.zero_lt_succ _⟩
      (Nat.zero_lt_succ _) (.inr (.inr ⟨by decide, by unfold sig at hsx ⊢; omega⟩))
    dsimp only
    rw [hx', hy']
    simp only [Option.bind_eq_bind, Option.bind_some, hr]
    refine ⟨_, rfl, canonical_renormalise ?_⟩
    split_ifs
    · exact ⟨⟨hnormal.h, or_one_lt hnormal.l⟩, hnormal.hidden⟩
    · exact hnormal

end PlanNine.Fpi
