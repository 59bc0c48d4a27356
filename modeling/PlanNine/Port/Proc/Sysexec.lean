import Mathlib.Data.Nat.Bitwise
import PlanNine.Lib.Ulong

/-!
# The sizes of an executable

What `sysexec` of `sysproc.c` makes of the sizes in an `Exec` header: it checks the header, computes
the ends of the text, the data and the bss segment in words of 32 bits, frees the old segments and
makes the new ones. The segments begin and end at pages, and the bss begins where the data ends, in
the middle of a page, so that the first part of it may lie in the data segment.

The only test of the three ends is for addresses of the kernel. The sums may wrap around, and
`newseg` has another limit.

## Main definitions

* `Exec`, `Ends`, `header`: a header, the ends of the segments, and the checks.
* `newseg`, `commit`: the new segments, with the error that `newseg` may raise.
* `Sound`: the segments have room for what the header tells, in front of the stack.
* `Exec.Fits`: the same, of the sizes in the header, added without wrapping around.

## Main results

* `loads_iff`: the checked header of an executable is sound just when its sizes fit.
-/

namespace PlanNine.Sysexec

def BY2PG : ℕ := 4096

def PGSHIFT : ℕ := 12

def KZERO : ℕ := 0x80000000

def UTZERO : ℕ := 0 + BY2PG

def USTKTOP : ℕ := KZERO - BY2PG

def USTKSIZE : ℕ := 16 * 1024 * 1024

def SEGMAPSIZE : ℕ := 1984

def PTEPERTAB : ℕ := 1024 * 1024 / BY2PG

/-- A header has eight words. -/
def sizeofExec : ℕ := 8 * 4

def Ebadexec : String := "exec header invalid"

def Enovmem : String := "virtual memory allocation failed"

def Enoswap : String := "swap space full"

/-- The words of a header that count here, as `l2be` gives them. -/
structure Exec where
  magic : UInt32
  text : UInt32
  data : UInt32
  bss : UInt32
  entry : UInt32
  deriving DecidableEq, Repr

/-- Where the text, the data and the bss segment end. -/
structure Ends where
  t : ℕ
  d : ℕ
  b : ℕ
  deriving DecidableEq, Repr

/-- The next address of a page, in 32 bits. -/
def pageEnd (x : ℕ) : ℕ := Nat.ldiff (ulong (x + (BY2PG - 1) : ℕ)) (BY2PG - 1)

/-- The checks of a header, of which `n` bytes could be read. What does not look like a binary is
left to `shargs`. -/
def header (AOUT_MAGIC : UInt32) (n : ℕ) (e : Exec) : Except String Ends :=
  if ¬ (n = sizeofExec ∧ e.magic = AOUT_MAGIC) then .error Ebadexec
  else if e.text.toNat &&& KZERO = KZERO ∨ e.entry.toNat < UTZERO + sizeofExec ∨
      ulong (UTZERO + sizeofExec + e.text.toNat : ℕ) ≤ e.entry.toNat then .error Ebadexec
  else
    let t := pageEnd (UTZERO + sizeofExec + e.text.toNat)
    let d := pageEnd (t + e.data.toNat)
    let bssend := ulong (t + e.data.toNat + e.bss.toNat : ℕ)
    let b := pageEnd bssend
    if (t ||| d ||| b) &&& KZERO = KZERO then .error Ebadexec else .ok ⟨t, d, b⟩

structure Seg where
  base : ℕ
  top : ℕ
  size : ℕ
  deriving DecidableEq, Repr

def newseg (swapfull : Bool) (base size : ℕ) : Except String Seg :=
  if SEGMAPSIZE * PTEPERTAB < size then .error Enovmem
  else if swapfull then .error Enoswap
  else .ok ⟨base, ulong (base + size * BY2PG : ℕ), size⟩

/-- The segments that are made when the old ones have been freed. The text may be one that another
process has. -/
def commit (swapfull : Bool) (shared : Option Seg) (l : Ends) :
    Except String (Seg × Seg × Seg) := do
  let text ← match shared with
    | some s => .ok s
    | none => newseg swapfull UTZERO (ulong (l.t - UTZERO : ℤ) >>> PGSHIFT)
  let data ← newseg swapfull l.t (ulong (l.d - l.t : ℤ) >>> PGSHIFT)
  let bss ← newseg swapfull l.d (ulong (l.b - l.d : ℤ) >>> PGSHIFT)
  return (text, data, bss)

/-- The segments follow each other in front of the stack, they have room for what the header tells,
the bss from where the data ends, and none of them can be refused. -/
structure Sound (e : Exec) (l : Ends) : Prop where
  text : UTZERO < l.t
  data : l.t ≤ l.d
  bss : l.d ≤ l.b
  stack : l.b ≤ USTKTOP - USTKSIZE
  textRoom : sizeofExec + e.text.toNat ≤ l.t - UTZERO
  dataRoom : e.data.toNat ≤ l.d - l.t
  bssRoom : e.bss.toNat ≤ l.b - (l.t + e.data.toNat)
  commits : ∀ shared, ∃ segs, commit false shared l = .ok segs

/-- The next address of a page. -/
def roundup (x : ℕ) : ℕ := (x + (BY2PG - 1)) / BY2PG * BY2PG

namespace Exec

/-- Where the text segment ends, in numbers that do not wrap around. -/
def textEnd (e : Exec) : ℕ := roundup (UTZERO + sizeofExec + e.text.toNat)

def dataEnd (e : Exec) : ℕ := roundup (e.textEnd + e.data.toNat)

def bssEnd (e : Exec) : ℕ := roundup (e.textEnd + e.data.toNat + e.bss.toNat)

/-- The sizes in the header fit in front of the stack, and none of the segments is too large. -/
structure Fits (e : Exec) : Prop where
  stack : e.bssEnd ≤ USTKTOP - USTKSIZE
  text : e.textEnd - UTZERO ≤ SEGMAPSIZE * PTEPERTAB * BY2PG
  data : e.dataEnd - e.textEnd ≤ SEGMAPSIZE * PTEPERTAB * BY2PG
  bss : e.bssEnd - e.dataEnd ≤ SEGMAPSIZE * PTEPERTAB * BY2PG

end Exec

/-! ### Words -/

theorem ldiff_low (x k : ℕ) : Nat.ldiff x (2 ^ k - 1) = x / 2 ^ k * 2 ^ k := by
  refine Nat.eq_of_testBit_eq fun i => ?_
  rw [Nat.testBit_ldiff, Nat.testBit_two_pow_sub_one, Nat.testBit_mul_two_pow,
    Nat.testBit_div_two_pow]
  by_cases hi : i < k
  · simp [hi]
  · have hle : k ≤ i := not_lt.mp hi
    simp [hi, hle]

theorem and_kzero {x : ℕ} (h : x < 2 ^ 32) : x &&& KZERO = KZERO ↔ KZERO ≤ x := by
  have hbit : KZERO = 2 ^ 31 := rfl
  constructor
  · intro heq
    rw [← heq]
    exact Nat.and_le_left
  · intro hle
    have htest : x.testBit 31 = true := by
      rw [Nat.testBit_eq_decide_div_mod_eq, decide_eq_true_eq]
      rw [hbit] at hle
      omega
    refine Nat.eq_of_testBit_eq fun i => ?_
    rw [Nat.testBit_and, hbit, Nat.testBit_two_pow]
    by_cases hi : 31 = i
    · subst hi
      simp [htest]
    · simp [hi]

theorem pageEnd_eq (x : ℕ) : pageEnd x = (x + 4095) % 4294967296 / 4096 * 4096 := by
  have hlow := ldiff_low (ulong (x + (BY2PG - 1) : ℕ)) 12
  rw [ulong_natCast] at hlow
  unfold pageEnd
  rw [ulong_natCast]
  exact hlow

theorem pageEnd_lt (x : ℕ) : pageEnd x < 2 ^ 32 := by
  rw [pageEnd_eq]
  omega

/-- The ends that pass the checks. -/
theorem ends_of_header {AOUT_MAGIC : UInt32} {n : ℕ} {e : Exec} {l : Ends}
    (h : header AOUT_MAGIC n e = .ok l) : e.text.toNat < 2 ^ 31 ∧
      l.t = pageEnd (UTZERO + sizeofExec + e.text.toNat) ∧ l.d = pageEnd (l.t + e.data.toNat) ∧
      l.b = pageEnd (ulong (l.t + e.data.toNat + e.bss.toNat : ℕ)) ∧
      l.t < 2 ^ 31 ∧ l.d < 2 ^ 31 ∧ l.b < 2 ^ 31 := by
  unfold header at h
  split_ifs at h with _ hchecks
  dsimp only at h
  split_ifs at h with hk
  obtain rfl := Except.ok.inj h
  obtain ⟨htext, -⟩ := not_or.mp hchecks
  rw [and_kzero e.text.toNat_lt, not_le] at htext
  have hor : ∀ {x y z : ℕ}, x < 2 ^ 32 → y < 2 ^ 32 → z < 2 ^ 32 →
      ¬ (x ||| y ||| z) &&& KZERO = KZERO → x < 2 ^ 31 ∧ y < 2 ^ 31 ∧ z < 2 ^ 31 := by
    intro x y z hx hy hz hnot
    rw [and_kzero (Nat.or_lt_two_pow (Nat.or_lt_two_pow hx hy) hz), not_le] at hnot
    have hxy : x ||| y ≤ x ||| y ||| z := Nat.left_le_or
    exact ⟨(Nat.left_le_or.trans hxy).trans_lt hnot, (Nat.right_le_or.trans hxy).trans_lt hnot,
      Nat.right_le_or.trans_lt hnot⟩
  exact ⟨htext, rfl, rfl, rfl, hor (pageEnd_lt _) (pageEnd_lt _) (pageEnd_lt _) hk⟩

/-! ### New segments -/

theorem newseg_ok (base : ℕ) {size : ℕ} (h : size ≤ SEGMAPSIZE * PTEPERTAB) :
    ∃ s, newseg false base size = .ok s := by
  unfold newseg
  rw [if_neg (not_lt.mpr h)]
  exact ⟨_, rfl⟩

theorem newseg_large {base size : ℕ} (h : SEGMAPSIZE * PTEPERTAB < size) :
    newseg false base size = .error Enovmem := if_pos h

/-- The new segments are made just when none of them is too large. -/
theorem commit_ok {l : Ends} : (∀ shared, ∃ segs, commit false shared l = .ok segs) ↔
    ulong (l.t - UTZERO : ℤ) >>> PGSHIFT ≤ SEGMAPSIZE * PTEPERTAB ∧
      ulong (l.d - l.t : ℤ) >>> PGSHIFT ≤ SEGMAPSIZE * PTEPERTAB ∧
      ulong (l.b - l.d : ℤ) >>> PGSHIFT ≤ SEGMAPSIZE * PTEPERTAB := by
  constructor
  · intro h
    obtain ⟨segs, hsegs⟩ := h none
    unfold commit at hsegs
    refine ⟨?_, ?_, ?_⟩ <;> refine not_lt.mp fun hlarge => ?_
    · rw [newseg_large hlarge] at hsegs
      cases hsegs
    · rw [newseg_large hlarge] at hsegs
      cases htext : newseg false UTZERO (ulong (l.t - UTZERO : ℤ) >>> PGSHIFT) with
      | error _ =>
        rw [htext] at hsegs
        cases hsegs
      | ok _ =>
        rw [htext] at hsegs
        cases hsegs
    · rw [newseg_large hlarge] at hsegs
      cases htext : newseg false UTZERO (ulong (l.t - UTZERO : ℤ) >>> PGSHIFT) with
      | error _ =>
        rw [htext] at hsegs
        cases hsegs
      | ok _ =>
        rw [htext] at hsegs
        cases hdata : newseg false l.t (ulong (l.d - l.t : ℤ) >>> PGSHIFT) with
        | error _ =>
          rw [hdata] at hsegs
          cases hsegs
        | ok _ =>
          rw [hdata] at hsegs
          cases hsegs
  · rintro ⟨htext, hdata, hbss⟩ shared
    obtain ⟨text, htext⟩ := newseg_ok UTZERO htext
    obtain ⟨data, hdata⟩ := newseg_ok l.t hdata
    obtain ⟨bss, hbss⟩ := newseg_ok l.d hbss
    unfold commit
    rw [htext, hdata, hbss]
    cases shared with
    | none => exact ⟨(text, data, bss), rfl⟩
    | some s => exact ⟨(s, data, bss), rfl⟩

/-- The size of a segment that does not end before it begins. -/
theorem pages_le {x y : ℕ} (hle : x ≤ y) (hy : y < 2 ^ 31) :
    ulong (y - x : ℤ) >>> PGSHIFT ≤ SEGMAPSIZE * PTEPERTAB ↔
      (y - x) / 4096 ≤ SEGMAPSIZE * PTEPERTAB := by
  have hcast : (y - x : ℤ) = ((y - x : ℕ) : ℤ) := by omega
  have hshift : PGSHIFT = 12 := rfl
  rw [hcast, ulong_natCast_of_lt (by omega), hshift, Nat.shiftRight_eq_div_pow]

/-! ### What the checks leave -/

/-- A header that passes the checks gives segments that have room, in front of the stack and small
enough for `newseg`, just when its sizes fit without wrapping around. -/
theorem loads_iff {AOUT_MAGIC : UInt32} {n : ℕ} {e : Exec} {l : Ends}
    (h : header AOUT_MAGIC n e = .ok l) : Sound e l ↔ e.Fits := by
  obtain ⟨htext, ht, hd, hb, htlt, hdlt, hblt⟩ := ends_of_header h
  have hdata := e.data.toNat_lt
  have hbss := e.bss.toNat_lt
  rw [pageEnd_eq] at ht hd hb
  rw [ulong_natCast] at hb
  have hutzero : UTZERO = 4096 := rfl
  have hsize : sizeofExec = 32 := rfl
  have hstack : USTKTOP - USTKSIZE = 2130702336 := rfl
  have hmax : SEGMAPSIZE * PTEPERTAB = 507904 := rfl
  have hmaxbytes : SEGMAPSIZE * PTEPERTAB * BY2PG = 507904 * 4096 := rfl
  have htextEnd : e.textEnd = (4096 + 32 + e.text.toNat + 4095) / 4096 * 4096 := rfl
  have hdataEnd : e.dataEnd = (e.textEnd + e.data.toNat + 4095) / 4096 * 4096 := rfl
  have hbssEnd : e.bssEnd = (e.textEnd + e.data.toNat + e.bss.toNat + 4095) / 4096 * 4096 := rfl
  rw [hutzero, hsize] at ht
  -- The end of the text cannot wrap around, so what the sums say depends on the other two only.
  have hteq : l.t = e.textEnd := by omega
  constructor
  · intro hs
    have hs1 := hs.data
    have hs2 := hs.bss
    have hs3 := hs.stack
    have hs4 := hs.dataRoom
    have hs5 := hs.bssRoom
    obtain ⟨hp1, hp2, hp3⟩ := commit_ok.mp hs.commits
    rw [pages_le hs.text.le htlt, hmax, hutzero] at hp1
    rw [pages_le hs1 hdlt, hmax] at hp2
    rw [pages_le hs2 hblt, hmax] at hp3
    have hdeq : l.d = e.dataEnd := by omega
    have hbeq : l.b = e.bssEnd := by omega
    rw [hstack] at hs3
    refine ⟨?_, ?_, ?_, ?_⟩
    · rw [hstack]
      omega
    · rw [hmaxbytes, hutzero]
      omega
    · rw [hmaxbytes]
      omega
    · rw [hmaxbytes]
      omega
  · rintro ⟨hf1, hf2, hf3, hf4⟩
    rw [hstack] at hf1
    rw [hmaxbytes, hutzero] at hf2
    rw [hmaxbytes] at hf3 hf4
    have hdeq : l.d = e.dataEnd := by omega
    have hbeq : l.b = e.bssEnd := by omega
    have htle : UTZERO < l.t := by
      rw [hutzero]
      omega
    have hdle : l.t ≤ l.d := by omega
    have hble : l.d ≤ l.b := by omega
    refine ⟨htle, hdle, hble, ?_, ?_, ?_, ?_, commit_ok.mpr ⟨?_, ?_, ?_⟩⟩
    · rw [hstack]
      omega
    · rw [hsize, hutzero]
      omega
    · omega
    · omega
    · rw [pages_le htle.le htlt, hmax, hutzero]
      omega
    · rw [pages_le hdle hdlt, hmax]
      omega
    · rw [pages_le hble hblt, hmax]
      omega

/-- A program with two bytes of text, data and bss each. -/
def small : Exec := ⟨0x1eb, 2, 2, 2, 4096 + 32⟩

theorem sound_small : header 0x1eb 32 small = .ok ⟨8192, 12288, 12288⟩ ∧
    Sound small ⟨8192, 12288, 12288⟩ :=
  ⟨by decide +kernel,
    (loads_iff (show header 0x1eb 32 small = .ok ⟨8192, 12288, 12288⟩ by decide +kernel)).mpr
      ⟨by decide +kernel, by decide +kernel, by decide +kernel, by decide +kernel⟩⟩

/-- The bss of a small program lies in the page where its data ends, and not behind it. -/
theorem bss_before_data_end : header 0x1eb 32 small = .ok ⟨8192, 12288, 12288⟩ ∧
    ¬ small.bss.toNat ≤ 12288 - 12288 :=
  ⟨by decide +kernel, by decide +kernel⟩

/-- With a size that wraps around, the data segment ends before it begins, and is refused when the
old segments have been freed. -/
example : header 0x1eb 32 ⟨0x1eb, 0x2000, 0xfffff000, 0, 4096 + 32⟩ = .ok ⟨16384, 12288, 12288⟩ ∧
    commit false none ⟨16384, 12288, 12288⟩ = .error Enovmem := by decide +kernel

end PlanNine.Sysexec
