import Mathlib.Tactic

/-!
# Machine words of 32 bits and big-endian bytes

A `ulong` is a natural number below `2 ^ 32`. `ulong` reduces an integer to that range and `long`
reads it back with its sign, as the casts of the C language do. `hnputl` and `nhgetl` store and
load a word in network order.

## Main results

* `long_ulong_of_small`: the signed reading of a small difference is that difference.
* `nhgetl_hnputl`: a stored word is loaded back.
-/

namespace PlanNine

/-- The cast of an integer to an unsigned word of 32 bits. -/
def ulong (x : ℤ) : ℕ := (x % 4294967296).toNat

/-- The signed reading of a word of 32 bits. -/
def long (x : ℕ) : ℤ :=
  if x % 4294967296 < 2147483648 then (x % 4294967296 : ℕ)
  else ((x % 4294967296 : ℕ) : ℤ) - 4294967296

theorem ulong_lt (x : ℤ) : ulong x < 4294967296 := by
  unfold ulong
  omega

theorem ulong_natCast (n : ℕ) : ulong n = n % 4294967296 := by
  unfold ulong
  omega

theorem ulong_natCast_of_lt {n : ℕ} (h : n < 4294967296) : ulong n = n := by
  rw [ulong_natCast, Nat.mod_eq_of_lt h]

theorem long_ulong (x : ℤ) : long (ulong x) = (x + 2147483648) % 4294967296 - 2147483648 := by
  unfold long ulong
  split_ifs <;> omega

theorem long_ulong_of_small {x : ℤ} (h : -2147483648 ≤ x) (h' : x < 2147483648) :
    long (ulong x) = x := by
  rw [long_ulong]
  omega

/-- The low byte of a number. -/
def uchar (n : ℕ) : UInt8 := UInt8.ofNat n

@[simp] theorem toNat_uchar (n : ℕ) : (uchar n).toNat = n % 256 := by
  simp [uchar]

theorem uchar_toNat (b : UInt8) : uchar b.toNat = b := by
  simp [uchar]

/-- The four bytes of a word, the most significant one first. -/
def hnputl (v : ℕ) : List UInt8 :=
  [uchar (v >>> 24), uchar (v >>> 16), uchar (v >>> 8), uchar v]

/-- The word in the first four bytes, missing ones read as zero. -/
def nhgetl (p : List UInt8) : ℕ :=
  (p.getD 0 0).toNat * 16777216 + (p.getD 1 0).toNat * 65536 + (p.getD 2 0).toNat * 256 +
    (p.getD 3 0).toNat

@[simp] theorem length_hnputl (v : ℕ) : (hnputl v).length = 4 := rfl

theorem nhgetl_hnputl_append (v : ℕ) (l : List UInt8) :
    nhgetl (hnputl v ++ l) = v % 4294967296 := by
  simp only [nhgetl, hnputl, List.cons_append, List.getD_cons_zero, List.getD_cons_succ,
    toNat_uchar, Nat.shiftRight_eq_div_pow]
  omega

theorem nhgetl_hnputl (v : ℕ) : nhgetl (hnputl v) = v % 4294967296 := by
  simpa using nhgetl_hnputl_append v []

theorem hnputl_injective {v w : ℕ} (hv : v < 4294967296) (hw : w < 4294967296)
    (h : hnputl v = hnputl w) : v = w := by
  have := congrArg nhgetl h
  rwa [nhgetl_hnputl, nhgetl_hnputl, Nat.mod_eq_of_lt hv, Nat.mod_eq_of_lt hw] at this

/-- The two bytes of a short word, the more significant one first. -/
def hnputs (v : ℕ) : List UInt8 := [uchar (v >>> 8), uchar v]

/-- The short word in the first two bytes. -/
def nhgets (p : List UInt8) : ℕ := (p.getD 0 0).toNat * 256 + (p.getD 1 0).toNat

theorem nhgets_hnputs_append (v : ℕ) (l : List UInt8) : nhgets (hnputs v ++ l) = v % 65536 := by
  simp only [nhgets, hnputs, List.cons_append, List.getD_cons_zero, List.getD_cons_succ,
    toNat_uchar, Nat.shiftRight_eq_div_pow]
  omega

theorem nhgets_lt (p : List UInt8) : nhgets p < 65536 := by
  have h0 := (p.getD 0 0).toNat_lt
  have h1 := (p.getD 1 0).toNat_lt
  unfold nhgets
  omega

end PlanNine
