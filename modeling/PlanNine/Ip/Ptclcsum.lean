import PlanNine.Port.Qio.Block

/-!
# The checksum of a string of blocks

`ptclcsum` of `ipaux.c`: the sum of `len` bytes from an offset on, over the blocks of a string. The
sum of the bytes of one block, which `ptclbsum` makes in words of the machine's byte order, is a
parameter.

## Main definitions

* `ptclcsum`: the checksum.

## Main results

* `csumFront_some`: the data from the offset on is what is behind it.
-/

namespace PlanNine.Ipaux

open Qio

/-- The loop to the front of the data: the bytes of the block there from the offset on, and the
blocks behind it. -/
def csumFront : List Block → ℕ → Option (List UInt8 × List Block)
  | [], _ => none
  | b :: bs, offset =>
    if offset ≠ 0 ∧ b.BLEN ≤ offset then csumFront bs (offset - b.BLEN)
    else some (b.data.drop offset, bs)

/-- The carries above 16 bits are added below. -/
def foldsum (losum : ℕ) : ℕ :=
  if losum < 65536 then losum else foldsum (losum / 65536 + losum % 65536)
termination_by losum

variable (ptclbsum : List UInt8 → UInt16)

/-- The loop over the blocks, with the sums of those that begin at an even place and of those that
begin at an odd one. -/
def csumLoop : List (List UInt8) → ℕ → Bool → ℕ → ℕ → ℕ × ℕ
  | [], _, _, losum, hisum => (losum, hisum)
  | p :: ps, len, odd, losum, hisum =>
    if len = 0 then (losum, hisum)
    else
      let x := min p.length len
      let csum := (ptclbsum (p.take x)).toNat
      let odd' := xor odd (x % 2 == 1)
      if odd then csumLoop ps (len - x) odd' losum (hisum + csum)
      else csumLoop ps (len - x) odd' (losum + csum) hisum

def ptclcsum (bp : List Block) (offset len : ℕ) : UInt16 :=
  match csumFront bp offset with
  | none => 0
  | some (p, []) => ~~~ptclbsum (p.take len)
  | some (p, b :: bs) =>
    let (losum, hisum) := csumLoop ptclbsum (p :: (b :: bs).map Block.data) len false 0 0
    ~~~(UInt16.ofNat (foldsum (losum + hisum / 256 + hisum % 256 * 256)))

/-! ### The front of the data -/

variable {ptclbsum}

theorem csumFront_some {bs rest : List Block} {offset : ℕ} {p : List UInt8}
    (h : csumFront bs offset = some (p, rest)) :
    p.length + blocklen rest = blocklen bs - offset := by
  induction bs generalizing offset with
  | nil => cases h
  | cons b bs ih =>
    rw [csumFront] at h
    split_ifs at h with hfar
    · rw [ih h, blocklen_cons]
      omega
    · cases h
      rw [List.length_drop, blocklen_cons]
      obtain h0 | hlt : offset = 0 ∨ offset < b.BLEN := by omega
      · rw [h0, Block.BLEN]
        omega
      · rw [Block.BLEN] at hlt ⊢
        omega

end PlanNine.Ipaux
