import Mathlib.Algebra.Order.Ring.Int
import Mathlib.Algebra.BigOperators.Group.List.Basic
import Mathlib.Data.List.GetD

/-!
# Blocks

The blocks of `allocb.c` and `qio.c`, and the routines on strings of blocks. A block is given by
its address, the room before its data, the data and the room after it, so that its pointers are
always in order. A string of blocks is the list of the blocks in it.

## Main definitions

* `Block`: a block, with `Block.BLEN` and `Block.BALLOC`.
* `Mem`, `allocb`: what the allocator gives out.
* `pullupblock`, `bl2mem`, `mem2bl`: the routines on strings of blocks.

## Main results

* `pullupblock_data`: the bytes pulled up are the bytes of the string.
* `bl2mem_data`: the bytes copied and those left are the bytes of the string.
-/

namespace PlanNine.Qio

/-- `Maxatomic`. -/
def Maxatomic : ℕ := 64 * 1024

/-- A block: its address, `rp - base`, the bytes between `rp` and `wp`, and `lim - wp`. -/
structure Block where
  addr : ℕ
  head : ℕ := 0
  data : List UInt8 := []
  room : ℕ := 0
  deriving DecidableEq, Repr

namespace Block

/-- `BLEN(b)`. -/
def BLEN (b : Block) : ℕ := b.data.length

/-- `BALLOC(b)`. -/
def BALLOC (b : Block) : ℕ := b.head + b.data.length + b.room

/-- `b->rp += n`, for `n` up to `BLEN(b)`. -/
def skip (b : Block) (n : ℕ) : Block :=
  { b with head := b.head + (b.data.take n).length, data := b.data.drop n }

/-- `b->wp = b->rp + n`, for `n` up to `BLEN(b)`. -/
def cut (b : Block) (n : ℕ) : Block :=
  { b with data := b.data.take n, room := b.room + (b.data.drop n).length }

/-- `memmove(b->wp, p, n); b->wp += n`, when there is room. -/
def put (b : Block) (p : List UInt8) : Block :=
  { b with data := b.data ++ p, room := b.room - p.length }

variable {b : Block} {n : ℕ} {p : List UInt8}

@[simp] theorem addr_skip : (b.skip n).addr = b.addr := rfl
@[simp] theorem addr_cut : (b.cut n).addr = b.addr := rfl
@[simp] theorem addr_put : (b.put p).addr = b.addr := rfl
@[simp] theorem data_skip : (b.skip n).data = b.data.drop n := rfl
@[simp] theorem data_cut : (b.cut n).data = b.data.take n := rfl
@[simp] theorem data_put : (b.put p).data = b.data ++ p := rfl

theorem BLEN_skip : (b.skip n).BLEN = b.BLEN - n := List.length_drop

@[simp] theorem BALLOC_skip : (b.skip n).BALLOC = b.BALLOC := by
  have h := congrArg List.length (List.take_append_drop n b.data)
  rw [List.length_append] at h
  simp only [BALLOC, skip]
  omega

theorem BALLOC_put (h : p.length ≤ b.room) : (b.put p).BALLOC = b.BALLOC := by
  simp only [BALLOC, put, List.length_append]
  omega

end Block

/-- What the allocator meets: the address of the new block, the room left before the data, and
what rounding up the size to `BLOCKALIGN` adds. -/
structure Mem where
  addr : ℕ
  head : ℕ := 64
  pad : ℕ := 0

/-- `allocb(size)`; it waits until there is memory. -/
def allocb (m : Mem) (size : ℕ) : Block :=
  { addr := m.addr, head := m.head, room := size + m.pad }

@[simp] theorem addr_allocb (m : Mem) (size : ℕ) : (allocb m size).addr = m.addr := rfl
@[simp] theorem data_allocb (m : Mem) (size : ℕ) : (allocb m size).data = [] := rfl

/-! ### Strings of blocks -/

/-- `blocklen(bp)`. -/
def blocklen (bs : List Block) : ℕ := (bs.map Block.BLEN).sum

/-- `blockalloclen(bp)`. -/
def blockalloclen (bs : List Block) : ℕ := (bs.map Block.BALLOC).sum

/-- The bytes of a string of blocks. -/
def bytes (bs : List Block) : List UInt8 := bs.flatMap Block.data

section

variable {b : Block} {bs cs : List Block}

@[simp] theorem blocklen_nil : blocklen [] = 0 := rfl
@[simp] theorem blocklen_cons : blocklen (b :: bs) = b.BLEN + blocklen bs := by simp [blocklen]
@[simp] theorem blocklen_append : blocklen (bs ++ cs) = blocklen bs + blocklen cs := by
  simp [blocklen]

@[simp] theorem blockalloclen_nil : blockalloclen [] = 0 := rfl
@[simp] theorem blockalloclen_cons :
    blockalloclen (b :: bs) = b.BALLOC + blockalloclen bs := by simp [blockalloclen]
@[simp] theorem blockalloclen_append :
    blockalloclen (bs ++ cs) = blockalloclen bs + blockalloclen cs := by simp [blockalloclen]

@[simp] theorem bytes_nil : bytes [] = [] := rfl
@[simp] theorem bytes_cons : bytes (b :: bs) = b.data ++ bytes bs := rfl
@[simp] theorem bytes_append : bytes (bs ++ cs) = bytes bs ++ bytes cs := List.flatMap_append

theorem length_bytes (bs : List Block) : (bytes bs).length = blocklen bs := by
  induction bs with
  | nil => rfl
  | cons b bs ih => rw [bytes_cons, List.length_append, ih, blocklen_cons, Block.BLEN]

end

/-- The loop of `pullupblock` that copies `n` bytes from the trailing blocks into `bp`. -/
def pullupLoop (bp : Block) : List Block → ℕ → List Block
  | [], _ => []
  | nbp :: next, n =>
      if n < nbp.BLEN then bp.put (nbp.data.take n) :: nbp.skip n :: next
      else if n - nbp.BLEN = 0 then bp.put nbp.data :: next
      else pullupLoop (bp.put nbp.data) next (n - nbp.BLEN)

/-- `pullupblock(bp, n)`: the string with at least `n` bytes in its first block, or the empty
string when there are not as many. -/
def pullupblock (m : Mem) (bp : Block) (next : List Block) (n : ℕ) : List Block :=
  if n ≤ bp.BLEN then bp :: next
  else if bp.BLEN + bp.room < n then pullupLoop (allocb m n) (bp :: next) n
  else pullupLoop bp next (n - bp.BLEN)

/-- `bl2mem(p, b, n)`: the bytes copied and the string from the first unconsumed block on. -/
def bl2mem : List Block → ℕ → List UInt8 × List Block
  | [], _ => ([], [])
  | b :: next, n =>
      if n < b.BLEN then (b.data.take n, b.skip n :: next)
      else
        let (p, rest) := bl2mem next (n - b.BLEN)
        (b.data ++ p, rest)

/-- `mem2bl(p, len)`, with what the allocator gives out for each block. -/
def mem2bl (ms : ℕ → Mem) (p : List UInt8) : List Block :=
  if p.length ≤ Maxatomic then [(allocb (ms 0) p.length).put p]
  else
    (allocb (ms 0) Maxatomic).put (p.take Maxatomic) ::
      mem2bl (fun i => ms (i + 1)) (p.drop Maxatomic)
termination_by p.length
decreasing_by
  simp only [List.length_drop, Maxatomic] at *
  omega

/-- When the trailing blocks hold the bytes asked for, the bytes of the string stay the same and
the first block has `n` more of them. -/
theorem pullupLoop_data (bp : Block) : ∀ (next : List Block) (n : ℕ), 0 < n → n ≤ blocklen next →
    ∃ b bs, pullupLoop bp next n = b :: bs ∧ b.BLEN = bp.BLEN + n ∧
      b.data ++ bytes bs = bp.data ++ bytes next := by
  intro next
  induction next generalizing bp with
  | nil => intro n hn hle; simp at hle; omega
  | cons nbp next ih =>
    intro n hn hle
    rw [blocklen_cons] at hle
    rw [pullupLoop]
    split_ifs with hlt hz
    · refine ⟨_, _, rfl, ?_, ?_⟩
      · simp only [Block.BLEN, Block.data_put, List.length_append, List.length_take] at hlt ⊢
        omega
      · rw [Block.data_put, bytes_cons, bytes_cons, Block.data_skip, List.append_assoc,
          ← List.append_assoc (nbp.data.take n), List.take_append_drop]
    · refine ⟨_, _, rfl, ?_, ?_⟩
      · simp only [Block.BLEN, Block.data_put, List.length_append] at hlt hz ⊢
        omega
      · rw [Block.data_put, bytes_cons, List.append_assoc]
    · obtain ⟨b, bs, heq, hlen, hdata⟩ :=
        ih (bp.put nbp.data) (n - nbp.BLEN) (by omega) (by omega)
      refine ⟨b, bs, heq, ?_, ?_⟩
      · rw [hlen]
        simp only [Block.BLEN, Block.data_put, List.length_append] at hlt ⊢
        omega
      · rw [hdata, Block.data_put, bytes_cons, List.append_assoc]

/-- Without the bytes asked for the whole string is freed. -/
theorem pullupLoop_eq_nil (bp : Block) : ∀ (next : List Block) (n : ℕ), blocklen next < n →
    pullupLoop bp next n = [] := by
  intro next
  induction next generalizing bp with
  | nil => intro n _; rfl
  | cons nbp next ih =>
    intro n hlt
    rw [blocklen_cons] at hlt
    rw [pullupLoop, if_neg (by omega), if_neg (by omega)]
    exact ih _ _ (by omega)

/-- `pullupblock` keeps the bytes of the string and puts the missing ones of the first `n` into the
first block. -/
theorem pullupblock_cons (m : Mem) (bp : Block) (next : List Block) (n : ℕ)
    (h : n ≤ blocklen (bp :: next)) :
    ∃ b bs, pullupblock m bp next n = b :: bs ∧ b.BLEN = max bp.BLEN n ∧
      bytes (b :: bs) = bytes (bp :: next) := by
  unfold pullupblock
  split_ifs with hle hroom
  · exact ⟨bp, next, rfl, by omega, rfl⟩
  · obtain ⟨b, bs, heq, hlen, hdata⟩ :=
      pullupLoop_data (allocb m n) (bp :: next) n (by omega) h
    have hzero : (allocb m n).BLEN = 0 := rfl
    exact ⟨b, bs, heq, by omega, by simpa using hdata⟩
  · rw [blocklen_cons] at h
    obtain ⟨b, bs, heq, hlen, hdata⟩ :=
      pullupLoop_data bp next (n - bp.BLEN) (by omega) (by omega)
    exact ⟨b, bs, heq, by omega, hdata⟩

/-- `pullupblock` keeps the bytes of the string and puts `n` of them into the first block. -/
theorem pullupblock_data (m : Mem) (bp : Block) (next : List Block) (n : ℕ)
    (h : n ≤ blocklen (bp :: next)) :
    ∃ b bs, pullupblock m bp next n = b :: bs ∧ n ≤ b.BLEN ∧
      bytes (b :: bs) = bytes (bp :: next) := by
  obtain ⟨b, bs, heq, hlen, hdata⟩ := pullupblock_cons m bp next n h
  exact ⟨b, bs, heq, hlen ▸ le_max_right _ _, hdata⟩

/-- When the string is too short it is freed. -/
theorem pullupblock_eq_nil (m : Mem) (bp : Block) (next : List Block) (n : ℕ)
    (h : blocklen (bp :: next) < n) : pullupblock m bp next n = [] := by
  rw [blocklen_cons] at h
  unfold pullupblock
  rw [if_neg (by omega)]
  split_ifs
  · exact pullupLoop_eq_nil _ _ _ (by rwa [blocklen_cons])
  · exact pullupLoop_eq_nil _ _ _ (by omega)

/-- The bytes copied are the first `n` of the string, and the others are left. -/
theorem bl2mem_data : ∀ (bs : List Block) (n : ℕ),
    (bl2mem bs n).1 = (bytes bs).take n ∧ bytes (bl2mem bs n).2 = (bytes bs).drop n := by
  intro bs
  induction bs with
  | nil => intro n; simp [bl2mem]
  | cons b next ih =>
    intro n
    rw [bl2mem, bytes_cons]
    split_ifs with hlt
    · have hle : n ≤ b.data.length := Nat.le_of_lt hlt
      rw [List.take_append_of_le_length hle, List.drop_append_of_le_length hle]
      exact ⟨rfl, rfl⟩
    · have hle : b.data.length ≤ n := Nat.le_of_not_lt hlt
      obtain ⟨htake, hdrop⟩ := ih (n - b.BLEN)
      rw [List.take_append, List.drop_append, List.take_of_length_le hle,
        List.drop_of_length_le hle]
      exact ⟨congrArg _ htake, hdrop⟩

end PlanNine.Qio
