import PlanNine.Lib.Ulong
import PlanNine.Port.Qio.Block

/-!
# The pointers of a block

A block has its data between `rp` and `wp`, in a buffer from `base` to `lim`. Here the pointers are
addresses, and a copy to where the buffer of a block is not is a fault. A block whose pointers are
in order is a block of the model with the room before its data and after it, and what moves the
pointers is what takes bytes from that block or adds some to it.

## Main definitions

* `Block`, `Ordered`: a block with its pointers, and their order.
* `allocb`: a new block.
* `Strung`: the blocks of a string, which lie apart.
* `view`: the block of the model.

## Main results

* `allocb_spec`: a new block is in order and has the room asked for.
* `append_spec`, `ordered_skip`, `ordered_cut`: the pointers stay in order.
* `Strung.blocklen_lt`: the bytes of a string are fewer than an `int` can count.
-/

namespace PlanNine.Qio.Pointers

/-- The first address of the kernel text. What is allocated is behind it. -/
def KTZERO : ℕ := 0x80100000

def BLOCKALIGN : ℤ := 8

/-- Room for high-level headers. -/
def Hdrspc : ℤ := 64

/-- The size of a block without its buffer. -/
def SizeofBlock : ℤ := 32

def ROUND (s sz : ℤ) : ℤ := (s + (sz - 1)) / sz * sz

/-- Why a routine does not return: there is no memory, or it uses a pointer that is none. -/
inductive Stop
  | memory
  | fault
  deriving DecidableEq, Repr

abbrev Run (α : Type) : Type := Except Stop α

/-- A block, with the bytes from `base` to `lim`. -/
structure Block where
  base : ℕ
  rp : ℕ
  wp : ℕ
  buf : List UInt8
  deriving DecidableEq, Repr

namespace Block

def lim (b : Block) : ℕ := b.base + b.buf.length

/-- `BLEN(b)`. -/
def BLEN (b : Block) : ℤ := b.wp - b.rp

def data (b : Block) : List UInt8 := (b.buf.drop (b.rp - b.base)).take (b.wp - b.rp)

/-- The `n` bytes at `p`. -/
def load (b : Block) (p n : ℕ) : Run (List UInt8) :=
  if b.base ≤ p ∧ p + n ≤ b.lim then .ok ((b.buf.drop (p - b.base)).take n) else .error .fault

/-- The bytes are copied to `p`. -/
def store (b : Block) (p : ℕ) (bytes : List UInt8) : Run Block :=
  if b.base ≤ p ∧ p + bytes.length ≤ b.lim then
    .ok { b with
      buf := b.buf.take (p - b.base) ++ (bytes ++ b.buf.drop (p - b.base + bytes.length)) }
  else .error .fault

/-- The bytes are copied to `wp`, and `wp` moves behind them. -/
def append (b : Block) (bytes : List UInt8) : Run Block := do
  let b ← b.store b.wp bytes
  return { b with wp := ulong (b.wp + bytes.length) }

/-- The pointers are in order, and the buffer is in the memory of the kernel. -/
structure Ordered (b : Block) : Prop where
  kernel : KTZERO ≤ b.base
  base_le : b.base ≤ b.rp
  rp_le : b.rp ≤ b.wp
  wp_le : b.wp ≤ b.lim
  lim_lt : b.lim < 4294967296

/-- The block of the model. -/
def view (b : Block) : Qio.Block := ⟨b.base, b.rp - b.base, b.data, b.lim - b.wp⟩

end Block

/-- The memory that is allocated: the address and the size for what is asked for, and the bytes that
are there. -/
structure Pool where
  malloc : ℕ → Option (ℕ × ℕ)
  byte : ℕ → UInt8
  placed : ∀ {n b size : ℕ}, malloc n = some (b, size) →
    KTZERO ≤ b ∧ n ≤ size ∧ b + size < 4294967296

def allocb (m : Pool) (size : ℤ) : Run Block :=
  match m.malloc (ulong (SizeofBlock + size + Hdrspc)) with
  | none => .error .memory
  | some (b, msize) =>
    let base := (ROUND (b + SizeofBlock) BLOCKALIGN).toNat
    let lim := (b + msize) / BLOCKALIGN.toNat * BLOCKALIGN.toNat
    let rp := ulong (lim - ROUND size BLOCKALIGN)
    if rp < base then .error .fault
    else .ok ⟨base, rp, rp, (List.range' base (lim - base)).map m.byte⟩

/-- `blocklen(bp)`. -/
def blocklen (bs : List Block) : ℤ := long (ulong (bs.map Block.BLEN).sum)

/-- The bytes of a string of blocks. -/
def bytes (bs : List Block) : List UInt8 := bs.flatMap Block.data

/-- The blocks of a string are in order, and their buffers lie apart. -/
structure Strung (bs : List Block) : Prop where
  ordered : ∀ b ∈ bs, b.Ordered
  apart : bs.Pairwise fun b c => b.lim ≤ c.base ∨ c.lim ≤ b.base

variable {b : Block} {bs : List Block} {p : List UInt8} {m : Pool}

namespace Block

/-! ### One block -/

theorem Ordered.length_data (hb : b.Ordered) : (b.data.length : ℤ) = b.BLEN := by
  obtain ⟨-, hrp, hwp, hlim, -⟩ := hb
  unfold lim at hlim
  unfold data BLEN
  rw [List.length_take, List.length_drop]
  omega

theorem Ordered.BLEN_view (hb : b.Ordered) : (b.view.BLEN : ℤ) = b.BLEN := hb.length_data

theorem Ordered.BLEN_lt (hb : b.Ordered) : 0 ≤ b.BLEN ∧ b.BLEN < 2147483648 := by
  obtain ⟨hbase, hrp, hwp, hlim, htop⟩ := hb
  unfold KTZERO at hbase
  unfold BLEN
  omega

/-- What is loaded from `rp` on is the front of the data. -/
theorem Ordered.load_rp (hb : b.Ordered) {n : ℕ} (hn : n ≤ b.BLEN) :
    b.load b.rp n = .ok (b.data.take n) := by
  obtain ⟨-, hrp, hwp, hlim, -⟩ := hb
  unfold BLEN at hn
  unfold load data
  rw [if_pos ⟨hrp, by omega⟩, List.take_take, min_eq_left (by omega)]

theorem Ordered.load_all (hb : b.Ordered) : b.load b.rp b.BLEN.toNat = .ok b.data := by
  have hlen := hb.length_data
  rw [hb.load_rp (by omega), List.take_of_length_le (by omega)]

/-- Bytes that there is room for are added to the data. -/
theorem append_spec (hb : b.Ordered) (hp : p.length ≤ b.lim - b.wp) :
    ∃ b', b.append p = .ok b' ∧ b'.Ordered ∧ b'.view = b.view.put p ∧ b'.rp = b.rp ∧
      b'.lim = b.lim ∧ b'.wp = b.wp + p.length := by
  obtain ⟨hbase, hrp, hwp, hlim, htop⟩ := hb
  have hbuf : b.lim = b.base + b.buf.length := rfl
  obtain ⟨buf, hnew⟩ : ∃ buf, buf = b.buf.take (b.wp - b.base) ++
      (p ++ b.buf.drop (b.wp - b.base + p.length)) := ⟨_, rfl⟩
  have hlen : buf.length = b.buf.length := by
    rw [hnew]
    simp only [List.length_append, List.length_take, List.length_drop]
    omega
  have hlim' : (⟨b.base, b.rp, b.wp + p.length, buf⟩ : Block).lim = b.lim := by
    rw [lim, hlen, hbuf]
  have hwp' : ulong ((b.wp : ℤ) + p.length) = b.wp + p.length := by
    rw [← Nat.cast_add, ulong_natCast_of_lt (by omega)]
  have hdata : (⟨b.base, b.rp, b.wp + p.length, buf⟩ : Block).data = b.data ++ p := by
    have hskip : b.rp - b.base ≤ (b.buf.take (b.wp - b.base)).length := by
      rw [List.length_take]
      omega
    have hfront : b.wp - b.base - (b.rp - b.base) = b.wp - b.rp := by omega
    unfold data
    rw [hnew, List.drop_append_of_le_length hskip, List.drop_take, hfront,
      ← List.append_assoc ((b.buf.drop (b.rp - b.base)).take (b.wp - b.rp))]
    refine List.take_left' ?_
    rw [List.length_append, List.length_take, List.length_drop]
    dsimp only
    omega
  refine ⟨⟨b.base, b.rp, b.wp + p.length, buf⟩, ?_, ⟨hbase, hrp, ?_, ?_, ?_⟩, ?_, rfl, hlim', rfl⟩
  · unfold append store
    rw [if_pos ⟨hrp.trans hwp, by omega⟩, ← hnew]
    show Except.ok _ = _
    rw [hwp']
  · dsimp only
    omega
  · rw [hlim']
    dsimp only
    omega
  · rwa [hlim']
  · unfold view Qio.Block.put
    rw [hlim', hdata]
    dsimp only
    rw [Nat.sub_sub]

/-- `rp` moves over bytes of the data. -/
theorem ordered_skip (hb : b.Ordered) {n : ℕ} (hn : n ≤ b.BLEN) :
    ({ b with rp := ulong (b.rp + n) } : Block).Ordered ∧
      ({ b with rp := ulong (b.rp + n) } : Block).view = b.view.skip n := by
  have hlen := hb.length_data
  obtain ⟨hbase, hrp, hwp, hlim, htop⟩ := hb
  unfold BLEN at hlen hn
  have hrp' : ulong ((b.rp : ℤ) + n) = b.rp + n := by
    rw [← Nat.cast_add, ulong_natCast_of_lt (by omega)]
  rw [hrp']
  refine ⟨⟨hbase, by dsimp only; omega, by dsimp only; omega, hlim, htop⟩, ?_⟩
  have hdata : ({ b with rp := b.rp + n } : Block).data = b.data.drop n := by
    unfold data
    dsimp only
    rw [List.drop_take, List.drop_drop, show b.rp + n - b.base = b.rp - b.base + n by omega,
      Nat.sub_sub]
  unfold view Qio.Block.skip
  rw [hdata]
  dsimp only
  rw [List.length_take, show b.rp + n - b.base = b.rp - b.base + min n b.data.length by omega]
  rfl

/-- `wp` moves back to the end of the first `n` bytes. -/
theorem ordered_cut (hb : b.Ordered) {n : ℕ} (hn : n ≤ b.BLEN) :
    ({ b with wp := b.rp + n } : Block).Ordered ∧
      ({ b with wp := b.rp + n } : Block).view = b.view.cut n := by
  have hlen := hb.length_data
  obtain ⟨hbase, hrp, hwp, hlim, htop⟩ := hb
  have hbuf : ({ b with wp := b.rp + n } : Block).lim = b.lim := rfl
  unfold BLEN at hlen hn
  refine ⟨⟨hbase, hrp, by dsimp only; omega, by rw [hbuf]; dsimp only; omega, htop⟩, ?_⟩
  have hdata : ({ b with wp := b.rp + n } : Block).data = b.data.take n := by
    unfold data
    dsimp only
    rw [List.take_take, show b.rp + n - b.rp = n by omega, min_eq_left (by omega)]
  unfold view Qio.Block.cut
  rw [hdata, hbuf]
  dsimp only
  rw [List.length_drop, show b.lim - (b.rp + n) = b.lim - b.wp + (b.data.length - n) by omega]

end Block

/-! ### New blocks -/

/-- A new block is in order, is empty and has the room asked for. -/
theorem allocb_spec (m : Pool) {size : ℤ} (h0 : 0 ≤ size) (hlt : size < 2147483648) :
    allocb m size = .error .memory ∨ ∃ b, allocb m size = .ok b ∧ b.Ordered ∧ b.wp = b.rp ∧
      b.wp + size ≤ b.lim := by
  have hreq : ulong (SizeofBlock + size + Hdrspc) = (96 + size).toNat := by
    unfold ulong SizeofBlock Hdrspc
    omega
  unfold allocb
  rw [hreq]
  cases hm : m.malloc (96 + size).toNat with
  | none => exact .inl rfl
  | some r =>
    obtain ⟨b, msize⟩ := r
    obtain ⟨hk, hle, htop⟩ := m.placed hm
    unfold KTZERO at hk
    -- The header, the room for headers and the rounding leave the size asked for.
    obtain ⟨base, hbase⟩ : ∃ base, base = (ROUND (b + SizeofBlock) BLOCKALIGN).toNat := ⟨_, rfl⟩
    obtain ⟨lim, hlim⟩ : ∃ lim, lim = (b + msize) / BLOCKALIGN.toNat * BLOCKALIGN.toNat := ⟨_, rfl⟩
    obtain ⟨rp, hrp⟩ : ∃ rp, rp = ulong (lim - ROUND size BLOCKALIGN) := ⟨_, rfl⟩
    have hbase' : b + 32 ≤ base ∧ base ≤ b + 39 := by
      rw [hbase]
      unfold ROUND BLOCKALIGN SizeofBlock
      omega
    have hlim' : b + msize < lim + 8 ∧ lim ≤ b + msize := by
      rw [hlim, show BLOCKALIGN.toNat = 8 from rfl]
      omega
    have hrp' : (rp : ℤ) + size ≤ lim ∧ (lim : ℤ) ≤ rp + size + 7 := by
      rw [hrp]
      unfold ulong ROUND BLOCKALIGN
      omega
    dsimp only
    rw [← hbase, ← hlim, ← hrp, if_neg (by omega)]
    have hbuf : (⟨base, rp, rp, (List.range' base (lim - base)).map m.byte⟩ : Block).lim = lim := by
      unfold Block.lim
      dsimp only
      rw [List.length_map, List.length_range']
      omega
    refine .inr ⟨_, rfl, ⟨?_, ?_, le_rfl, ?_, ?_⟩, rfl, ?_⟩
    · unfold KTZERO
      dsimp only
      omega
    · dsimp only
      omega
    · rw [hbuf]
      dsimp only
      omega
    · omega
    · rw [hbuf]
      exact hrp'.1

/-- There is no memory for a size that is taken for a large one. -/
theorem allocb_of_large (m : Pool) {size : ℤ}
    (h : 2147483648 ≤ ulong (SizeofBlock + size + Hdrspc)) : allocb m size = .error .memory := by
  unfold allocb
  cases hm : m.malloc (ulong (SizeofBlock + size + Hdrspc)) with
  | none => rfl
  | some r =>
    obtain ⟨hk, hle, htop⟩ := m.placed hm
    unfold KTZERO at hk
    omega

/-- An empty block. -/
theorem data_of_empty (h : b.wp = b.rp) : b.data = [] := by
  unfold Block.data
  rw [h, Nat.sub_self, List.take_zero]

/-! ### Strings -/

/-- Buffers that lie apart in a piece of the memory are not longer than it. -/
theorem sum_length_le (lo hi : ℕ) (hlo : ∀ b ∈ bs, lo ≤ b.base) (hhi : ∀ b ∈ bs, b.lim ≤ hi)
    (hapart : bs.Pairwise fun b c => b.lim ≤ c.base ∨ c.lim ≤ b.base) :
    (bs.map fun b => b.buf.length).sum ≤ hi - lo := by
  -- The addresses in the buffers are as many, since none is in two of them.
  let addresses := fun b : Block => List.range' b.base b.buf.length
  have hnodup : (bs.flatMap addresses).Nodup := by
    rw [List.nodup_flatMap]
    refine ⟨fun b _ => List.nodup_range', hapart.imp fun {b c} h a hb hc => ?_⟩
    rw [List.mem_range'_1] at hb hc
    unfold Block.lim at h
    omega
  have hsub : bs.flatMap addresses ⊆ List.range' lo (hi - lo) := by
    intro a ha
    obtain ⟨b, hb, ha⟩ := List.mem_flatMap.mp ha
    have h1 := hlo b hb
    have h2 := hhi b hb
    unfold Block.lim at h2
    rw [List.mem_range'_1] at ha ⊢
    omega
  have hlen := (hnodup.subperm hsub).length_le
  rw [List.length_flatMap, List.length_range'] at hlen
  simpa only [addresses, List.length_range'] using hlen

/-- The length of a string, as the sum of the data of its blocks. -/
theorem sum_BLEN (h : ∀ b ∈ bs, b.Ordered) : (bs.map Block.BLEN).sum = ((bytes bs).length : ℤ) := by
  induction bs with
  | nil => rfl
  | cons b bs ih =>
    rw [List.forall_mem_cons] at h
    unfold bytes at ih ⊢
    rw [List.map_cons, List.sum_cons, ih h.2, List.flatMap_cons, List.length_append, Nat.cast_add,
      h.1.length_data]

theorem Strung.length_lt (h : Strung bs) : (bytes bs).length < 2147483648 := by
  have hle := sum_length_le KTZERO 4294967295 (fun b hb => (h.ordered b hb).kernel)
    (fun b hb => Nat.le_of_lt_succ (h.ordered b hb).lim_lt) h.apart
  have hdata : (bytes bs).length ≤ (bs.map fun b => b.buf.length).sum := by
    unfold bytes
    rw [List.length_flatMap]
    refine List.sum_le_sum fun b _ => ?_
    unfold Block.data
    rw [List.length_take, List.length_drop]
    omega
  unfold KTZERO at hle
  omega

/-- An `int` counts the bytes of a string. -/
theorem Strung.blocklen_eq (h : Strung bs) : blocklen bs = ((bytes bs).length : ℤ) := by
  have hlt := h.length_lt
  unfold blocklen
  rw [sum_BLEN h.ordered, long_ulong_of_small (by omega) (by omega)]

/-- The bytes of a string are those of the model. -/
theorem bytes_view (bs : List Block) : Qio.bytes (bs.map Block.view) = bytes bs :=
  List.flatMap_map _ _ _

end PlanNine.Qio.Pointers
