import PlanNine.Port.Thwack.Encoder

/-!
# The thwack decoder

`unthwack` rebuilds a packet from its code and the blocks named by its first two bytes, which it
looks up in a window of `DWinBlocks` blocks kept in the order of their sequence numbers. A block
decoded successfully enters the window at its place. `unthwackstate` names the newest blocks held,
in the form that the encoder's `thwackack` takes.

## Main definitions

* `UnthwBlock`, `Unthwack`, `unthwackinit`, `unthwackstate`.
* `unthwackinsert`: insertion in the order of sequence numbers.
* `unthwackLoop`: the decoding loop on the state `Dec`.
* `unthwack`: one call, with the window it leaves and its result.
-/

namespace PlanNine.Thw

def DMaxFastLen : ℕ := 7
def DBigLenCode : ℕ := 0x3c
def DBigLenBits : ℕ := 6
def DBigLenBase : ℕ := 1

/-- The match length by the next five bits: `0` for a literal, `255` for a long length. -/
def lenval : List ℕ :=
  [0, 0, 0, 0, 0, 0, 0, 0, 0, 0, 0, 0, 0, 0, 0, 0, 3, 3, 3, 3, 3, 3, 3, 3, 4, 4, 4, 4, 5, 6, 255,
    255]

def lenbits : List ℕ := [0, 0, 0, 2, 3, 5, 5]

def offbits : List ℕ := [5, 5, 5, 5, 6, 6, 7, 7, 8, 8, 9, 9, 10, 10, 12, 13]

def offbase : List ℕ :=
  [0, 0x20, 0x40, 0x60, 0x80, 0xc0, 0x100, 0x180, 0x200, 0x300, 0x400, 0x600, 0x800, 0xc00, 0x1000,
    0x2000]

structure UnthwBlock where
  seq : ℕ := 0
  /-- valid data in the block -/
  maxoff : ℕ := 0
  data : ℕ := 0
  deriving DecidableEq, Repr

structure Unthwack where
  slot : ℕ
  blocks : ℕ → UnthwBlock
  data : ℕ → UInt8

def unthwackinit : Unthwack where
  slot := 0
  blocks i := { data := i * ThwMaxBlock }
  data _ := 0

/-- `~0UL`. -/
def noSeq : ℕ := 4294967295

def unthwackstateLoop (ut : Unthwack) : ℕ → ℕ → ℕ → ℕ → ℕ × ℕ
  | 0, _, seq, m => (seq, m)
  | fuel + 1, slot, seq, m =>
      let slot := prevSlot DWinBlocks slot
      if slot = ut.slot then (seq, m)
      else if (ut.blocks slot).maxoff = 0 then unthwackstateLoop ut fuel slot seq m
      else
        let bseq := (ut.blocks slot).seq
        if seq = noSeq then unthwackstateLoop ut fuel slot bseq m
        else if MaxSeqMask < ulong ((seq : ℤ) - bseq) then (seq, m)
        else unthwackstateLoop ut fuel slot seq (m ||| 1 <<< (ulong ((seq : ℤ) - bseq) - 1))

/-- The newest block held and a mask of older ones. -/
def unthwackstate (ut : Unthwack) : ℕ × ℕ :=
  let (seq, m) := unthwackstateLoop ut DWinBlocks ut.slot noSeq 0
  (seq, m % 256)

/-- Move the blocks newer than `seq` up by one slot. The loop does not end when every other slot
holds a newer block; `none` stands for that. -/
def insertLoop (seq : ℕ) : ℕ → (ℕ → UnthwBlock) → ℕ → Option ((ℕ → UnthwBlock) × ℕ)
  | 0, _, _ => none
  | fuel + 1, blocks, tslot =>
      let slot := prevSlot DWinBlocks tslot
      if (blocks slot).seq ≤ seq ∨ (blocks slot).maxoff = 0 then some (blocks, tslot)
      else
        let d := (blocks tslot).data
        let blocks := Function.update blocks tslot (blocks slot)
        let blocks := Function.update blocks slot { blocks slot with data := d }
        insertLoop seq fuel blocks slot

/-- Insert this block in its correct sequence number order, replacing the oldest one. -/
def unthwackinsert (ut : Unthwack) (len seq : ℕ) : Option Unthwack :=
  (insertLoop seq DWinBlocks ut.blocks ut.slot).map fun (blocks, tslot) =>
    let blocks := Function.update blocks tslot { blocks tslot with seq := seq, maxoff := len }
    let slot := if DWinBlocks ≤ ut.slot + 1 then 0 else ut.slot + 1
    { ut with
      slot := slot
      blocks := Function.update blocks slot { blocks slot with seq := noSeq, maxoff := 0 } }

/-- The variables of the decoding loop. `src` are the bytes not yet read, `d` the place of the next
byte of output, `maxoff` the field of `blocks[0]`. -/
structure Dec where
  src : List UInt8
  utbits : ℕ := 0
  utnbits : ℕ := 0
  overbits : ℕ := 0
  lithist : ℕ := 4294967295
  d : ℕ
  maxoff : ℕ := 0
  data : ℕ → UInt8

/-- One round of `while(utnbits <= 24)`. -/
def Dec.readByte (e : Dec) : Dec :=
  match e.src with
  | b :: src =>
      { e with
        utbits := (e.utbits <<< 8) % 4294967296 ||| b.toNat, utnbits := e.utnbits + 8, src := src }
  | [] =>
      { e with
        utbits := (e.utbits <<< 8) % 4294967296
        utnbits := e.utnbits + 8, overbits := e.overbits + 8 }

/-- Fill the bit buffer; four rounds are enough. -/
def Dec.refill : ℕ → Dec → Dec
  | 0, e => e
  | fuel + 1, e => if e.utnbits ≤ 24 then Dec.refill fuel e.readByte else e

/-- Drop `n` bits of the buffer. -/
def Dec.drop (e : Dec) (n : ℕ) : Dec := { e with utnbits := e.utnbits - n }

/-- `(utbits >> utnbits) & mask`. -/
def Dec.peek (e : Dec) (mask : ℕ) : ℕ := (e.utbits >>> e.utnbits) &&& mask

/-- The next literal and the state past its code. -/
def Dec.getLit (e : Dec) : ℕ × Dec :=
  if e.lithist &&& 0xf ≠ 0 then
    let e := e.drop 9
    (e.peek 0xff, e)
  else
    let e := e.drop 8
    let lit := e.peek 0x7f
    if lit < 32 then
      if lit < 24 then
        let e := e.drop 2
        ((((lit <<< 2 ||| e.peek 3) % 256 + 256 - 64) &&& 0xff), e)
      else
        let e := e.drop 3
        ((((lit <<< 3 ||| e.peek 7) % 256 + 256 - 64) &&& 0xff), e)
    else (lit, e)

/-- The loop of the long lengths; `none` when the bits run out. -/
def getBigLen : ℕ → Dec → ℕ → ℕ → ℕ → ℕ → Option (ℕ × Dec)
  | 0, _, _, _, _, _ => none
  | fuel + 1, e, len, code, use, bits =>
      if use ≤ code then
        if e.utnbits = 0 then none
        else
          let e := e.drop 1
          getBigLen fuel e (len + use) ((code - use) <<< 1 ||| e.peek 1) (use <<< bits) (bits ^^^ 1)
      else some (len + code, e)

/-- The match length whose table entry is `len`, and the state past its code. -/
def Dec.getLen (e : Dec) (len : ℕ) : Option (ℕ × Dec) :=
  if len < 255 then some (len, e.drop (lenbits.getD len 0))
  else
    let e := e.drop DBigLenBits
    let code := e.peek (1 <<< DBigLenBits - 1) - DBigLenCode
    (getBigLen (e.utnbits + 1) e DMaxFastLen code DBigLenBase ((DBigLenBits &&& 1) ^^^ 1)).map
      fun (len, e) => (len, e.refill 4)

/-- The offset back to a match, and the state past its code. -/
def Dec.getOff (e : Dec) : ℕ × Dec :=
  let e := e.drop 4
  let i := e.peek 0xf
  let bits := offbits.getD i 0
  let e := e.drop bits
  ((offbase.getD i 0 ||| e.peek (1 <<< bits - 1)) + 1, e)

/-- The block of the history that holds the byte `off` back, and the offset from its end.
The flag tells whether it is the current block. -/
def findOff : List UnthwBlock → ℕ → Bool → Option (UnthwBlock × ℕ × Bool)
  | [], _, _ => none
  | b :: bs, off, first =>
      if b.maxoff < off then findOff bs (off - b.maxoff) false else some (b, off, first)

/-- `for(i = 0; i < len; i++) d[i] = s[i]`. -/
def copyBytes : ℕ → (ℕ → UInt8) → ℕ → ℕ → (ℕ → UInt8)
  | 0, data, _, _ => data
  | len + 1, data, d, s => copyBytes len (Function.update data d (data s)) (d + 1) (s + 1)

/-- The decoding loop; `fuel` is at least the number of codes left, and `none` stands for the
result `-1`. The bytes written so far stay in the buffer either way. -/
def unthwackLoop (cur : UnthwBlock) (hist : List UnthwBlock) (dmax : ℕ) : ℕ → Dec → Dec × Bool
  | 0, e => (e, false)
  | fuel + 1, e =>
      if e.src = [] ∧ e.utnbits < e.overbits + MinDecode then (e, true)
      else
        let e := e.refill 4
        let len := lenval.getD ((e.utbits >>> (e.utnbits - 5)) &&& 0x1f) 0
        if len = 0 then
          let (lit, e) := e.getLit
          if dmax ≤ e.d then (e, false)
          else
            unthwackLoop cur hist dmax fuel { e with
              data := Function.update e.data e.d (uchar lit)
              d := e.d + 1
              lithist := pushLit e.lithist lit
              maxoff := e.maxoff + 1 }
        else
          match e.getLen len with
          | none => (e, false)
          | some (len, e) =>
            let (off, e) := e.getOff
            match findOff ({ cur with maxoff := e.maxoff } :: hist) off true with
            | none => (e, false)
            | some (b, off, first) =>
              if dmax < e.d + len ∨ (¬ first ∧ off < len) then (e, false)
              else
                unthwackLoop cur hist dmax fuel { e with
                  data := copyBytes len e.data e.d (b.data + b.maxoff - off)
                  d := e.d + len
                  maxoff := e.maxoff + len }

/-- Set up the history blocks: the ones named by `cseq` and `cmask`, newest first, and whether all
of them are held. -/
def unhistory (ut : Unthwack) (seq : ℕ) :
    ℕ → ℕ → ℕ → ℕ → List UnthwBlock → List UnthwBlock × Bool
  | 0, _, cseq, _, bs => (bs, cseq == seq)
  | fuel + 1, slot, cseq, cmask, bs =>
      if cseq = seq ∨ CompBlocks ≤ bs.length + 1 then (bs, cseq == seq)
      else
        let slot := prevSlot DWinBlocks slot
        if slot = ut.slot then (bs, cseq == seq)
        else if (ut.blocks slot).seq = cseq then
          let bs := bs ++ [ut.blocks slot]
          if cmask = 0 then (bs, true)
          else
            let (cseq, cmask) := nextMask 32 cseq cmask
            unhistory ut seq fuel slot cseq cmask bs
        else unhistory ut seq fuel slot cseq cmask bs

/-- How a call of `unthwack` ends. -/
inductive UnthwResult where
  /-- the length and the bytes of the packet -/
  | done (out : List UInt8)
  /-- the result `-1` -/
  | bad
  /-- the result `-2`: a block named by the packet is not held -/
  | dropped
  /-- the insertion of the block does not end -/
  | stuck
  deriving DecidableEq, Repr

/-- Decompress the packet `src` of sequence number `seq` into a buffer of `ndst` bytes. -/
def unthwack (ut : Unthwack) (ndst : ℕ) (src : List UInt8) (seq : ℕ) : Unthwack × UnthwResult :=
  let nsrc := src.length
  if nsrc < 4 ∨ ThwMaxBlock < nsrc then (ut, .bad)
  else
    let cur := ut.blocks ut.slot
    let cseq := ulong ((seq : ℤ) - (src.getD 0 0).toNat)
    let (hist, held) := unhistory ut seq DWinBlocks ut.slot cseq (src.getD 1 0).toNat []
    if held = false then (ut, .dropped)
    else
      let (e, done) := unthwackLoop cur hist (cur.data + ndst) (8 * nsrc + 1)
        { src := src.drop 2, d := cur.data, maxoff := cur.maxoff, data := ut.data }
      let ut := { ut with data := e.data }
      if done = false ∨ e.utnbits < e.overbits then (ut, .bad)
      else
        let len := e.d - cur.data
        match unthwackinsert ut len seq with
        | none => (ut, .stuck)
        | some ut => (ut, .done ((List.range len).map fun i => e.data (cur.data + i)))

end PlanNine.Thw
