import PlanNine.Lib.Ulong
import PlanNine.Port.Qio.Queue

/-!
# Reading replies from a file server

`mntrpcread` of `devmnt.c` reads one 9P message from the channel to a server: it collects blocks in
the input queue of the mount until the message is complete, decodes its header and hangs its data
on the request.

The decoder `convM2S` is not part of the repository. It is a parameter that says what it decodes
and how many bytes it looks at.

## Main definitions

* `ConvM2S`: what is known of the decoder.
* `doread`: collect blocks until there are enough bytes.
* `hang`: the loop that takes the data of the message off the queue.
* `mntrpcread`: read one message.
-/

namespace PlanNine.Mnt

open Qio

def BIT8SZ : ℕ := 1
def BIT16SZ : ℕ := 2
def BIT32SZ : ℕ := 4

/-- The type of a reply to `Tread`. -/
def Rread : ℕ := 117

/-- The length of the header of an `Rread`. -/
def RreadHdr : ℕ := BIT32SZ + BIT8SZ + BIT16SZ + BIT32SZ

/-- `GBIT32(p)`, an `int`. -/
def GBIT32 (p : List UInt8) : ℤ :=
  long ((p.getD 0 0).toNat ||| (p.getD 1 0).toNat <<< 8 ||| (p.getD 2 0).toNat <<< 16 |||
    (p.getD 3 0).toNat <<< 24)

/-- The type of the message at `p`. -/
def mtype (p : List UInt8) : ℕ := (p.getD BIT32SZ 0).toNat

/-- The decoder `convM2S(ap, nap, f)`: the reply, if there is one, and the number of bytes from
`ap` on that it looks at, which decide the reply and how far it looks. It stays within the length
that it is given, and of an `Rread` it looks at the header only. It rejects lengths that cannot
hold a header. -/
structure ConvM2S (Fcall : Type) where
  decode : List UInt8 → ℕ → Option Fcall
  extent : List UInt8 → ℕ → ℕ
  extent_le : ∀ ap nap, extent ap nap ≤ nap
  extent_Rread : ∀ ap nap, mtype ap = Rread → extent ap nap ≤ RreadHdr
  agree : ∀ ap ap' nap, ap.take (extent ap nap) = ap'.take (extent ap nap) →
    decode ap' nap = decode ap nap ∧ extent ap' nap = extent ap nap
  decode_short : ∀ ap nap, nap < BIT32SZ + BIT8SZ + BIT16SZ → decode ap nap = none
  decode_Rread : ∀ ap nap, mtype ap = Rread → nap < RreadHdr → decode ap nap = none

/-- `doread(m, len)`, with the blocks that `bread` returns, after which it returns nil. The flag
tells whether there are enough bytes; the blocks not read yet are left. -/
def doread (len : ℤ) : List Block → Queue → Bool × Queue × List Block
  | [], q => (!(decide (q.dlen < len)), q, [])
  | b :: chan, q =>
      if q.dlen < len then
        if b.BLEN = 0 then (false, q, chan) else doread len chan (qaddlist q b [])
      else (true, q, b :: chan)

/-- How a call of `mntrpcread` ends. -/
inductive Rpcread (Fcall : Type) where
  /-- a reference through nil, or outside of the bytes held -/
  | fault
  /-- `-1` -/
  | fail
  /-- the reply, and the blocks hung on it -/
  | done (reply : Fcall) (b : List Block)

/-- The rest of the loop that hangs `len` bytes on the reply, over the blocks from `bfirst` on. -/
def hangLoop (m : Mem) : List Block → ℤ → Queue → Option (List Block × Queue)
  | [], _, _ => none
  | b :: bs, len, q =>
      let q := q.pop b bs
      if (b.BLEN : ℤ) ≤ len then
        if 0 < len - b.BLEN then
          (hangLoop m bs (len - b.BLEN) q).map fun r => (b :: r.1, r.2)
        else some ([b], q)
      else if len < 0 then none
      else
        -- split block and put unused bit back
        let n := len.toNat
        some ([b.cut n], qputback q ((allocb m (b.BLEN - n)).put (b.data.drop n)))

/-- The loop that hangs the data on the reply: its first round skips the header. -/
def hang (m : Mem) (hlen len : ℤ) (q : Queue) : Option (List Block × Queue) :=
  match q.bfirst with
  | [] => none
  | b :: bs =>
      if 0 < hlen then
        let b' := b.skip hlen.toNat
        hangLoop m (b' :: bs) (len - hlen)
          { q with bfirst := b' :: bs, dlen := q.dlen - (b.BLEN - b'.BLEN : ℕ) }
      else hangLoop m q.bfirst len q

variable {Fcall : Type}

/-- `mntrpcread` from the decoder on, for the message of `len` bytes in the queue with the header
pulled up into the block `nb`. -/
def mntrpcDecode (C : ConvM2S Fcall) (m : Mem) (len hlen : ℤ) (q : Queue) (nb : Block) :
    Rpcread Fcall × Queue :=
  if nb.BLEN < C.extent nb.data (ulong len) then (.fault, q)
  else
    match C.decode nb.data (ulong len) with
    | none =>
        -- bad message, dump it
        (.fail, (qdiscard q len.toNat).2.1)
    | some reply =>
        match hang m hlen len q with
        | none => (.fault, q)
        | some (b, q) => (.done reply b, q)

/-- The length of the header of a message of `len` bytes and of the type `t`. -/
def hdrlen (t : ℕ) (len : ℤ) : ℤ := if t = Rread then RreadHdr else len

/-- Make sure that the first block has `n` bytes; the queue and the block, if there is one. -/
def pullup (q : Queue) (m : Mem) (n : ℤ) : Option (Queue × Block) :=
  match pullupqueue q m n.toNat with
  | none => none
  | some q => q.bfirst.head?.map fun nb => (q, nb)

/-- `mntrpcread` with the whole message of `len` bytes and of the type `t` in the queue: pull up the
header (i.e. everything except data). -/
def mntrpcHeader (C : ConvM2S Fcall) (m₁ m₂ : Mem) (len : ℤ) (t : ℕ) (chan : List Block)
    (q : Queue) : Rpcread Fcall × Queue × List Block :=
  match pullup q m₁ (hdrlen t len) with
  | none => (.fault, q, chan)
  | some (q, nb) =>
      let r := mntrpcDecode C m₂ len (hdrlen t len) q nb
      (r.1, r.2, chan)

/-- `mntrpcread` with the length, type, and tag in the block `nb`: read in the rest of the
message, avoid rediculous (for now) message sizes. -/
def mntrpcBody (C : ConvM2S Fcall) (msize : ℤ) (m₁ m₂ : Mem) (chan : List Block) (q : Queue)
    (nb : Block) : Rpcread Fcall × Queue × List Block :=
  let len := GBIT32 nb.data
  if msize < len then (.fail, (qdiscard q q.dlen.toNat).2.1, chan)
  else
    match doread len chan q with
    | (false, q, chan) => (.fail, q, chan)
    | (true, q, chan) => mntrpcHeader C m₁ m₂ len (mtype nb.data) chan q

/-- `mntrpcread(m, r)` for a mount with the message size `msize`, the blocks that the channel
returns and what the allocator gives out; the blocks not read are left. -/
def mntrpcread (C : ConvM2S Fcall) (msize : ℤ) (m₀ m₁ m₂ : Mem) (chan : List Block) (q : Queue) :
    Rpcread Fcall × Queue × List Block :=
  -- read at least length, type, and tag and pullup to a single block
  match doread (BIT32SZ + BIT8SZ + BIT16SZ : ℕ) chan q with
  | (false, q, chan) => (.fail, q, chan)
  | (true, q, chan) =>
      match pullup q m₀ (BIT32SZ + BIT8SZ + BIT16SZ : ℕ) with
      | none => (.fault, q, chan)
      | some (q, nb) => mntrpcBody C msize m₁ m₂ chan q nb

end PlanNine.Mnt
