import PlanNine.Lib.Ulong

/-!
# The thwack encoder

`thwack` compresses one packet by LZ77 over a window of earlier packets. The window is a ring of
`EWinBlocks` blocks; a block may be used once `thwackack` has marked it, that is, once the decoder
is known to hold it. The compressed packet starts with two bytes naming the blocks used, the
distance to the newest one and a mask of older ones, and goes on with literals and matches packed
into bits.

Pointers into `tw->data` and `tw->hash` are offsets into the flat arrays `Thwack.data` and
`Thwack.hash`, so a read past the end of one block meets the next one, as in the source.

## Main definitions

* `ThwBlock`, `Thwack`, `thwackinit`, `thwackack`.
* `thwmatch`: the search of the dictionary.
* `thwackLoop`: the coding loop on the state `Enc`.
* `thwack`: one call, with the window it leaves and the packet, or `none` for the result `-1`.
-/

namespace PlanNine.Thw

def ThwMaxBlock : ℕ := 1600
def HashLog : ℕ := 12
def HashSize : ℕ := 1 <<< HashLog
def HashMask : ℕ := HashSize - 1
def MinMatch : ℕ := 3
def MaxOff : ℕ := 8
def OffBase : ℕ := 6
def MinDecode : ℕ := 8
def EWinBlocks : ℕ := 22
def DWinBlocks : ℕ := 32
def CompBlocks : ℕ := 10
def MaxSeqMask : ℕ := 8
def MaxSeqStart : ℕ := 256

def MaxFastLen : ℕ := 9
def BigLenCode : ℕ := 0x1f4
def BigLenBits : ℕ := 9
def BigLenBase : ℕ := 4

/-- The codes of the short match lengths: the number of bits and the code. -/
def lentab : List (ℕ × ℕ) :=
  [(2, 0x2), (3, 0x6), (5, 0x1c), (5, 0x1d), (6, 0x3c), (7, 0x7a), (7, 0x7b), (8, 0xf8), (8, 0xf9)]

/-- The statistics kept by `thwack`. -/
structure ThwStats where
  StatBytes : ℕ := 0
  StatOutBytes : ℕ := 0
  StatLits : ℕ := 0
  StatMatches : ℕ := 0
  StatOffBits : ℕ := 0
  StatLenBits : ℕ := 0
  StatDelay : ℕ := 0
  StatHist : ℕ := 0
  deriving DecidableEq, Repr

structure ThwBlock where
  seq : ℕ := 0
  acked : Bool := false
  /-- time of first byte in hash -/
  begin : ℕ := 0
  edata : ℕ := 0
  maxoff : ℕ := 0
  hash : ℕ := 0
  data : ℕ := 0
  deriving DecidableEq, Repr

structure Thwack where
  slot : ℕ
  blocks : ℕ → ThwBlock
  hash : ℕ → ℕ
  data : ℕ → UInt8

def thwackinit : Thwack where
  slot := 0
  blocks i := { data := i * ThwMaxBlock, edata := i * ThwMaxBlock, hash := i * HashSize }
  hash _ := 0
  data _ := 0

/-- `slot--; if(slot < 0) slot += n`. -/
def prevSlot (n slot : ℕ) : ℕ := if slot = 0 then n - 1 else slot - 1

/-- The sequence number and the mask after the next set bit of the mask,
`do{ b = mask & 1; seq--; mask >>= 1; }while(!b)`; `fuel` bounds the number of bits. -/
def nextMask : ℕ → ℕ → ℕ → ℕ × ℕ
  | 0, seq, mask => (seq, mask)
  | fuel + 1, seq, mask =>
      let seq' := ulong (seq - 1)
      if mask.testBit 0 then (seq', mask >>> 1) else nextMask fuel seq' (mask >>> 1)

/-- The loop of `thwackack` over the slots older than `slot`. -/
def thwackackLoop (tw : Thwack) : ℕ → ℕ → ℕ → ℕ → Thwack
  | 0, _, _, _ => tw
  | fuel + 1, slot, seq, mask =>
      let slot := prevSlot EWinBlocks slot
      if slot = tw.slot then tw
      else if (tw.blocks slot).seq ≠ seq then thwackackLoop tw fuel slot seq mask
      else
        let tw := { tw with
          blocks := Function.update tw.blocks slot { tw.blocks slot with acked := true } }
        if mask = 0 then tw
        else
          let (seq, mask) := nextMask 32 seq mask
          thwackackLoop tw fuel slot seq mask

/-- Acknowledgement for block `seq` and nearby preds. -/
def thwackack (tw : Thwack) (seq mask : ℕ) : Thwack :=
  thwackackLoop tw EWinBlocks tw.slot seq mask

/-- The number of equal bytes at `s` and `t`, at most `n`. -/
def matchLen (data : ℕ → UInt8) : ℕ → ℕ → ℕ → ℕ
  | _, _, 0 => 0
  | s, t, n + 1 => if data s = data t then matchLen data (s + 1) (t + 1) n + 1 else 0

/-- Find a string in the dictionary: the offset back to it and the end of the match. An offset of
`0` means that there is none. -/
def thwmatchLoop (hash : ℕ → ℕ) (data : ℕ → UInt8) (s esrc h : ℕ) : List ThwBlock → ℕ → ℕ × ℕ
  | [], _ => (0, s)
  | b :: bs, toff =>
      let «then» := hash (b.hash + ((h ^^^ b.seq) &&& HashMask))
      let toff := toff + b.maxoff
      let w := («then» + 65536 - b.begin) % 65536
      if b.maxoff ≤ w then thwmatchLoop hash data s esrc h bs toff
      else
        let t := w + b.data
        if data s ≠ data t ∨ data (s + 1) ≠ data (t + 1) ∨ data (s + 2) ≠ data (t + 2) then
          thwmatchLoop hash data s esrc h bs toff
        else
          let ok := b.edata - t
          let esrc := if esrc - s > ok then s + ok else esrc
          (toff - w, s + 3 + matchLen data (s + 3) (t + 3) (esrc - (s + 3)))

def thwmatch (hash : ℕ → ℕ) (data : ℕ → UInt8) (blocks : List ThwBlock) (s esrc h : ℕ) : ℕ × ℕ :=
  if esrc < s + MinMatch then (0, s) else thwmatchLoop hash data s esrc h blocks 0

/-- Knuth's multiplicative hash of three bytes. -/
def hashit (c : ℕ) : ℕ := ((c &&& 0xffffff) * 0x6b43a9b5 % 4294967296) >>> (32 - HashLog)

/-- The variables of the coding loop. `cur` is `blocks[0]`, `dst` the bytes written so far. -/
structure Enc where
  s : ℕ
  cont : ℕ
  now : ℕ
  half : ℕ
  cur : ThwBlock
  hash : ℕ → ℕ
  twbits : ℕ := 0
  twnbits : ℕ := 0
  lithist : ℕ := 4294967295
  lits : ℕ := 0
  «matches» : ℕ := 0
  offbits : ℕ := 0
  lenbits : ℕ := 0
  dst : List UInt8

/-- `twbits = (twbits << n) | v; twnbits += n`. -/
def Enc.put (e : Enc) (n v : ℕ) : Enc :=
  { e with twbits := (e.twbits <<< n ||| v) % 4294967296, twnbits := e.twnbits + n }

/-- Write the whole bytes of the bit buffer, failing at `twdmax`. -/
def flushBits (twdmax twbits : ℕ) (dst : List UInt8) : ℕ → Option (List UInt8 × ℕ)
  | n + 8 =>
      if twdmax ≤ dst.length then none
      else flushBits twdmax twbits (dst ++ [uchar (twbits >>> n)]) n
  | n => some (dst, n)

def Enc.flush (twdmax : ℕ) (e : Enc) : Option Enc :=
  (flushBits twdmax e.twbits e.dst e.twnbits).map fun (dst, n) =>
    { e with dst := dst, twnbits := n }

/-- `lithist = (lithist << 1) | (toff < 32) | (toff > 127)`. -/
def pushLit (lithist toff : ℕ) : ℕ :=
  (lithist <<< 1 ||| (decide (toff < 32)).toNat ||| (decide (127 < toff)).toNat) % 4294967296

/-- The code of a literal under the history `lithist`, which already holds the literal itself. -/
def Enc.putLit (e : Enc) (toff : ℕ) : Enc :=
  if e.lithist &&& 0x1e ≠ 0 then e.put 9 toff
  else if e.lithist &&& 1 ≠ 0 then
    let toff := (toff + 64) &&& 0xff
    if toff < 96 then e.put 10 toff else e.put 11 toff
  else e.put 8 toff

/-- Enter the string at `s` into the hash table and move on by one byte. -/
def Enc.step (data : ℕ → UInt8) (esrc : ℕ) (e : Enc) (h : ℕ) : Enc :=
  let e :=
    if e.s + MinMatch ≤ esrc then
      { e with
        hash := Function.update e.hash (e.cur.hash + ((h ^^^ e.cur.seq) &&& HashMask))
          (e.now % 65536)
        cont := if e.s + MinMatch < esrc then
          (e.cont <<< 8 ||| (data (e.s + MinMatch)).toNat) % 4294967296 else e.cont }
    else e
  { e with now := e.now + 1, s := e.s + 1 }

/-- `for(; s != ss; s++)` over the bytes of a match. -/
def Enc.steps (data : ℕ → UInt8) (esrc : ℕ) : ℕ → Enc → Enc
  | 0, e => e
  | n + 1, e => Enc.steps data esrc n (e.step data esrc (hashit e.cont))

/-- The loop over the growing ranges of long match lengths. -/
def bigLen : ℕ → ℕ → ℕ → ℕ → ℕ → ℕ × ℕ × ℕ
  | 0, len, _, code, bits => (len, code, bits)
  | fuel + 1, len, use, code, bits =>
      if use ≤ len then
        bigLen fuel (len - use) (use <<< ((bits &&& 1) ^^^ 1)) ((code + use) <<< 1) (bits + 1)
      else (len, code, bits)

/-- The code of a match length; `len` counts from `MinMatch`. -/
def Enc.putLen (twdmax : ℕ) (e : Enc) (len : ℕ) : Option Enc :=
  if len < MaxFastLen then
    let (bits, code) := lentab.getD len (0, 0)
    some { e.put bits code with lenbits := e.lenbits + bits }
  else
    let (len, code, bits) := bigLen len (len - MaxFastLen) BigLenBase BigLenCode BigLenBits
    ({ e.put bits (code + len) with lenbits := e.lenbits + bits } : Enc).flush twdmax

/-- `for(bits = OffBase; toff >= (1 << bits); bits++)`. -/
def offClass (toff : ℕ) : ℕ → ℕ → ℕ
  | 0, bits => bits
  | fuel + 1, bits => if 1 <<< bits ≤ toff then offClass toff fuel (bits + 1) else bits

/-- The code of an offset in history. -/
def Enc.putOff (e : Enc) (toff : ℕ) : Enc :=
  let bits := offClass toff toff OffBase
  if bits < MaxOff + OffBase - 1 then
    let e := e.put 3 (bits - OffBase)
    let bits := if bits ≠ OffBase then bits - 1 else bits
    { e.put bits (toff &&& (1 <<< bits - 1)) with offbits := e.offbits + bits + 3 }
  else
    let e := e.put 4 (0xe ||| (bits - (MaxOff + OffBase - 1)))
    let bits := bits - 1
    { e.put bits (toff &&& (1 <<< bits - 1)) with offbits := e.offbits + bits + 4 }

/-- The coding loop; `fuel` is at least the number of bytes left. The flag tells whether the loop
reached the end of the source. -/
def thwackLoop (data : ℕ → UInt8) (hist : List ThwBlock) (esrc twdmax : ℕ) : ℕ → Enc → Enc × Bool
  | 0, e => (e, e.s == esrc)
  | fuel + 1, e =>
      if esrc ≤ e.s then (e, true)
      else
        let h := hashit e.cont
        let (toff, ss) := thwmatch e.hash data (e.cur :: hist) e.s esrc h
        let len := ss - e.s
        match e.flush twdmax with
        | none => (e, false)
        | some e =>
          if len < MinMatch then
            let toff := (data e.s).toNat
            let e := { e with lithist := pushLit e.lithist toff }.putLit toff
            let e := { e with
              lits := e.lits + 1
              cur := { e.cur with maxoff := e.cur.maxoff + 1 } }
            if e.half < e.s ∧ 4 * e.cur.maxoff < 5 * e.lits then (e, false)
            else
              let e := if e.half < e.s then { e with half := esrc } else e
              thwackLoop data hist esrc twdmax fuel (e.step data esrc h)
          else
            let e := { e with
              cur := { e.cur with maxoff := e.cur.maxoff + len }
              «matches» := e.«matches» + 1 }
            match e.putLen twdmax (len - MinMatch) with
            | none => (e, false)
            | some e =>
              thwackLoop data hist esrc twdmax fuel ((e.putOff (toff - 1)).steps data esrc len)

/-- Set up the history blocks: `cseq`, `cmask` and the blocks, newest first. -/
def history (tw : Thwack) (seq : ℕ) :
    ℕ → ℕ → ℕ → ℕ → List ThwBlock → ℕ × ℕ × List ThwBlock
  | 0, _, cseq, cmask, bs => (cseq, cmask, bs)
  | fuel + 1, slot, cseq, cmask, bs =>
      if CompBlocks ≤ bs.length + 1 then (cseq, cmask, bs)
      else
        let slot := prevSlot EWinBlocks slot
        if slot = tw.slot then (cseq, cmask, bs)
        else
          let b := tw.blocks slot
          if ¬ b.acked then history tw seq fuel slot cseq cmask bs
          else if cseq = seq then
            if MaxSeqStart ≤ ulong ((seq : ℤ) - b.seq) then (cseq, cmask, bs)
            else history tw seq fuel slot b.seq cmask (bs ++ [b])
          else if MaxSeqMask < ulong ((cseq : ℤ) - b.seq) then (cseq, cmask, bs)
          else history tw seq fuel slot cseq
            (cmask ||| 1 <<< (ulong ((cseq : ℤ) - b.seq) - 1)) (bs ++ [b])

/-- `memmove(d, src, n)` into a flat array. -/
def memmove (data : ℕ → UInt8) (d : ℕ) (src : List UInt8) : ℕ → UInt8 :=
  fun i => if d ≤ i ∧ i < d + src.length then src.getD (i - d) 0 else data i

/-- Pad the last byte and write it. -/
def Enc.finish (twdmax : ℕ) (e : Enc) : Option Enc :=
  (if e.twnbits % 8 ≠ 0 then e.put (8 - e.twnbits % 8) 0 else e).flush twdmax

/-- Add source to the coding window. -/
def addSource (tw : Thwack) (src : List UInt8) (seq : ℕ) : Thwack :=
  let b := tw.blocks tw.slot
  { tw with
    data := memmove tw.data b.data src
    blocks := Function.update tw.blocks tw.slot
      { b with
        seq := seq
        acked := false
        edata := b.data + src.length
        begin := (b.begin + b.maxoff) % 65536
        maxoff := src.length } }

/-- The variables of `thwack` before its coding loop. -/
def encInit (tw : Thwack) (now : ℕ) (hdr : List UInt8) : Enc :=
  let b := tw.blocks tw.slot
  { s := b.data
    cont := (tw.data b.data).toNat <<< 16 ||| (tw.data (b.data + 1)).toNat <<< 8 |||
      (tw.data (b.data + 2)).toNat
    now := now
    half := b.data + b.maxoff >>> 1
    cur := { b with maxoff := 0 }
    hash := tw.hash
    dst := hdr }

/-- The statistics after a packet coded by the run `e` with the history `hist`. -/
def ThwStats.add (st : ThwStats) (e : Enc) (hist : List ThwBlock) : ThwStats where
  StatBytes := (st.StatBytes + e.cur.maxoff) % 4294967296
  StatLits := (st.StatLits + e.lits) % 4294967296
  StatMatches := (st.StatMatches + e.matches) % 4294967296
  StatOffBits := (st.StatOffBits + e.offbits) % 4294967296
  StatLenBits := (st.StatLenBits + e.lenbits) % 4294967296
  StatDelay := (st.StatDelay * 7 % 4294967296 / 8 + (e.dst.getD 0 0).toNat) % 4294967296
  StatHist := (st.StatHist * 7 % 4294967296 / 8 + (hist.map (·.maxoff)).sum) % 4294967296
  StatOutBytes := (st.StatOutBytes + e.dst.length) % 4294967296

/-- LZ77 compression with a single lookup in a hash table for each block. -/
def thwack (tw : Thwack) (src : List UInt8) (seq : ℕ) (stats : ThwStats) :
    Thwack × Option (List UInt8) × ThwStats :=
  let n := src.length
  if ThwMaxBlock < n ∨ n < MinMatch then (tw, none, stats)
  else
    let now := (tw.blocks tw.slot).begin + (tw.blocks tw.slot).maxoff
    let tw := addSource tw src seq
    let (cseq, cmask, hist) := history tw seq EWinBlocks tw.slot seq 0 []
    let s := (tw.blocks tw.slot).data
    let (e, done) := thwackLoop tw.data hist (s + n) n n
      (encInit tw now [uchar (ulong ((seq : ℤ) - cseq)), uchar cmask])
    let tw := { tw with hash := e.hash }
    if done = false then (tw, none, stats)
    else
      match e.finish n with
      | none => (tw, none, stats)
      | some e =>
          ({ tw with slot := if EWinBlocks ≤ tw.slot + 1 then 0 else tw.slot + 1 },
            some e.dst, stats.add e hist)

end PlanNine.Thw
