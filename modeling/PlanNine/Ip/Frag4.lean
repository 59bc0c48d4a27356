import PlanNine.Lib.Ulong

/-!
# Reassembly of fragments of version 4

`ip4reassemble` of `ip.c` with its queues. A block of a queue keeps the offset and the length of its
fragment in a record at the base of its buffer, beside the header that it came with.

## Main definitions

* `Frag`, `Fragment4`, `IP`: blocks, queues, and what `ip4reassemble` changes.
* `insertFrag`: the place of a fragment in its queue, with the overlaps cut away.
* `complete`, `pullup`: the search for a complete packet, and the packet.
* `ip4reassemble`.
-/

namespace PlanNine.Ip

def IP4HDR : ℕ := 20
def IP_DF : ℕ := 0x4000
def IP_MF : ℕ := 0x2000

/-! ### Headers -/

section

variable (d : List UInt8)

/-- `ih->tos`. -/
def ip4tos : ℕ := (d.getD 1 0).toNat

/-- `nhgets(ih->length)`. -/
def ip4length : ℕ := nhgets (d.drop 2)

/-- `nhgets(ih->id)`. -/
def ip4id : ℕ := nhgets (d.drop 4)

/-- `nhgets(ih->frag)`. -/
def ip4frag : ℕ := nhgets (d.drop 6)

/-- `ih->frag[0] & (IP_MF>>8)`. -/
def ip4mf : ℕ := (d.getD 6 0).toNat &&& (IP_MF >>> 8)

/-- `nhgetl(ih->src)`. -/
def ip4src : ℕ := nhgetl (d.drop 12)

/-- `nhgetl(ih->dst)`. -/
def ip4dst : ℕ := nhgetl (d.drop 16)

/-- `hnputs(ih->length, len)`. -/
def ip4setlength (len : ℕ) : List UInt8 := d.take 2 ++ hnputs len ++ d.drop 4

end

/-! ### Queues -/

/-- A block of a reassembly queue: its `Ipfrag`, and its bytes from the read pointer on, which are
those of a header and of a payload. -/
structure Frag where
  foff : ℕ
  flen : ℕ
  data : List UInt8
  deriving DecidableEq, Repr

/-- A reassembly queue. -/
structure Fragment4 where
  blist : List Frag := []
  src : ℕ
  dst : ℕ
  id : ℕ
  age : ℕ
  deriving DecidableEq, Repr

/-- The queues in use, the first one first, the number of free ones, and the counters. -/
structure IP where
  flisthead4 : List Fragment4 := []
  fragfree4 : ℕ
  reasmTimeout : ℕ := 0
  reasmReqds : ℕ := 0
  reasmOKs : ℕ := 0
  reasmFails : ℕ := 0
  deriving DecidableEq, Repr

def initfrag (size : ℕ) : IP := { fragfree4 := size }

/-- The queue is the one of the fragment. -/
def Fragment4.holds (f : Fragment4) (d : List UInt8) : Bool :=
  f.src = ip4src d && f.dst = ip4dst d && f.id = ip4id d

/-- The search for the queue of a fragment, which frees the queues it passes that are too old: the
queues kept before it, the queue with those behind it, and the number freed. -/
def findFrag (now : ℕ) (d : List UInt8) :
    List Fragment4 → List Fragment4 × Option (Fragment4 × List Fragment4) × ℕ
  | [] => ([], none, 0)
  | f :: fs =>
      if f.holds d then ([], some (f, fs), 0)
      else
        let (before, r, n) := findFrag now d fs
        if f.age < now then (before, r, n + 1) else (f :: before, r, n)

/-- `ipfragallo4(ip)`: a free queue, or the last one in use, becomes the first one. -/
def ipfragallo4 (now : ℕ) (f : Fragment4) (ip : IP) : IP :=
  let f := { f with age := now + 30000 }
  if ip.fragfree4 = 0 then { ip with flisthead4 := f :: ip.flisthead4.dropLast }
  else { ip with flisthead4 := f :: ip.flisthead4, fragfree4 := ip.fragfree4 - 1 }

/-! ### Fragments -/

/-- The block of a fragment with its `Ipfrag`. -/
def mkFrag (offset : ℕ) (d : List UInt8) : Frag where
  foff := (offset <<< 3) % 65536
  flen := (ip4length d + 65536 - IP4HDR) % 65536
  data := d

/-- Cut the first `ovlap` bytes off a block and move its header up. -/
def Frag.moveup (bl : Frag) (ovlap : ℕ) : Frag where
  foff := (bl.foff + ovlap) % 65536
  flen := bl.flen - ovlap
  data := bl.data.take IP4HDR ++ bl.data.drop (IP4HDR + ovlap)

/-- Take out or cut the segments that a fragment which ends at `fend` covers. -/
def coverNext (fend : ℕ) : List Frag → List Frag
  | [] => []
  | bl :: bls =>
      if fend ≤ bl.foff then bl :: bls
      else if fend - bl.foff < bl.flen then bl.moveup (fend - bl.foff) :: bls
      else coverNext fend bls

/-- Put a fragment in its place in a queue; `none` when the fragment before it covers it. -/
def insertFrag (bp : Frag) (blist : List Frag) : Option (List Frag) :=
  let before := blist.takeWhile fun bl => bl.foff < bp.foff
  let after := bp :: coverNext (bp.foff + bp.flen)
    (blist.dropWhile fun bl => bl.foff < bp.foff)
  match before.getLast? with
  | none => some after
  | some prev =>
      let ovlap : ℤ := (prev.foff + prev.flen : ℕ) - bp.foff
      if 0 < ovlap then
        if bp.flen ≤ ovlap then none
        else some (before.dropLast ++ { prev with flen := prev.flen - ovlap.toNat } :: after)
      else some (before ++ after)

/-- The search for a complete packet from the position `pktposn` on. -/
def complete (pktposn : ℕ) : List Frag → Bool
  | [] => false
  | bl :: bls =>
      if bl.foff ≠ pktposn then false
      else if ip4mf bl.data = 0 then true
      else complete (pktposn + bl.flen) bls

/-- The blocks of a complete packet: the first one is as long as its header says. -/
def pullup : List Frag → List (List UInt8)
  | [] => []
  | bl :: bls =>
      let len := ip4length bl.data + (bls.map Frag.flen).sum
      ip4setlength (bl.data.take (ip4length bl.data)) len ::
        bls.map fun bl => (bl.data.drop IP4HDR).take bl.flen

/-- A fragment arrives at the time `now`; `d` are the bytes of its block, and of the blocks behind
it, which `pullupblock` puts into one. The result is the chain of blocks of a packet, if one is
complete. -/
def ip4reassemble (now offset : ℕ) (d : List UInt8) (ip : IP) : IP × Option (List (List UInt8)) :=
  let (before, r, n) := findFrag now d ip.flisthead4
  let ip := { ip with fragfree4 := ip.fragfree4 + n, reasmTimeout := ip.reasmTimeout + n }
  -- not a fragment
  if ip4tos d = 0 ∧ offset &&& (0xffff ^^^ (IP_MF ||| IP_DF)) = 0 then
    match r with
    | none => ({ ip with flisthead4 := before }, some [d])
    | some (_, after) =>
        ({ ip with
            flisthead4 := before ++ after, fragfree4 := ip.fragfree4 + 1
            reasmFails := ip.reasmFails + 1 },
          some [d])
  else
    let bp := mkFrag offset d
    match r with
    | none =>
        let f : Fragment4 :=
          { blist := [bp], src := ip4src d, dst := ip4dst d, id := ip4id d, age := 0 }
        let ip := ipfragallo4 now f { ip with flisthead4 := before }
        ({ ip with reasmReqds := ip.reasmReqds + 1 }, none)
    | some (f, after) =>
        match insertFrag bp f.blist with
        | none => ({ ip with flisthead4 := before ++ f :: after }, none)
        | some blist =>
            if complete 0 blist then
              ({ ip with
                  flisthead4 := before ++ after, fragfree4 := ip.fragfree4 + 1
                  reasmOKs := ip.reasmOKs + 1 },
                some (pullup blist))
            else ({ ip with flisthead4 := before ++ { f with blist := blist } :: after }, none)

end PlanNine.Ip
