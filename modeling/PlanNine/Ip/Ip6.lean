import PlanNine.Lib.Ulong

/-!
# The internet protocol of version 6

`ipv6.c`: the walk over the extension headers, reassembly, input and output. The bytes of a packet
are those of its first block, those of the blocks behind it, and what lies in memory behind the
first block, where a malformed chain of headers may lead. A walk that leaves this memory has no
result. Fragments arrive in one block.

## Main definitions

* `Blk`: the first block of a packet.
* `unfraglen`: the length of the unfragmentable part, and what it stores.
* `Frag6`, `Fragment6`, `IP6`, `ip6reassemble`: the queues of fragments.
* `procxtns`, `ipoput6`, `ipiput6`: input, output and forwarding.
-/

namespace PlanNine.Ip6

def IP6HDR : ℕ := 40
def IP6FHDR : ℕ := 8
def IPV6HDR_LEN : ℕ := 40
def IP_MAX : ℕ := 32 * 1024
def IP_VER6 : ℕ := 0x60

/-- Header types. -/
def HBH : UInt8 := 0
def RH : UInt8 := 43
def FH : UInt8 := 44
def ICMPv6 : UInt8 := 58

/-! ### Headers -/

/-- The first block of a packet: its bytes, and those behind them in memory. -/
structure Blk where
  data : List UInt8
  behind : List UInt8 := []
  deriving DecidableEq, Repr

def Blk.mem (bp : Blk) : List UInt8 := bp.data ++ bp.behind

/-- The block with other bytes in memory. -/
def Blk.store (bp : Blk) (mem : List UInt8) : Blk :=
  ⟨mem.take bp.data.length, mem.drop bp.data.length⟩

section

variable (d : List UInt8)

/-- `nhgets(h->ploadlen)`. -/
def ploadlen : ℕ := nhgets (d.drop 4)

/-- `h->proto`. -/
def proto : UInt8 := d.getD 6 0

/-- `h->ttl`. -/
def hop : ℕ := (d.getD 7 0).toNat

/-- `h->src`. -/
def src : List UInt8 := (d.drop 8).take 16

/-- `h->dst`. -/
def dst : List UInt8 := (d.drop 24).take 16

/-- `IPV6CLASS(h)`. -/
def IPV6CLASS : ℕ :=
  (((d.getD 0 0).toNat &&& 0x0f) <<< 2) ||| (((d.getD 1 0).toNat &&& 0xf0) >>> 2)

/-- `hnputs(h->ploadlen, len)`. -/
def setploadlen (len : ℕ) : List UInt8 := (d.set 4 (uchar (len >>> 8))).set 5 (uchar len)

/-- `h->ttl = ttl`. -/
def setttl (ttl : ℕ) : List UInt8 := d.set 7 (uchar ttl)

/-- `nhgets(fraghdr->offsetRM)`, of the fragment header at `p`. -/
def offsetRM (p : ℕ) : ℕ := nhgets (d.drop (p + 2))

/-- `nhgetl(fraghdr->id)`. -/
def fragid (p : ℕ) : ℕ := nhgetl (d.drop (p + 4))

/-- `fraghdr->offsetRM[1] & 1`. -/
def more (p : ℕ) : ℕ := (d.getD (p + 3) 0).toNat &&& 1

/-- The loop of `unfraglen` over the extension headers, from the one at `p`, which the field at `q`
says to be of type `nexthdr`: the end of the unfragmentable part, the last field, and its value. -/
def unfragWalk : ℕ → ℕ → ℕ → UInt8 → Option (ℕ × ℕ × UInt8)
  | 0, _, _, _ => none
  | n + 1, p, q, nexthdr =>
    if nexthdr = HBH ∨ nexthdr = RH then
      match d[p]?, d[p + 1]? with
      | some nexthdr, some len => unfragWalk n (p + (len.toNat + 1) * 8) p nexthdr
      | _, _ => none
    else some (p, q, nexthdr)

/-- `unfraglen`: the length, the type of the header behind, and the memory afterwards. The walk ends
before it has taken as many steps as there are bytes. -/
def unfraglen (setfh : Bool) : Option (ℕ × UInt8 × List UInt8) :=
  match unfragWalk d d.length IP6HDR 6 (proto d) with
  | none => none
  | some (ufl, q, nexthdr) =>
    if nexthdr = FH then
      match d[ufl]? with
      | none => none
      | some v => some (ufl, nexthdr, if setfh then (d.set q v).set q FH else d.set q v)
    else some (ufl, nexthdr, if setfh then d.set q FH else d)

end

/-! ### Reassembly -/

/-- A block of a reassembly queue: its `Ipfrag` and its memory. -/
structure Frag6 where
  foff : ℕ
  flen : ℕ
  mem : List UInt8
  deriving DecidableEq, Repr

/-- A reassembly queue. -/
structure Fragment6 where
  blist : List Frag6 := []
  src : List UInt8
  dst : List UInt8
  id : ℕ
  age : ℕ
  deriving DecidableEq, Repr

/-- The queues in use, the first one first, the number of free ones, and the counters. -/
structure IP6 where
  flisthead6 : List Fragment6 := []
  fragfree6 : ℕ
  reasmTimeout : ℕ := 0
  reasmReqds : ℕ := 0
  reasmOKs : ℕ := 0
  reasmFails : ℕ := 0
  deriving DecidableEq, Repr

/-- The queue is the one of the fragment whose header is at `uflen`. -/
def Fragment6.holds (f : Fragment6) (uflen : ℕ) (d : List UInt8) : Bool :=
  f.src = Ip6.src d && f.dst = Ip6.dst d && f.id = fragid d uflen

/-- The search for the queue of a fragment, which frees the queues it passes that are too old: the
queues kept before it, the queue with those behind it, and the number freed. -/
def findFrag6 (now uflen : ℕ) (d : List UInt8) :
    List Fragment6 → List Fragment6 × Option (Fragment6 × List Fragment6) × ℕ
  | [] => ([], none, 0)
  | f :: fs =>
      if f.holds uflen d then ([], some (f, fs), 0)
      else
        let (before, r, n) := findFrag6 now uflen d fs
        if f.age < now then (before, r, n + 1) else (f :: before, r, n)

/-- `ipfragallo6(ip)`: a free queue, or the last one in use, becomes the first one. -/
def ipfragallo6 (now : ℕ) (f : Fragment6) (ip : IP6) : IP6 :=
  let f := { f with age := now + 30000 }
  if ip.fragfree6 = 0 then { ip with flisthead6 := f :: ip.flisthead6.dropLast }
  else { ip with flisthead6 := f :: ip.flisthead6, fragfree6 := ip.fragfree6 - 1 }

/-- The block of a fragment with its `Ipfrag`. -/
def mkFrag6 (uflen : ℕ) (d : List UInt8) : Frag6 where
  foff := offsetRM d uflen &&& (0xffff ^^^ 7)
  flen := (ploadlen d + IP6HDR + 65536 - uflen - IP6FHDR) % 65536
  mem := d

/-- Cut the first `ovlap` bytes off a block: its headers up to the fragment header move up. -/
def Frag6.moveup (uflen : ℕ) (bl : Frag6) (ovlap : ℕ) : Frag6 where
  foff := (bl.foff + ovlap) % 65536
  flen := bl.flen - ovlap
  mem := bl.mem.take uflen ++ bl.mem.drop (uflen + ovlap)

/-- Take out or cut the segments that a fragment which ends at `fend` covers. -/
def coverNext6 (uflen fend : ℕ) : List Frag6 → List Frag6
  | [] => []
  | bl :: bls =>
      if fend ≤ bl.foff then bl :: bls
      else if fend - bl.foff < bl.flen then bl.moveup uflen (fend - bl.foff) :: bls
      else coverNext6 uflen fend bls

/-- Put a fragment in its place in a queue; `none` when the fragment before it covers it. -/
def insertFrag6 (uflen : ℕ) (bp : Frag6) (blist : List Frag6) : Option (List Frag6) :=
  let before := blist.takeWhile fun bl => bl.foff < bp.foff
  let after := bp :: coverNext6 uflen (bp.foff + bp.flen)
    (blist.dropWhile fun bl => bl.foff < bp.foff)
  match before.getLast? with
  | none => some after
  | some prev =>
      let ovlap : ℤ := (prev.foff + prev.flen : ℕ) - bp.foff
      if 0 < ovlap then
        if bp.flen ≤ ovlap then none
        else some (before.dropLast ++ { prev with flen := prev.flen - ovlap.toNat } :: after)
      else some (before ++ after)

/-- The search for a complete packet from the position `pktposn` on. -/
def complete6 (uflen pktposn : ℕ) : List Frag6 → Bool
  | [] => false
  | bl :: bls =>
      if bl.foff ≠ pktposn then false
      else if more bl.mem uflen = 0 then true
      else complete6 uflen (pktposn + bl.flen) bls

/-- The blocks of a complete packet: the fragment header of the first one is taken out, and the
block is as long as its header says. -/
def pullup6 (uflen : ℕ) : List Frag6 → Option (Blk × List (List UInt8))
  | [] => none
  | bl :: bls =>
      let mem := bl.mem.take uflen ++ bl.mem.drop (uflen + IP6FHDR)
      let len := ploadlen mem - IP6FHDR
      let mem' := setploadlen mem (len + (bls.map Frag6.flen).sum)
      some (⟨mem'.take (len + IP6HDR), mem'.drop (len + IP6HDR)⟩,
        bls.map fun bl => (bl.mem.drop (uflen + IP6FHDR)).take bl.flen)

/-- A fragment arrives at the time `now`. The result is the packet, if one is complete. -/
def ip6reassemble (now uflen : ℕ) (bp : Blk) (ip : IP6) :
    IP6 × Option (Blk × List (List UInt8)) :=
  let d := bp.mem
  let (before, r, n) := findFrag6 now uflen d ip.flisthead6
  let ip := { ip with fragfree6 := ip.fragfree6 + n, reasmTimeout := ip.reasmTimeout + n }
  -- the first fragment is also the last
  if offsetRM d uflen = 0 then
    match r with
    | none => ({ ip with flisthead6 := before }, some (bp, []))
    | some (_, after) =>
        ({ ip with
            flisthead6 := before ++ after, fragfree6 := ip.fragfree6 + 1
            reasmFails := ip.reasmFails + 1 },
          some (bp, []))
  else
    let fr := mkFrag6 uflen d
    match r with
    | none =>
        let f : Fragment6 :=
          { blist := [fr], src := src d, dst := dst d, id := fragid d uflen, age := 0 }
        let ip := ipfragallo6 now f { ip with flisthead6 := before }
        ({ ip with reasmReqds := ip.reasmReqds + 1 }, none)
    | some (f, after) =>
        match insertFrag6 uflen fr f.blist with
        | none => ({ ip with flisthead6 := before ++ f :: after }, none)
        | some blist =>
            if complete6 uflen 0 blist then
              ({ ip with
                  flisthead6 := before ++ after, fragfree6 := ip.fragfree6 + 1
                  reasmOKs := ip.reasmOKs + 1 },
                pullup6 uflen blist)
            else ({ ip with flisthead6 := before ++ { f with blist := blist } :: after }, none)

/-- `procxtns`: the packet to go on with, if there is one. A walk out of the memory has no
result. -/
def procxtns (now : ℕ) (ip : IP6) (bp : Blk) (next : List (List UInt8)) (doreasm : Bool) :
    Option (IP6 × Option (Blk × List (List UInt8))) :=
  match unfraglen bp.mem false with
  | none => none
  | some (offset, proto, mem) =>
    let bp := bp.store mem
    if proto = FH ∧ doreasm then
      match ip6reassemble now offset ⟨bp.data ++ next.flatten, bp.behind⟩ ip with
      | (ip, none) => some (ip, none)
      | (ip, some (bp, next)) =>
        (unfraglen bp.mem false).map fun r => (ip, some (bp.store r.2.2, next))
    else some (ip, some (bp, next))

/-! ### Output -/

/-- An interface, with its medium. -/
structure Ipifc where
  maxtu : ℕ
  hsize : ℕ
  reassemble : ℤ := 0
  m : Bool := true
  locked : Bool := false
  deriving DecidableEq, Repr

/-- A route: its address, and what output reads of it. -/
structure Route where
  addr : ℕ
  ifc : Ipifc
  gate : List UInt8
  toIfc : Bool
  toMany : Bool
  uni : Bool
  deriving DecidableEq, Repr

/-- The addresses and the routes of the stack. -/
structure Fs where
  ipforme : List UInt8 → Bool
  iptentative : List UInt8 → Bool
  iprouting : Bool
  v6lookup : List UInt8 → Option Route

/-- What goes to the medium: the interface, the gate and the packets. -/
structure Bwrite where
  ifc : Ipifc
  gate : List UInt8
  pkts : List (List UInt8)
  deriving DecidableEq, Repr

def Ipifc.medialen (ifc : Ipifc) : ℤ := ifc.maxtu - ifc.hsize

/-- The loop of `ipoput6` over the segments of the fragmentable part `data`, of which `flen` bytes
are sent: `hdr` is the unfragmentable part. -/
def fragment6 (hdr : List UInt8) (nexthdr : UInt8) (lid seglen flen : ℕ) :
    ℕ → ℕ → List UInt8 → List (List UInt8)
  | 0, _, _ => []
  | n + 1, fragoff, data =>
    if fragoff < flen then
      let morefrags := if flen ≤ fragoff + seglen then 0 else 1
      let seglen := if flen ≤ fragoff + seglen then flen - fragoff else seglen
      if data.length < seglen then []
      else
        (setploadlen hdr (seglen + IP6FHDR) ++ [nexthdr, 0] ++ hnputs (fragoff ||| morefrags) ++
            hnputl lid ++ data.take seglen) ::
          fragment6 hdr nexthdr lid seglen flen n (fragoff + seglen) (data.drop seglen)
    else []

/-- The interface and the gate of the route `r` for the packet `d`. -/
def Fs.way (fs : Fs) (d : List UInt8) (r : Route) : Ipifc × List UInt8 :=
  if r.toIfc then (r.ifc, dst d)
  else if r.toMany then
    match fs.v6lookup (src d) with
    | some sr => if sr.uni then (sr.ifc, dst d) else (r.ifc, dst d)
    | none => (r.ifc, dst d)
  else (r.ifc, r.gate)

/-- The number of bytes to send of a packet of `blocklen` bytes: a gateway does not send what lies
behind the packet. -/
def sendlen (d : List UInt8) (blocklen : ℕ) (gating : Bool) : ℕ :=
  if gating ∧ ploadlen d + IPV6HDR_LEN < blocklen then ploadlen d + IPV6HDR_LEN else blocklen

/-- The header that output fills out. -/
def fillhdr (d : List UInt8) (gating : Bool) (ttl tos : ℕ) : List UInt8 :=
  setttl (if gating then d
    else (d.set 0 (uchar (IP_VER6 ||| (tos >>> 4)))).set 1 (uchar (tos <<< 4))) ttl

/-- The end of `ipoput6`: send a packet, in fragments when it does not fit. -/
def send6 (lid len : ℕ) (bp : Blk) (next : List (List UInt8)) (gating : Bool) (ifc : Ipifc)
    (gate : List UInt8) : Option Bwrite :=
  if (len : ℤ) ≤ ifc.medialen then
    some ⟨ifc, gate,
      [(bp.store (setploadlen bp.mem (len - IPV6HDR_LEN))).data ++ next.flatten]⟩
  else if gating ∧ ifc.reassemble ≤ 0 then none
  else
    match unfraglen bp.mem true with
    | none => none
    | some (uflen, nexthdr, mem) =>
      let seglen := (ifc.medialen - (uflen + IP6FHDR : ℕ)) / 8 * 8
      if ifc.medialen < uflen ∨ seglen < 8 then none
      else
        some ⟨ifc, gate, fragment6 (mem.take uflen) nexthdr lid seglen.toNat (len - uflen)
          (len - uflen) 0 (((bp.store mem).data ++ next.flatten).drop uflen)⟩

/-- `ipoput6`, with the next value `lid` of the counter for fragments; nothing goes out when the
packet is dropped. -/
def ipoput6 (fs : Fs) (lid : ℕ) (bp : Blk) (next : List (List UInt8)) (gating : Bool)
    (ttl tos : ℕ) : Option Bwrite :=
  let blocklen := bp.data.length + next.flatten.length
  let len := sendlen bp.mem blocklen gating
  if fs.iptentative (src bp.mem) then none
  else if gating ∧ blocklen < ploadlen bp.mem then none
  else if IP_MAX ≤ len then none
  else
    match fs.v6lookup (dst bp.mem) with
    | none => none
    | some r =>
      let ifc := (fs.way bp.mem r).1
      if ifc.locked ∨ ¬ifc.m then none
      else
        send6 lid len (bp.store (fillhdr bp.mem gating ttl tos)) next gating ifc
          (fs.way bp.mem r).2

/-! ### Input -/

/-- `pullupblock`, on the bytes of the blocks. -/
def pullupblock (bp : Blk) (next : List (List UInt8)) (n : ℕ) (behind : List UInt8) :
    Option (Blk × List (List UInt8)) :=
  if n ≤ bp.data.length then some (bp, next)
  else if bp.data.length + next.flatten.length < n then none
  else
    some (⟨bp.data ++ next.flatten.take (n - bp.data.length), behind⟩,
      [next.flatten.drop (n - bp.data.length)])

/-- What becomes of a packet that arrives. -/
inductive Input
  | dropped
  | undefined
  | held
  | received (proto : UInt8) (pkt : List UInt8)
  | forwarded (out : Option Bwrite)
  deriving DecidableEq, Repr

/-- The first block is made to hold the header and up to 64 bytes; `behind` is the memory behind it
when blocks had to be pulled up. -/
def pullheader (bp : Blk) (next : List (List UInt8)) (behind : List UInt8) :
    Option (Blk × List (List UInt8)) :=
  let hl := min (max (bp.data.length + next.flatten.length) IP6HDR) 64
  if bp.data.length < 64 then pullupblock bp next hl behind else some (bp, next)

/-- `ipiput6`. -/
def ipiput6 (fs : Fs) (now lid : ℕ) (ip : IP6) (bp : Blk) (next : List (List UInt8))
    (behind : List UInt8) : IP6 × Input :=
  match pullheader bp next behind with
  | none => (ip, .dropped)
  | some (bp, next) =>
    let notforme := ¬fs.ipforme (dst bp.mem)
    if fs.iptentative (dst bp.mem) ∧ proto bp.mem ≠ ICMPv6 then (ip, .dropped)
    else if (bp.mem.getD 0 0).toNat &&& 0xf0 ≠ IP_VER6 then (ip, .dropped)
    else if notforme then
      match fs.v6lookup (dst bp.mem) with
      | none => (ip, .dropped)
      | some r =>
        if ¬fs.iprouting ∨ fs.v6lookup (src bp.mem) = some r then (ip, .dropped)
        else if hop bp.mem < 1 then (ip, .dropped)
        else
          match procxtns now ip bp next (r.ifc.reassemble ≠ 0) with
          | none => (ip, .undefined)
          | some (ip, none) => (ip, .held)
          | some (ip, some (bp, next)) =>
            let tos := IPV6CLASS bp.mem
            (ip, .forwarded (ipoput6 fs lid bp next true (hop bp.mem - 1) tos))
    else
      match procxtns now ip bp next true with
      | none => (ip, .undefined)
      | some (ip, none) => (ip, .held)
      | some (ip, some (bp, next)) =>
        (ip, .received (proto bp.mem) (bp.data ++ next.flatten))

end PlanNine.Ip6
