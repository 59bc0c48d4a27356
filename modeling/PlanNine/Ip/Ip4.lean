import PlanNine.Ip.Frag4
import PlanNine.Ip.Ip6

/-!
# The internet protocol of version 4

`ipoput4` and `ipiput4` of `ip.c`. The bytes of a packet are those of all its blocks; its header
lies in the first one. A route that output looks up is one that the stack answers for an address.

## Main definitions

* `ipcsum`: the checksum of a header.
* `fragment4`, `ipoput4`: output, in fragments when a packet does not fit.
* `ipiput4`: input and forwarding.
-/

namespace PlanNine.Ip

open Ip6 (Bwrite Input)

def IP_VER4 : ℕ := 0x40
def IP_HLEN4 : ℕ := 0x05
def IP_MAX : ℕ := 64 * 1024

/-! ### Headers -/

/-- `hnputs` at the place `i` of a header. -/
def putshort (d : List UInt8) (i v : ℕ) : List UInt8 := d.take i ++ hnputs v ++ d.drop (i + 2)

section

variable (d : List UInt8)

/-- `eh->vihl`. -/
def ip4vihl : ℕ := (d.getD 0 0).toNat

/-- `eh->ttl`. -/
def ip4ttl : ℕ := (d.getD 8 0).toNat

/-- `eh->proto`. -/
def ip4proto : UInt8 := d.getD 9 0

def ip4setid (id : ℕ) : List UInt8 := putshort d 4 id
def ip4setfrag (frag : ℕ) : List UInt8 := putshort d 6 frag
def ip4setcksum (sum : ℕ) : List UInt8 := putshort d 10 sum
def ip4settos (tos : ℕ) : List UInt8 := d.set 1 (uchar tos)
def ip4setttl (ttl : ℕ) : List UInt8 := d.set 8 (uchar ttl)

/-- The sum of the first `n` words. -/
def sumwords : ℕ → List UInt8 → ℕ
  | 0, _ => 0
  | n + 1, d => nhgets d + sumwords n (d.drop 2)

/-- `ipcsum`. -/
def ipcsum : ℕ :=
  let len := (ip4vihl d &&& 0xf) <<< 2
  let sum := sumwords (len / 2) d
  let sum := (sum &&& 0xffff) + (sum >>> 16)
  let sum := (sum &&& 0xffff) + (sum >>> 16)
  (sum ^^^ 0xffff) % 65536

/-- The checksum is cleared and computed. -/
def fillcksum : List UInt8 := ip4setcksum (ip4setcksum d 0) (ipcsum (ip4setcksum d 0))

end

/-! ### Output -/

/-- An interface: the address of its record, and the rest. -/
structure Ipifc extends Ip6.Ipifc where
  addr : ℕ
  deriving DecidableEq, Repr

/-- What output reads of a route. -/
structure Route where
  ifc : Ipifc
  gate : List UInt8
  toIfc : Bool
  toMany : Bool
  uni : Bool
  deriving DecidableEq, Repr

/-- The addresses and the routes of the stack. -/
structure Fs where
  ipforme : List UInt8 → Bool
  iprouting : Bool
  v4lookup : List UInt8 → Option Route

/-- The interface and the gate of the route `r` for the packet `d`. -/
def Fs.way (fs : Fs) (d : List UInt8) (r : Route) : Ipifc × List UInt8 :=
  if r.toIfc then (r.ifc, (d.drop 16).take 4)
  else if r.toMany then
    match fs.v4lookup ((d.drop 12).take 4) with
    | some sr => if sr.uni then (sr.ifc, (d.drop 16).take 4) else (r.ifc, (d.drop 16).take 4)
    | none => (r.ifc, (d.drop 16).take 4)
  else (r.ifc, r.gate)

/-- The header of a fragment but for its checksum, made from the one of the packet. -/
def fraghdr (eh : List UInt8) (frag len lid : ℕ) : List UInt8 :=
  ip4setid (ip4setlength (ip4setfrag (eh.take IP4HDR) frag) len) lid

/-- The loop of `ipoput4` over the segments of the payload `data`. The checksum is that of as many
bytes as the header says; what lies behind a shorter fragment counts as zero. -/
def fragment4 (eh : List UInt8) (lid seglen dlen : ℕ) :
    ℕ → ℕ → List UInt8 → List (List UInt8)
  | 0, _, _ => []
  | n + 1, fragoff, data =>
    if fragoff < dlen then
      let frag := if dlen ≤ fragoff + seglen then fragoff >>> 3 else (fragoff >>> 3) ||| IP_MF
      let seglen := if dlen ≤ fragoff + seglen then dlen - fragoff else seglen
      if data.length < seglen then []
      else
        fillcksum (fraghdr eh frag (seglen + IP4HDR) lid ++ data.take seglen) ::
          fragment4 eh lid seglen dlen n (fragoff + seglen) (data.drop seglen)
    else []

/-- The header that output fills out. -/
def fillhdr (d : List UInt8) (gating : Bool) (ttl tos : ℕ) : List UInt8 :=
  if gating then ip4setttl d ttl
  else ip4settos (ip4setttl (d.set 0 (uchar (IP_VER4 ||| IP_HLEN4))) ttl) tos

/-- The end of `ipoput4`: send a packet of which `len` bytes count, in fragments when it does not
fit. -/
def send4 (id4 len : ℕ) (d : List UInt8) (gating : Bool) (ifc : Ipifc) (gate : List UInt8) :
    Option Bwrite :=
  if (len : ℤ) ≤ ifc.medialen then
    some ⟨ifc.toIpifc, gate,
      [fillcksum (if gating then ip4setlength d len
        else ip4setfrag (ip4setlength (ip4setid d id4) len) 0)]⟩
  else if (d.getD 6 0).toNat &&& (IP_DF >>> 8) ≠ 0 then none
  else
    let seglen := (ifc.medialen - IP4HDR) / 8 * 8
    if seglen < 8 then none
    else
      let lid := if gating then ip4id d else id4
      let fragoff := if gating then ip4frag d <<< 3 else 0
      some ⟨ifc.toIpifc, gate,
        fragment4 d lid seglen.toNat (len - IP4HDR + fragoff) (len - IP4HDR) fragoff
          (d.drop IP4HDR)⟩

/-- `ipoput4`, with the next value `id4` of the counter for packets; nothing goes out when the
packet is dropped. -/
def ipoput4 (fs : Fs) (id4 : ℕ) (d : List UInt8) (gating : Bool) (ttl tos : ℕ) : Option Bwrite :=
  let len := if gating ∧ ip4length d < d.length then ip4length d else d.length
  if gating ∧ d.length < ip4length d then none
  else if IP_MAX ≤ len then none
  else
    match fs.v4lookup ((d.drop 16).take 4) with
    | none => none
    | some r =>
      let ifc := (fs.way d r).1
      if ifc.locked ∨ ¬ifc.m then none
      else send4 id4 len (fillhdr d gating ttl tos) gating ifc (fs.way d r).2

/-! ### Input -/

/-- The mark of a fragment that is not the last one, which `ipiput4` leaves for
`ip4reassemble`. -/
def markfrag (d : List UInt8) : List UInt8 :=
  ip4settos d (if ip4frag d &&& IP_MF ≠ 0 then 1 else 0)

/-- `ipiput4` on the interface `ifc`; `ipck` says that the interface has seen to the checksum. -/
def ipiput4 (fs : Fs) (now id4 : ℕ) (ifc : Ipifc) (ipck : Bool) (ip : IP) (d : List UInt8) :
    IP × Input :=
  if d.length < IP4HDR then (ip, .dropped)
  else if ¬ipck ∧ ipcsum d ≠ 0 then (ip, .dropped)
  else
    let notforme := ¬fs.ipforme ((d.drop 16).take 4)
    let hl := (ip4vihl d &&& 0xf) <<< 2
    if hl < IP_HLEN4 <<< 2 then (ip, .dropped)
    else if notforme then
      if ¬fs.iprouting then (ip, .dropped)
      else
        match fs.v4lookup ((d.drop 16).take 4) with
        | none => (ip, .dropped)
        | some r =>
          if r.ifc.addr = ifc.addr then (ip, .dropped)
          else if ip4ttl d < 1 then (ip, .dropped)
          else
            let (ip, r) :=
              if r.ifc.reassemble ≠ 0 ∧ ip4frag d ≠ 0 then
                ip4reassemble now (ip4frag d) (markfrag d) ip
              else (ip, some [d])
            match r with
            | none => (ip, .held)
            | some bp =>
              (ip, .forwarded
                (ipoput4 fs id4 bp.flatten true (ip4ttl bp.flatten - 1) (ip4tos bp.flatten)))
    else
      -- the options of a packet for this machine are taken off
      let d :=
        if hl = IP_HLEN4 <<< 2 then d
        else
          ip4setlength ((d.take IP4HDR ++ d.drop hl).set 0 (uchar (IP_VER4 ||| IP_HLEN4)))
            (ip4length d + (IP_HLEN4 <<< 2) + 65536 - hl)
      let (ip, r) :=
        if ip4frag d ≠ 0 then ip4reassemble now (ip4frag d) (markfrag d) ip else (ip, some [d])
      match r with
      | none => (ip, .held)
      | some bp => (ip, .received (ip4proto bp.flatten) (ip4setfrag bp.flatten 0))

end PlanNine.Ip
