import PlanNine.Lib.Rows
import PlanNine.Lib.Ulong

/-!
# The address resolution table

The table of `arp.c`: entries that are found by hashing, recycled by age, and hold the packets that
wait for an address. Those that wait for an address of version 6 are also on a chain whose first one
is asked for again by a process of its own, `rxmitproc`; packets that waited in vain are on a list
from which this process drops them.

What is done under the lock of the table is one step. The pass of `rxmitproc` lets the lock go in
the middle, to send a solicitation; `Phase` says where it is. When it has discarded an entry it goes
on to drop packets without the lock. A packet is known by a number, and what becomes of it is
recorded. Pointers are those of the C code but for the lists of packets; `dropl` is how many packets
there are up to the one it points to.

Routes, interfaces and the clock lie outside: what a lookup gives, whether an interface can be
locked and what its `ifcid` is now, how the writes of the packets end, and the time come as
parameters.

## Main definitions

* `Arpent`, `Arp`: an entry, and the table.
* `newarp6`, `cleanarpent`, `arpget`, `arpenter`: finding, recycling and filling in entries.
* `solicit`, `resolicit`, `dodrops`: the parts of a pass of `rxmitsols`.
* `flush`: the control message that clears the table.
* `exec`: the steps.
-/

namespace PlanNine.ArpTable

def NHASH : ℕ := 64

def NCACHE : ℕ := 256

def IPaddrlen : ℕ := 16

def IPv4off : ℕ := 12

def ReTransTimer : ℕ := 1000

def MAX_MULTICAST_SOLICIT : ℕ := 3

abbrev Ipaddr : Type := List UInt8

def v4prefix : List UInt8 := [0, 0, 0, 0, 0, 0, 0, 0, 0, 0, 0xff, 0xff]

def isv4 (ip : Ipaddr) : Bool := ip.take IPv4off = v4prefix

def ipismulticast (ip : Ipaddr) : Bool :=
  if isv4 ip then 0xe0 ≤ (ip.getD IPv4off 0).toNat ∧ (ip.getD IPv4off 0).toNat < 0xf0
  else (ip.getD 0 0).toNat = 0xff

def haship (ip : Ipaddr) : ℕ := (ip.getD (IPaddrlen - 1) 0).toNat % NHASH

inductive State where
  | UNUSED | OK | WAIT
  deriving DecidableEq

inductive Version where
  | V4 | V6
  deriving DecidableEq

/-- An interface: its address, its medium, and its `ifcid`. -/
structure Ipifc where
  ifc : ℕ
  m : ℕ
  ifcid : ℕ
  deriving DecidableEq

/-- An entry, but for its pointers. -/
structure Arpent where
  ip : Ipaddr := List.replicate IPaddrlen 0
  mac : List UInt8 := []
  type : Option ℕ := none
  state : State := .UNUSED
  utime : ℕ := 0
  ctime : ℕ := 0
  rtime : ℕ := 0
  rxtsrem : ℤ := 0
  ifc : Option ℕ := none
  ifcid : ℕ := 0
  /-- The packets that wait. -/
  hold : List ℕ := []
  /-- The entry was created to resolve an address of version 6 that is not multicast. -/
  solicits : Bool := false

/-- An entry as `newarp6` fills it in. -/
def Arpent.new (e : Arpent) (ip : Ipaddr) (ifc : Ipifc) (addrxt : Bool) (now : ℕ) : Arpent :=
  { e with
    ip := ip
    utime := now
    ctime := 0
    type := some ifc.m
    rtime := ulong (now + ReTransTimer)
    rxtsrem := MAX_MULTICAST_SOLICIT
    ifc := some ifc.ifc
    ifcid := ifc.ifcid
    solicits := addrxt && !ipismulticast ip }

/-- Where `rxmitproc` is. -/
inductive Phase where
  /-- Between two passes. -/
  | idle
  /-- It solicits the address of an entry on an interface, without the lock. -/
  | soliciting (a ifc : ℕ)
  /-- It has discarded an entry of an interface, and is going to drop packets without the lock. -/
  | dropping (ifc : ℕ)
  deriving DecidableEq

structure Arp where
  hash : Links ℕ := ⟨fun _ => none, fun _ => none⟩
  cache : ℕ → Arpent := fun _ => {}
  rxmt : Links Unit := ⟨fun _ => none, fun _ => none⟩
  dropf : List ℕ := []
  dropl : Option ℕ := none
  phase : Phase := .idle
  /-- How many packets were put on a list of an entry. -/
  put : ℕ := 0
  /-- The packets handed to an interface. -/
  handed : List ℕ := []
  freed : List ℕ := []

namespace Arp

variable (t : Arp)

def setEntry (a : ℕ) (e : Arpent) : Arp := { t with cache := Function.update t.cache a e }

/-- The oldest entry. -/
def oldest : ℕ :=
  (List.range NCACHE).foldl (fun a f => if (t.cache f).utime < (t.cache a).utime then f else a) 0

/-- Put packets behind the one that `dropl` points to. -/
def drop (xs : List ℕ) : Arp :=
  { t with
    dropf := match t.dropl with
      | none => xs
      | some k => t.dropf.take k ++ xs }

/-- Dump the packets that wait at an entry. -/
def dump (a : ℕ) : Arp :=
  let e := t.cache a
  let t := t.setEntry a { e with hold := [] }
  if isv4 e.ip then { t with freed := t.freed ++ e.hold }
  else if e.hold = [] then t
  else
    let t := t.drop e.hold
    { t with dropl := some t.dropf.length }

/-- Make an entry for an address out of the oldest one. The steps stop where a chain does not
end. -/
def newarp6 (ip : Ipaddr) (ifc : Ipifc) (addrxt : Bool) (now : ℕ) : Option (ℕ × Arp) := do
  let a := t.oldest
  let t := t.dump a
  let hash ← t.hash.remove (NCACHE + 1) (.root (haship (t.cache a).ip)) a
  let rxmt ←
    if !ipismulticast ip && addrxt then do
      let rxmt ← t.rxmt.remove (NCACHE + 1) (.root ()) a
      rxmt.append (NCACHE + 1) (.root ()) a
    else pure (t.rxmt.set (.next a) none)
  pure (a, { t with
    hash := hash.push (.root (haship ip)) a
    cache := Function.update t.cache a ((t.cache a).new ip ifc addrxt now)
    rxmt := rxmt })

/-- Clear an entry, and take it off its chains. -/
def cleanarpent (a : ℕ) : Option Arp := do
  let e := t.cache a
  let hash ← t.hash.remove (NCACHE + 1) (.root (haship e.ip)) a
  let rxmt ← t.rxmt.remove (NCACHE + 1) (.root ()) a
  let t := t.setEntry a { e with
    utime := 0
    ctime := 0
    type := none
    state := .UNUSED
    hold := []
    ifc := none }
  pure { t with hash := hash.set (.next a) none, rxmt := rxmt.set (.next a) none }

/-- The first entry of a chain with a property. -/
def find (P : Arpent → Bool) (ip : Ipaddr) : Option (Option ℕ) :=
  (t.hash.walk (fun a => P (t.cache a)) (NCACHE + 1) (.root (haship ip))).map t.hash.get

/-- Use an entry: put a packet, if there is one, on its list while it waits. An entry that is
resolved is cleared once it is too old. -/
def use (a : ℕ) (bp : Bool) (now : ℕ) : Option Arp :=
  let t := t.setEntry a { t.cache a with utime := now }
  let e := t.cache a
  if e.state = .WAIT then
    if bp then
      some { t.setEntry a { e with hold := e.hold ++ [t.put] } with put := t.put + 1 }
    else some t
  else if 15 * 60 * 1000 < ulong ((now : ℤ) - e.ctime) then t.cleanarpent a
  else some t

/-- Find the entry of an address, or make one, and use it. -/
def arpget (bp : Bool) (version : Version) (ifc : Ipifc) (ip : Ipaddr) (now : ℕ) : Option Arp := do
  match ← t.find (fun e => ip = e.ip ∧ e.type = some ifc.m) ip with
  | some a => t.use a bp now
  | none => do
    let (a, t) ← t.newarp6 ip ifc (version ≠ .V4) now
    (t.setEntry a { t.cache a with state := .WAIT }).use a bp now

/-- How the write of a packet ends. -/
inductive Outcome where
  | sent
  /-- The interface has no medium, and the packet is freed. -/
  | unbound
  /-- The medium takes the packet, and raises an error. -/
  | error
  deriving DecidableEq

/-- Hand packets to an interface; an error ends the loop. -/
def deliver (outs : ℕ → Outcome) : List ℕ → Arp → Arp
  | [], t => t
  | b :: bs, t =>
    match outs b with
    | .sent => deliver outs bs { t with handed := t.handed ++ [b] }
    | .unbound => deliver outs bs { t with freed := t.freed ++ [b] }
    | .error => { t with handed := t.handed ++ [b] }

/-- Whether `arpenter` fills in an entry. -/
def enters (ip : Ipaddr) (m : ℕ) (e : Arpent) : Bool :=
  e.type = some m ∧ (e.state = .WAIT ∨ e.state = .OK) ∧ e.ip = ip

/-- Enter an address, found to be on the interface `ifc`, and send the packets that wait for it. -/
def arpenter (version : Version) (ip : Ipaddr) (mac : List UInt8) (ifc : Ipifc) (refresh : Bool)
    (now : ℕ) (outs : ℕ → Outcome) : Option Arp := do
  match ← t.find (enters ip ifc.m) ip with
  | some a => do
    let e := t.cache a
    let rxmt ← if version = .V6 then t.rxmt.remove (NCACHE + 1) (.root ()) a else pure t.rxmt
    let t := t.setEntry a { e with
      state := .OK
      mac := mac
      ifc := some ifc.ifc
      ifcid := ifc.ifcid
      hold := []
      utime := now
      ctime := now }
    pure (deliver outs e.hold { t with rxmt := rxmt })
  | none =>
    if refresh then pure t
    else do
      let (a, t) ← t.newarp6 ip ifc false now
      pure (t.setEntry a { t.cache a with
        state := .OK
        type := some ifc.m
        ctime := now
        mac := mac })

/-- Clear the table. -/
def flush : Arp :=
  { t with
    cache := fun a =>
      if a < NCACHE then
        { t.cache a with
          ip := List.replicate IPaddrlen 0
          mac := []
          state := .UNUSED
          utime := 0
          hold := [] }
      else t.cache a
    hash := ⟨fun _ => none, fun a => if a < NCACHE then none else t.hash.next a⟩
    rxmt := { t.rxmt with root := fun _ => none }
    dropf := []
    dropl := none
    freed := t.freed ++ (List.range NCACHE).flatMap fun a => (t.cache a).hold }

/-- Drop the packets that waited in vain, each with an answer sent on the interface. -/
def dodrops (ifc : Option ℕ) : Option Arp :=
  if t.dropf ≠ [] ∧ ifc = none then none
  else some { t with freed := t.freed ++ t.dropf, dropf := [], dropl := none, phase := .idle }

/-- Take the packets that wait at an entry to be dropped; `dropl` stays. -/
def discard (a : ℕ) : Arp :=
  let e := t.cache a
  let t := t.setEntry a { e with hold := [] }
  if e.hold = [] then t else t.drop e.hold

/-- Discard entries, the last one of the interface given, until one is found that is to be
solicited. -/
def solicitLoop (canrlock : ℕ → Bool) (ifcid : ℕ → ℕ) : ℕ → Option ℕ → ℕ → Arp → Option Arp
  | 0, _, _, _ => none
  | _ + 1, none, ifc, t => some { t with phase := .dropping ifc }
  | fuel + 1, some a, _, t =>
    let e := t.cache a
    match e.ifc with
    | none => none
    | some ifc =>
      if e.rxtsrem ≤ 0 ∨ ¬ canrlock ifc ∨ e.ifcid ≠ ifcid ifc then do
        let t ← (t.discard a).cleanarpent a
        solicitLoop canrlock ifcid fuel (t.rxmt.next a) ifc t
      else some { t with phase := .soliciting a ifc }

/-- The first part of a pass: the first entry of the chain is looked at, once it is due. -/
def solicit (canrlock : ℕ → Bool) (ifcid : ℕ → ℕ) (now : ℕ) : Option Arp :=
  match t.rxmt.root () with
  | none => t.dodrops none
  | some a =>
    if (3 * ReTransTimer / 4 : ℕ) < long (ulong (((t.cache a).rtime : ℤ) - now)) then t.dodrops none
    else solicitLoop canrlock ifcid (NCACHE + 1) (some a) 0 t

/-- The part of a pass behind a solicitation: the entry goes to the end of the chain. -/
def resolicit (a ifc : ℕ) (now : ℕ) : Option Arp := do
  let rxmt ← t.rxmt.remove (NCACHE + 1) (.root ()) a
  let rxmt ← rxmt.append (NCACHE + 1) (.root ()) a
  let e := t.cache a
  let t := t.setEntry a { e with rxtsrem := e.rxtsrem - 1, rtime := ulong (now + ReTransTimer) }
  { t with rxmt := rxmt }.dodrops (some ifc)

end Arp

/-! ### Steps -/

inductive Op where
  | arpget (bp : Bool) (version : Version) (ifc : Ipifc) (ip : Ipaddr) (now : ℕ)
  | arpenter (version : Version) (ip : Ipaddr) (mac : List UInt8) (ifc : Ipifc) (refresh : Bool)
      (now : ℕ) (outs : ℕ → Arp.Outcome)
  | flush
  /-- A step of `rxmitproc`. -/
  | rxmit (canrlock : ℕ → Bool) (ifcid : ℕ → ℕ) (now : ℕ)

/-- A step; there is none where the machine crashes or a loop does not end. -/
def exec (t : Arp) : Op → Option Arp
  | .arpget bp version ifc ip now => t.arpget bp version ifc ip now
  | .arpenter version ip mac ifc refresh now outs =>
    t.arpenter version ip mac ifc refresh now outs
  | .flush => some t.flush
  | .rxmit canrlock ifcid now =>
    match t.phase with
    | .idle => t.solicit canrlock ifcid now
    | .soliciting a ifc => t.resolicit a ifc now
    | .dropping ifc => t.dodrops (some ifc)

def step (t : Arp) (op : Op) (t' : Arp) : Prop := exec t op = some t'

end PlanNine.ArpTable
