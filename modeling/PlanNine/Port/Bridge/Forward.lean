import PlanNine.Ip.Ip4
import PlanNine.Lib.Kern

/-!
# The bridge device

`devbridge.c` forwards Ethernet frames between the ports bound to a bridge. A reader process of each
port takes frames; it enters their source in a cache of addresses, and hands a frame to the port
where its destination was heard, or to all the others. All this is done under the lock of the
bridge, so that a turn of a reader is one step. The ports are records with a reference count, held
by the table of the bridge and by their readers.

What the channels of a port do is not modelled: a write either fails or does not, and opening them
may raise an error. Counters, the log and delays are left out. The clock is read from the ticks of a
processor, which differ between processors and wrap around, so it may show any time.

## Main definitions

* `Centry`, `Port`, `World`: the entries of the cache, the ports, and a bridge.
* `cachelookup`, `cacheupdate`, `cacheflushport`: the cache of addresses.
* `tcpmsshack`: the limit put on the segment sizes that TCP offers.
* `etherwrite`, `ethermultiwrite`, `etherread`: forwarding.
* `portbind`, `portunbind`, `portfree`: the ports.
* `exec`: the steps of a bridge.
-/

namespace PlanNine.Bridge

open PlanNine.Ip (putshort)

def Eaddrlen : ℕ := 6

def ETHERMINTU : ℕ := 60

def ETHERHDRSIZE : ℕ := 14

def Maxport : ℕ := 128

def CacheHash : ℕ := 257

def CacheLook : ℕ := 5

def CacheSize : ℕ := CacheHash + CacheLook - 1

def CacheTimeout : ℕ := 5 * 60

def TcpMssMax : ℕ := 1300

abbrev Addr : Type := List UInt8

/-- The address of all zeros, which is also that of a cleared entry. -/
def zeroaddr : Addr := List.replicate Eaddrlen 0

def bcastaddr : Addr := List.replicate Eaddrlen 0xff

/-- `d[0] & 1`: the address of a group. -/
def multicast (d : Addr) : Bool := (d.getD 0 0).toNat % 2 = 1

structure Centry where
  d : Addr
  port : ℕ
  expire : ℕ
  deriving DecidableEq

/-- A cleared entry. -/
def Centry.zero : Centry := ⟨zeroaddr, 0, 0⟩

inductive PortType where
  | Tether | Ttun
  deriving DecidableEq

structure Port where
  id : ℕ
  ref : ℤ
  closed : Bool
  mcast : Bool
  type : PortType
  name : String
  ownhash : ℕ
  /-- Its reader has not exited. -/
  reading : Bool

/-- A bridge. Ports are known by their addresses. -/
structure World where
  nport : ℕ
  port : ℕ → Option ℕ
  cache : ℕ → Centry
  tcpmss : Bool
  /-- The port at an address, until it is freed. -/
  heap : ℕ → Option Port
  /-- The address of the next port. -/
  next : ℕ
  /-- The time in seconds, as the processor has it. -/
  sec : ℕ
  /-- The port on which an address was last a source. -/
  heard : Addr → Option ℕ
  /-- The frames handed to `etherwrite` in the last step, with the ids of the ports. -/
  handed : List (ℕ × List UInt8)

/-- A bridge that was not used. -/
def World.start : World where
  nport := 0
  port _ := none
  cache _ := .zero
  tcpmss := false
  heap _ := none
  next := 0
  sec := 0
  heard _ := none
  handed := []

inductive Crash where
  /-- A port that was freed, or none, is used. -/
  | freed
  /-- `portfree: bad ref` -/
  | badRef
  deriving DecidableEq

abbrev Br : Type → Type := Kern Crash World

/-! ### The cache of addresses -/

/-- The hash of an address. -/
def hash (d : Addr) : ℕ := d.foldl (fun h b => (h * 7 + b.toNat) % 4294967296) 0 % CacheHash

/-- The first of some entries with an address. -/
def cachelookupLoop (cache : ℕ → Centry) (d : Addr) : ℕ → ℕ → Option ℕ
  | 0, _ => none
  | n + 1, p => if d = (cache p).d then some p else cachelookupLoop cache d n (p + 1)

/-- The port of an address, and the cache after it was looked up. -/
def cachelookup (cache : ℕ → Centry) (sec : ℕ) (d : Addr) : Option ℕ × (ℕ → Centry) :=
  if multicast d then (none, cache)
  else
    match cachelookupLoop cache d CacheLook (hash d) with
    | none => (none, cache)
    | some p =>
      if (cache p).expire ≤ sec then (none, cache)
      else
        (some (cache p).port,
          Function.update cache p { cache p with expire := sec + CacheTimeout })

/-- The entry with an address, or the oldest one. -/
def cacheupdateLoop (cache : ℕ → Centry) (d : Addr) : ℕ → ℕ → ℕ → ℕ → ℕ
  | 0, _, pp, _ => pp
  | n + 1, p, pp, sec =>
    if (cache p).d = d then p
    else if (cache p).expire < sec then cacheupdateLoop cache d n (p + 1) p (cache p).expire
    else cacheupdateLoop cache d n (p + 1) pp sec

/-- Enter a source address. -/
def cacheupdate (cache : ℕ → Centry) (sec : ℕ) (d : Addr) (port : ℕ) : ℕ → Centry :=
  if multicast d then cache
  else
    Function.update cache
      (cacheupdateLoop cache d CacheLook (hash d) (hash d) (cache (hash d)).expire)
      ⟨d, port, sec + CacheTimeout⟩

def cacheflushport (cache : ℕ → Centry) (port : ℕ) : ℕ → Centry :=
  fun i => if i < CacheSize ∧ (cache i).port = port then .zero else cache i

/-! ### TCP segment sizes -/

/-- The offset of the option for the maximal segment size, `n` bytes of options being left at `o`
and `fuel` being as much. -/
def mssLoop (p : List UInt8) : ℕ → ℕ → ℕ → Option ℕ
  | 0, _, _ => none
  | fuel + 1, n, o =>
    let opt := (p.getD o 0).toNat
    if n = 0 ∨ opt = 0 then none
    else if opt = 1 then mssLoop p fuel (n - 1) (o + 1)
    else
      let optlen := (p.getD (o + 1) 0).toNat
      if optlen < 2 ∨ n < optlen then none
      else if opt = 2 ∧ optlen = 4 then some o
      else mssLoop p fuel (n - optlen) (o + optlen)

/-- `x - y` for values of 32 bits. -/
def usub (x y : ℕ) : ℕ := (x + (4294967296 - y)) % 4294967296

/-- Limit the maximal segment size that TCP offers. -/
def tcpmsshack (p : List UInt8) : List UInt8 :=
  let vihl := (p.getD ETHERHDRSIZE 0).toNat
  let hl := (vihl &&& 0xf) <<< 2
  let tcp := ETHERHDRSIZE + hl
  let n := p.length - ETHERHDRSIZE - hl
  let thl := ((p.getD (tcp + 12) 0).toNat &&& 0xf0) >>> 2
  if nhgets (p.drop 12) ≠ 0x800 ∨ p.length < ETHERHDRSIZE + 20 ∨ vihl &&& 0xf0 ≠ 0x40 ∨ hl < 20 ∨
      (p.getD (ETHERHDRSIZE + 9) 0).toNat ≠ 6 ∨ n < 20 ∨
      (p.getD (tcp + 13) 0).toNat &&& 0x02 = 0 ∨ n < thl then p
  else
    match mssLoop p (thl - 20) (thl - 20) (tcp + 20) with
    | none => p
    | some o =>
      let mss := nhgets (p.drop (o + 2))
      if mss ≤ TcpMssMax then p
      else
        let cksum := nhgets (p.drop (tcp + 16))
        let cksum :=
          if (o - tcp) % 2 = 1 then
            let c := usub (cksum + nhgets (p.drop (o + 1)))
              ((p.getD (o + 1) 0).toNat <<< 8 ||| TcpMssMax >>> 8)
            let c := (c + c >>> 16) &&& 0xffff
            let c := usub (c + nhgets (p.drop (o + 3)))
              ((TcpMssMax &&& 0xff) <<< 8 ||| (p.getD (o + 4) 0).toNat)
            c + c >>> 16
          else
            let c := usub (cksum + mss) TcpMssMax
            c + c >>> 16
        putshort (putshort p (tcp + 16) cksum) (o + 2) TcpMssMax

/-! ### Ports -/

/-- Follow a pointer to a port. -/
def deref (s : ℕ) : Br Port := do
  let w ← Kern.get
  match w.heap s with
  | none => Kern.panic .freed
  | some p => pure p

def setPort (s : ℕ) (p : Option Port) : Br Unit :=
  Kern.modify fun w => { w with heap := Function.update w.heap s p }

def portfree (s : ℕ) : Br Unit := do
  let p ← deref s
  if p.ref - 1 < 0 then Kern.panic .badRef
  else if 0 < p.ref - 1 then setPort s (some { p with ref := p.ref - 1 })
  else setPort s none

/-- The port bound with an id. -/
def World.at (w : World) (i : ℕ) : Option Port := (w.port i).bind w.heap

/-- The id of the first port with a type and a name. -/
def World.find (w : World) (type : PortType) (name : String) : Option ℕ :=
  (List.range w.nport).find? fun i =>
    match w.at i with
    | none => false
    | some p => p.type = type ∧ p.name = name

/-- Bind a port. Opening its channels raises `fails`. -/
def portbind (type : PortType) (name : String) (ownhash : ℕ) (fails : Option String) :
    Br Unit := do
  let w ← Kern.get
  if (w.find type name).isSome then Kern.error "port in use"
  else
    match (List.range Maxport).find? fun i => (w.port i).isNone with
    | none => Kern.error "no more ports"
    | some i => do
      let s := w.next
      Kern.modify fun w => { w with
        next := s + 1
        heap := Function.update w.heap s (some ⟨i, 1, false, false, type, name, ownhash, false⟩) }
      match fails with
      | some e => do
        portfree s
        Kern.error e
      | none => do
        Kern.modify fun w => { w with
          port := Function.update w.port i (some s)
          nport := if w.nport ≤ i then i + 1 else w.nport }
        let p ← deref s
        setPort s (some { p with ref := p.ref + 1, reading := true })

def portunbind (type : PortType) (name : String) (ownhash : ℕ) : Br Unit := do
  let w ← Kern.get
  match w.find type name with
  | none => Kern.error "port not found"
  | some i =>
    match w.port i with
    | none => Kern.panic .freed
    | some s => do
      let p ← deref s
      if ownhash ≠ 0 ∧ p.ownhash ≠ 0 ∧ ownhash ≠ p.ownhash then Kern.error "bad owner hash"
      else do
        setPort s (some { p with closed := true })
        Kern.modify fun w => { w with
          port := Function.update w.port i none
          cache := cacheflushport w.cache i }
        portfree s

/-! ### Forwarding -/

/-- Write a frame to the port bound with an id. Where `fails`, the write raises an error. -/
def etherwrite (i : ℕ) (bp : List UInt8) (fails : ℕ → Bool) : Br Unit := do
  let w ← Kern.get
  match w.at i with
  | none => Kern.panic .freed
  | some _ => do
    Kern.modify fun w => { w with handed := w.handed ++ [(i, bp)] }
    if fails i then Kern.error "write failed" else pure ()

/-- Errors of a write are ignored. -/
def etherwriteQuiet (i : ℕ) (bp : List UInt8) (fails : ℕ → Bool) : Br Unit :=
  Kern.waserror (etherwrite i bp fails) fun _ => pure ()

/-- Write to the ports of a list but for the last one, which is returned. -/
def multiwriteLoop (bp : List UInt8) (me : ℕ) (mcast bcast : Bool) (fails : ℕ → Bool) :
    List ℕ → Option ℕ → Br (Option ℕ)
  | [], oport => pure oport
  | i :: is, oport => do
    let w ← Kern.get
    if i = me ∨ (w.port i).isNone then multiwriteLoop bp me mcast bcast fails is oport
    else
      match w.at i with
      | none => Kern.panic .freed
      | some p =>
        if mcast ∧ ¬ bcast ∧ ¬ p.mcast then multiwriteLoop bp me mcast bcast fails is oport
        else do
          match oport with
          | none => pure ()
          | some o => etherwriteQuiet o bp fails
          multiwriteLoop bp me mcast bcast fails is (some i)

def ethermultiwrite (bp : List UInt8) (me : ℕ) (fails : ℕ → Bool) : Br Unit := do
  let w ← Kern.get
  let d := bp.take Eaddrlen
  let oport ← multiwriteLoop bp me (multicast d) (multicast d ∧ d = bcastaddr) fails
    (List.range w.nport) none
  match oport with
  | none => pure ()
  | some o => etherwriteQuiet o bp fails

/-- Enter the source of a frame that came on a port. -/
def World.learn (w : World) (src : Addr) (i s : ℕ) : World :=
  { w with
    cache := cacheupdate w.cache w.sec src i
    heard := Function.update w.heard src (some s) }

/-- A frame as it is forwarded. -/
def World.sent (w : World) (bp : List UInt8) : List UInt8 := if w.tcpmss then tcpmsshack bp else bp

/-- Forward a frame that came on the port with id `i` at `s`. -/
def forward (i s : ℕ) (bp : List UInt8) (fails : ℕ → Bool) : Br Unit :=
  if bp.length < ETHERMINTU then Kern.error "short packet"
  else do
    Kern.modify fun w => w.learn ((bp.drop Eaddrlen).take Eaddrlen) i s
    let w ← Kern.get
    let bp := w.sent bp
    let d := bp.take Eaddrlen
    if multicast d then ethermultiwrite bp i fails
    else do
      let r := cachelookup w.cache w.sec d
      Kern.modify fun w => { w with cache := r.2 }
      match r.1 with
      | none => ethermultiwrite bp i fails
      | some q =>
        if q ≠ i then etherwrite q bp fails else pure ()

/-- The reader of a port exits. -/
def readerExit (s : ℕ) : Br Unit := do
  let p ← deref s
  setPort s (some { p with reading := false })
  portfree s

/-- A turn of the reader of a port, which got a frame, or `none` when its read failed. -/
def etherread (s : ℕ) (bp : Option (List UInt8)) (fails : ℕ → Bool) : Br Unit :=
  match bp with
  | none => readerExit s
  | some bp => do
    let p ← deref s
    if p.closed then readerExit s
    else Kern.waserror (forward p.id s bp fails) fun _ => pure ()

/-! ### Steps -/

inductive Op where
  | bind (type : PortType) (name : String) (ownhash : ℕ) (fails : Option String)
  | unbind (type : PortType) (name : String) (ownhash : ℕ)
  | cacheflush
  | tcpmss (value : Bool)
  /-- The clock shows another time. -/
  | clock (sec : ℕ)
  /-- The read of a reader returns. -/
  | read (s : ℕ) (bp : Option (List UInt8)) (fails : ℕ → Bool)

/-- A step of a bridge. Errors go to the process that wrote the control message. -/
def exec (op : Op) (w : World) : Except (Stop Crash) Unit × World :=
  let w := { w with handed := [] }
  match op with
  | .bind type name ownhash fails => portbind type name ownhash fails w
  | .unbind type name ownhash => portunbind type name ownhash w
  | .cacheflush =>
    (.ok (), { w with cache := fun i => if i < CacheSize then .zero else w.cache i })
  | .tcpmss value => (.ok (), { w with tcpmss := value })
  | .clock sec => (.ok (), { w with sec := sec })
  | .read s bp fails =>
    match w.heap s with
    | some p => if p.reading then etherread s bp fails w else (.ok (), w)
    | none => (.ok (), w)

/-- The bridge after a step; it stops at a panic. -/
def turn (w : World) (op : Op) : Option World :=
  match exec op w with
  | (.error (.panic _), _) => none
  | (_, w') => some w'

def step (w : World) (op : Op) (w' : World) : Prop := turn w op = some w'

end PlanNine.Bridge
