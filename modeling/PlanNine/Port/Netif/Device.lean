import Mathlib
import PlanNine.Lib.Run
import PlanNine.Lib.Tally

/-!
# Network interfaces

A network interface is multiplexed: a file of it has a data and a ctl channel, and messages written
to ctl set what the file gets. Counters of the interface say how many of its files want what. An
error leaves what was done before it.

## Main definitions

* `Netaddr`, `Netfile`, `Netif`: multicast addresses, files, and an interface with what its driver
  was told.
* `netmulti`, `activemulti`: multicast addresses.
* `netifopen`, `netifwrite`, `netifclose`: the operations.
* `State`, `exec`: an interface with its channels, and the steps.
-/

namespace PlanNine.Netdev

def Nmhash : ℕ := 31

def KNAMELEN : ℕ := 28

/-- The types of files. -/
def Ncloneqid : ℕ := 1

def Ndataqid : ℕ := 5

def Nctlqid : ℕ := 6

def NETTYPE (x : ℕ) : ℕ := x % 32

def NETID (x : ℕ) : ℕ := x / 32

def NETQID (i t : ℕ) : ℕ := i * 32 + t

/-- Data and ctl channels. -/
def isfile (path : ℕ) : Prop := NETTYPE path = Ndataqid ∨ NETTYPE path = Nctlqid

instance (path : ℕ) : Decidable (isfile path) := by unfold isfile; infer_instance

def Enodev : String := "no free devices"

def Eperm : String := "permission denied"

def Ebadarg : String := "bad arg in system call"

def Einuse : String := "device or object already in use"

/-- A known multicast address, and how often it was added. -/
structure Netaddr where
  addr : List ℕ
  ref : ℤ
  deriving DecidableEq

/-- One multiplexed connection. -/
structure Netfile where
  inuse : ℤ := 0
  mode : ℕ := 0
  owner : List Char := []
  type : ℤ := 0
  prom : Bool := false
  /-- The interval of the scan for base stations. -/
  scan : ℤ := 0
  bridge : Bool := false
  headersonly : Bool := false
  /-- The 64 bits of `maddr`. -/
  maddr : ℕ → Bool := fun _ => false
  nmaddr : ℤ := 0

/-- What the driver is told. -/
inductive Told where
  | promiscuous (on : Bool)
  | multicast (addr : List ℕ) (on : Bool)
  | scanbs (interval : ℤ)
  deriving DecidableEq

structure Netif where
  nfile : ℕ
  f : ℕ → Option Netfile := fun _ => none
  alen : ℕ := 6
  maddr : List Netaddr := []
  nmaddr : ℤ := 0
  /-- The chains of known addresses, by their places in `maddr`. -/
  mhash : ℕ → List ℕ := fun _ => []
  prom : ℤ := 0
  scan : ℤ := 0
  all : ℤ := 0
  /-- Which routines of the driver there are. -/
  hasPromiscuous : Bool := true
  hasMulticast : Bool := true
  hasScanbs : Bool := true
  told : List Told := []

variable (nif : Netif)

def Netif.setFile (id : ℕ) (f : Netfile) : Netif :=
  { nif with f := Function.update nif.f id (some f) }

def Netif.tell (m : Told) : Netif := { nif with told := nif.told ++ [m] }

/-! ### Multicast addresses -/

def hash (a : List ℕ) : ℕ := a.foldl (fun sum b => (2 * sum + b) % 4294967296) 0 % Nmhash

def activemulti (addr : List ℕ) : Bool :=
  match (nif.mhash (hash addr)).find? fun i => (nif.maddr[i]?).map Netaddr.addr = some addr with
  | some i => (nif.maddr[i]?).any fun ap => ap.ref ≠ 0
  | none => false

/-- The place of an address in the list of those known, or the end of the list. -/
def Netif.place (addr : List ℕ) : ℕ := nif.maddr.findIdx fun ap => ap.addr = addr

/-- Set a bit of a file. -/
def Netfile.mark (f : Netfile) (i : ℕ) : Netfile :=
  if i < 64 then
    { f with
      nmaddr := if f.maddr i then f.nmaddr else f.nmaddr + 1
      maddr := Function.update f.maddr i true }
  else f

/-- Clear a bit of a file. -/
def Netfile.unmark (f : Netfile) (i : ℕ) : Netfile :=
  if i < 64 then
    { f with
      nmaddr := if f.maddr i then f.nmaddr - 1 else f.nmaddr
      maddr := Function.update f.maddr i false }
  else f

/-- `netmulti` with `add`: the address is known from now on. -/
def addmulti (id : ℕ) (f : Netfile) (addr : List ℕ) : Netif :=
  let i := nif.place addr
  let nif : Netif :=
    match nif.maddr[i]? with
    | none =>
      { nif with
        maddr := nif.maddr ++ [{ addr := addr, ref := 1 }]
        mhash := Function.update nif.mhash (hash addr) (i :: nif.mhash (hash addr)) }
    | some ap => { nif with maddr := nif.maddr.set i { ap with ref := ap.ref + 1 } }
  let nif : Netif :=
    if (nif.maddr[i]?).any fun ap => ap.ref = 1 then
      Netif.tell { nif with nmaddr := nif.nmaddr + 1 } (.multicast addr true)
    else nif
  nif.setFile id (f.mark i)

/-- `netmulti` without `add`. -/
def remmulti (id : ℕ) (f : Netfile) (addr : List ℕ) : Netif :=
  let i := nif.place addr
  match nif.maddr[i]? with
  | none => nif
  | some ap =>
    if ap.ref = 0 then nif
    else
      let nif := { nif with maddr := nif.maddr.set i { ap with ref := ap.ref - 1 } }
      let nif : Netif :=
        if ap.ref - 1 = 0 then
          Netif.tell { nif with nmaddr := nif.nmaddr - 1 } (.multicast addr false)
        else nif
      nif.setFile id (f.unmark i)

/-- Keep track of multicast addresses. -/
def netmulti (id : ℕ) (f : Netfile) (addr : List ℕ) (add : Bool) : Netif × Option String :=
  if !nif.hasMulticast then (nif, some "interface does not support multicast")
  else if add then (addmulti nif id f addr, none)
  else (remmulti nif id f addr, none)

/-! ### Messages -/

def isblank (c : Char) : Bool := c = ' ' ∨ c = '\t' ∨ c = '\n'

/-- Look for a token starting a string, return the string from the first non-space behind it. -/
def matchtoken (p : List Char) (token : String) : Option (List Char) :=
  if token.toList.isPrefixOf p then
    match p.drop token.toList.length with
    | [] => some []
    | c :: p => if isblank c then some (p.dropWhile isblank) else none
  else none

/-- The value of a digit. -/
def digit (c : Char) : ℕ :=
  if c.isDigit then c.toNat - 48
  else if 'a' ≤ c ∧ c ≤ 'z' then c.toNat - 87
  else if 'A' ≤ c ∧ c ≤ 'Z' then c.toNat - 55
  else 36

/-- The number that a string starts with. -/
def number (base : ℕ) (p : List Char) : ℕ :=
  (p.takeWhile fun c => digit c < base).foldl (fun n c => base * n + digit c) 0

def int32 (n : ℤ) : ℤ := (n + 2147483648) % 4294967296 - 2147483648

/-- A sign, and what is behind it. -/
def signed (p : List Char) : Bool × List Char :=
  match p with
  | '-' :: p => (true, p)
  | '+' :: p => (false, p)
  | p => (false, p)

/-- A prefix tells the base of a number, which is 10 without one. -/
def atoi (p : List Char) : ℤ :=
  let (neg, p) := signed (p.dropWhile isblank)
  let n :=
    match p.dropWhile isblank with
    | '0' :: 'x' :: p => number 16 p
    | '0' :: 'X' :: p => number 16 p
    | '0' :: p => number 8 p
    | p => number 10 p
  int32 (if neg then -n else n)

/-- `strtoul` to the base 16. -/
def strtoul (p : List Char) : ℕ :=
  let (neg, p) := signed (p.dropWhile isblank)
  let n :=
    match p with
    | '0' :: 'x' :: p => number 16 p
    | '0' :: 'X' :: p => number 16 p
    | p => number 16 p
  (int32 (if neg then -n else n) % 4294967296).toNat

/-- An address of `alen` bytes, each of two digits, with or without colons. -/
def parseaddr : ℕ → List Char → Option (List ℕ)
  | 0, _ => some []
  | alen + 1, c :: d :: p =>
    let p :=
      match p with
      | ':' :: p => p
      | p => p
    (parseaddr alen p).map (strtoul [c, d] % 256 :: ·)
  | _ + 1, _ => none

/-- Make sure this type isn't already in use on this device. -/
def typeinuse (type : ℤ) : Bool :=
  0 < type ∧ (List.range nif.nfile).any fun id => (nif.f id).any fun f => f.type = type

/-- What is written is cut to the buffer, which is a string. -/
def cstr (a : List Char) : List Char := (a.take 63).takeWhile (· ≠ '\x00')

/-- A message to the file `id`: the interface, and the error if there is one. A message that is not
known is left to the driver. -/
def message (id : ℕ) (f : Netfile) (buf : List Char) : Netif × Option String :=
  match matchtoken buf "connect" with
  | some p =>
    let type := atoi p
    if typeinuse nif type then (nif, some Einuse)
    else
      let nif := nif.setFile id { f with type := type }
      (if type < 0 then { nif with all := nif.all + 1 } else nif, none)
  | none =>
    if (matchtoken buf "promiscuous").isSome then
      if f.prom then (nif, none)
      else
        let nif := if nif.prom = 0 ∧ nif.hasPromiscuous then nif.tell (.promiscuous true) else nif
        ({ nif.setFile id { f with prom := true } with prom := nif.prom + 1 }, none)
    else
      match matchtoken buf "scanbs" with
      | some p =>
        if f.scan = 0 then
          let type := max (atoi p) 5
          let nif := if nif.hasScanbs then nif.tell (.scanbs type) else nif
          ({ nif.setFile id { f with scan := type } with scan := nif.scan + 1 }, none)
        else (nif, none)
      | none =>
        if (matchtoken buf "bridge").isSome then (nif.setFile id { f with bridge := true }, none)
        else if (matchtoken buf "headersonly").isSome then
          (nif.setFile id { f with headersonly := true }, none)
        else
          match matchtoken buf "addmulti" with
          | some p =>
            match parseaddr nif.alen p with
            | none => (nif, some "bad address")
            | some binaddr => netmulti nif id f binaddr true
          | none =>
            match matchtoken buf "remmulti" with
            | some p =>
              match parseaddr nif.alen p with
              | none => (nif, some "bad address")
              | some binaddr => netmulti nif id f binaddr false
            | none => (nif, none)

/-- The devxxx.c that calls us handles writing data, it knows best. -/
def netifwrite (path : ℕ) (a : List Char) : Netif × Option String :=
  if NETTYPE path ≠ Nctlqid then (nif, some Eperm)
  else
    match nif.f (NETID path) with
    | some f => message nif (NETID path) f (cstr a)
    | none => (nif, none)

/-! ### Opening and closing -/

/-- The rights that a mode of opening needs. -/
def access (omode : ℕ) : ℕ :=
  match omode % 4 with
  | 0 => 0o400
  | 1 => 0o200
  | 2 => 0o600
  | _ => 0o100

/-- Who opens first owns a file. -/
def netown (eve : List Char) (f : Netfile) (o : List Char) (omode : ℕ) : Netfile × Bool :=
  if f.owner = [] then ({ f with owner := o.take KNAMELEN, mode := 0o660 }, true)
  else
    let mode :=
      if o.take KNAMELEN = f.owner then f.mode
      else if o.take KNAMELEN = eve.take KNAMELEN then f.mode * 8
      else f.mode * 64
    (f, access omode &&& mode = access omode)

/-- The first file that is not there yet or not in use. -/
def freefile : Option ℕ := (List.range nif.nfile).find? fun i => (nif.f i).all fun f => f.inuse = 0

/-- Increment the reference count of a network device. Without a number, find one not in use; there
may be no memory for it. -/
def openfile (eve : List Char) (id : Option ℕ) (user : List Char) (memory : Bool) :
    Netif × Except String ℕ :=
  match id with
  | some id =>
    match nif.f id with
    | none => (nif, .error Enodev)
    | some f => (nif.setFile id { f with inuse := f.inuse + 1 }, .ok id)
  | none =>
    match freefile nif with
    | none => (nif, .error Enodev)
    | some id =>
      if (nif.f id).isNone ∧ !memory then (nif, .error "out of memory")
      else
        let f := { (nif.f id).getD {} with inuse := 1 }
        (nif.setFile id (netown eve f user 0).1, .ok id)

/-- `openmode`, which takes away `OTRUNC`, `OCEXEC` and `ORCLOSE`, accepts a mode. -/
def validmode (omode : ℕ) : Bool := omode - (omode &&& 112) ≤ 3

/-- What `netifopen` does with a file whose reference count is incremented. -/
def admitfile (eve : List Char) (id path omode : ℕ) (user : List Char) : Netif × Except String ℕ :=
  match nif.f id with
  | none => (nif, .error Enodev)
  | some f =>
    match netown eve f user (omode % 8) with
    | (f, true) =>
      if validmode omode then (nif.setFile id f, .ok path) else (nif.setFile id f, .error Ebadarg)
    | (f, false) => (nif.setFile id f, .error Eperm)

/-- Directories have the type 0, `N2ndqid` or `N3rdqid`. -/
def isdir (path : ℕ) : Bool := path = 0 ∨ NETTYPE path = 3 ∨ NETTYPE path = 4

/-- Open the file `path`: the interface, and the path of the channel or an error. -/
def netifopen (eve : List Char) (path omode : ℕ) (user : List Char) (memory : Bool) :
    Netif × Except String ℕ :=
  if isdir path then
    if omode ≠ 0 then (nif, .error Eperm) else (nif, .ok path)
  else if isfile path then
    match openfile nif eve (some (NETID path)) user memory with
    | (nif, .ok id) => admitfile nif eve id path omode user
    | (nif, .error e) => (nif, .error e)
  else if NETTYPE path = Ncloneqid then
    match openfile nif eve none user memory with
    | (nif, .ok id) => admitfile nif eve id (NETQID id Nctlqid) omode user
    | (nif, .error e) => (nif, .error e)
  else if omode ≠ 0 then (nif, .error Ebadarg)
  else (nif, .ok path)

/-- Promiscuous mode ends with the file. -/
def unprom (id : ℕ) (f : Netfile) : Netif × Netfile :=
  if f.prom then
    let nif := { nif with prom := nif.prom - 1 }
    let nif := if nif.prom = 0 ∧ nif.hasPromiscuous then nif.tell (.promiscuous false) else nif
    (nif.setFile id { f with prom := false }, { f with prom := false })
  else (nif, f)

/-- The scan ends with the file. -/
def unscan (id : ℕ) (f : Netfile) : Netif × Netfile :=
  if f.scan ≠ 0 then
    let nif := { nif with scan := nif.scan - 1 }
    let nif := if nif.scan = 0 ∧ nif.hasScanbs then nif.tell (.scanbs 0) else nif
    (nif.setFile id { f with prom := false, scan := 0 }, { f with prom := false, scan := 0 })
  else (nif, f)

/-- The loop over the known addresses tests the same bit for all of them. -/
def dropmulti (id : ℕ) : Netif → List (List ℕ) → Netif
  | n, [] => n
  | n, addr :: addrs =>
    match n.f id with
    | none => n
    | some f =>
      if f.maddr 0 then dropmulti id (netmulti n id f addr false).1 addrs
      else dropmulti id n addrs

/-- Multicast addresses are dropped with the file. -/
def unmulti (id : ℕ) (f : Netfile) : Netif × Netfile :=
  if f.nmaddr ≠ 0 then
    let nif := dropmulti id nif (nif.maddr.map Netaddr.addr)
    let f := { (nif.f id).getD f with nmaddr := 0 }
    (nif.setFile id f, f)
  else (nif, f)

/-- The last channel of the file `id` is closed. -/
def lastclose (id : ℕ) (f : Netfile) : Netif :=
  let (nif, f) := unprom nif id f
  let (nif, f) := unscan nif id f
  let (nif, f) := unmulti nif id f
  let nif := if f.type < 0 then { nif with all := nif.all - 1 } else nif
  nif.setFile id { f with owner := [], type := 0, bridge := false, headersonly := false }

/-- Close a channel that is open. -/
def netifclose (path : ℕ) : Netif :=
  if ¬ isfile path then nif
  else
    match nif.f (NETID path) with
    | none => nif
    | some f =>
      let f := { f with inuse := f.inuse - 1 }
      let nif := nif.setFile (NETID path) f
      if f.inuse = 0 then lastclose nif (NETID path) f else nif

/-! ### Runs -/

/-- An interface, and the paths of its open channels, `nchan` at most. -/
structure State where
  nif : Netif
  nchan : ℕ
  chan : ℕ → Option ℕ := fun _ => none

inductive Op where
  /-- Open the file `path` as the channel `c`. -/
  | netifopen (c path omode : ℕ) (user : List Char) (memory : Bool)
  | netifwrite (c : ℕ) (a : List Char)
  | netifclose (c : ℕ)

/-- A step; `eve` is the owner of the machine. -/
def exec (eve : List Char) (t : State) : Op → Option State
  | .netifopen c path omode user memory =>
    if c < t.nchan ∧ t.chan c = none then
      match netifopen t.nif eve path omode user memory with
      | (nif, .ok path) =>
        some { t with nif := nif, chan := Function.update t.chan c (some path) }
      | (nif, .error _) => some { t with nif := nif }
    else none
  | .netifwrite c a => (t.chan c).map fun path => { t with nif := (netifwrite t.nif path a).1 }
  | .netifclose c => (t.chan c).map fun path =>
      { t with nif := netifclose t.nif path, chan := Function.update t.chan c none }

/-- An interface with `nfile` files as `netifinit` leaves it. -/
def netifinit (nfile nchan : ℕ) (promiscuous multicast scanbs : Bool) (alen : ℕ) : State where
  nif :=
    { nfile := nfile, alen := alen, hasPromiscuous := promiscuous, hasMulticast := multicast,
      hasScanbs := scanbs }
  nchan := nchan

end PlanNine.Netdev
