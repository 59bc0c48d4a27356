import PlanNine.Lib.Run
import PlanNine.Port.Sdp.Conv

/-!
# The files and processes of the secure datagram protocol

The device side of `devsdp.c`: conversations are made by `sdpclone`, their files are opened and
closed, control requests are written to them, and each may have a process `convreader` that reads
its packet channel while the data file is closed.

A `Slot` is one conversation with a count of its open files and its reader processes, an `SdpDev`
the table of conversations. Each step is one call, or one stretch of `convreader` between two
places where it gives up the lock.

## Main definitions

* `sdpopen`, `sdpclose`, `sdpctl`, `convopenchan`: the calls on a conversation.
* `readerStep`: the stretches of `convreader`.
* `sdpclone`: a new conversation.
* `Event`, `step`: the steps of the system, and `Step` as a relation.
-/

namespace PlanNine.Sdp

open Kern

variable (L : Libsec) (env : Env)

/-! ### Calls on a conversation -/

/-- The files of a conversation. -/
inductive File where
  | Qctl | Qdata | Qcontrol | Qstatus | Qstats | Qrstats
  deriving DecidableEq, Repr

/-- `sdpopen` on a file of the conversation, by `user` with the permissions `perm` asked for. -/
def sdpopen (file : File) (user : String) (perm : ℕ) : ConvM Unit := do
  let c ← getConv
  if perm &&& (c.perm >>> 6) ≠ perm ∧ (user ≠ c.owner ∨ perm &&& c.perm ≠ perm) then
    error "permission denied"
  setConv fun c => { c with ref := c.ref + 1 }
  match file with
  | .Qdata => setConv fun c => { c with dataopen := c.dataopen + 1 }
  | .Qcontrol => setConv fun c => { c with controlopen := c.controlopen + 1 }
  | _ => return

/-- `kproc("convreader", convreader, c)`. -/
def kproc : ConvM Unit := do
  if env.noproc then error "no procs"
  modify fun w => { w with nreader := w.nreader + 1 }

def sdpclose (file : File) : ConvM Unit := do
  match file with
  | .Qctl | .Qstatus | .Qstats | .Qrstats => convderef
  | .Qdata =>
      setConv fun c => { c with dataopen := c.dataopen - 1 }
      convderef
      let c ← getConv
      if c.dataopen = 0 ∧ c.reader = false ∧ c.chan then
        waserror (do
          kproc env
          setConv fun c => { c with reader := true, ref := c.ref + 1 }) fun _ => pure ()
  | .Qcontrol =>
      setConv fun c => { c with controlopen := c.controlopen - 1 }
      convderef
      let c ← getConv
      if c.controlopen = 0 ∧ c.ref ≠ 0 then
        match c.state with
        | .cAccept | .cOpen => convsetstate L env .cLocalClose
        | _ => convclose

def convopenchan (path : String) : ConvM Unit := do
  let c ← getConv
  if c.state ≠ .cInit ∨ c.chan then error "already connected"
  if env.noname then error "cannot open channel"
  setConv fun c => { c with chan := true, channame := some path }
  waserror (kproc env) fun msg => do
    setConv fun c => { c with chan := false, channame := none }
    error msg
  let c ← getConv
  assert (c.reader = false ∧ 0 < c.ref) .convopenchan
  setConv fun c => { c with reader := true, ref := c.ref + 1 }

/-- Run the set-up routines of the algorithms again, after a change of a secret. -/
def reinit (c : Conv) : Conv :=
  let c := match c.cipher with
    | some a => a.init L env.ivec c
    | none => c
  match c.auth with
  | some a => a.init L c
  | none => c

def Cipheralg.lookup (name : String) : Option Cipheralg :=
  [("null", Cipheralg.null), ("des_56_cbc", .des_56_cbc), ("rc4_128", .rc4_128),
    ("rc4_256", .rc4_256)].lookup name

def Authalg.lookup (name : String) : Option Authalg :=
  [("null", Authalg.null), ("hmac_sha1_96", .hmac_sha1_96), ("hmac_md5_96", .hmac_md5_96)].lookup
    name

def Compalg.lookup (name : String) : Option Compalg :=
  [("null", Compalg.null), ("thwack", .thwack)].lookup name

/-- The requests written to the control file. -/
inductive CtlReq where
  | accept | dial | drop | cipher | auth | comp | insecret | outsecret
  deriving DecidableEq, Repr

def CtlReq.lookup (name : String) : Option CtlReq :=
  [("accept", CtlReq.accept), ("dial", .dial), ("drop", .drop), ("cipher", .cipher),
    ("auth", .auth), ("comp", .comp), ("insecret", .insecret), ("outsecret", .outsecret)].lookup
    name

/-- What a request says when its arguments do not fit. -/
def CtlReq.usage : CtlReq → String
  | .accept | .dial => "usage: accect file"
  | .drop => "usage: drop permil"
  | .cipher => "usage: cipher alg"
  | .auth => "usage: auth alg"
  | .comp => "usage: comp alg"
  | .insecret => "usage: insecret secret"
  | .outsecret => "usage: outsecret secret"

/-- `atoi` of the digits of a number. -/
def atoi (s : String) : ℤ :=
  match s.toInt? with
  | some n => n
  | none => 0

/-- A well-formed request with its argument. -/
def CtlReq.run (req : CtlReq) (arg : String) : ConvM Unit := do
  match req with
  | .accept => convopenchan env arg
  | .dial =>
      convopenchan env arg
      convsetstate L env .cDial
  | .drop => setConv fun c => { c with drop := atoi arg }
  | .cipher =>
      match Cipheralg.lookup arg with
      | none => error "unknown algorithm"
      | some a => setConv (setcipher L env a)
  | .auth =>
      match Authalg.lookup arg with
      | none => error "unknown algorithm"
      | some a => setConv (setauth L a)
  | .comp =>
      match Compalg.lookup arg with
      | none => error "unknown algorithm"
      | some a => setcomp env a
  | .insecret =>
      let c ← getConv
      let (ow, ok) := setsecret c.inp arg.toList
      setConv fun c => { c with inp := ow }
      if ok = false then error "bad character in secret"
      setConv (reinit L env)
  | .outsecret =>
      let c ← getConv
      let (ow, ok) := setsecret c.out arg.toList
      setConv fun c => { c with out := ow }
      if ok = false then error "bad character in secret"
      setConv (reinit L env)

/-- A write to the control file, cut into fields. -/
def sdpctl (f : List String) : ConvM Unit := do
  match f with
  | [] => error "short write"
  | arg0 :: args =>
    match CtlReq.lookup arg0 with
    | none => error "unknown control request"
    | some req =>
      match args with
      | [arg] => req.run L env arg
      | _ => error req.usage

/-! ### The reader process -/

/-- What a read of the packet channel returns to `convreader`. -/
inductive ReadResult where
  | packet (pkt : List UInt8)
  | interrupted
  | failed
  deriving DecidableEq, Repr

/-- Where a reader process is. -/
inductive ReaderPc where
  | start | top | enter | reading
  | got (r : ReadResult)
  deriving DecidableEq, Repr

/-- The end of `convreader`. -/
def readerExit : ConvM (Option ReaderPc) := do
  setConv fun c => { c with reader := false }
  convderef
  return none

/-- The test of the loop of `convreader`: the next place, if there is one. -/
def readerTest : ConvM (Option ReaderPc) := do
  let c ← getConv
  if c.dataopen = 0 ∧ c.state ≠ .cClosed then return some .enter
  readerExit

/-- One stretch of `convreader`; `r` is what a read in progress returns. -/
def readerStep (pc : ReaderPc) (r : ReadResult) : ConvM (Option ReaderPc) := do
  match pc with
  | .start =>
      let c ← getConv
      assert c.reader .convreader
      readerTest
  | .top => readerTest
  | .enter =>
      let c ← getConv
      if c.state = .cClosed then return some (.got .failed)
      assert (0 < c.ref) .convreadblock
      assert c.chan .nilchan
      return some .reading
  | .reading => return some (.got r)
  | .got (.packet pkt) =>
      waserror (do let _ ← conviput L env pkt true) fun _ => pure ()
      readerTest
  | .got .interrupted => readerTest
  | .got .failed =>
      convclose
      readerExit

/-! ### The system -/

/-- A conversation with its open files, those of data and of control counted apart, and its reader
processes. -/
structure Slot where
  conv : Conv
  nother : ℕ := 0
  ndata : ℕ := 0
  ncontrol : ℕ := 0
  readers : List ReaderPc := []

/-- The number of open files. -/
def Slot.nfile (s : Slot) : ℕ := s.nother + s.ndata + s.ncontrol

/-- The number of open files of a kind. -/
def Slot.opens (s : Slot) : File → ℕ
  | .Qdata => s.ndata
  | .Qcontrol => s.ncontrol
  | _ => s.nother

/-- Count an open (`n = 1`) or a close (`n = -1`) of a file. -/
def Slot.addOpen (s : Slot) (file : File) (n : ℤ) : Slot :=
  match file with
  | .Qdata => { s with ndata := (s.ndata + n).toNat }
  | .Qcontrol => { s with ncontrol := (s.ncontrol + n).toNat }
  | _ => { s with nother := (s.nother + n).toNat }

/-- The calls on one conversation. -/
inductive Op where
  | open (file : File) (user : String) (perm : ℕ)
  | close (file : File)
  | ctl (f : List String)
  | timer
  | readcontrol
  | writecontrol (p : List UInt8)
  | writedata (b : List UInt8)
  | readdata (pkt : List UInt8)
  | reader (k : ℕ) (r : ReadResult)

/-- A call with no result; its errors go to the caller and change nothing more. -/
def Slot.call {α : Type} (s : Slot) (m : ConvM α) (ok : Slot → α → Slot) : Except Panic Slot :=
  match m { conv := s.conv } with
  | (.ok a, w) =>
      .ok (ok { s with
        conv := w.conv, readers := s.readers ++ List.replicate w.nreader .start } a)
  | (.error (.error _), w) =>
      .ok { s with conv := w.conv, readers := s.readers ++ List.replicate w.nreader .start }
  | (.error (.panic p), _) => .error p

/-- One call on a conversation; `none` when nobody is there to make it. -/
def Slot.step (s : Slot) : Op → Option (Except Panic Slot)
  | .open file user perm => some (s.call (sdpopen file user perm) fun s _ => s.addOpen file 1)
  | .close file =>
      if s.opens file = 0 then none
      else some (s.call (sdpclose L env file) fun s _ => s.addOpen file (-1))
  | .ctl f => if s.nother = 0 then none else some (s.call (sdpctl L env f) fun s _ => s)
  | .timer =>
      -- `sdpackproc` skips the conversations without references
      if 0 < s.conv.ref then some (s.call (convtimer L env) fun s _ => s) else none
  | .readcontrol =>
      if s.ncontrol = 0 then none else some (s.call (Sdp.readcontrol L env) fun s _ => s)
  | .writecontrol p =>
      if s.ncontrol = 0 ∧ s.nother = 0 then none
      else some (s.call (Sdp.writecontrol L env p) fun s _ => s)
  | .writedata b =>
      if s.ndata = 0 then none else some (s.call (Sdp.writedata L env b) fun s _ => s)
  | .readdata pkt =>
      -- a packet comes in on an open channel only
      if s.ndata = 0 ∨ s.conv.chan = false then none
      else some (s.call (conviput L env pkt false) fun s _ => s)
  | .reader k r =>
      match s.readers[k]? with
      | none => none
      | some pc => some (s.call (readerStep L env pc r) fun s pc' =>
          match pc' with
          | some pc' => { s with readers := s.readers.set k pc' }
          | none => { s with readers := s.readers.eraseIdx k })

/-- The table of conversations, without the entries that are still nil. -/
structure SdpDev where
  conv : List Slot := []

/-- The steps of the system. -/
inductive Event where
  /-- a conversation is cloned; `busy i` says that the lock of the `i`-th one is held -/
  | clone (user : String) (busy : ℕ → Bool)
  | call (i : ℕ) (op : Op)

/-- The first conversation from the entry `i` on that is free and not locked. -/
def findFree (busy : ℕ → Bool) : ℕ → List Slot → Option ℕ
  | _, [] => none
  | i, s :: ss => if s.conv.ref = 0 ∧ busy i = false then some i else findFree busy (i + 1) ss

/-- The conversation as `sdpclone` sets it up. -/
def cloned (user : String) (c : Conv) : Conv :=
  { c with
    ref := 2, state := .cInit, inp := { c.inp with window := 4294967295 }, owner := user
    perm := 0o660 }

/-- Take a free conversation, or make one, and open its control file. -/
def sdpclone (d : SdpDev) (user : String) (busy : ℕ → Bool) : Except Panic SdpDev :=
  match findFree busy 0 d.conv with
  | some i =>
      match d.conv[i]? with
      | some s =>
          if s.conv.state = .cFree then
            .ok ⟨d.conv.set i { s with conv := cloned user s.conv, nother := s.nother + 1 }⟩
          else .error .sdpclone
      | none => .ok d
  | none =>
      if d.conv.length < Maxconv then
        .ok ⟨d.conv ++ [{ conv := cloned user {}, nother := 1 }]⟩
      else .ok d

/-- One step of the system; `none` when it cannot be taken. -/
def SdpDev.step (d : SdpDev) : Event → Option (Except Panic SdpDev)
  | .clone user busy => some (sdpclone d user busy)
  | .call i op =>
      match d.conv[i]? with
      | none => none
      | some s => (s.step L env op).map fun r => r.map fun s' => ⟨d.conv.set i s'⟩

/-- A step that does not stop the machine; its label holds what the call meets outside. -/
def Step (d : SdpDev) (e : Env × Event) (d' : SdpDev) : Prop :=
  d.step L e.1 e.2 = some (.ok d')

end PlanNine.Sdp
