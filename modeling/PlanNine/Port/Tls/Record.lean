import PlanNine.Lib.Kern
import PlanNine.Port.Tls.Secret

/-!
# The record layer of a TLS connection

A connection reads records from a channel, which hands it blocks cut at any place, and writes
records to it. Reading gathers a header and then a body, takes off the cipher and checks the MAC,
and acts on the record by its type. A read of the channel may be interrupted; what was taken of a
record is then put back in front of the blocks not yet processed. Another place where a process may
be interrupted is the queue of handshake messages when it is over its limit.

Locks and reference counts are left out. The queue of handshake messages is the list of its blocks;
what a call meets there and when it writes to the channel is in its `Notes`. The room that the stack
frame of `tlsrecread` leaves for the MAC it computes is a parameter: the declaration asks for
`MD5dlen` bytes, and what a longer MAC overwrites is up to the compiler.

## Main definitions

* `TlsRec`, `Io`, `Notes`: a connection, its incoming blocks, and the interruptions a call meets.
* `tlsrecwrite`, `tlswrite`: writing records.
* `ensure`, `consume`, `regurgitate`, `qgrab`: the blocks not yet processed.
* `gather`, `process`, `tlsrecread`: reading a record.
-/

namespace PlanNine.Tls

def MaxRecLen : ℕ := 1 <<< 14

def MaxCipherRecLen : ℕ := MaxRecLen + 2048

def RecHdrLen : ℕ := 5

def MinProtoVersion : ℕ := 0x0300

def MaxProtoVersion : ℕ := 0x03ff

inductive State where
  | SHandshake | SOpen | SRClose | SLClose | SAlert | SError | SClosed
  deriving DecidableEq

def RChangeCipherSpec : ℕ := 20

def RAlert : ℕ := 21

def RHandshake : ℕ := 22

def RApplication : ℕ := 23

def SSL2ClientHello : ℕ := 1

def HSSL2ClientHello : ℕ := 9

def ECloseNotify : ℕ := 0

def EUnexpectedMessage : ℕ := 10

def EBadRecordMac : ℕ := 20

def ERecordOverflow : ℕ := 22

def EIllegalParameter : ℕ := 47

def EDecodeError : ℕ := 50

def EProtocolVersion : ℕ := 70

def EUserCanceled : ℕ := 90

def ENoRenegotiation : ℕ := 100

def Eintr : String := "interrupted"

def Ehungup : String := "i/o on hungup channel"

structure TlsErrs where
  err : ℕ
  sslerr : ℕ
  tlserr : ℕ
  fatal : Bool
  msg : String

/-- The alerts: their codes here and in either version of the protocol. -/
def tlserrs : List TlsErrs :=
  [⟨0, 0, 0, false, "close notify"⟩,
   ⟨10, 10, 10, true, "unexpected message"⟩,
   ⟨20, 20, 20, true, "bad record mac"⟩,
   ⟨21, 47, 21, true, "decryption failed"⟩,
   ⟨22, 47, 22, true, "record too long"⟩,
   ⟨30, 30, 30, true, "decompression failed"⟩,
   ⟨40, 40, 40, true, "could not negotiate acceptable security paramters"⟩,
   ⟨41, 41, 46, true, "no appropriate certificate available"⟩,
   ⟨42, 42, 42, true, "corrupted or invalid certificate"⟩,
   ⟨43, 43, 43, true, "unsupported certificate type"⟩,
   ⟨44, 44, 44, true, "revoked certificate"⟩,
   ⟨45, 45, 45, true, "expired certificate"⟩,
   ⟨46, 46, 46, true, "unacceptable certificate"⟩,
   ⟨47, 47, 47, true, "illegal parameter"⟩,
   ⟨48, 40, 48, true, "unknown certificate authority"⟩,
   ⟨49, 40, 49, true, "access denied"⟩,
   ⟨50, 47, 50, true, "error decoding message"⟩,
   ⟨51, 47, 51, true, "error decrypting message"⟩,
   ⟨60, 40, 60, true, "export restriction violated"⟩,
   ⟨70, 47, 70, true, "protocol version not supported"⟩,
   ⟨71, 40, 71, true, "stronger security routines required"⟩,
   ⟨80, 40, 80, true, "internal error"⟩,
   ⟨90, 0, 90, false, "handshake canceled by user"⟩,
   ⟨100, 10, 100, false, "no renegotiation"⟩]

structure OneWay (R D : Type) where
  seq : ℕ
  sec : Option (Secret R D)
  new : Option (Secret R D)

structure TlsRec (R D : Type) where
  version : ℕ
  verset : Bool
  opened : Bool
  err : String
  handin : ℕ
  state : State
  packMac : PackMac
  inn : OneWay R D
  processed : Option (List UInt8)
  handq : Option (List (List UInt8))
  out : OneWay R D
  /-- The blocks written to the channel. -/
  output : List (List UInt8)
  /-- The blocks that were freed while on `handq`. -/
  freed : List (List UInt8)

/-- The interruptions a call of `tlsrecread` meets: in `qbwrite` to the queue of handshake messages
of a handshake record, of an alert that is passed on, of a close notify and of an error; and the
error raised by a write to the channel. -/
structure Notes where
  hand : Bool := false
  alert : Bool := false
  close : Bool := false
  error : Bool := false
  write : Option String := none

inductive Crash where
  /-- A read through a nil block. -/
  | nilBlock
  /-- A MAC that does not fit where it is computed. -/
  | smashed
  deriving DecidableEq

variable {R D : Type}

/-- A routine on a connection. -/
abbrev Conn (R D : Type) : Type → Type := Kern Crash (TlsRec R D)

/-! ### Alerts and writing -/

/-- Queue a handshake message. The process is interrupted, if at all, when the message is queued. -/
def qbwrite (b : List UInt8) (intr : Bool) : Conn R D Unit := do
  Kern.modify fun tr => { tr with handq := tr.handq.map (· ++ [b]) }
  if intr then Kern.error Eintr else pure ()

/-- Make sure the next operation on the handshake file returns with an error. -/
def alertHand (msg : String) (intr : Bool) : Conn R D Unit := do
  let tr ← Kern.get
  if tr.handq.isSome then
    qbwrite (uchar RAlert :: msg.toList.map (fun c => uchar c.toNat) ++ [0]) intr
  else pure ()

def tlsError (msg : String) (n : Notes) : Conn R D Unit := do
  let tr ← Kern.get
  if tr.state = .SError then pure ()
  else do
    Kern.modify fun tr => { tr with state := .SError, err := msg }
    alertHand msg n.error

def tlsSetState (new : State) (old : List State) : Conn R D Unit :=
  Kern.modify fun tr => if tr.state ∈ old then { tr with state := new } else tr

def checkstate (ishand : Bool) (ok : List State) : Conn R D Unit := do
  let tr ← Kern.get
  if tr.state ∈ ok then pure ()
  else
    match tr.state with
    | .SHandshake | .SOpen => Kern.error "tls improperly configured"
    | .SError | .SAlert => if ishand then Kern.error tr.err else Kern.error "tls error"
    | .SRClose | .SLClose | .SClosed => Kern.error "tls hungup"

/-- The header of a record. -/
def rechdr (type version len : ℕ) : List UInt8 := uchar type :: put16 version ++ put16 len

/-- A record with its MAC, encrypted, and the secret after it. -/
def wraprec (L : Libsec R D) (tr : TlsRec R D) (sec : Secret R D) (type : ℕ) (body : List UInt8) :
    List UInt8 × Secret R D :=
  let mac := tr.packMac.run L sec tr.out.seq (rechdr type tr.version body.length) body
  let r := sec.encrypt L (body ++ mac)
  (rechdr type tr.version r.1.length ++ r.1, r.2)

/-- Write a record of at most `MaxRecLen` bytes. -/
def sendrec (L : Libsec R D) (type : ℕ) (body : List UInt8) (n : Notes) : Conn R D Unit := do
  let tr ← Kern.get
  let r := match tr.out.sec with
    | none => (rechdr type tr.version body.length ++ body, tr.out)
    | some sec =>
      let s := wraprec L tr sec type body
      (s.1, { tr.out with seq := (tr.out.seq + 1) % 4294967296, sec := some s.2 })
  Kern.modify fun tr => { tr with out := r.2 }
  if type = RChangeCipherSpec then
    if r.2.new.isNone then Kern.error "change cipher without a new cipher"
    else Kern.modify fun tr => { tr with out := ⟨0, r.2.new, none⟩ }
  else pure ()
  -- a block that a write was interrupted for is taken to be queued
  Kern.modify fun tr => { tr with output := tr.output ++ [r.1] }
  match n.write with
  | none => pure ()
  | some e => do
    if e ≠ Eintr then tlsError "channel error" n else pure ()
    Kern.error e

def okstates (type : ℕ) : List State :=
  if type = RAlert then [.SHandshake, .SOpen, .SRClose, .SAlert]
  else [.SHandshake, .SOpen, .SRClose]

/-- Write a block in records, while `fuel` lasts. -/
def tlsrecwriteLoop (L : Libsec R D) (type : ℕ) (n : Notes) : ℕ → List UInt8 → Conn R D Unit
  | 0, _ => pure ()
  | fuel + 1, b => do
    checkstate (type ≠ RApplication) (okstates type)
    sendrec L type (b.take MaxRecLen) n
    if MaxRecLen < b.length then tlsrecwriteLoop L type n fuel (b.drop MaxRecLen) else pure ()

/-- Write a block in records, of which there are no more than bytes, or one. -/
def tlsrecwrite (L : Libsec R D) (type : ℕ) (b : List UInt8) (n : Notes) : Conn R D Unit :=
  tlsrecwriteLoop L type n (b.length + 1) b

/-- `tlsbwrite` to the data file. -/
def tlsbwrite (L : Libsec R D) (b : List UInt8) (n : Notes) : Conn R D Unit := do
  checkstate false [.SOpen]
  tlsrecwrite L RApplication b n

/-- Write bytes in blocks of at most `MaxRecLen`, at least one, while `fuel` lasts. -/
def tlswriteLoop (L : Libsec R D) (n : Notes) : ℕ → List UInt8 → Conn R D Unit
  | 0, _ => pure ()
  | fuel + 1, p => do
    tlsbwrite L (p.take MaxRecLen) n
    if p.drop MaxRecLen = [] then pure () else tlswriteLoop L n fuel (p.drop MaxRecLen)

/-- `tlswrite` to the data file. -/
def tlswrite (L : Libsec R D) (p : List UInt8) (n : Notes) : Conn R D Unit :=
  tlswriteLoop L n (p.length + 1) p

def sendAlert (L : Libsec R D) (err : ℕ) (n : Notes) : Conn R D Unit := do
  let tr ← Kern.get
  let e := (tlserrs.find? fun e => e.err = err).map fun e =>
    (if tr.version = SSL3Version then e.sslerr else e.tlserr, e.fatal, e.msg)
  let (code, fatal, msg) := e.getD (err, true, "tls unknown alert")
  Kern.waserror (do
    if fatal then tlsSetState .SAlert [.SOpen, .SHandshake, .SRClose] else pure ()
    tlsrecwrite L RAlert [if fatal then 2 else 1, uchar code] n) fun _ => pure ()
  if fatal then tlsError msg n else pure ()

/-- An error was found in the incoming stream. -/
def rcvError {α : Type} (L : Libsec R D) (err : ℕ) (msg : String) (n : Notes) : Conn R D α := do
  sendAlert L err n
  let tr ← Kern.get
  if tr.opened then Kern.error "tls error" else Kern.error msg

/-- A fatal alert was received. -/
def rcvAlert {α : Type} (err : ℕ) (n : Notes) : Conn R D α := do
  let s := ((tlserrs.find? fun e => e.err = err).map TlsErrs.msg).getD "unknown error"
  tlsError s n
  let tr ← Kern.get
  if tr.opened then Kern.error "tls error" else Kern.error s

def tlsclosed (new : State) (n : Notes) : Conn R D Unit := do
  Kern.modify fun tr =>
    if tr.state = .SOpen ∨ tr.state = .SHandshake then { tr with state := new }
    else if (tr.state = .SRClose ∧ new = .SLClose) ∨ (tr.state = .SLClose ∧ new = .SRClose) then
      { tr with state := .SClosed }
    else tr
  alertHand "close notify" n.close

/-! ### The blocks not yet processed -/

/-- A block: the room before its data, and the data. -/
structure Block where
  room : ℕ
  data : List UInt8
  deriving DecidableEq

/-- A new block; the allocator leaves room for headers. -/
def allocb (p : List UInt8) : Block := ⟨64, p⟩

/-- The bytes of a string of blocks. -/
def bytes (l : List Block) : List UInt8 := (l.map Block.data).flatten

/-- What a read of the channel gives: blocks, or an error, which may be an interruption. -/
inductive Bread where
  | blocks (bl : List Block)
  | fail (msg : String)

/-- The blocks not yet processed, and what the channel is going to give. -/
structure Io where
  unprocessed : List Block
  input : List Bread

inductive Ensured where
  | ok
  /-- The channel gives nothing more: the call does not return. -/
  | waits
  | error (msg : String)

/-- Make sure there are at least `n` bytes. -/
def ensure (n : ℕ) : List Block → List Bread → Ensured × Io
  | un, [] => if n ≤ (bytes un).length then (.ok, ⟨un, []⟩) else (.waits, ⟨un, []⟩)
  | un, r :: input =>
    if n ≤ (bytes un).length then (.ok, ⟨un, r :: input⟩)
    else
      match r with
      | .fail msg => (.error msg, ⟨un, input⟩)
      | .blocks bl =>
        if bytes bl = [] then (.error Ehungup, ⟨un ++ bl, input⟩) else ensure n (un ++ bl) input

theorem ensure_of_le {n : ℕ} {un : List Block} {input : List Bread} (h : n ≤ (bytes un).length) :
    ensure n un input = (.ok, ⟨un, input⟩) := by
  cases input <;> exact if_pos h

/-- Copy `n` bytes from the blocks and free them there. -/
def consume : List Block → ℕ → List UInt8 × List Block
  | [], _ => ([], [])
  | b :: l, n =>
    if n = 0 then ([], b :: l)
    else if n < b.data.length then (b.data.take n, ⟨b.room + n, b.data.drop n⟩ :: l)
    else
      let r := consume l (n - b.data.length)
      (b.data ++ r.1, r.2)

/-- Give bytes back. -/
def regurgitate (p : List UInt8) (un : List Block) : List Block :=
  if p = [] then un
  else
    match un with
    | [] => [allocb p]
    | b :: l =>
      if b.room < p.length then allocb p :: b :: l
      else ⟨b.room - p.length, p ++ b.data⟩ :: l

/-- Remove at most `n` bytes; `none` when there is no block to look at. -/
def qgrab : List Block → ℕ → Option (Block × List Block)
  | [], _ => none
  | b :: l, n =>
    if b.data.length = n then some (b, l)
    else
      let r := consume (b :: l) (min n (bytes (b :: l)).length)
      some (allocb r.1, r.2)

section Bytes

variable {n : ℕ} {l : List Block}

theorem bytes_append (l l' : List Block) : bytes (l ++ l') = bytes l ++ bytes l' := by
  simp [bytes]

theorem bytes_cons (b : Block) (l : List Block) : bytes (b :: l) = b.data ++ bytes l := rfl

/-- The bytes copied are the first ones, and the others are left. -/
theorem consume_spec (hn : n ≤ (bytes l).length) :
    (consume l n).1 = (bytes l).take n ∧ bytes (consume l n).2 = (bytes l).drop n := by
  induction l generalizing n with
  | nil =>
    obtain rfl : n = 0 := by simpa [bytes] using hn
    exact ⟨rfl, rfl⟩
  | cons b l ih =>
    rw [bytes_cons, List.length_append] at hn
    rw [consume]
    by_cases hzero : n = 0
    · rw [if_pos hzero, hzero]
      exact ⟨rfl, rfl⟩
    rw [if_neg hzero, bytes_cons]
    by_cases hlt : n < b.data.length
    · rw [if_pos hlt, List.take_append_of_le_length hlt.le, List.drop_append_of_le_length hlt.le]
      exact ⟨rfl, rfl⟩
    · obtain ⟨h1, h2⟩ := ih (n := n - b.data.length) (by omega)
      rw [if_neg hlt]
      dsimp only
      rw [h1, h2, List.take_append, List.take_of_length_le (not_lt.mp hlt), List.drop_append,
        List.drop_of_length_le (not_lt.mp hlt), List.nil_append]
      exact ⟨rfl, rfl⟩

end Bytes

/-! ### Reading -/

/-- The type, version and length in a header, or the alert for a bad one. -/
def parse (tr : TlsRec R D) (header : List UInt8) : Except (ℕ × String) (ℕ × ℕ × ℕ) :=
  let ssl2 : Bool := tr.handin = 0 ∧ 128 ≤ (header.getD 0 0).toNat
  let len := if ssl2 then get16 header - 0x8000 - 3 else get16 (header.drop 3)
  let type := if ssl2 then (header.getD 2 0).toNat else (header.getD 0 0).toNat
  let ver := if ssl2 then get16 (header.drop 3) else get16 (header.drop 1)
  if ssl2 ∧ (type ≠ SSL2ClientHello ∨ len < 22) then
    .error (EProtocolVersion, "invalid initial SSL2-like message")
  else if ver ≠ tr.version ∧ (tr.verset ∨ ver < MinProtoVersion ∨ MaxProtoVersion < ver) then
    .error (EProtocolVersion, "devtls expected ver=%x%s, saw (len=%d) type=%x ver=%x '%.12s'")
  else if MaxCipherRecLen < len then .error (ERecordOverflow, "record message too long %d")
  else .ok (type, ver, len)

/-- A record as it came. -/
structure Rec where
  header : List UInt8
  type : ℕ
  ver : ℕ
  body : List UInt8
  deriving DecidableEq

inductive Gathered where
  | record (r : Rec)
  | bad (err : ℕ) (msg : String) (header : List UInt8)
  | stop (msg : String)
  | waits
  | crash

/-- Gather the body behind a header, which is put back when a read of the channel is interrupted. -/
def gatherBody (tr : TlsRec R D) (header : List UInt8) (io : Io) : Gathered × Io :=
  match parse tr header with
  | .error (err, msg) => (.bad err msg header, io)
  | .ok (type, ver, len) =>
    match ensure len io.unprocessed io.input with
    | (.waits, io) => (.waits, io)
    | (.error msg, io) =>
      (.stop msg, if msg = Eintr then ⟨regurgitate header io.unprocessed, io.input⟩ else io)
    | (.ok, io) =>
      match qgrab io.unprocessed len with
      | none => (.crash, io)
      | some (b, un) => (.record ⟨header, type, ver, b.data⟩, ⟨un, io.input⟩)

/-- Gather a record. -/
def gather (tr : TlsRec R D) (io : Io) : Gathered × Io :=
  match ensure RecHdrLen io.unprocessed io.input with
  | (.waits, io) => (.waits, io)
  | (.error msg, io) => (.stop msg, io)
  | (.ok, io) =>
    let r := consume io.unprocessed RecHdrLen
    gatherBody tr r.1 ⟨r.2, io.input⟩

/-- Decrypt a record and check its MAC, where the frame has `room` bytes for the one computed. -/
def unwraprec (L : Libsec R D) (room : ℕ) (r : Rec) (n : Notes) : Conn R D (List UInt8) := do
  let tr ← Kern.get
  match tr.inn.sec with
  | none => pure r.body
  | some sec => do
    let (unpad, p, sec') := sec.decrypt L r.body
    let len := if sec.maclen < unpad then unpad.toNat - sec.maclen else r.body.length
    Kern.modify fun tr =>
      { tr with inn := { tr.inn with seq := (tr.inn.seq + 1) % 4294967296, sec := some sec' } }
    let hmac := tr.packMac.run L sec tr.inn.seq (r.header.take 3 ++ put16 len) (p.take len)
    if room < hmac.length then Kern.panic .smashed
    else if unpad ≤ sec.maclen ∨ hmac.take sec.maclen ≠ (p.drop len).take sec.maclen then
      rcvError L EBadRecordMac "record mac mismatch" n
    else pure (p.take len)

/-- Queue a handshake message. When the process is interrupted there, the handler frees the block,
though it is on the queue. -/
def handrec (L : Libsec R D) (b : List UInt8) (n : Notes) : Conn R D Unit := do
  let tr ← Kern.get
  if tr.handq.isSome then
    Kern.waserror (qbwrite b n.hand) fun e => do
      Kern.modify fun tr => { tr with freed := tr.freed ++ [b] }
      Kern.error e
  else if tr.verset ∧ tr.version ≠ SSL3Version then
    Kern.waserror (sendAlert L ENoRenegotiation n) fun _ => pure ()
  else pure ()

/-- An alert that is not fatal. -/
def warnrec (L : Libsec R D) (code : ℕ) (n : Notes) : Conn R D Unit :=
  if code = ECloseNotify then do
    tlsclosed .SRClose n
    let tr ← Kern.get
    if tr.opened then Kern.error "tls hungup" else Kern.error "close notify"
  else if code = ENoRenegotiation then alertHand "no renegotiation" n.alert
  else if code = EUserCanceled then alertHand "handshake canceled by user" n.alert
  else rcvError L EIllegalParameter "invalid alert code" n

/-- Act on a record by its type. -/
def act (L : Libsec R D) (r : Rec) (p : List UInt8) (n : Notes) : Conn R D Unit :=
  if r.type = RChangeCipherSpec then
    if p ≠ [1] then rcvError L EDecodeError "invalid change cipher spec" n
    else do
      let tr ← Kern.get
      if tr.inn.new.isNone then
        rcvError L EUnexpectedMessage "unexpected change cipher spec" n
      else Kern.modify fun tr => { tr with inn := ⟨0, tr.inn.new, none⟩ }
  else if r.type = RAlert then
    if p.length ≠ 2 then rcvError L EDecodeError "invalid alert" n
    else if p.getD 0 0 = 2 then rcvAlert (p.getD 1 0).toNat n
    else if p.getD 0 0 ≠ 1 then rcvError L EIllegalParameter "invalid alert fatal code" n
    else warnrec L (p.getD 1 0).toNat n
  else if r.type = RHandshake then handrec L (uchar RHandshake :: p) n
  else if r.type = SSL2ClientHello then
    handrec L (uchar RHandshake :: uchar HSSL2ClientHello :: uchar ((p.length + 3) >>> 16) ::
      put16 (p.length + 3) ++ uchar SSL2ClientHello :: put16 r.ver ++ p) n
  else if r.type = RApplication then do
    let tr ← Kern.get
    if tr.opened then Kern.modify fun tr => { tr with processed := some p }
    else
      rcvError L EUnexpectedMessage "application message received before handshake completed" n
  else rcvError L EIllegalParameter "invalid record message 0x%x" n

/-- The handler of `tlsrecread`'s errors: they end the connection. -/
def channelError (n : Notes) (e : String) : Conn R D Unit := do
  tlsError "channel error" n
  Kern.error e

/-- Process a record. -/
def process (L : Libsec R D) (room : ℕ) (r : Rec) (n : Notes) : Conn R D Unit :=
  Kern.waserror (do
    let p ← unwraprec L room r n
    if p = [] then rcvError L EDecodeError "runt record message" n
    else act L r p n) (channelError n)

/-- What `tlsrecread` does once it has gathered a record, or has not. -/
def finish (L : Libsec R D) (room : ℕ) (n : Notes) : Gathered → Conn R D Unit
  | .record r => process L room r n
  | .bad err msg _ =>
    Kern.waserror (rcvError L err msg n) fun e =>
      if e = Eintr then Kern.error e else channelError n e
  | .stop msg => if msg = Eintr then Kern.error msg else channelError n msg
  | .waits => pure ()
  | .crash => Kern.panic .nilBlock

/-- Read and process one record. With the connection and its blocks comes what was gathered, and how
the call ended. -/
def tlsrecread (L : Libsec R D) (room : ℕ) (n : Notes) (io : Io) (tr : TlsRec R D) :
    Gathered × Except (Stop Crash) Unit × Io × TlsRec R D :=
  let g := gather tr io
  let f := finish L room n g.1 tr
  let io := match g.1, f.1 with
    | .bad _ _ header, .error (.error e) =>
      if e = Eintr then ⟨regurgitate header g.2.unprocessed, g.2.input⟩ else g.2
    | _, _ => g.2
  (g.1, f.1, io, f.2)

end PlanNine.Tls
