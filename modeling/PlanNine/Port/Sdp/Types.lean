import PlanNine.Lib.Kern
import PlanNine.Port.Thwack.Decoder

/-!
# The data of the secure datagram protocol

The structures of `devsdp.c`: one direction of a conversation (`OneWay`), a conversation (`Conv`),
its statistics and its packet buffers, and what a routine sees of the rest of the machine (`Env`,
`Libsec`).

## Main definitions

* `ConvState`, `Stats`, `OneWay`, `Conv`: the structures of the source.
* `Libsec`: the digests and ciphers of the security library, as parameters.
* `Env`: the clock, the random numbers and the failures met by one call.
* `World`: the conversation a routine works on, with the packets it has sent.
-/

namespace PlanNine.Sdp

open Thw

def MaxRetries : ℕ := 12
def KeepAlive : ℕ := 300
def SecretLength : ℕ := 32
def SeqMax : ℕ := 1 <<< 24
def SeqWindow : ℕ := 32
def Maxconv : ℕ := 256
def RC4forward : ℕ := 10 * 1024 * 1024
def RC4back : ℕ := 100 * 1024

/-- `x++` on a `ulong`. -/
def incr (x : ℕ) : ℕ := (x + 1) % 4294967296

structure Stats where
  outPackets : ℕ := 0
  outDataPackets : ℕ := 0
  outDataBytes : ℕ := 0
  outCompDataBytes : ℕ := 0
  outCompBytes : ℕ := 0
  outCompStats : ThwStats := {}
  inPackets : ℕ := 0
  inDataPackets : ℕ := 0
  inDataBytes : ℕ := 0
  inCompDataBytes : ℕ := 0
  inMissing : ℕ := 0
  inDup : ℕ := 0
  inReorder : ℕ := 0
  inBadComp : ℕ := 0
  inBadAuth : ℕ := 0
  inBadSeq : ℕ := 0
  inBadOther : ℕ := 0
  deriving DecidableEq, Repr

/-- The state of an RC4 generator: its key and the number of bytes drawn from it. -/
structure RC4state where
  key : List UInt8
  pos : ℕ
  deriving DecidableEq, Repr

structure CipherRc4 where
  cseq : ℕ := 0
  current : RC4state
  ovalid : Bool := false
  lgseq : ℕ := 0
  oseq : ℕ := 0
  old : RC4state := ⟨[], 0⟩
  deriving DecidableEq, Repr

inductive CipherState where
  /-- `DESstate`: the key, which stands for its expansion, and the initial vector -/
  | des (key ivec : List UInt8)
  | rc4 (cr : CipherRc4)
  deriving DecidableEq, Repr

inductive CompState where
  | thwack (tw : Thwack)
  | unthwack (ut : Unthwack)

inductive CipherFn where
  | desencrypt | desdecrypt | rc4encrypt | rc4decrypt
  deriving DecidableEq, Repr

inductive AuthFn where
  | md5auth
  deriving DecidableEq, Repr

inductive CompFn where
  | thwackcomp | thwackuncomp
  deriving DecidableEq, Repr

structure OneWay where
  /-- number of wraps of the sequence number -/
  seqwrap : ℕ := 0
  seq : ℕ := 0
  window : ℕ := 0
  secret : List UInt8 := List.replicate SecretLength 0
  controlpkt : Option (List UInt8) := none
  controlseq : ℕ := 0
  cipherstate : Option CipherState := none
  cipherivlen : ℕ := 0
  cipherblklen : ℕ := 0
  cipher : Option CipherFn := none
  authstate : Option (List UInt8) := none
  authlen : ℕ := 0
  auth : Option AuthFn := none
  compstate : Option CompState := none
  comp : Option CompFn := none

inductive ConvState where
  | cFree | cInit | cDial | cAccept | cOpen | cLocalClose | cRemoteClose | cClosed
  deriving DecidableEq, Repr

inductive Cipheralg where
  | null | des_56_cbc | rc4_128 | rc4_256
  deriving DecidableEq, Repr

inductive Authalg where
  | null | hmac_sha1_96 | hmac_md5_96
  deriving DecidableEq, Repr

inductive Compalg where
  | null | thwack
  deriving DecidableEq, Repr

structure Conv where
  /-- holds conv up -/
  ref : ℤ := 0
  state : ConvState := .cFree
  /-- ref count of opens on Qdata -/
  dataopen : ℤ := 0
  /-- ref count of opens on Qcontrol -/
  controlopen : ℤ := 0
  /-- reader proc has been started -/
  reader : Bool := false
  lstats : Stats := {}
  rstats : Stats := {}
  lastrecv : ℕ := 0
  timeout : ℕ := 0
  retries : ℕ := 0
  dialid : ℕ := 0
  acceptid : ℕ := 0
  /-- the packet channel is open -/
  chan : Bool := false
  channame : Option String := none
  owner : String := ""
  perm : ℕ := 0
  auth : Option Authalg := none
  cipher : Option Cipheralg := none
  comp : Option Compalg := none
  drop : ℤ := 0
  /-- the field `in` of the source -/
  inp : OneWay := {}
  out : OneWay := {}

/-- A block: the bytes of its buffer, and the read and write pointers as offsets into them. -/
structure Block where
  buf : List UInt8
  rp : ℕ
  wp : ℕ
  deriving DecidableEq, Repr

namespace Block

/-- `BLEN(b)`, negative when the write pointer has moved below the read pointer. -/
def blen (b : Block) : ℤ := (b.wp : ℤ) - b.rp

/-- The bytes between the pointers. -/
def data (b : Block) : List UInt8 := (b.buf.take b.wp).drop b.rp

/-- `b->rp[i]`. -/
def byte (b : Block) (i : ℕ) : ℕ := (b.buf.getD (b.rp + i) 0).toNat

/-- Replace the bytes from the offset `i` on. -/
def write (b : Block) (i : ℕ) (l : List UInt8) : Block :=
  { b with buf := b.buf.take i ++ l ++ b.buf.drop (i + l.length) }

/-- A block holding just `l`. -/
def ofList (l : List UInt8) : Block := ⟨l, 0, l.length⟩

end Block

/-- The security library: digests, the DES block cipher under a key (`true` to decrypt) and the
byte of the RC4 key stream at an offset. -/
structure Libsec where
  md5 : List UInt8 → List UInt8
  sha1 : List UInt8 → List UInt8
  block_cipher : List UInt8 → List UInt8 → Bool → List UInt8
  rc4stream : List UInt8 → ℕ → UInt8
  length_md5 : ∀ l, (md5 l).length = 16
  length_sha1 : ∀ l, (sha1 l).length = 20
  length_block_cipher : ∀ k l d, l.length = 8 → (block_cipher k l d).length = 8

/-- What one call meets outside the conversation. -/
structure Env where
  /-- `TK2SEC(m->ticks)` -/
  sec : ℕ := 0
  /-- `(rand()<<16) + rand()` -/
  rand : ℕ := 0
  /-- whether `nrand(c->drop) == 0` at the `i`-th packet sent -/
  dropped : ℕ → Bool := fun _ => false
  /-- whether the `i`-th packet sent makes the channel's `bwrite` raise an error -/
  fails : ℕ → Bool := fun _ => false
  /-- whether `nrand(c->lastrecv + 2*KeepAlive - sec) > 0` -/
  keepwait : Bool := false
  /-- the eight values of `nrand(256)` that make an initial vector -/
  ivec : List UInt8 := List.replicate 8 0
  /-- whether the `i`-th `malloc` fails -/
  nomem : ℕ → Bool := fun _ => false
  /-- whether `namec` raises an error -/
  noname : Bool := false
  /-- whether `kproc` raises an error -/
  noproc : Bool := false

/-- The assertions, panics and references through nil pointers of the source. -/
inductive Panic where
  | sdpclone | convderef | convoconnect | convsetstate | setstate | conviconnect | convopenchan
  | convreadblock | convreader | nilchan | nilalg
  deriving DecidableEq, Repr

/-- The conversation a routine works on and what it has done outside: the packets written to the
channel, oldest first, the number of packets it tried to write, the reader processes started, the
control messages left in `in.controlpkt` for a reader and the payloads given to `convoput` with
their types and subtypes. -/
structure World where
  conv : Conv
  sent : List (List UInt8) := []
  nwrite : ℕ := 0
  nreader : ℕ := 0
  handed : List (List UInt8) := []
  puts : List (ℕ × ℕ × List UInt8) := []

/-- Change the conversation. -/
def World.map (f : Conv → Conv) (w : World) : World := { w with conv := f w.conv }

@[simp] theorem World.conv_map (f : Conv → Conv) (w : World) : (w.map f).conv = f w.conv := rfl
@[simp] theorem World.sent_map (f : Conv → Conv) (w : World) : (w.map f).sent = w.sent := rfl
@[simp] theorem World.nwrite_map (f : Conv → Conv) (w : World) : (w.map f).nwrite = w.nwrite := rfl
@[simp] theorem World.nreader_map (f : Conv → Conv) (w : World) :
    (w.map f).nreader = w.nreader := rfl
@[simp] theorem World.handed_map (f : Conv → Conv) (w : World) : (w.map f).handed = w.handed := rfl
@[simp] theorem World.puts_map (f : Conv → Conv) (w : World) : (w.map f).puts = w.puts := rfl

/-- Routines on a conversation. -/
abbrev ConvM (α : Type) : Type := Kern Panic World α

/-- The current conversation. -/
def getConv : ConvM Conv := do return (← Kern.get).conv

/-- Change the current conversation. -/
def setConv (f : Conv → Conv) : ConvM Unit := Kern.modify (World.map f)

@[simp] theorem wp_getConv {Q : Conv → World → Prop} {E : Stop Panic → World → Prop} {w : World} :
    getConv.wp Q E w ↔ Q w.conv w := by
  simp [getConv]

@[simp] theorem wp_setConv {f : Conv → Conv} {Q : Unit → World → Prop}
    {E : Stop Panic → World → Prop} {w : World} :
    (setConv f).wp Q E w ↔ Q () (w.map f) := Iff.rfl

end PlanNine.Sdp
