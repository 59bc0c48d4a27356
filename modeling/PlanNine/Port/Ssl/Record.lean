import PlanNine.Lib.Blockwise
import PlanNine.Lib.Ulong
import Mathlib.Data.List.SplitOn

/-!
# The record layer of the SSL device

What is written to a connection goes out in records, each with a header of two or three bytes, a
digest, and the text encrypted with its padding. The other end takes the bytes of the transport as
they come, in blocks, and gives back the text of the records in order. The algorithms are chosen by
a control request. The functions of the crypto library are parameters.

## Main definitions

* `Libsec`, `Libsec.Lawful`: the functions of the crypto library, and what is relied on.
* `Dstate`, `OneWay`: a connection, and one direction of it.
* `alg`: the control request that chooses the algorithms.
* `sslput`, `sslwrite`: the records of what is written.
* `ensure`, `consume`, `qtake`, `decryptb`, `checkdigestb`, `sslbread`: reading.
-/

namespace PlanNine.Ssl

structure DESstate (K : Type) where
  expanded : K
  ivec : List UInt8

/-- The functions of the crypto library, over its expanded DES keys `K` and RC4 states `R`. -/
structure Libsec (K R : Type) where
  setupDESstate : List UInt8 → Option (List UInt8) → DESstate K
  /-- The flag is set for decryption. -/
  block_cipher : K → List UInt8 → Bool → List UInt8
  setupRC4state : List UInt8 → R
  rc4 : R → List UInt8 → List UInt8 × R
  md4 : List UInt8 → List UInt8
  md5 : List UInt8 → List UInt8
  sha1 : List UInt8 → List UInt8

variable {K R : Type}

/-- The ciphers are inverted by their decryption, a stream cipher takes a text in parts, and lengths
are what they should be. -/
structure Libsec.Lawful (L : Libsec K R) : Prop where
  length_ivec : ∀ k iv, (∀ v ∈ iv, v.length = 8) → (L.setupDESstate k iv).ivec.length = 8
  length_block_cipher : ∀ k b d, b.length = 8 → (L.block_cipher k b d).length = 8
  block_cipher_inverse : ∀ k b, b.length = 8 → L.block_cipher k (L.block_cipher k b false) true = b
  length_rc4 : ∀ r p, (L.rc4 r p).1.length = p.length
  rc4_nil : ∀ r, L.rc4 r [] = ([], r)
  rc4_append : ∀ r p q, L.rc4 r (p ++ q) =
    ((L.rc4 r p).1 ++ (L.rc4 (L.rc4 r p).2 q).1, (L.rc4 (L.rc4 r p).2 q).2)
  rc4_inverse : ∀ r p, L.rc4 r (L.rc4 r p).1 = (p, (L.rc4 r p).2)
  length_md4 : ∀ p, (L.md4 p).length = 16
  length_md5 : ∀ p, (L.md5 p).length = 16
  length_sha1 : ∀ p, (L.sha1 p).length = 20

inductive Encrypt where
  | Noencryption | DESCBC | DESECB | RC4
  deriving DecidableEq

inductive Hash where
  | md4 | md5 | sha1
  deriving DecidableEq

/-- The length of a digest. -/
def Hash.dlen : Hash → ℕ
  | .md4 => 16
  | .md5 => 16
  | .sha1 => 20

def Libsec.hash (L : Libsec K R) : Hash → List UInt8 → List UInt8
  | .md4 => L.md4
  | .md5 => L.md5
  | .sha1 => L.sha1

/-- encryption state -/
inductive Cstate (K R : Type) where
  | none
  | des (ds : DESstate K)
  | rc4 (st : R)

structure OneWay (K R : Type) where
  state : Cstate K R := .none
  /-- The first `slen` bytes of the secret, if there is one. -/
  secret : Option (List UInt8) := none
  /-- message id -/
  mid : ℕ := 0

/-- The state of a connection. -/
inductive Conn where
  | Sincomplete | Sclear | Sencrypting | Sdigesting | Sdigenc
  deriving DecidableEq

/-- `state &= ~Sclear; state |= Sdigesting`. -/
def Conn.digest : Conn → Conn
  | .Sencrypting => .Sdigenc
  | .Sdigenc => .Sdigenc
  | _ => .Sdigesting

/-- `state &= ~Sclear; state |= Sencrypting`. -/
def Conn.encrypt : Conn → Conn
  | .Sdigesting => .Sdigenc
  | .Sdigenc => .Sdigenc
  | _ => .Sencrypting

structure Dstate (K R : Type) where
  /-- There is an io channel. -/
  c : Bool := false
  state : Conn := .Sincomplete
  encryptalg : Encrypt := .Noencryption
  /-- blocking length -/
  blocklen : ℕ := 1
  /-- length of digest -/
  diglen : ℕ := 0
  hf : Option Hash := none
  /-- maximum unpadded data per msg -/
  max : ℕ := 0
  /-- maximum padded data per msg -/
  maxpad : ℕ := 0
  in' : OneWay K R := {}
  processed : List (List UInt8) := []
  unprocessed : List (List UInt8) := []
  out : OneWay K R := {}

variable (L : Libsec K R)

/-! ### The algorithms -/

def initDESkey (w : OneWay K R) : Except String (OneWay K R) :=
  let secret := w.secret.getD []
  if 16 ≤ secret.length then
    .ok { w with state := .des (L.setupDESstate (secret.take 8) (some ((secret.drop 8).take 8))) }
  else if 8 ≤ secret.length then
    .ok { w with state := .des (L.setupDESstate (secret.take 8) none) }
  else .error "secret too short"

/-- 40 bit DES is the same as 56 bit DES, with 16 bits of the key masked to zero. -/
def initDESkey_40 (w : OneWay K R) : Except String (OneWay K R) :=
  let secret := w.secret.getD []
  let key := (secret.take 8).mapIdx fun i b => if i % 2 = 0 then b &&& 0x0f else b
  if 16 ≤ secret.length then
    .ok { w with state := .des (L.setupDESstate key (some ((secret.drop 8).take 8))) }
  else if 8 ≤ secret.length then .ok { w with state := .des (L.setupDESstate key none) }
  else .error "secret too short"

def initRC4key (w : OneWay K R) : Except String (OneWay K R) :=
  .ok { w with state := .rc4 (L.setupRC4state (w.secret.getD [])) }

/-- All but the first 40 bits of the key are ignored. -/
def initRC4key_40 (w : OneWay K R) : Except String (OneWay K R) :=
  initRC4key L { w with secret := w.secret.map fun s => s.take 5 }

/-- All but the first 128 bits of the key are ignored. -/
def initRC4key_128 (w : OneWay K R) : Except String (OneWay K R) :=
  initRC4key L { w with secret := w.secret.map fun s => s.take 16 }

def hashtab : List (String × Hash) :=
  [("md4", .md4), ("md5", .md5), ("sha1", .sha1), ("sha", .sha1)]

def parsehashalg (p : String) (s : Dstate K R) : Option (Dstate K R) :=
  (hashtab.find? fun ha => ha.1 = p).map fun ha =>
    { s with hf := some ha.2, diglen := ha.2.dlen, state := s.state.digest }

structure Encalg (K R : Type) where
  name : String
  blocklen : ℕ
  alg : Encrypt
  keyinit : OneWay K R → Except String (OneWay K R)

def encrypttab : List (Encalg K R) :=
  [⟨"descbc", 8, .DESCBC, initDESkey L⟩, ⟨"desecb", 8, .DESECB, initDESkey L⟩,
    ⟨"des_56_cbc", 8, .DESCBC, initDESkey L⟩, ⟨"des_56_ecb", 8, .DESECB, initDESkey L⟩,
    ⟨"des_40_cbc", 8, .DESCBC, initDESkey_40 L⟩, ⟨"des_40_ecb", 8, .DESECB, initDESkey_40 L⟩,
    ⟨"rc4", 1, .RC4, initRC4key_40 L⟩, ⟨"rc4_256", 1, .RC4, initRC4key L⟩,
    ⟨"rc4_128", 1, .RC4, initRC4key_128 L⟩, ⟨"rc4_40", 1, .RC4, initRC4key_40 L⟩]

def parseencryptalg (p : String) (s : Dstate K R) : Except String (Option (Dstate K R)) :=
  match (encrypttab L).find? fun ea => ea.name = p with
  | none => .ok none
  | some ea => do
      let inway ← ea.keyinit s.in'
      let outway ← ea.keyinit s.out
      pure (some { s with
        encryptalg := ea.alg, blocklen := ea.blocklen, in' := inway, out := outway
        state := s.state.encrypt })

/-- The loop over the names of a request. -/
def parseLoop : List String → Dstate K R → Except String (Dstate K R)
  | [], s => .ok s
  | p :: ps, s =>
      match parsehashalg p s with
      | some s => parseLoop ps s
      | none => do
          match ← parseencryptalg L p s with
          | some s => parseLoop ps s
          | none => .error "bad algorithm"

/-- A secret given for one direction only is used for both. -/
def sharesecret (s : Dstate K R) : Dstate K R :=
  let s := if s.in'.secret.isSome ∧ s.out.secret = none then
      { s with out := { s.out with secret := s.in'.secret } } else s
  if s.out.secret.isSome ∧ s.in'.secret = none then
    { s with in' := { s.in' with secret := s.out.secret } } else s

/-- The largest records for the algorithms chosen. -/
def limits (s : Dstate K R) : Dstate K R :=
  if s.blocklen ≠ 1 then
    let max := 32768 - s.diglen - 1
    let maxpad := 16384 - s.diglen - 1
    { s with max := max - max % s.blocklen, maxpad := maxpad - maxpad % s.blocklen }
  else { s with max := 32768 - s.diglen - 1, maxpad := 32768 - s.diglen - 1 }

/-- The control request `alg p`. -/
def alg (p : String) (s : Dstate K R) : Except String (Dstate K R) :=
  let s := { s with blocklen := 1, diglen := 0 }
  if s.c = false then .error "must set fd before algorithm"
  else
    let s := { s with
      state := .Sclear, maxpad := 32768 - s.diglen - 1, max := 32768 - s.diglen - 1 }
    if p = "clear" then .ok s
    else
      let s := sharesecret s
      if s.in'.secret = none ∨ s.out.secret = none then .error "algorithm but no secret"
      else do
        let s := { s with hf := none, encryptalg := .Noencryption, blocklen := 1 }
        let s ← parseLoop L ((p.toList.splitOn ' ').map String.ofList) s
        if s.hf = none ∧ s.encryptalg = .Noencryption then .error "bad algorithm"
        else pure (limits s)

/-! ### Writing -/

/-- Encrypt a text in place. A last block that the text does not fill is encrypted with what is
behind it in memory. -/
def encryptb (a : Encrypt) (st : Cstate K R) (beyond : ℕ → UInt8) (p : List UInt8) :
    Cstate K R × List UInt8 :=
  let n := p.length
  let rounds := (n + 7) / 8
  let whole := p ++ (List.range (8 * rounds - n)).map beyond
  match a, st with
  | .DESECB, .des ds =>
      let (q, _) := blockwise 8 (ecbStep fun b => L.block_cipher ds.expanded b false) rounds
        ds.ivec whole
      (st, q.take n)
  | .DESCBC, .des ds =>
      let (q, ivec) := blockwise 8 (cbcEncrypt fun b => L.block_cipher ds.expanded b false) rounds
        ds.ivec whole
      (.des { ds with ivec := ivec }, q.take n)
  | .RC4, .rc4 r =>
      let (q, r) := L.rc4 r p
      (.rc4 r, q)
  | _, _ => (st, p)

/-- The digest of a record: secret, message and message id. -/
def digest (s : Dstate K R) (w : OneWay K R) (message : List UInt8) : List UInt8 :=
  match s.hf with
  | none => []
  | some h => L.hash h (w.secret.getD [] ++ message ++ hnputl w.mid)

/-- How many bytes go into the next record, and its padding. -/
def trim (s : Dstate K R) (n : ℕ) : ℕ × ℕ :=
  if s.max < n then (s.max, 0)
  else if s.blocklen ≠ 1 then
    let pad := (n + s.diglen) % s.blocklen
    if pad ≠ 0 then
      if s.maxpad < n then (s.maxpad, 0) else (n, s.blocklen - pad)
    else (n, 0)
  else (n, 0)

/-- SSL style count. -/
def header (m pad : ℕ) : List UInt8 :=
  if pad ≠ 0 then [uchar (m >>> 8), uchar m, uchar pad] else [uchar (m >>> 8 ||| 0x80), uchar m]

/-- What the memory of a record holds: the random fill, and what is behind it. -/
structure Memory where
  fill : ℕ → UInt8 := fun _ => 0
  beyond : ℕ → UInt8 := fun _ => 0

/-- One record with the text `text` and `pad` bytes of padding. -/
def putRecord (s : Dstate K R) (mem : Memory) (text : List UInt8) (pad : ℕ) :
    Dstate K R × List UInt8 :=
  let message := text ++ (List.range pad).map mem.fill
  let hd := header (message.length + s.diglen) pad
  let next (out : OneWay K R) := { s with out := { out with mid := out.mid + 1 } }
  match s.state with
  | .Sencrypting =>
      let (st, q) := encryptb L s.encryptalg s.out.state mem.beyond message
      (next { s.out with state := st }, hd ++ q)
  | .Sdigesting => (next s.out, hd ++ (digest L s s.out message ++ message))
  | .Sdigenc =>
      let (st, q) := encryptb L s.encryptalg s.out.state mem.beyond
        (digest L s s.out message ++ message)
      (next { s.out with state := st }, hd ++ q)
  | _ => (next s.out, hd ++ message)

/-- The records of a block; `fuel` is more than the bytes of the block, and `mem` gives the memory
of each record by its message id. -/
def sslput (mem : ℕ → Memory) : ℕ → Dstate K R → List UInt8 → Dstate K R × List (List UInt8)
  | 0, s, _ => (s, [])
  | fuel + 1, s, b =>
      let (m, pad) := trim s b.length
      let (s, rec) := putRecord L s (mem s.out.mid) (b.take m) pad
      if m ≠ b.length then
        let (s, recs) := sslput mem fuel s (b.drop m)
        (s, rec :: recs)
      else (s, [rec])

/-- `sslwrite` to the data file: blocks of at most `max` bytes, and at least one. -/
def chunks (max : ℕ) : ℕ → List UInt8 → List (List UInt8)
  | 0, _ => []
  | fuel + 1, p => if p.length ≤ max then [p] else p.take max :: chunks max fuel (p.drop max)

/-- A write to the connection. -/
inductive Write where
  /-- the bytes of `sslwrite` -/
  | sslwrite (p : List UInt8)
  /-- the block of `sslbwrite` -/
  | sslbwrite (b : List UInt8)
  deriving DecidableEq

def Write.bytes : Write → List UInt8
  | .sslwrite p => p
  | .sslbwrite b => b

/-- The blocks that a write hands to `sslput`. -/
def Write.blocks (s : Dstate K R) : Write → List (List UInt8)
  | .sslwrite p => chunks s.max (p.length + 1) p
  | .sslbwrite b => [b]

/-- The records of a sequence of blocks. -/
def putBlocks (mem : ℕ → Memory) : Dstate K R → List (List UInt8) → Dstate K R × List (List UInt8)
  | s, [] => (s, [])
  | s, b :: bs =>
      let (s, recs) := sslput L mem (b.length + 1) s b
      let (s, recs') := putBlocks mem s bs
      (s, recs ++ recs')

/-! ### Reading

A string of blocks is a list of byte strings. -/

/-- The loop of `pullupblock`. -/
def pullupLoop (bp : List UInt8) : List (List UInt8) → ℕ → Option (List (List UInt8))
  | [], _ => none
  | nbp :: next, n =>
      if n < nbp.length then some ((bp ++ nbp.take n) :: nbp.drop n :: next)
      else if n - nbp.length = 0 then some ((bp ++ nbp) :: next)
      else pullupLoop (bp ++ nbp) next (n - nbp.length)

/-- The string with at least `n` bytes in its first block, if it has as many. -/
def pullupblock : List (List UInt8) → ℕ → Option (List (List UInt8))
  | [], _ => none
  | bp :: next, n => if n ≤ bp.length then some (bp :: next) else pullupLoop bp next (n - bp.length)

/-- How a call that reads the transport ends. -/
inductive Outcome (α : Type) where
  | ok (a : α)
  /-- The transport has no more bytes for now. -/
  | wait
  | error (msg : String)

def Ehungup : String := "i/o on hungup channel"

/-- Make sure that there are at least `n` bytes; `net` are the strings of blocks that the transport
gives next. -/
def ensure (n : ℕ) : List (List (List UInt8)) → List (List UInt8) →
    Outcome Unit × List (List UInt8) × List (List (List UInt8))
  | [], l => (if n ≤ l.flatten.length then .ok () else .wait, l, [])
  | bl :: net, l =>
      if n ≤ l.flatten.length then (.ok (), l, bl :: net)
      else if bl.flatten.length = 0 then (.error Ehungup, l ++ bl, net)
      else ensure n net (l ++ bl)

/-- Drop `n` bytes. -/
def consume : List (List UInt8) → ℕ → List (List UInt8)
  | [], _ => []
  | b :: l, n =>
      if n = 0 then b :: l else if n < b.length then b.drop n :: l else consume l (n - b.length)

/-- Remove at most `n` bytes from the string; if `discard` is set the remainder goes. -/
def qtake (discard : Bool) : List (List UInt8) → ℕ → List (List UInt8) × List (List UInt8)
  | [], _ => ([], [])
  | b :: l, n =>
      if b.length = n then ([b], if discard then [] else l)
      else if n < b.length then ([b.take n], if discard then [] else b.drop n :: l)
      else
        let (first, rest) := qtake discard l (n - b.length)
        (b :: first, rest)

/-- Decrypt the bytes of one block. -/
def decrypt (a : Encrypt) (st : Cstate K R) (p : List UInt8) : Cstate K R × List UInt8 :=
  let rounds := (p.length + 7) / 8
  match a, st with
  | .DESECB, .des ds =>
      let (q, _) := blockwise 8 (ecbStep fun b => L.block_cipher ds.expanded b true) rounds
        ds.ivec p
      (st, q)
  | .DESCBC, .des ds =>
      let (q, ivec) := blockwise 8 (cbcDecrypt fun b => L.block_cipher ds.expanded b true) rounds
        ds.ivec p
      (.des { ds with ivec := ivec }, q)
  | .RC4, .rc4 r =>
      let (q, r) := L.rc4 r p
      (.rc4 r, q)
  | _, _ => (st, p)

/-- Decrypt a string, each of its blocks made a multiple of the blocking length first; `fuel` is the
number of blocks. -/
def decryptb (a : Encrypt) (blocklen : ℕ) :
    ℕ → Cstate K R → List (List UInt8) → Option (Cstate K R × List (List UInt8))
  | _, st, [] => some (st, [])
  | 0, _, _ :: _ => none
  | fuel + 1, st, b :: next =>
      let i := b.length
      let whole :=
        if 1 < blocklen ∧ i % blocklen ≠ 0 then
          pullupblock (b :: next) (i + blocklen - i % blocklen)
        else some (b :: next)
      match whole with
      | some (b :: next) =>
          let (st, q) := decrypt L a st b
          (decryptb a blocklen fuel st next).map fun (st, qs) => (st, q :: qs)
      | _ => none

/-- The first `diglen` bytes are the digest of the others. -/
def checkdigestb (s : Dstate K R) (b : List (List UInt8)) : Bool :=
  b.flatten.take s.diglen = (digest L s s.in' (b.flatten.drop s.diglen)).take s.diglen

/-- Drop the digest, which is in the first block. -/
def dropDigest (s : Dstate K R) : List (List UInt8) → List (List UInt8)
  | [] => []
  | b :: next => b.drop s.diglen :: next

/-- Decrypt a message of `len` bytes and check its digest: the string, and its length. -/
def openMessage (s : Dstate K R) (b : List (List UInt8)) (len : ℕ) :
    Except String (Dstate K R × List (List UInt8) × ℕ) :=
  let decrypted : Option (Dstate K R × List (List UInt8)) :=
    (decryptb L s.encryptalg s.blocklen b.length s.in'.state b).map fun (st, b) =>
      ({ s with in' := { s.in' with state := st } }, b)
  match s.state with
  | .Sencrypting =>
      if b = [] then .error "ssl message too short (encrypting)"
      else
        match decrypted with
        | none => .error "ssl encrypted message too short"
        | some (s, b) => .ok (s, b, len)
  | .Sdigesting =>
      match pullupblock b s.diglen with
      | none => .error "ssl message too short (digesting)"
      | some b =>
          if checkdigestb L s b then .ok (s, dropDigest s b, len) else .error "bad digest"
  | .Sdigenc =>
      match decrypted with
      | none => .error "ssl encrypted message too short"
      | some (s, b) =>
          match pullupblock b s.diglen with
          | none => .error "ssl message too short (dig+enc)"
          | some b =>
              if checkdigestb L s b then .ok (s, dropDigest s b, len - s.diglen)
              else .error "bad digest"
  | _ => .ok (s, b, len)

/-- A connection and its transport. -/
structure End (K R : Type) where
  s : Dstate K R
  net : List (List (List UInt8))

/-- Make sure that the connection has `n` unprocessed bytes. -/
def End.ensure (e : End K R) (n : ℕ) : Outcome Unit × End K R :=
  let (r, l, net) := Ssl.ensure n e.net e.s.unprocessed
  (r, { s := { e.s with unprocessed := l }, net := net })

/-- Read in the whole message behind the header of `toconsume` bytes, and open it. -/
def End.message (e : End K R) (toconsume len pad : ℕ) : Outcome Unit × End K R :=
  match e.ensure (toconsume + len) with
  | (.wait, e) => (.wait, e)
  | (.error msg, e) => (.error msg, e)
  | (.ok _, e) =>
      let (b, rest) := qtake false (consume e.s.unprocessed toconsume) len
      let e := { e with s := { e.s with unprocessed := rest } }
      match openMessage L e.s b len with
      | .error msg => (.error msg, e)
      | .ok (s, b, len) =>
          let processed := if pad ≠ 0 then (qtake true b (len - pad)).1 else b
          (.ok (), { e with s := { s with
            processed := processed, in' := { s.in' with mid := s.in'.mid + 1 } } })

/-- Read the message whose header is at the start of the first block. -/
def End.headed (e : End K R) : Outcome Unit × End K R :=
  let p := e.s.unprocessed.flatten
  if (p.getD 0 0).toNat &&& 0x80 ≠ 0 then
    let len := ((p.getD 0 0).toNat &&& 0x7f) <<< 8 ||| (p.getD 1 0).toNat
    match e.ensure len with
    | (.wait, e) => (.wait, e)
    | (.error msg, e) => (.error msg, e)
    | (.ok _, e) => e.message L 2 len 0
  else
    match pullupblock e.s.unprocessed 3 with
    | none => (.error Ehungup, e)
    | some l =>
        let e := { e with s := { e.s with unprocessed := l } }
        let len := ((p.getD 0 0).toNat &&& 0x3f) <<< 8 ||| (p.getD 1 0).toNat
        let pad := (p.getD 2 0).toNat
        if len < pad then (.error "bad pad in ssl message", e) else e.message L 3 len pad

/-- Read the next message. -/
def End.next (e : End K R) : Outcome Unit × End K R :=
  match e.ensure 3 with
  | (.wait, e) => (.wait, e)
  | (.error msg, e) => (.error msg, e)
  | (.ok _, e) =>
      match pullupblock e.s.unprocessed 2 with
      | none => (.error Ehungup, e)
      | some l => End.headed L { e with s := { e.s with unprocessed := l } }

/-- Read at most `n` bytes. -/
def sslbread (e : End K R) (n : ℕ) : Outcome (List (List UInt8)) × End K R :=
  if e.s.state = .Sincomplete then (.error "inappropriate use of fd", e)
  else
    let (r, e) := if e.s.processed = [] then e.next L else (.ok (), e)
    match r with
    | .wait => (.wait, e)
    | .error msg => (.error msg, e)
    | .ok _ =>
        let (b, rest) := qtake false e.s.processed n
        (.ok b, { e with s := { e.s with processed := rest } })

end PlanNine.Ssl
