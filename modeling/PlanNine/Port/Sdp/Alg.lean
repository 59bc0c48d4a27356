import PlanNine.Port.Sdp.Types

/-!
# Ciphers, authenticators and compressors of the secure datagram protocol

The algorithms that a conversation applies to its packets, and the routines that set them up from
the secrets of the two directions.

## Main definitions

* `setkey`, `setsecret`: keys from secrets, secrets from control requests.
* `desencrypt`, `desdecrypt`, `rc4encrypt`, `rc4decrypt`, `md5auth`: the algorithms.
* `thwackcomp`, `thwackuncomp`: compression with acknowledgements of the blocks held.
* `cipherfree`, `authfree`, `compfree` and the `init` routines.
-/

namespace PlanNine.Sdp

open Thw

variable (L : Libsec)

/-! ### Keys -/

/-- One round of `setkey`: sixteen bytes of key. -/
def setkeyRound (secret : List UInt8) (pfx : List UInt8) (round : ℕ) : List UInt8 :=
  let salt := List.replicate (round + 1) (uchar (0x41 + round))
  L.md5 (secret ++ L.sha1 (salt ++ pfx))

/-- The key of `n` bytes for the purpose `pfx`. -/
def setkey (n : ℕ) (ow : OneWay) (pfx : List UInt8) : List UInt8 :=
  ((List.range ((n + 15) / 16)).flatMap (setkeyRound L ow.secret pfx)).take n

/-- The bytes of `"cipher"`. -/
def cipherPrefix : List UInt8 := [0x63, 0x69, 0x70, 0x68, 0x65, 0x72]

/-- The bytes of `"auth"`. -/
def authPrefix : List UInt8 := [0x61, 0x75, 0x74, 0x68]

/-- The value of a hexadecimal digit. -/
def hexval (c : Char) : Option ℕ :=
  if '0' ≤ c ∧ c ≤ '9' then some (c.toNat - '0'.toNat)
  else if 'a' ≤ c ∧ c ≤ 'f' then some (c.toNat - 'a'.toNat + 10)
  else if 'A' ≤ c ∧ c ≤ 'F' then some (c.toNat - 'A'.toNat + 10)
  else none

/-- The loop of `setsecret` from the digit `i` on: the secret, and whether all digits were read. -/
def setsecretLoop : List Char → ℕ → List UInt8 → List UInt8 × Bool
  | [], _, secret => (secret, true)
  | p :: ps, i, secret =>
      if SecretLength * 2 ≤ i then (secret, true)
      else
        match hexval p with
        | none => (secret, false)
        | some c =>
            let c := if i % 2 = 0 then c <<< 4 else c
            setsecretLoop ps (i + 1)
              (secret.set (i >>> 1) (uchar ((secret.getD (i >>> 1) 0).toNat ||| c)))

/-- A secret from its hexadecimal digits, and whether they are all well formed. -/
def setsecret (ow : OneWay) (secret : List Char) : OneWay × Bool :=
  let (s, ok) := setsecretLoop secret 0 (List.replicate SecretLength 0)
  ({ ow with secret := s }, ok)

/-! ### Ciphers -/

/-- `for(…) *p++ ^= *ip++`. -/
def xorBytes (p q : List UInt8) : List UInt8 := List.zipWith (· ^^^ ·) p q

/-- The blocks of `desencrypt` after the initial vector; the result and the last block. A block
that the end of the buffer cuts short is completed with zeros. -/
def desencryptLoop (key : List UInt8) : ℕ → List UInt8 → List UInt8 → List UInt8 × List UInt8
  | 0, ivec, _ => ([], ivec)
  | fuel + 1, ivec, p =>
      if p = [] then ([], ivec)
      else
        let blk := p.take 8 ++ List.replicate (8 - p.length) 0
        let c := L.block_cipher key (xorBytes blk ivec) false
        let (rest, last) := desencryptLoop key fuel c (p.drop 8)
        (c ++ rest, last)

/-- Encrypt in place; the first eight bytes become the initial vector. -/
def desencrypt (ow : OneWay) (p : List UInt8) (n : ℤ) : Option (Bool × OneWay × List UInt8) :=
  if n < 8 ∨ n % 2 ≠ 0 then some (false, ow, p)
  else
    match ow.cipherstate with
    | some (.des key ivec) =>
        let (c, last) := desencryptLoop L key p.length ivec (p.drop 8)
        some (true, { ow with cipherstate := some (.des key last) }, (ivec ++ c).take p.length)
    | _ => none

def desdecryptLoop (key : List UInt8) : ℕ → List UInt8 → List UInt8 → List UInt8 × List UInt8
  | 0, ivec, _ => ([], ivec)
  | fuel + 1, ivec, p =>
      if p = [] then ([], ivec)
      else
        let tmp := p.take 8 ++ List.replicate (8 - p.length) 0
        let m := xorBytes (L.block_cipher key tmp true) ivec
        let (rest, last) := desdecryptLoop key fuel tmp (p.drop 8)
        (m ++ rest, last)

/-- Decrypt in place; the first eight bytes are the initial vector. -/
def desdecrypt (ow : OneWay) (p : List UInt8) (n : ℤ) : Option (Bool × OneWay × List UInt8) :=
  if n < 8 ∨ n % 2 ≠ 0 then some (false, ow, p)
  else
    match ow.cipherstate with
    | some (.des key _) =>
        let (m, last) := desdecryptLoop L key p.length (p.take 8) (p.drop 8)
        some (true, { ow with cipherstate := some (.des key last) },
          (p.take 8 ++ m).take p.length)
    | _ => none

/-- `rc4(state, p, n)`: the bytes under the key stream and the state past them. -/
def rc4 (st : RC4state) (p : List UInt8) : RC4state × List UInt8 :=
  ({ st with pos := st.pos + p.length }, p.mapIdx fun i b => b ^^^ L.rc4stream st.key (st.pos + i))

/-- `rc4skip(state, n)`. -/
def rc4skip (st : RC4state) (n : ℤ) : RC4state := { st with pos := st.pos + n.toNat }

def rc4encrypt (ow : OneWay) (p : List UInt8) (n : ℤ) : Option (Bool × OneWay × List UInt8) :=
  if n < 4 then some (false, ow, p)
  else
    match ow.cipherstate with
    | some (.rc4 cr) =>
        let (st, c) := rc4 L cr.current (p.drop 4)
        let cr' := { cr with current := st, cseq := (cr.cseq + (p.length - 4)) % 4294967296 }
        some (true, { ow with cipherstate := some (.rc4 cr') }, hnputl cr.cseq ++ c)
    | _ => none

/-- `move old state up`. -/
def moveold (cr : CipherRc4) : CipherRc4 :=
  if cr.ovalid then
    let dd := long (ulong ((cr.cseq : ℤ) - RC4back - cr.oseq))
    if 0 < dd then
      { cr with old := rc4skip cr.old dd, oseq := ulong (cr.oseq + dd) }
    else cr
  else cr

def rc4decrypt (ow : OneWay) (p : List UInt8) (n : ℤ) : Option (Bool × OneWay × List UInt8) :=
  if n < 4 then some (false, ow, p)
  else
    match ow.cipherstate with
    | some (.rc4 cr) =>
        let seq := nhgetl p
        let q := p.drop 4
        let done (cr : CipherRc4) (m : List UInt8) :=
          some (true, { ow with cipherstate := some (.rc4 cr) }, p.take 4 ++ m)
        let d := long (ulong ((seq : ℤ) - cr.cseq))
        if d = 0 then
          let (st, m) := rc4 L cr.current q
          let cr := { cr with current := st, cseq := (cr.cseq + q.length) % 4294967296 }
          let cr := { cr with
            ovalid := cr.ovalid && !decide (long (ulong ((cr.cseq : ℤ) - cr.lgseq)) > RC4back) }
          done (moveold cr) m
        else if 0 < d then
          -- the link is hosed
          if d > RC4forward then some (false, ow, p)
          else
            let cr := { cr with lgseq := seq }
            let cr := if cr.ovalid then cr else
              { cr with ovalid := true, oseq := cr.cseq, old := cr.current }
            let (st, m) := rc4 L (rc4skip cr.current d) q
            done (moveold { cr with current := st, cseq := (seq + q.length) % 4294967296 }) m
        else
          -- a reordered packet is read with a copy of the old state
          let dd := long (ulong ((seq : ℤ) - cr.oseq))
          if ¬ cr.ovalid ∨ -d > RC4back ∨ dd < 0 then some (false, ow, p)
          else done cr (rc4 L (rc4skip cr.old dd) q).2
    | _ => none

/-- `(*ow->cipher)(ow, p, n)`; `none` when the state of the cipher is missing. -/
def CipherFn.run : CipherFn → OneWay → List UInt8 → ℤ → Option (Bool × OneWay × List UInt8)
  | .desencrypt => PlanNine.Sdp.desencrypt L
  | .desdecrypt => PlanNine.Sdp.desdecrypt L
  | .rc4encrypt => PlanNine.Sdp.rc4encrypt L
  | .rc4decrypt => PlanNine.Sdp.rc4decrypt L

/-- `cipherfree(c)`: `c->out.cipher` is left alone. -/
def cipherfree (c : Conv) : Conv :=
  { c with
    inp := { c.inp with cipherstate := none, cipher := none, cipherblklen := 0, cipherivlen := 0 }
    out := { c.out with cipherstate := none, cipherblklen := 0, cipherivlen := 0 } }

def nullcipherinit (c : Conv) : Conv := cipherfree c

def descipherinit (ivec : List UInt8) (keylen : ℕ) (c : Conv) : Conv :=
  let c := cipherfree c
  let n := if keylen > 8 then 8 else keylen
  let key (ow : OneWay) := setkey L n ow cipherPrefix ++ List.replicate (8 - n) 0
  { c with
    inp := { c.inp with
      cipherblklen := 8, cipherivlen := 8, cipher := some .desdecrypt
      cipherstate := some (.des (key c.inp) (List.replicate 8 0)) }
    out := { c.out with
      cipherblklen := 8, cipherivlen := 8, cipher := some .desencrypt
      cipherstate := some (.des (key c.out) ivec) } }

def rc4cipherinit (keylen : ℕ) (c : Conv) : Conv :=
  let c := cipherfree c
  let n := if keylen > 32 then 32 else keylen
  let cr (ow : OneWay) : CipherRc4 := { current := ⟨setkey L n ow cipherPrefix, 0⟩ }
  { c with
    inp := { c.inp with
      cipherblklen := 1, cipherivlen := 4, cipher := some .rc4decrypt
      cipherstate := some (.rc4 (cr c.inp)) }
    out := { c.out with
      cipherblklen := 1, cipherivlen := 4, cipher := some .rc4encrypt
      cipherstate := some (.rc4 (cr c.out)) } }

def Cipheralg.keylen : Cipheralg → ℕ
  | .null => 0
  | .des_56_cbc => 7
  | .rc4_128 => 16
  | .rc4_256 => 32

def Cipheralg.init (ivec : List UInt8) (a : Cipheralg) : Conv → Conv :=
  match a with
  | .null => nullcipherinit
  | .des_56_cbc => descipherinit L ivec a.keylen
  | .rc4_128 | .rc4_256 => rc4cipherinit L a.keylen

/-! ### Authenticators -/

/-- The keyed digest of the wrap count and the bytes of a packet. -/
def seanq_hmac_md5 (wrap : ℕ) (t key : List UInt8) : List UInt8 :=
  let pad (b : UInt8) := (List.range 64).map fun i => b ^^^ key.getD i 0
  L.md5 (pad 0x5c ++ L.md5 (pad 0x36 ++ hnputl wrap ++ t))

/-- Compare the last bytes of `t` with the digest of the others and replace them by it. -/
def md5auth (ow : OneWay) (t : List UInt8) : Option (Bool × List UInt8) :=
  if t.length < ow.authlen then some (false, t)
  else
    match ow.authstate with
    | none => none
    | some key =>
        let body := t.take (t.length - ow.authlen)
        let hash := (seanq_hmac_md5 L ow.seqwrap body (key.take 16)).take ow.authlen
        some (t.drop (t.length - ow.authlen) == hash, body ++ hash)

def AuthFn.run : AuthFn → OneWay → List UInt8 → Option (Bool × List UInt8)
  | .md5auth => PlanNine.Sdp.md5auth L

/-- `authfree(c)`: `c->out.auth` is left alone. -/
def authfree (c : Conv) : Conv :=
  { c with
    inp := { c.inp with authstate := none, auth := none, authlen := 0 }
    out := { c.out with authstate := none, authlen := 0 } }

def nullauthinit (c : Conv) : Conv := authfree c

def shaauthinit (c : Conv) : Conv := authfree c

def md5authinit (keylen : ℕ) (c : Conv) : Conv :=
  let c := authfree c
  let n := if keylen > 16 then 16 else keylen
  let key (ow : OneWay) := setkey L n ow authPrefix ++ List.replicate (16 - n) 0
  { c with
    inp := { c.inp with authstate := some (key c.inp), authlen := 12, auth := some .md5auth }
    out := { c.out with authstate := some (key c.out), authlen := 12, auth := some .md5auth } }

def Authalg.keylen : Authalg → ℕ
  | .null => 0
  | .hmac_sha1_96 | .hmac_md5_96 => 16

def Authalg.init : Authalg → Conv → Conv
  | .null => nullauthinit
  | .hmac_sha1_96 => shaauthinit
  | .hmac_md5_96 => md5authinit L Authalg.hmac_md5_96.keylen

/-! ### Compressors -/

def ThwackU : ℕ := 0
def ThwackC : ℕ := 1

/-- `compfree(c)`: `c->out.comp` is left alone. -/
def compfree (c : Conv) : Conv :=
  { c with
    inp := { c.inp with compstate := none, comp := none }
    out := { c.out with compstate := none } }

/-- Compress the bytes of a data packet behind the acknowledgement of the blocks held: the
conversation, the subtype and the bytes; `none` when a state is missing. -/
def thwackcomp (c : Conv) (seq : ℕ) (b : List UInt8) : Option (Conv × ℕ × List UInt8) :=
  match c.inp.compstate, c.out.compstate with
  | some (.unthwack ut), some (.thwack tw) =>
      let (ackseq, mask) := unthwackstate ut
      let b := [uchar mask, uchar (ackseq >>> 16), uchar (ackseq >>> 8), uchar ackseq] ++ b
      let (tw, r, stats) := thwack tw b seq c.lstats.outCompStats
      let c := { c with
        lstats := { c.lstats with outCompStats := stats }
        out := { c.out with compstate := some (.thwack tw) } }
      match r with
      | none => some (c, ThwackU, b)
      | some bb => some (c, ThwackC, bb)
  | _, _ => none

/-- Undo `thwackcomp`: the conversation and the block, if there is one; `none` when a state is
missing or the call does not return. -/
def thwackuncomp (c : Conv) (subtype seq : ℕ) (b : Block) : Option (Conv × Option Block) :=
  if subtype = ThwackU then
    match c.out.compstate with
    | some (.thwack tw) =>
        let mseq := b.byte 1 <<< 16 ||| b.byte 2 <<< 8 ||| b.byte 3
        some ({ c with
            out := { c.out with compstate := some (.thwack (thwackack tw mseq (b.byte 0))) } },
          some { b with rp := b.rp + 4 })
    | _ => none
  else if subtype = ThwackC then
    match c.inp.compstate, c.out.compstate with
    | some (.unthwack ut), some (.thwack tw) =>
        let (ut, r) := unthwack ut ThwMaxBlock b.data seq
        let c := { c with inp := { c.inp with compstate := some (.unthwack ut) } }
        match r with
        | .done l =>
            let b := Block.ofList l
            let mseq := b.byte 1 <<< 16 ||| b.byte 2 <<< 8 ||| b.byte 3
            some ({ c with
                out := { c.out with compstate := some (.thwack (thwackack tw mseq (b.byte 0))) } },
              some { b with rp := 4 })
        | .stuck => none
        | _ => some (c, none)
    | _, _ => none
  else some (c, none)

end PlanNine.Sdp
