import PlanNine.Lib.Blockwise
import PlanNine.Lib.Slice
import PlanNine.Lib.Ulong

/-!
# The encapsulating security payload

A conversation of the protocol encrypts what is written to it and adds an authenticator; at the
other end a conversation of the same security parameter index checks and decrypts it. The
algorithms are chosen by control requests, which carry the keys. The functions of the crypto library
are parameters, and a read outside the bytes that a key was stored in is a fault.

## Main definitions

* `Libsec`, `Libsec.Lawful`: the functions of the crypto library, and what is relied on.
* `Espcb`: the part of a conversation that belongs to the protocol.
* `nullcipher`, `descipher`, `rc4cipher`, `shaauth`, `md5auth`: the algorithms.
* `setalg`, `espctl`: the control requests.
* `espkick`, `espiput`: sending and receiving a packet.
-/

namespace PlanNine.Esp

def IphdrSize : ℕ := 20

/-- The size with the header of the IP packet. -/
def EsphdrSize : ℕ := 28

/-- The size without the padding and the authenticator. -/
def EsptailSize : ℕ := 2

def UserhdrSize : ℕ := 4

def IP_VER4 : UInt8 := 0x40

def IP_ESPPROTO : UInt8 := 50

/-- The most bytes that the RC4 cipher skips. -/
def RC4forward : ℤ := 10 * 1024 * 1024

/-- The most bytes that it looks back. -/
def RC4back : ℤ := 100 * 1024

inductive Fault where
  /-- Memory outside an allocation is read. -/
  | badread
  | panic (msg : String)
  deriving DecidableEq, Repr

/-- The functions of the crypto library, over its expanded DES keys `K` and RC4 states `R`. -/
structure Libsec (K R : Type) where
  setupDESstate : List UInt8 → K
  /-- The flag is set for decryption. -/
  block_cipher : K → List UInt8 → Bool → List UInt8
  setupRC4state : List UInt8 → R
  rc4 : R → List UInt8 → List UInt8 × R
  rc4skip : R → ℕ → R
  sha1 : List UInt8 → List UInt8
  md5 : List UInt8 → List UInt8

variable {K R : Type}

/-- The ciphers are inverted by their decryption, and lengths are what they should be. -/
structure Libsec.Lawful (L : Libsec K R) : Prop where
  length_block_cipher : ∀ k b, b.length = 8 → (L.block_cipher k b false).length = 8
  block_cipher_inverse : ∀ k b, b.length = 8 → L.block_cipher k (L.block_cipher k b false) true = b
  length_rc4 : ∀ r p, (L.rc4 r p).1.length = p.length
  rc4_inverse : ∀ r p, L.rc4 r (L.rc4 r p).1 = (p, (L.rc4 r p).2)
  length_sha1 : ∀ p, (L.sha1 p).length = 20
  length_md5 : ∀ p, (L.md5 p).length = 16

structure DESstate (K : Type) where
  expanded : K
  ivec : List UInt8

structure Esprc4 (R : Type) where
  /-- current byte sequence number -/
  cseq : ℕ := 0
  current : R
  /-- last good sequence -/
  lgseq : ℕ := 0
  /-- old byte sequence number -/
  oseq : ℕ := 0
  /-- The old state, while it is valid. -/
  old : Option R := none

/-- The state of an encryption algorithm. -/
inductive Espstate (K R : Type) where
  | none
  | des (ds : DESstate K)
  | rc4 (esprc4 : Esprc4 R)

inductive Cipher where
  | nullcipher | descipher | rc4cipher
  deriving DecidableEq

inductive Auth where
  | nullauth | shaauth | md5auth
  deriving DecidableEq

structure Espcb (K R : Type) where
  incoming : Bool := false
  /-- user level header -/
  header : Bool := false
  spi : ℕ := 0
  /-- last seq sent -/
  seq : ℕ := 0
  espalg : String := "null"
  espstate : Espstate K R := .none
  /-- in bytes -/
  espivlen : ℕ := 0
  espblklen : ℕ := 1
  cipher : Cipher := .nullcipher
  ahalg : String := "null"
  /-- The bytes that the authenticator stored its key in. -/
  ahstate : List UInt8 := []
  /-- auth data length in bytes -/
  ahlen : ℕ := 0
  ahblklen : ℕ := 1
  auth : Auth := .nullauth

/-- Read the first `n` bytes of an allocation. -/
def readKey (stored : List UInt8) (n : ℕ) : Except Fault (List UInt8) :=
  if n ≤ stored.length then .ok (stored.take n) else .error .badread

variable (L : Libsec K R)

/-! ### Ciphers

A cipher works on a buffer in place; the flag tells whether it succeeded. -/

/-- The text between the initial vector and the end is one of whole blocks. -/
def descipher (ecb : Espcb K R) (ds : DESstate K) (p : List UInt8) : Espcb K R × List UInt8 :=
  let n := (p.length - 8 + 7) / 8
  if ecb.incoming then
    let (text, ivec) := blockwise 8 (cbcDecrypt fun b => L.block_cipher ds.expanded b true) n
      (p.take 8) (p.drop 8)
    ({ ecb with espstate := .des { ds with ivec := ivec } }, p.take 8 ++ text)
  else
    let (text, ivec) := blockwise 8 (cbcEncrypt fun b => L.block_cipher ds.expanded b false) n
      ds.ivec (p.drop 8)
    ({ ecb with espstate := .des { ds with ivec := ivec } }, ds.ivec ++ text)

/-- Move the old state up. -/
def Esprc4.moveold (e : Esprc4 R) : Esprc4 R :=
  match e.old with
  | none => e
  | some old =>
      let dd := long (ulong ((e.cseq : ℤ) - RC4back - e.oseq))
      if 0 < dd then
        { e with old := some (L.rc4skip old dd.toNat), oseq := ulong (e.oseq + dd) }
      else e

/-- Decrypt the bytes behind the sequence number `seq`. -/
def Esprc4.input (e : Esprc4 R) (seq : ℕ) (p : List UInt8) : Esprc4 R × List UInt8 × Bool :=
  let d := long (ulong ((seq : ℤ) - e.cseq))
  if d = 0 then
    let (q, current) := L.rc4 e.current p
    let e := { e with current := current, cseq := ulong (e.cseq + p.length) }
    let e :=
      if e.old.isSome ∧ RC4back < long (ulong ((e.cseq : ℤ) - e.lgseq)) then { e with old := none }
      else e
    (e.moveold L, q, true)
  else if 0 < d then
    if RC4forward < d then (e, p, false)
    else
      let e := { e with lgseq := seq }
      let e := if e.old.isSome then e else { e with old := some e.current, oseq := e.cseq }
      let (q, current) := L.rc4 (L.rc4skip e.current d.toNat) p
      (Esprc4.moveold L { e with current := current, cseq := ulong (seq + p.length) }, q, true)
  else
    let dd := long (ulong ((seq : ℤ) - e.oseq))
    match e.old with
    | none => (e, p, false)
    | some old =>
        if RC4back < -d ∨ dd < 0 then (e, p, false)
        else (e, (L.rc4 (L.rc4skip old dd.toNat) p).1, true)

def rc4cipher (ecb : Espcb K R) (esprc4 : Esprc4 R) (p : List UInt8) :
    Espcb K R × List UInt8 × Bool :=
  if p.length < 4 then (ecb, p, false)
  else if ecb.incoming then
    let (esprc4, q, ok) := esprc4.input L (nhgetl p) (p.drop 4)
    ({ ecb with espstate := .rc4 esprc4 }, p.take 4 ++ q, ok)
  else
    let (q, current) := L.rc4 esprc4.current (p.drop 4)
    ({ ecb with espstate := .rc4 { esprc4 with
        current := current, cseq := ulong (esprc4.cseq + (p.length - 4 : ℕ)) } },
      hnputl esprc4.cseq ++ q, true)

def Espcb.runCipher (ecb : Espcb K R) (p : List UInt8) :
    Except Fault (Espcb K R × List UInt8 × Bool) :=
  match ecb.cipher, ecb.espstate with
  | .nullcipher, _ => .ok (ecb, p, true)
  | .descipher, .des ds =>
      let (ecb, q) := descipher L ecb ds p
      .ok (ecb, q, true)
  | .rc4cipher, .rc4 esprc4 => .ok (rc4cipher L ecb esprc4 p)
  | _, _ => .error .badread

/-! ### Authenticators -/

/-- The keyed hash of `t` for a hash function `h`. -/
def seanq_hmac (h : List UInt8 → List UInt8) (t key : List UInt8) : List UInt8 :=
  let ipad := (List.range 64).map fun i => 0x36 ^^^ key.getD i 0
  let opad := (List.range 64).map fun i => 0x5c ^^^ key.getD i 0
  h (opad ++ h (ipad ++ t))

def seanq_hmac_sha1 (t key : List UInt8) : List UInt8 := seanq_hmac L.sha1 t key

def seanq_hmac_md5 (t key : List UInt8) : List UInt8 := seanq_hmac L.md5 t key

/-- Compare the keyed hash with `auth`, and overwrite that. -/
def hmacauth (hmac : List UInt8 → List UInt8 → List UInt8) (ecb : Espcb K R)
    (t auth : List UInt8) : Except Fault (Bool × List UInt8) := do
  let key ← readKey ecb.ahstate 16
  let hash := (hmac t key).take ecb.ahlen
  pure (auth = hash, hash)

def shaauth (ecb : Espcb K R) (t auth : List UInt8) : Except Fault (Bool × List UInt8) :=
  hmacauth (seanq_hmac_sha1 L) ecb t auth

def md5auth (ecb : Espcb K R) (t auth : List UInt8) : Except Fault (Bool × List UInt8) :=
  hmacauth (seanq_hmac_md5 L) ecb t auth

def Espcb.runAuth (ecb : Espcb K R) (t auth : List UInt8) : Except Fault (Bool × List UInt8) :=
  match ecb.auth with
  | .nullauth => .ok (true, auth)
  | .shaauth => shaauth L ecb t auth
  | .md5auth => md5auth L ecb t auth

/-! ### Control requests -/

/-- How an algorithm sets up a conversation from its name, the key and the key's length in bits;
the last argument are random bytes. -/
abbrev Init (K R : Type) : Type :=
  Espcb K R → String → List UInt8 → ℕ → (ℕ → UInt8) → Except Fault (Espcb K R)

structure Algorithm (K R : Type) where
  name : String
  /-- in bits -/
  keylen : ℕ
  init : Init K R

def nullespinit : Init K R := fun ecb name _ _ _ =>
  .ok { ecb with espalg := name, espblklen := 1, espivlen := 0, cipher := .nullcipher }

def nullahinit : Init K R := fun ecb name _ _ _ =>
  .ok { ecb with ahalg := name, ahblklen := 1, ahlen := 0, auth := .nullauth }

def shaahinit : Init K R := fun ecb name key klen _ => do
  if klen ≠ 128 then throw (.panic "shaahinit: bad keylen")
  let klen := klen >>> 8
  let ahstate ← readKey key klen
  pure { ecb with ahalg := name, ahblklen := 1, ahlen := 12, auth := .shaauth, ahstate := ahstate }

def md5ahinit : Init K R := fun ecb name key klen _ => do
  if klen ≠ 128 then throw (.panic "md5ahinit: bad keylen")
  let klen := klen >>> 3
  let ahstate ← readKey key klen
  pure { ecb with ahalg := name, ahblklen := 1, ahlen := 12, auth := .md5auth, ahstate := ahstate }

def desespinit : Init K R := fun ecb name k n nrand => do
  let n := min ((n + 7) >>> 3) 8
  let k ← readKey k n
  let key := k ++ List.replicate (8 - n) 0
  let ivec := (List.range 8).map nrand
  pure { ecb with
    espalg := name, espblklen := 8, espivlen := 8, cipher := .descipher
    espstate := .des { expanded := L.setupDESstate key, ivec := ivec } }

def rc4espinit : Init K R := fun ecb name k n _ => do
  let n := (n + 7) >>> 3
  let k ← readKey k n
  pure { ecb with
    espalg := name, espblklen := 4, espivlen := 4, cipher := .rc4cipher
    espstate := .rc4 { current := L.setupRC4state k } }

def espalg : List (Algorithm K R) :=
  [⟨"null", 0, nullespinit⟩, ⟨"des_56_cbc", 64, desespinit L⟩, ⟨"rc4_128", 128, rc4espinit L⟩]

def ahalg : List (Algorithm K R) :=
  [⟨"null", 0, nullahinit⟩, ⟨"hmac_sha1_96", 128, shaahinit⟩, ⟨"hmac_md5_96", 128, md5ahinit⟩]

/-- The value of a hexadecimal digit. -/
def hexdigit (c : Char) : Option ℕ :=
  if '0' ≤ c ∧ c ≤ '9' then some (c.toNat - '0'.toNat)
  else if 'a' ≤ c ∧ c ≤ 'f' then some (c.toNat - 'a'.toNat + 10)
  else if 'A' ≤ c ∧ c ≤ 'F' then some (c.toNat - 'A'.toNat + 10)
  else none

/-- The key of `nbyte` bytes from its digits, the last one first. -/
def keyLoop (nbyte : ℕ) : List ℕ → ℕ → List UInt8 → List UInt8
  | [], _, key => key
  | c :: cs, i, key =>
      if i * 2 < nbyte then
        let c := if i % 2 = 1 then c <<< 4 else c
        keyLoop nbyte cs (i + 1) (key.set (i >>> 1) (uchar ((key.getD (i >>> 1) 0).toNat ||| c)))
      else key

/-- Choose an algorithm; the string is the error of a refused request. -/
def setalg (ecb : Espcb K R) (f : List String) (alg : List (Algorithm K R)) (nrand : ℕ → UInt8) :
    Except Fault (Espcb K R × Option String) :=
  if f.length < 2 then .ok (ecb, some "bad format")
  else
    match alg.find? fun a => a.name = f.getD 1 "" with
    | none => .ok (ecb, some "unknown algorithm")
    | some a =>
        if f.length ≠ 3 then .ok (ecb, some "bad format")
        else
          let nbyte := (a.keylen + 7) >>> 3
          match (f.getD 2 "").toList.mapM hexdigit with
          | none => .ok (ecb, some "bad character in key")
          | some digits =>
              let key := keyLoop nbyte digits.reverse 0 (List.replicate nbyte 0)
              (a.init ecb a.name key a.keylen nrand).map fun ecb => (ecb, none)

def espctl (ecb : Espcb K R) (f : List String) (nrand : ℕ → UInt8) :
    Except Fault (Espcb K R × Option String) :=
  if f.getD 0 "" = "esp" then setalg ecb f (espalg L) nrand
  else if f.getD 0 "" = "ah" then setalg ecb f ahalg nrand
  else if f.getD 0 "" = "header" then .ok ({ ecb with header := true }, none)
  else if f.getD 0 "" = "noheader" then .ok ({ ecb with header := false }, none)
  else .ok (ecb, some "unknown control request")

/-! ### Packets -/

structure Conv (K R : Type) where
  laddr : List UInt8 := []
  raddr : List UInt8 := []
  ptcl : Espcb K R := {}

def v4prefix : List UInt8 := [0, 0, 0, 0, 0, 0, 0, 0, 0, 0, 0xff, 0xff]

/-- The IPv4 form of an address, zero if it has none. -/
def v6tov4 (v6 : List UInt8) : List UInt8 :=
  if v6.take 12 = v4prefix then (List.range 4).map fun i => v6.getD (12 + i) 0
  else List.replicate 4 0

/-- The header of the IP packet; `mem` is what the memory of the packet held before. -/
def iphdr (c : Conv K R) (mem : ℕ → UInt8) : List UInt8 :=
  [IP_VER4, mem 1, mem 2, mem 3, mem 4, mem 5, 0, 0, mem 8, IP_ESPPROTO, mem 10, mem 11] ++
    v6tov4 c.laddr ++ v6tov4 c.raddr

/-- The bytes that the memory of the packet held from `i` on. -/
def fresh (mem : ℕ → UInt8) (i n : ℕ) : List UInt8 := (List.range n).map fun j => mem (i + j)

/-- The bytes of padding behind `payload` bytes. -/
def padlen (align payload : ℕ) : ℕ := align - 1 - (payload + EsptailSize - 1) % align

/-- Build the packet of a block that was written; none if its user header is short. -/
def espkick (c : Conv K R) (bp : List UInt8) (mem : ℕ → UInt8) :
    Except Fault (Conv K R × Option (List UInt8)) :=
  let ecb := c.ptcl
  if ecb.header = true ∧ bp.length < UserhdrSize then .ok (c, none)
  else do
    let nexthdr := if ecb.header then bp.getD 0 0 else 0
    let bp := if ecb.header then bp.drop UserhdrSize else bp
    let payload := bp.length + ecb.espivlen
    let align := if 4 < ecb.espblklen then ecb.espblklen else 4
    if align % ecb.ahblklen ≠ 0 then throw (.panic "espkick: ahblklen is important after all")
    let pad := padlen align payload
    let text := fresh mem EsphdrSize ecb.espivlen ++ bp ++ fresh mem (EsphdrSize + payload) pad ++
      [uchar pad, nexthdr]
    let auth := fresh mem (EsphdrSize + payload + pad + EsptailSize) ecb.ahlen
    let (ecb, text, _) ← ecb.runCipher L text
    let ecb := { ecb with seq := ulong (ecb.seq + 1) }
    let covered := hnputl ecb.spi ++ hnputl ecb.seq ++ text
    let (_, auth) ← ecb.runAuth L covered auth
    pure ({ c with ptcl := ecb }, some (iphdr c mem ++ covered ++ auth))

/-- What becomes of a packet received. -/
inductive Input where
  | shortpacket
  | noconv
  | shortblock
  | badauth
  | badlength
  | cipherfailed
  | shortafter
  /-- The queue of the conversation is full. -/
  | qfull
  /-- The block passed up. -/
  | up (bp : List UInt8)
  deriving DecidableEq, Repr

/-- The place of the conversation of a security parameter index. -/
def convlookup (esp : List (Conv K R)) (spi : ℕ) : Option ℕ :=
  esp.findIdx? fun c => c.ptcl.incoming && c.ptcl.spi = spi

/-- Receive a packet; `qfull` tells whether the queue of its conversation is full. -/
def espiput (esp : List (Conv K R)) (bp : List UInt8) (qfull : Bool) :
    Except Fault (List (Conv K R) × Input) :=
  if bp.length < EsphdrSize + EsptailSize then .ok (esp, .shortpacket)
  else
    match convlookup esp (nhgetl (bp.drop IphdrSize)) with
    | none => .ok (esp, .noconv)
    | some i =>
        let c := esp.getD i {}
        let ecb := c.ptcl
        if bp.length < EsphdrSize + ecb.espivlen + EsptailSize + ecb.ahlen then
          .ok (esp, .shortblock)
        else do
          let covered := slice bp IphdrSize (bp.length - ecb.ahlen - IphdrSize)
          let (r, _) ← ecb.runAuth L covered (bp.drop (bp.length - ecb.ahlen))
          if r = false then pure (esp, .badauth)
          else
            let payload := bp.length - EsphdrSize - ecb.ahlen
            if payload = 0 ∨ payload % 4 ≠ 0 ∨ payload % ecb.espblklen ≠ 0 then
              pure (esp, .badlength)
            else do
              let (ecb, text, ok) ← ecb.runCipher L (slice bp EsphdrSize payload)
              let esp := esp.set i { c with ptcl := ecb }
              if ok = false then pure (esp, .cipherfailed)
              else
                let payload := payload - EsptailSize
                let pad := (text.getD payload 0).toNat
                let nexthdr := text.getD (payload + 1) 0
                let left : ℤ := payload - (pad + ecb.espivlen)
                if left ≤ 0 then pure (esp, .shortafter)
                else
                  let data := slice text ecb.espivlen left.toNat
                  if qfull then pure (esp, .qfull)
                  else if ecb.header then pure (esp, .up ([nexthdr, 0, 0, 0] ++ data))
                  else pure (esp, .up data)

end PlanNine.Esp
