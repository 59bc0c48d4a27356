import PlanNine.Lib.Slice
import PlanNine.Lib.Ulong

/-!
# The secrets of a record layer

Each direction of a connection has a secret: a cipher with its state, a MAC with its key, and the
way padding is taken off. The functions of the crypto library are parameters; what is relied on is
that a cipher is inverted by its decryption, which leaves the same state behind, and that digests
have their lengths. What the record layer builds from them, the padding of blocks, the MAC of the
older protocol and the fields that go into a MAC, is modelled.

## Main definitions

* `Libsec`, `Libsec.Lawful`: the functions of the crypto library, and what is relied on.
* `Secret`, `Secret.encrypt`, `Secret.decrypt`: a secret, and its cipher.
* `blockpad`, `tlsunpad`, `sslunpad`: the padding of blocks.
* `PackMac.run`: the MAC of a record.
* `newsecret`, `secrets`: a secret made of its keys, and two secrets made of the data given for a
  connection.

## Main results

* `decrypt_encrypt`: what was encrypted is decrypted, and the padding taken off, unless it is empty.
-/

namespace PlanNine.Tls

def MD5dlen : ℕ := 16

def SHA1dlen : ℕ := 20

/-- The functions of the crypto library, over the states `R` and `D` of its two ciphers. -/
structure Libsec (R D : Type) where
  setupRC4state : List UInt8 → R
  rc4 : R → List UInt8 → List UInt8 × R
  setupDES3state : List UInt8 → List UInt8 → D
  des3CBCencrypt : D → List UInt8 → List UInt8 × D
  des3CBCdecrypt : D → List UInt8 → List UInt8 × D
  md5 : List UInt8 → List UInt8
  sha1 : List UInt8 → List UInt8
  hmac_md5 : List UInt8 → List UInt8 → List UInt8
  hmac_sha1 : List UInt8 → List UInt8 → List UInt8

variable {R D : Type}

/-- Ciphers are inverted by their decryption, and lengths are what they should be. -/
structure Libsec.Lawful (L : Libsec R D) : Prop where
  length_rc4 : ∀ k m, (L.rc4 k m).1.length = m.length
  rc4_rc4 : ∀ k m, L.rc4 k (L.rc4 k m).1 = (m, (L.rc4 k m).2)
  length_des3 : ∀ k m, m.length % 8 = 0 → (L.des3CBCencrypt k m).1.length = m.length
  des3_des3 : ∀ k m, m.length % 8 = 0 →
    L.des3CBCdecrypt k (L.des3CBCencrypt k m).1 = (m, (L.des3CBCencrypt k m).2)
  length_md5 : ∀ m, (L.md5 m).length = MD5dlen
  length_sha1 : ∀ m, (L.sha1 m).length = SHA1dlen
  length_hmac_md5 : ∀ k m, (L.hmac_md5 k m).length = MD5dlen
  length_hmac_sha1 : ∀ k m, (L.hmac_sha1 k m).length = SHA1dlen

inductive Cipher (R D : Type) where
  | noenc
  | rc4 (enckey : R)
  | des3 (enckey : D)

inductive Mac where
  | nomac | sslmac_md5 | sslmac_sha1 | hmac_md5 | hmac_sha1
  deriving DecidableEq

inductive Unpad where
  | sslunpad | tlsunpad
  deriving DecidableEq

structure Secret (R D : Type) where
  cipher : Cipher R D
  unpad : Unpad
  mac : Mac
  /-- The length of the cipher's blocks, zero if it has none. -/
  block : ℕ
  maclen : ℕ
  mackey : List UInt8

/-! ### Padding -/

/-- Pad a buffer to the next multiple of the block length, with at least one byte. -/
def blockpad (buf : List UInt8) (block : ℕ) : List UInt8 :=
  let nn := buf.length + block
  let nn := nn - nn % block
  let pad := nn - (buf.length + 1)
  buf ++ List.replicate (nn - buf.length) (uchar pad)

/-- How many bytes are left without the padding, `-1` if it is bad. -/
def sslunpad (buf : List UInt8) (block : ℕ) : ℤ :=
  let n := buf.length
  let pad := ((buf.getLastD 0).toNat : ℤ)
  let nn := n - 1 - pad
  if nn ≤ 0 ∨ n % block ≠ 0 then -1 else nn

/-- The same, and all the bytes of the padding are to be the same. -/
def tlsunpad (buf : List UInt8) (block : ℕ) : ℤ :=
  let nn := sslunpad buf block
  if nn = -1 then -1
  else if (buf.drop nn.toNat).all fun c => c = buf.getLastD 0 then nn else -1

theorem length_blockpad (buf : List UInt8) : (blockpad buf 8).length % 8 = 0 ∧
    buf.length < (blockpad buf 8).length := by
  rw [blockpad, List.length_append, List.length_replicate]
  omega

/-- The padding is taken off again, unless nothing else is there. -/
theorem sslunpad_blockpad {buf : List UInt8} : sslunpad (blockpad buf 8) 8 =
    if buf = [] then -1 else (buf.length : ℤ) := by
  have hlen := length_blockpad buf
  have hpad : (blockpad buf 8).length - buf.length ≤ 8 := by
    rw [blockpad, List.length_append, List.length_replicate]
    omega
  have hlast : ((blockpad buf 8).getLastD 0).toNat =
    (blockpad buf 8).length - (buf.length + 1) := by
    have hsize : (blockpad buf 8).length =
        buf.length + 8 - (buf.length + 8) % 8 := by
      rw [blockpad, List.length_append, List.length_replicate]
      omega
    rw [hsize, blockpad]
    rw [List.getLastD_eq_getLast?, List.getLast?_append, List.getLast?_replicate,
      if_neg (by omega)]
    simp only [Option.some_or, Option.getD_some, toNat_uchar]
    omega
  rw [sslunpad, hlast]
  by_cases hnil : buf = []
  · rw [if_pos hnil, if_pos]
    rw [hnil] at hlen hpad ⊢
    simp only [List.length_nil] at hlen hpad ⊢
    omega
  · have hpos := List.length_pos_iff.mpr hnil
    rw [if_neg hnil, if_neg (by omega)]
    omega

theorem tlsunpad_blockpad {buf : List UInt8} : tlsunpad (blockpad buf 8) 8 =
    if buf = [] then -1 else (buf.length : ℤ) := by
  rw [tlsunpad, sslunpad_blockpad]
  by_cases hnil : buf = []
  · rw [if_pos hnil, if_pos rfl]
  · rw [if_neg hnil, if_neg (by omega), Int.toNat_natCast, if_pos]
    rw [blockpad, List.drop_left, List.all_replicate, List.getLastD_eq_getLast?,
      List.getLast?_append,
      List.getLast?_replicate, if_neg (by omega), if_neg (by omega)]
    simp

/-! ### Ciphers -/

/-- Encrypt a buffer; a cipher with blocks pads it first. -/
def Secret.encrypt (L : Libsec R D) (sec : Secret R D) (buf : List UInt8) :
    List UInt8 × Secret R D :=
  match sec.cipher with
  | .noenc => (buf, sec)
  | .rc4 k => ((L.rc4 k buf).1, { sec with cipher := .rc4 (L.rc4 k buf).2 })
  | .des3 k =>
    let r := L.des3CBCencrypt k (blockpad buf 8)
    (r.1, { sec with cipher := .des3 r.2 })

/-- Decrypt a buffer. First comes how many of its bytes are not padding. -/
def Secret.decrypt (L : Libsec R D) (sec : Secret R D) (buf : List UInt8) :
    ℤ × List UInt8 × Secret R D :=
  match sec.cipher with
  | .noenc => (buf.length, buf, sec)
  | .rc4 k => (buf.length, (L.rc4 k buf).1, { sec with cipher := .rc4 (L.rc4 k buf).2 })
  | .des3 k =>
    let r := L.des3CBCdecrypt k buf
    let n := match sec.unpad with
      | .sslunpad => sslunpad r.1 8
      | .tlsunpad => tlsunpad r.1 8
    (n, r.1, { sec with cipher := .des3 r.2 })

variable {L : Libsec R D} {sec : Secret R D} {buf : List UInt8}

/-- What was encrypted is decrypted with the same secret, and both ends go on with the same one. -/
theorem decrypt_encrypt (hL : L.Lawful) (sec : Secret R D) (buf : List UInt8) : ∃ pad,
    sec.decrypt L (sec.encrypt L buf).1 =
    (if buf = [] ∧ pad ≠ [] then -1 else (buf.length : ℤ), buf ++ pad, (sec.encrypt L buf).2) ∧
    (sec.encrypt L buf).1.length = buf.length + pad.length ∧ pad.length ≤ 8 := by
  unfold Secret.encrypt Secret.decrypt
  cases hc : sec.cipher with
  | noenc =>
    refine ⟨[], ?_, rfl, Nat.zero_le 8⟩
    simp
  | rc4 k =>
    refine ⟨[], ?_, by simp [hL.length_rc4], Nat.zero_le 8⟩
    dsimp only
    rw [hL.rc4_rc4, hL.length_rc4]
    simp
  | des3 k =>
    obtain ⟨hmod, hlt⟩ := length_blockpad buf
    obtain ⟨pad, hpad⟩ : ∃ pad, blockpad buf 8 = buf ++ pad := ⟨_, rfl⟩
    have hne : pad ≠ [] := by
      rintro rfl
      rw [hpad, List.append_nil] at hlt
      exact lt_irrefl _ hlt
    have hle : pad.length ≤ 8 := by
      have h1 : (blockpad buf 8).length = buf.length + pad.length := by
        rw [hpad, List.length_append]
      have h2 : (blockpad buf 8).length = buf.length + 8 - (buf.length + 8) % 8 := by
        rw [blockpad, List.length_append, List.length_replicate]
        omega
      omega
    refine ⟨pad, ?_, ?_, hle⟩
    · dsimp only
      rw [hL.des3_des3 k _ hmod]
      dsimp only
      have hn : (match sec.unpad with
          | .sslunpad => sslunpad (blockpad buf 8) 8
          | .tlsunpad => tlsunpad (blockpad buf 8) 8) =
          if buf = [] ∧ pad ≠ [] then -1 else (buf.length : ℤ) := by
        simp only [and_iff_left hne]
        cases sec.unpad
        · exact sslunpad_blockpad
        · exact tlsunpad_blockpad
      rw [hn, hpad]
    · dsimp only
      rw [hL.length_des3 k _ hmod, hpad, List.length_append]

@[simp] theorem mac_encrypt : (sec.encrypt L buf).2.mac = sec.mac := by
  unfold Secret.encrypt
  split <;> rfl

@[simp] theorem maclen_encrypt : (sec.encrypt L buf).2.maclen = sec.maclen := by
  unfold Secret.encrypt
  split <;> rfl

@[simp] theorem mackey_encrypt : (sec.encrypt L buf).2.mackey = sec.mackey := by
  unfold Secret.encrypt
  split <;> rfl

/-! ### MACs -/

/-- The MAC of the older protocol: a digest `x` of the data between key and padding, and a digest of
that. -/
def sslmac_x (x : List UInt8 → List UInt8) (padlen : ℕ) (key data : List UInt8) : List UInt8 :=
  x (key ++ List.replicate padlen 0x5c ++ x (key ++ List.replicate padlen 0x36 ++ data))

def Mac.run (L : Libsec R D) (mac : Mac) (key data : List UInt8) : List UInt8 :=
  match mac with
  | .nomac => []
  | .sslmac_md5 => sslmac_x L.md5 48 key data
  | .sslmac_sha1 => sslmac_x L.sha1 40 key data
  | .hmac_md5 => L.hmac_md5 key data
  | .hmac_sha1 => L.hmac_sha1 key data

/-- The length of a digest. -/
def Mac.len : Mac → ℕ
  | .nomac => 0
  | .sslmac_md5 | .hmac_md5 => MD5dlen
  | .sslmac_sha1 | .hmac_sha1 => SHA1dlen

theorem length_run (hL : L.Lawful) (mac : Mac) (key data : List UInt8) :
    (mac.run L key data).length = mac.len := by
  cases mac with
  | nomac => rfl
  | sslmac_md5 => exact hL.length_md5 _
  | sslmac_sha1 => exact hL.length_sha1 _
  | hmac_md5 => exact hL.length_hmac_md5 _ _
  | hmac_sha1 => exact hL.length_hmac_sha1 _ _

def put16 (x : ℕ) : List UInt8 := [uchar (x >>> 8), uchar x]

def get16 (p : List UInt8) : ℕ := (p.getD 0 0).toNat * 256 + (p.getD 1 0).toNat

theorem get16_put16_append {x : ℕ} (h : x < 65536) (l : List UInt8) : get16 (put16 x ++ l) = x := by
  simp only [get16, put16, List.cons_append, List.nil_append, List.getD_cons_zero,
    List.getD_cons_succ, toNat_uchar, Nat.shiftRight_eq_div_pow]
  omega

/-- A sequence number, a word of 32 bits, as eight bytes. -/
def put64 (x : ℕ) : List UInt8 := hnputl 0 ++ hnputl x

/-- What goes into a record's MAC, by the version of the protocol. -/
inductive PackMac where
  | sslPackMac | tlsPackMac
  deriving DecidableEq

/-- The MAC of a record with the given header and body. -/
def PackMac.run (L : Libsec R D) (pm : PackMac) (sec : Secret R D) (seq : ℕ)
    (header body : List UInt8) : List UInt8 :=
  match pm with
  | .sslPackMac =>
    sec.mac.run L (sec.mackey.take sec.maclen)
      (put64 seq ++ [header.getD 0 0, header.getD 3 0, header.getD 4 0] ++ body)
  | .tlsPackMac => sec.mac.run L (sec.mackey.take sec.maclen) (put64 seq ++ header.take 5 ++ body)

theorem length_packMac (hL : L.Lawful) (sec : Secret R D) (pm : PackMac) (seq : ℕ)
    (header body : List UInt8) :
    (pm.run L sec seq header body).length = sec.mac.len := by
  cases pm with
  | sslPackMac => exact length_run hL _ _ _
  | tlsPackMac => exact length_run hL _ _ _

/-! ### The secrets of a connection -/

inductive Hashalg where
  | clear | md5 | sha1
  deriving DecidableEq

def Hashalg.maclen : Hashalg → ℕ
  | .clear => 0
  | .md5 => MD5dlen
  | .sha1 => SHA1dlen

inductive Encalg where
  | clear | rc4_128 | des3_ede_cbc
  deriving DecidableEq

def Encalg.keylen : Encalg → ℕ
  | .clear => 0
  | .rc4_128 => 16
  | .des3_ede_cbc => 24

def Encalg.ivlen : Encalg → ℕ
  | .clear | .rc4_128 => 0
  | .des3_ede_cbc => 8

def SSL3Version : ℕ := 0x0300

def TLSVersion : ℕ := 0x0301

/-- A secret made of its keys. -/
def newsecret (L : Libsec R D) (version : ℕ) (ha : Hashalg) (ea : Encalg)
    (mackey key iv : List UInt8) : Secret R D where
  cipher := match ea with
    | .clear => .noenc
    | .rc4_128 => .rc4 (L.setupRC4state key)
    | .des3_ede_cbc => .des3 (L.setupDES3state key iv)
  unpad := if version = SSL3Version then .sslunpad else .tlsunpad
  mac := match ha with
    | .clear => .nomac
    | .md5 => if version = SSL3Version then .sslmac_md5 else .hmac_md5
    | .sha1 => if version = SSL3Version then .sslmac_sha1 else .hmac_sha1
  block := match ea with
    | .clear | .rc4_128 => 0
    | .des3_ede_cbc => 8
  maclen := ha.maclen
  mackey := mackey

/-- The two secrets made of the data given for a connection; `none` when there is not enough. -/
def secrets (L : Libsec R D) (version : ℕ) (ha : Hashalg) (ea : Encalg) (x : List UInt8) :
    Option (Secret R D × Secret R D) :=
  let m := ha.maclen
  let k := ea.keylen
  let v := ea.ivlen
  if x.length < 2 * m + 2 * k + 2 * v then none
  else
    some (newsecret L version ha ea (slice x 0 m) (slice x (2 * m) k) (slice x (2 * m + 2 * k) v),
      newsecret L version ha ea (slice x m m) (slice x (2 * m + k) k)
        (slice x (2 * m + 2 * k + v) v))

/-- The MAC of a secret has the length the secret says. -/
theorem maclen_secrets {version : ℕ} {ha : Hashalg} {ea : Encalg} {x : List UInt8}
    {tos toc : Secret R D} (h : secrets L version ha ea x = some (tos, toc)) :
    tos.maclen = tos.mac.len ∧ toc.maclen = toc.mac.len := by
  rw [secrets] at h
  split at h
  · cases h
  cases h
  have hlen : (match ha with
      | .clear => Mac.nomac
      | .md5 => if version = SSL3Version then .sslmac_md5 else .hmac_md5
      | .sha1 => if version = SSL3Version then .sslmac_sha1 else .hmac_sha1).len = ha.maclen := by
    cases ha with
    | clear => rfl
    | md5 => by_cases h : version = SSL3Version <;> simp only [h, if_true, if_false] <;> rfl
    | sha1 => by_cases h : version = SSL3Version <;> simp only [h, if_true, if_false] <;> rfl
  exact ⟨hlen.symm, hlen.symm⟩

end PlanNine.Tls
