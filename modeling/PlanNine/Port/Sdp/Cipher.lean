import PlanNine.Port.Sdp.Replay

/-!
# Two directions under one cipher

The outbound direction of one end and the inbound direction of the other are in step when their
ciphers are set up alike. What the one encrypts the other accepts, and they stay in step.

## Main definitions

* `InversePair`: the block cipher decrypts what it encrypts.
* `CipherSync`: the ciphers of the two directions are set up alike.

## Main results

* `desdecryptLoop_desencryptLoop`: chained decryption undoes chained encryption.
* `cipher_roundtrip`: what the sender encrypts passes the cipher of the receiver.
-/

namespace PlanNine.Sdp

open Kern

variable {L : Libsec}

/-! ### DES in chained blocks -/

/-- The block cipher decrypts what it encrypts. -/
def InversePair (L : Libsec) : Prop :=
  ∀ key l, l.length = 8 → L.block_cipher key (L.block_cipher key l false) true = l

theorem length_xorBytes {p q : List UInt8} (h : p.length = q.length) :
    (xorBytes p q).length = p.length := by
  simp [xorBytes, h]

theorem xorBytes_cancel {p q : List UInt8} (h : p.length = q.length) :
    xorBytes (xorBytes p q) q = p := by
  refine List.ext_getElem (by simp [xorBytes, h]) fun i h1 h2 => ?_
  simp [xorBytes, UInt8.xor_assoc]

/-- The first block of a text of whole blocks. -/
theorem take_block {p : List UInt8} (hp : p ≠ []) (h8 : 8 ∣ p.length) :
    p.take 8 ++ List.replicate (8 - p.length) 0 = p.take 8 ∧ (p.take 8).length = 8 := by
  have hpos : 0 < p.length := List.length_pos_iff.mpr hp
  have hle : 8 ≤ p.length := Nat.le_of_dvd hpos h8
  refine ⟨by simp [hle], by simp [hle]⟩

theorem dvd_length_drop {p : List UInt8} (h8 : 8 ∣ p.length) : 8 ∣ (p.drop 8).length := by
  rw [List.length_drop]
  omega

theorem length_desencryptLoop (key : List UInt8) : ∀ (fuel : ℕ) (ivec p : List UInt8),
    8 ∣ p.length → p.length ≤ fuel → ivec.length = 8 →
      (desencryptLoop L key fuel ivec p).1.length = p.length
  | 0, _, p, _, hfuel, _ => by
      simp only [desencryptLoop, List.length_nil]
      omega
  | fuel + 1, ivec, p, h8, hfuel, hiv => by
      by_cases hp : p = []
      · simp [desencryptLoop, hp]
      obtain ⟨htake, hlen⟩ := take_block hp h8
      have hc : (L.block_cipher key (xorBytes (p.take 8) ivec) false).length = 8 :=
        L.length_block_cipher _ _ _ (by rw [length_xorBytes (by omega), hlen])
      have hrest := length_desencryptLoop key fuel
        (L.block_cipher key (xorBytes (p.take 8) ivec) false) (p.drop 8) (dvd_length_drop h8)
        (by rw [List.length_drop]; omega) hc
      have hpos : 0 < p.length := List.length_pos_iff.mpr hp
      simp only [desencryptLoop, hp, if_false, htake, List.length_append, hc, hrest,
        List.length_drop]
      omega

theorem length_desencryptLoop_last (key : List UInt8) : ∀ (fuel : ℕ) (ivec p : List UInt8),
    8 ∣ p.length → ivec.length = 8 → (desencryptLoop L key fuel ivec p).2.length = 8
  | 0, _, _, _, hiv => hiv
  | fuel + 1, ivec, p, h8, hiv => by
      by_cases hp : p = []
      · simpa [desencryptLoop, hp] using hiv
      obtain ⟨htake, hlen⟩ := take_block hp h8
      have hc : (L.block_cipher key (xorBytes (p.take 8) ivec) false).length = 8 :=
        L.length_block_cipher _ _ _ (by rw [length_xorBytes (by omega), hlen])
      simp only [desencryptLoop, hp, if_false, htake]
      exact length_desencryptLoop_last key fuel _ _ (dvd_length_drop h8) hc

/-- Chained decryption undoes chained encryption. -/
theorem desdecryptLoop_desencryptLoop (hL : InversePair L) (key : List UInt8) :
    ∀ (fuel fuel' : ℕ) (ivec p : List UInt8), 8 ∣ p.length → p.length ≤ fuel → p.length ≤ fuel' →
      ivec.length = 8 →
        (desdecryptLoop L key fuel' ivec (desencryptLoop L key fuel ivec p).1).1 = p
  | 0, fuel', _, p, _, hfuel, _, _ => by
      obtain rfl := List.length_eq_zero_iff.mp (Nat.le_zero.mp hfuel)
      cases fuel' <;> simp [desencryptLoop, desdecryptLoop]
  | fuel + 1, fuel', ivec, p, h8, hfuel, hfuel', hiv => by
      by_cases hp : p = []
      · cases fuel' <;> simp [desencryptLoop, desdecryptLoop, hp]
      obtain ⟨htake, hlen⟩ := take_block hp h8
      have hpos : 0 < p.length := List.length_pos_iff.mpr hp
      obtain ⟨fuel', rfl⟩ : ∃ n, fuel' = n + 1 := ⟨fuel' - 1, by omega⟩
      have hxor : (xorBytes (p.take 8) ivec).length = 8 := by
        rw [length_xorBytes (by omega), hlen]
      have hc : (L.block_cipher key (xorBytes (p.take 8) ivec) false).length = 8 :=
        L.length_block_cipher _ _ _ hxor
      have ih := desdecryptLoop_desencryptLoop hL key fuel fuel'
        (L.block_cipher key (xorBytes (p.take 8) ivec) false) (p.drop 8) (dvd_length_drop h8)
        (by rw [List.length_drop]; omega) (by rw [List.length_drop]; omega) hc
      generalize hcd : L.block_cipher key (xorBytes (p.take 8) ivec) false = c at *
      have hne : c ++ (desencryptLoop L key fuel c (p.drop 8)).1 ≠ [] := by
        intro h0
        simp [(List.append_eq_nil_iff.mp h0).1] at hc
      have hdec : xorBytes (L.block_cipher key c true) ivec = p.take 8 := by
        rw [← hcd, hL key _ hxor, xorBytes_cancel (by omega)]
      simp only [desencryptLoop, hp, if_false, htake, hcd, desdecryptLoop, hne,
        List.length_append, hc, List.take_append_of_le_length (le_of_eq hc.symm),
        List.take_of_length_le (le_of_eq hc), List.drop_append_of_le_length (le_of_eq hc.symm),
        List.drop_of_length_le (le_of_eq hc), List.nil_append,
        show 8 - (8 + (desencryptLoop L key fuel c (p.drop 8)).1.length) = 0 by omega,
        List.replicate_zero, List.append_nil, hdec, ih, List.take_append_drop]

/-! ### Ciphers in step -/

/-- Neither direction has a cipher. -/
def NullSync (s r : OneWay) : Prop :=
  s.cipher = none ∧ s.cipherivlen = 0 ∧ s.cipherblklen = 0 ∧ r.cipher = none

/-- Both directions use DES under one key. -/
def DesSync (s r : OneWay) : Prop :=
  ∃ key ivec ivec', s.cipher = some .desencrypt ∧ s.cipherstate = some (.des key ivec) ∧
    ivec.length = 8 ∧ s.cipherivlen = 8 ∧ s.cipherblklen = 8 ∧ r.cipher = some .desdecrypt ∧
    r.cipherstate = some (.des key ivec') ∧ r.cipherivlen = 8 ∧ r.cipherblklen = 8

/-- Both directions use RC4 and count the same bytes. -/
def Rc4Sync (s r : OneWay) : Prop :=
  ∃ cr cr', s.cipher = some .rc4encrypt ∧ s.cipherstate = some (.rc4 cr) ∧ s.cipherivlen = 4 ∧
    s.cipherblklen = 1 ∧ r.cipher = some .rc4decrypt ∧ r.cipherstate = some (.rc4 cr') ∧
    r.cipherivlen = 4 ∧ r.cipherblklen = 1 ∧ cr'.cseq = cr.cseq ∧ cr.cseq < 4294967296

/-- The ciphers of an outbound and an inbound direction are set up alike. -/
def CipherSync (s r : OneWay) : Prop := NullSync s r ∨ DesSync s r ∨ Rc4Sync s r

/-- The receiver of `c` decrypts it and stays in step with the sender. -/
def Undone (L : Libsec) (s r : OneWay) (c : List UInt8) : Prop :=
  ∀ blk : Block, blk.data = c → blk.blen = c.length → blk.wp ≤ blk.buf.length →
    ∃ st b, undoCipher L r blk = some (true, { r with cipherstate := st }, b) ∧
      CipherSync s { r with cipherstate := st }

theorem moveold_cseq (cr : CipherRc4) : (moveold cr).cseq = cr.cseq := by
  unfold moveold
  split_ifs
  · dsimp only
    split_ifs <;> rfl
  · rfl

section

variable {ow : OneWay} {f : CipherFn}

theorem encipher_none (h : ow.cipher = none) (body : List UInt8) :
    encipher L ow body = some (ow, body) := by
  rw [encipher, h]

theorem encipher_some (h : ow.cipher = some f) (body : List UInt8) :
    encipher L ow body =
      (f.run L ow body body.length).map fun (_, ow, body) => (ow, body) := by
  rw [encipher, h]

theorem undoCipher_none (h : ow.cipher = none) (b : Block) :
    undoCipher L ow b = some (true, ow, b) := by
  rw [undoCipher, h]

/-- A cipher that refuses a packet. -/
theorem undoCipher_of_refuse {ow' : OneWay} {b : Block} {p : List UInt8} (h : ow.cipher = some f)
    (hrun : f.run L ow b.data b.blen = some (false, ow', p)) :
    undoCipher L ow b = some (false, ow', b) := by
  rw [undoCipher, h]
  dsimp only
  rw [hrun, Option.map_some]
  rfl

/-- A cipher without padding that succeeds. -/
theorem undoCipher_of_stream {ow' : OneWay} {b : Block} {p : List UInt8} (h : ow.cipher = some f)
    (hrun : f.run L ow b.data b.blen = some (true, ow', p)) (hblk : ow'.cipherblklen ≤ 1) :
    undoCipher L ow b = some (true, ow', { b.write b.rp p with rp := b.rp + ow'.cipherivlen }) := by
  rw [undoCipher, h]
  dsimp only
  rw [hrun, Option.map_some]
  dsimp only
  rw [if_neg (by decide), if_neg (by omega)]

/-- A cipher with padding that succeeds. -/
theorem undoCipher_of_block {ow' : OneWay} {b : Block} {p : List UInt8} {pad : ℕ}
    (h : ow.cipher = some f) (hrun : f.run L ow b.data b.blen = some (true, ow', p))
    (hblk : 1 < ow'.cipherblklen) (hpad : ((b.write b.rp p).buf.getD (b.wp - 1) 0).toNat = pad)
    (hlen : (b.rp : ℤ) + ow'.cipherivlen + pad ≤ b.wp) :
    undoCipher L ow b = some (true, ow',
      { b.write b.rp p with rp := b.rp + ow'.cipherivlen, wp := b.wp - pad }) := by
  subst hpad
  have hblen : ¬ ({ b.write b.rp p with rp := b.rp + ow'.cipherivlen } : Block).blen <
      ((b.write b.rp p).buf.getD (b.wp - 1) 0).toNat := by
    have hend : (b.write b.rp p).wp = b.wp := rfl
    simp only [Block.blen, hend]
    push_cast
    omega
  rw [undoCipher, h]
  dsimp only
  rw [hrun, Option.map_some]
  dsimp only
  rw [if_neg (by decide), if_pos hblk, if_neg (by exact hblen)]
  rfl

/-- What a block holds after its bytes are replaced and some at both ends are taken off. -/
theorem data_write {b : Block} {p : List UInt8} (hblen : b.blen = p.length)
    (hwp : b.wp ≤ b.buf.length) (i j : ℕ) :
    ({ b.write b.rp p with rp := b.rp + i, wp := b.wp - j } : Block).data =
      (p.take (p.length - j)).drop i := by
  simp only [Block.blen] at hblen
  have hrp : (b.buf.take b.rp).length = b.rp := by
    rw [List.length_take]
    omega
  simp only [Block.data, Block.write, List.append_assoc]
  rcases Nat.lt_or_ge p.length j with hj | hj
  · rw [Nat.sub_eq_zero_of_le hj.le, List.take_zero, List.drop_nil, List.drop_of_length_le]
    rw [List.length_take]
    omega
  · rw [List.take_append, hrp, List.take_of_length_le (by omega),
      show b.wp - j - b.rp = p.length - j by omega,
      List.take_append_of_le_length (Nat.sub_le _ _), List.drop_append, hrp,
      List.drop_of_length_le (by omega), Nat.add_sub_cancel_left, List.nil_append]

end

theorem roundtrip_null {s r : OneWay} (h : NullSync s r) (b : List UInt8) :
    ∃ st c, encipher L s (List.replicate s.cipherivlen 0 ++ b ++ padding s b.length) =
        some ({ s with cipherstate := st }, c) ∧ Undone L { s with cipherstate := st } r c := by
  obtain ⟨hs, hiv, hblk, hr⟩ := h
  refine ⟨s.cipherstate, _, encipher_none hs _, fun blk _ _ _ => ?_⟩
  exact ⟨r.cipherstate, blk, undoCipher_none hr blk, .inl ⟨hs, hiv, hblk, hr⟩⟩

theorem rc4encrypt_eq {ow : OneWay} {cr : CipherRc4} {p : List UInt8} {n : ℤ}
    (h : ow.cipherstate = some (.rc4 cr)) (hn : 4 ≤ n) :
    rc4encrypt L ow p n =
      some (true,
        { ow with cipherstate := some (.rc4 { cr with
            current := (rc4 L cr.current (p.drop 4)).1
            cseq := (cr.cseq + (p.length - 4)) % 4294967296 }) },
        hnputl cr.cseq ++ (rc4 L cr.current (p.drop 4)).2) := by
  have hn' : ¬ n < 4 := by omega
  simp only [rc4encrypt, h, hn', if_false]

/-- The next packet in order is decrypted with the current state. -/
theorem rc4decrypt_eq {ow : OneWay} {cr : CipherRc4} {p : List UInt8} {n : ℤ}
    (h : ow.cipherstate = some (.rc4 cr)) (hn : 4 ≤ n)
    (hd : long (ulong ((nhgetl p : ℤ) - cr.cseq)) = 0) :
    ∃ cr' q, rc4decrypt L ow p n = some (true, { ow with cipherstate := some (.rc4 cr') }, q) ∧
      cr'.cseq = (cr.cseq + (p.length - 4)) % 4294967296 := by
  have hn' : ¬ n < 4 := by omega
  refine ⟨_, _, by simp only [rc4decrypt, h, hn', if_false, hd, if_true]; rfl, ?_⟩
  rw [moveold_cseq, List.length_drop]

theorem roundtrip_rc4 {s r : OneWay} (h : Rc4Sync s r) (b : List UInt8) :
    ∃ st c, encipher L s (List.replicate s.cipherivlen 0 ++ b ++ padding s b.length) =
        some ({ s with cipherstate := st }, c) ∧ Undone L { s with cipherstate := st } r c := by
  obtain ⟨cr, cr', hs, hst, hiv, hblk, hr, hrst, hriv, hrblk, hseq, hlt⟩ := h
  have hbody : List.replicate s.cipherivlen 0 ++ b ++ padding s b.length =
      List.replicate 4 0 ++ b := by
    simp [padding, hblk, hiv]
  have hlen : (List.replicate 4 (0 : UInt8) ++ b).length = b.length + 4 := by
    rw [List.length_append, List.length_replicate, add_comm]
  rw [hbody]
  refine ⟨_, _, (encipher_some hs _).trans (by
    rw [CipherFn.run, rc4encrypt_eq hst (by rw [hlen]; omega), Option.map_some]),
    fun blk hdata hblen _ => ?_⟩
  have hcrypt : (rc4 L cr.current ((List.replicate 4 (0 : UInt8) ++ b).drop 4)).2.length =
      b.length := by
    simp [rc4]
  obtain ⟨cr'', q, hdec, hcseq⟩ := rc4decrypt_eq (L := L) (n := blk.blen) (p := blk.data) hrst
    (by rw [hblen]; simp)
    (by rw [hdata, nhgetl_hnputl_append, Nat.mod_eq_of_lt hlt, hseq, sub_self]; rfl)
  refine ⟨_, _, undoCipher_of_stream hr hdec (by exact hrblk.le), ?_⟩
  refine .inr (.inr ⟨_, _, hs, rfl, hiv, hblk, hr, rfl, hriv, hrblk, ?_, Nat.mod_lt _ (by decide)⟩)
  rw [hcseq, hseq, hdata, List.length_append, length_hnputl, hcrypt, hlen, Nat.add_sub_cancel,
    Nat.add_sub_cancel_left]

theorem desencrypt_eq {ow : OneWay} {key ivec p : List UInt8}
    (h : ow.cipherstate = some (.des key ivec)) (hp : 8 ≤ p.length) (h8 : 8 ∣ p.length)
    (hiv : ivec.length = 8) :
    desencrypt L ow p p.length =
      some (true,
        { ow with
          cipherstate := some (.des key (desencryptLoop L key p.length ivec (p.drop 8)).2) },
        ivec ++ (desencryptLoop L key p.length ivec (p.drop 8)).1) := by
  have hn : ¬ ((p.length : ℤ) < 8 ∨ (p.length : ℤ) % 2 ≠ 0) := by omega
  have hlen := length_desencryptLoop (L := L) key p.length ivec (p.drop 8) (dvd_length_drop h8)
    (by rw [List.length_drop]; omega) hiv
  have htake : (ivec ++ (desencryptLoop L key p.length ivec (p.drop 8)).1).take p.length =
      ivec ++ (desencryptLoop L key p.length ivec (p.drop 8)).1 := by
    rw [List.take_of_length_le]
    rw [List.length_append, hlen, hiv, List.length_drop]
    omega
  simp only [desencrypt, h, hn, if_false, htake]

/-- What `desencrypt` makes of a text is decrypted to the text behind the initial vector. -/
theorem desdecrypt_eq (hL : InversePair L) {ow : OneWay} {key ivec ivec' m : List UInt8}
    (h : ow.cipherstate = some (.des key ivec')) (h8 : 8 ∣ m.length) (hiv : ivec.length = 8)
    {n : ℕ} (hfuel : m.length ≤ n) {c : List UInt8}
    (hc : c = ivec ++ (desencryptLoop L key n ivec m).1) :
    ∃ ivec'', desdecrypt L ow c c.length =
      some (true, { ow with cipherstate := some (.des key ivec'') }, ivec ++ m) := by
  have hlen : c.length = 8 + m.length := by
    rw [hc, List.length_append, hiv, length_desencryptLoop key n ivec m h8 hfuel hiv]
  have hn : ¬ ((c.length : ℤ) < 8 ∨ (c.length : ℤ) % 2 ≠ 0) := by omega
  have htake : c.take 8 = ivec := by
    rw [hc, List.take_append_of_le_length hiv.ge, List.take_of_length_le hiv.le]
  have hdrop : c.drop 8 = (desencryptLoop L key n ivec m).1 := by
    rw [hc, List.drop_append_of_le_length hiv.ge, List.drop_of_length_le hiv.le, List.nil_append]
  have hdec : (desdecryptLoop L key c.length (c.take 8) (c.drop 8)).1 = m := by
    rw [htake, hdrop]
    exact desdecryptLoop_desencryptLoop hL key n c.length ivec m h8 hfuel (by omega) hiv
  refine ⟨(desdecryptLoop L key c.length (c.take 8) (c.drop 8)).2, ?_⟩
  simp only [desdecrypt, h, hn, if_false, hdec]
  rw [htake, List.take_of_length_le (by rw [List.length_append, hiv, hlen])]

/-- The padding of a DES packet fills it up to whole blocks and ends in its own length. -/
theorem padding_des {ow : OneWay} (hblk : ow.cipherblklen = 8) (hiv : ow.cipherivlen = 8) (n : ℕ) :
    ∃ pad zs, padding ow n = zs ++ [uchar pad] ∧ zs.length + 1 = pad ∧ 0 < pad ∧ pad ≤ 8 ∧
      8 ∣ n + pad := by
  refine ⟨8 - (n + 8) % 8, List.replicate (8 - (n + 8) % 8 - 1) 0, ?_, ?_, ?_, ?_, ?_⟩
  · simp only [padding, hblk, hiv, show 1 < 8 by decide, if_true]
  · rw [List.length_replicate]
    omega
  all_goals omega

theorem getD_last_write {b : Block} {q : List UInt8} {x : UInt8} (hrp : b.rp ≤ b.buf.length)
    (hwp : b.wp = b.rp + (q ++ [x]).length) :
    (b.write b.rp (q ++ [x])).buf.getD (b.wp - 1) 0 = x := by
  have hlen : (b.buf.take b.rp).length = b.rp := by simp [hrp]
  have hidx : b.wp - 1 = b.rp + q.length := by
    rw [hwp, List.length_append, List.length_singleton]
    omega
  simp only [Block.write, List.append_assoc]
  rw [hidx, List.getD_eq_getElem?_getD, List.getElem?_append_right (by omega), hlen,
    Nat.add_sub_cancel_left, List.getElem?_append_right le_rfl, Nat.sub_self]
  rfl

/-- A packet that was padded and encrypted is decrypted to its payload. -/
theorem undoCipher_des (hL : InversePair L) {r : OneWay} {key ivec ivec' b zs : List UInt8}
    {pad n : ℕ} (hr : r.cipher = some .desdecrypt) (hrst : r.cipherstate = some (.des key ivec'))
    (hriv : r.cipherivlen = 8) (hrblk : r.cipherblklen = 8) (hivec : ivec.length = 8)
    (hzs : zs.length + 1 = pad) (hle : pad ≤ 8) (h8 : 8 ∣ b.length + pad)
    (hn : b.length + pad ≤ n) {blk : Block}
    (hdata : blk.data = ivec ++ (desencryptLoop L key n ivec (b ++ (zs ++ [uchar pad]))).1)
    (hblen : blk.blen = blk.data.length) (hwp : blk.wp ≤ blk.buf.length) :
    ∃ ivec'' b', undoCipher L r blk =
        some (true, { r with cipherstate := some (.des key ivec'') }, b') ∧ b'.data = b := by
  have hm : (b ++ (zs ++ [uchar pad])).length = b.length + pad := by
    rw [List.length_append, List.length_append, List.length_singleton, hzs]
  have hclen : blk.blen = (ivec ++ b ++ zs ++ [uchar pad]).length := by
    rw [hblen, hdata, List.length_append, hivec, length_desencryptLoop key _ ivec _ (by omega)
      (by omega) hivec, hm]
    simp only [List.length_append, List.length_singleton, hivec]
    push_cast
    omega
  obtain ⟨ivec'', hdec⟩ := desdecrypt_eq hL hrst (by omega : 8 ∣ (b ++ (zs ++ [uchar pad])).length)
    hivec (by omega : (b ++ (zs ++ [uchar pad])).length ≤ n) hdata
  rw [← hblen, show ivec ++ (b ++ (zs ++ [uchar pad])) = ivec ++ b ++ zs ++ [uchar pad] by
    simp only [List.append_assoc]] at hdec
  have hlen : (ivec ++ b ++ zs ++ [uchar pad]).length = 8 + b.length + pad := by
    simp only [List.length_append, List.length_singleton, hivec]
    omega
  have hend : blk.wp = blk.rp + (ivec ++ b ++ zs ++ [uchar pad]).length := by
    simp only [Block.blen] at hclen
    omega
  have hlast : ((blk.write blk.rp (ivec ++ b ++ zs ++ [uchar pad])).buf.getD (blk.wp - 1) 0).toNat =
      pad := by
    rw [getD_last_write (by omega) hend, toNat_uchar]
    omega
  have hfits : (blk.rp : ℤ) + r.cipherivlen + pad ≤ blk.wp := by
    rw [hriv, hend, hlen]
    push_cast
    omega
  refine ⟨ivec'', _, undoCipher_of_block hr hdec (by simp [hrblk]) hlast hfits, ?_⟩
  dsimp only
  rw [data_write hclen hwp, hriv, hlen, Nat.add_sub_cancel, List.append_assoc,
    List.take_append_of_le_length (by rw [List.length_append, hivec]),
    List.take_of_length_le (by rw [List.length_append, hivec]),
    List.drop_append_of_le_length hivec.ge, List.drop_of_length_le hivec.le, List.nil_append]

/-- What DES makes of a payload: the initial vector and the blocks chained behind it. -/
theorem encipher_des {s : OneWay} {key ivec : List UInt8} (hs : s.cipher = some .desencrypt)
    (hst : s.cipherstate = some (.des key ivec)) (hivec : ivec.length = 8)
    (hiv : s.cipherivlen = 8) (hblk : s.cipherblklen = 8) (b : List UInt8) :
    ∃ pad zs ivec' n, encipher L s (List.replicate s.cipherivlen 0 ++ b ++ padding s b.length) =
        some ({ s with cipherstate := some (.des key ivec') },
          ivec ++ (desencryptLoop L key n ivec (b ++ (zs ++ [uchar pad]))).1) ∧
      ivec'.length = 8 ∧ zs.length + 1 = pad ∧ pad ≤ 8 ∧ 8 ∣ b.length + pad ∧
      b.length + pad ≤ n := by
  obtain ⟨pad, zs, hpad, hzs, hpos, hle, h8⟩ := padding_des hblk hiv b.length
  have hm : (b ++ (zs ++ [uchar pad])).length = b.length + pad := by
    rw [List.length_append, List.length_append, List.length_singleton, hzs]
  have hlen : (List.replicate 8 (0 : UInt8) ++ b ++ (zs ++ [uchar pad])).length =
      8 + (b.length + pad) := by
    rw [List.append_assoc, List.length_append, List.length_replicate, hm]
  have hdrop : (List.replicate 8 (0 : UInt8) ++ b ++ (zs ++ [uchar pad])).drop 8 =
      b ++ (zs ++ [uchar pad]) := by
    rw [List.append_assoc, List.drop_append_of_le_length (by simp)]
    rfl
  have henc : desencrypt L s (List.replicate 8 0 ++ b ++ (zs ++ [uchar pad])) _ = _ :=
    desencrypt_eq hst (by omega) (by omega) hivec
  rw [hdrop, hlen] at henc
  refine ⟨pad, zs, (desencryptLoop L key (8 + (b.length + pad)) ivec (b ++ (zs ++ [uchar pad]))).2,
    8 + (b.length + pad), ?_, ?_, hzs, hle, h8, by omega⟩
  · rw [hpad, hiv, encipher_some hs, CipherFn.run, hlen, henc, Option.map_some, hiv]
  · exact length_desencryptLoop_last key _ ivec _ (hm ▸ h8) hivec

theorem roundtrip_des (hL : InversePair L) {s r : OneWay} (h : DesSync s r) (b : List UInt8) :
    ∃ st c, encipher L s (List.replicate s.cipherivlen 0 ++ b ++ padding s b.length) =
        some ({ s with cipherstate := st }, c) ∧ Undone L { s with cipherstate := st } r c := by
  obtain ⟨key, ivec, ivec', hs, hst, hivec, hiv, hblk, hr, hrst, hriv, hrblk⟩ := h
  obtain ⟨pad, zs, last, n, henc, hlast, hzs, hle, h8, hn⟩ :=
    encipher_des (L := L) hs hst hivec hiv hblk b
  refine ⟨_, _, henc, fun blk hdata hblen hwp => ?_⟩
  obtain ⟨ivec'', b', hundo, -⟩ := undoCipher_des hL hr hrst hriv hrblk hivec hzs hle h8 hn hdata
    (by rw [hblen, hdata]) hwp
  exact ⟨_, b', hundo, .inr
    (.inl ⟨key, _, ivec'', hs, rfl, hlast, hiv, hblk, hr, rfl, hriv, hrblk⟩)⟩

/-- What the sender encrypts passes the cipher of the receiver, and both stay in step. -/
theorem cipher_roundtrip (hL : InversePair L) {s r : OneWay} (h : CipherSync s r)
    (b : List UInt8) :
    ∃ st c, encipher L s (List.replicate s.cipherivlen 0 ++ b ++ padding s b.length) =
        some ({ s with cipherstate := st }, c) ∧ Undone L { s with cipherstate := st } r c := by
  rcases h with h | h | h
  · exact roundtrip_null h b
  · exact roundtrip_des hL h b
  · exact roundtrip_rc4 h b

end PlanNine.Sdp
