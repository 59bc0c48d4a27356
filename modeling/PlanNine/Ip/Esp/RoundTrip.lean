import PlanNine.Ip.Esp.Packet
import Mathlib.Tactic

/-!
# What is written to a conversation arrives at the other end

Two conversations set up by the same control requests are in step: the same algorithms, the same
keys, and cipher states that go on together. A packet that the one builds is accepted by the other,
which passes up what was written, and they are in step again. The SHA-1 authenticator is the
exception: it stores no byte of its key and reads sixteen.

## Main definitions

* `Keying`, `configure`: the control requests of one end.
* `Message`, `transfer`: a block written, and packets sent and received in order.
* `Sync`: two conversations are in step.

## Main results

* `runCipher_sync`, `runAuth_sync`: the algorithms of two conversations in step.
* `sync_of_configure`: the same requests put two conversations in step.
* `Link.packet`: one packet.
* `transfer_iff`: all that is written arrives, without a read outside a stored key, just when the
  authenticator is another one than SHA-1.
-/

namespace PlanNine.Esp

variable {K R : Type} {L : Libsec K R}

/-! ### Ciphers in step -/

/-- The states of a cipher at the two ends, with its lengths of the initial vector and of
a block. -/
inductive StateSync : Cipher → ℕ → ℕ → Espstate K R → Espstate K R → Prop
  | null (st st' : Espstate K R) : StateSync .nullcipher 0 1 st st'
  | des (expanded : K) (ivec ivec' : List UInt8) (h : ivec.length = 8) :
      StateSync .descipher 8 8 (.des ⟨expanded, ivec⟩) (.des ⟨expanded, ivec'⟩)
  | rc4 (cseq : ℕ) (current : R) (lgseq oseq lgseq' oseq' : ℕ) (old : Option R)
      (h : cseq < 4294967296) :
      StateSync .rc4cipher 4 4 (.rc4 ⟨cseq, current, lgseq, oseq, old⟩)
        (.rc4 ⟨cseq, current, lgseq', oseq', none⟩)

/-- A sending and a receiving conversation are in step. -/
structure Sync (s r : Espcb K R) : Prop where
  outgoing : s.incoming = false
  incoming : r.incoming = true
  spi : r.spi = s.spi
  header : r.header = s.header
  cipher : r.cipher = s.cipher
  espivlen : r.espivlen = s.espivlen
  espblklen : r.espblklen = s.espblklen
  state : StateSync s.cipher s.espivlen s.espblklen s.espstate r.espstate
  ahlen : r.ahlen = s.ahlen
  ahblklen : s.ahblklen = 1

theorem rounds_eq {n : ℕ} (h : 8 ≤ n) (h8 : 8 ∣ n) : n - 8 = 8 * ((n - 8 + 7) / 8) := by
  obtain ⟨k, rfl⟩ := h8
  omega

/-- The receiver of a text in order goes on with the sender's state. -/
theorem Esprc4.input_inOrder (hL : L.Lawful) (cseq : ℕ) (current : R)
    (lgseq oseq : ℕ) (p : List UInt8) :
    Esprc4.input L ⟨cseq, current, lgseq, oseq, none⟩ cseq (L.rc4 current p).1 =
      (⟨ulong (cseq + p.length), (L.rc4 current p).2, lgseq, oseq, none⟩, p, true) := by
  have hd : long (ulong ((cseq : ℤ) - cseq)) = 0 := by
    rw [Int.sub_self]
    rfl
  simp only [Esprc4.input, hd, if_true, hL.rc4_inverse, hL.length_rc4, Option.isSome_none,
    Bool.false_eq_true, false_and, if_false, Esprc4.moveold]

/-- What the sender's cipher makes of a text, the receiver's turns back, but for the initial vector,
and both are in step behind it. -/
theorem runCipher_sync (hL : L.Lawful) {s r : Espcb K R} (h : Sync s r) {text : List UInt8}
    (hiv : s.espivlen ≤ text.length) (hblk : s.espblklen ∣ text.length) :
    ∃ st st' ctext ptext, s.runCipher L text = .ok ({ s with espstate := st }, ctext, true) ∧
      r.runCipher L ctext = .ok ({ r with espstate := st' }, ptext, true) ∧
      ctext.length = text.length ∧ ptext.length = text.length ∧
      ptext.drop s.espivlen = text.drop s.espivlen ∧
      StateSync s.cipher s.espivlen s.espblklen st st' := by
  obtain ⟨hout, hin, -, -, hcipher, -, -, hstate, -⟩ := h
  obtain ⟨incoming, header, spi, seq, espalg, espstate, espivlen, espblklen, cipher, ahalg, ahstate,
    ahlen, ahblklen, auth⟩ := s
  obtain ⟨incoming', header', spi', seq', espalg', espstate', espivlen', espblklen', cipher',
    ahalg', ahstate', ahlen', ahblklen', auth'⟩ := r
  dsimp only at hout hin hcipher hstate hiv hblk ⊢
  subst hout hin hcipher
  cases hstate with
  | null => exact ⟨_, _, text, text, rfl, rfl, rfl, rfl, rfl, .null _ _⟩
  | des expanded ivec ivec' hivec =>
    have hlen := rounds_eq hiv hblk
    have henc (b : List UInt8) (hb : b.length = 8) :
        (L.block_cipher expanded b false).length = 8 := hL.length_block_cipher _ b hb
    have hdec (b : List UInt8) (hb : b.length = 8) :
        L.block_cipher expanded (L.block_cipher expanded b false) true = b :=
      hL.block_cipher_inverse _ b hb
    have hdrop : (text.drop 8).length = 8 * ((text.length - 8 + 7) / 8) := by
      rw [List.length_drop, ← hlen]
    obtain ⟨hclen, hclast⟩ := blockwise_keeps (keepsBlocks_cbcEncrypt henc) _ hivec hdrop
    have hinv : blockwise 8 (cbcDecrypt fun b => L.block_cipher expanded b true)
        ((text.length - 8 + 7) / 8) ivec (blockwise 8 (cbcEncrypt fun b =>
          L.block_cipher expanded b false) ((text.length - 8 + 7) / 8) ivec (text.drop 8)).1 =
        (text.drop 8, _) := cbc_inverse henc hdec _ hivec hdrop
    generalize hsent : blockwise 8 (cbcEncrypt fun b => L.block_cipher expanded b false)
      ((text.length - 8 + 7) / 8) ivec (text.drop 8) = sent at hclen hclast hinv
    have hlen' : (ivec ++ sent.1).length = text.length := by
      rw [List.length_append, hivec, hclen]
      omega
    refine ⟨_, .des ⟨expanded, sent.2⟩, ivec ++ sent.1, ivec ++ text.drop 8, ?_, ?_, hlen', ?_, ?_,
      .des expanded sent.2 sent.2 hclast⟩
    · simp only [Espcb.runCipher, descipher, Bool.false_eq_true, if_false, hsent]
    · simp only [Espcb.runCipher, descipher, if_true, hlen',
        List.take_append_of_le_length hivec.ge, List.take_of_length_le hivec.le,
        List.drop_append_of_le_length hivec.ge, List.drop_of_length_le hivec.le, List.nil_append,
        hinv]
    · rw [List.length_append, hivec, List.length_drop]
      omega
    · rw [List.drop_append_of_le_length hivec.ge, List.drop_of_length_le hivec.le, List.nil_append]
  | rc4 cseq current lgseq oseq lgseq' oseq' old hcseq =>
    have hshort : ¬ text.length < 4 := by omega
    have hput := length_hnputl cseq
    have hlen : (hnputl cseq ++ (L.rc4 current (text.drop 4)).1).length = text.length := by
      rw [List.length_append, hput, hL.length_rc4, List.length_drop]
      omega
    have hget : nhgetl (hnputl cseq ++ (L.rc4 current (text.drop 4)).1) = cseq := by
      rw [nhgetl_hnputl_append, Nat.mod_eq_of_lt hcseq]
    refine ⟨_, .rc4 ⟨ulong (cseq + (text.length - 4 : ℕ)), (L.rc4 current (text.drop 4)).2, lgseq',
      oseq', none⟩, hnputl cseq ++ (L.rc4 current (text.drop 4)).1,
      hnputl cseq ++ text.drop 4, ?_, ?_, hlen, ?_, ?_, .rc4 _ _ lgseq oseq _ _ old (ulong_lt _)⟩
    · simp only [Espcb.runCipher, rc4cipher, if_neg hshort, Bool.false_eq_true, if_false]
    · have hshort' : ¬ (hnputl cseq ++ (L.rc4 current (text.drop 4)).1).length < 4 := by
        rw [hlen]
        exact hshort
      have hinput := Esprc4.input_inOrder hL cseq current lgseq' oseq' (text.drop 4)
      rw [List.length_drop] at hinput
      simp only [Espcb.runCipher, rc4cipher, if_neg hshort', if_true, hget,
        List.take_append_of_le_length hput.ge, List.take_of_length_le hput.le,
        List.drop_append_of_le_length hput.ge, List.drop_of_length_le hput.le, List.nil_append,
        hinput]
    · rw [List.length_append, hput, List.length_drop]
      omega
    · rw [List.drop_append_of_le_length hput.ge, List.drop_of_length_le hput.le, List.nil_append]

/-! ### Authenticators in step -/

/-- The authenticators are the same, and have stored the key that they read. -/
def KeyStored (s r : Espcb K R) : Prop :=
  (s.auth = .nullauth ∧ r.auth = .nullauth ∧ s.ahlen = 0) ∨
    (s.auth = .md5auth ∧ r.auth = .md5auth ∧ s.ahlen = 12 ∧ s.ahstate.length = 16 ∧
      r.ahstate = s.ahstate)

/-- The authenticator that the sender makes of a text is the one that the receiver looks for. -/
theorem runAuth_sync (hL : L.Lawful) {s r : Espcb K R} (hahlen : r.ahlen = s.ahlen)
    (hkey : KeyStored s r) (t : List UInt8) {auth : List UInt8} (hauth : auth.length = s.ahlen) :
    ∃ b tag, tag.length = s.ahlen ∧ s.runAuth L t auth = .ok (b, tag) ∧
      r.runAuth L t tag = .ok (true, tag) := by
  rcases hkey with ⟨hnull, hnull', hlen⟩ | ⟨hmd5, hmd5', hlen, hstored, hstate⟩
  · refine ⟨true, auth, hauth, ?_, ?_⟩
    · rw [Espcb.runAuth, hnull]
    · rw [Espcb.runAuth, hnull']
  · have hread : readKey s.ahstate 16 = .ok s.ahstate := by
      rw [readKey, if_pos hstored.ge, List.take_of_length_le hstored.le]
    refine ⟨decide (auth = (seanq_hmac_md5 L t s.ahstate).take 12),
      (seanq_hmac_md5 L t s.ahstate).take 12, ?_, ?_, ?_⟩
    · rw [hlen, List.length_take, seanq_hmac_md5, seanq_hmac, hL.length_md5]
      rfl
    · rw [Espcb.runAuth, hmd5]
      simp only [md5auth, hmacauth, hread, hlen]
      rfl
    · rw [Espcb.runAuth, hmd5']
      simp only [md5auth, hmacauth, hstate, hahlen, hread, hlen]
      simp only [bind, Except.bind, pure, Except.pure, decide_true]

/-! ### One packet -/

/-- A block written, with what its packet meets on the way: what the memory held, and whether the
queue at the other end is full. -/
structure Message where
  nexthdr : UInt8 := 0
  unused : UInt8 × UInt8 × UInt8 := (0, 0, 0)
  payload : List UInt8
  mem : ℕ → UInt8 := fun _ => 0
  full : Bool := false

namespace Message

/-- The block that is written. -/
def written (m : Message) (header : Bool) : List UInt8 :=
  if header then [m.nexthdr, m.unused.1, m.unused.2.1, m.unused.2.2] ++ m.payload else m.payload

/-- What should come of it. -/
def expected (m : Message) (header : Bool) : Input :=
  if m.full then .qfull
  else .up (if header then [m.nexthdr, 0, 0, 0] ++ m.payload else m.payload)

/-- The bytes of padding in its packet. -/
def pad (m : Message) (ecb : Espcb K R) : ℕ :=
  padlen (if 4 < ecb.espblklen then ecb.espblklen else 4) (m.payload.length + ecb.espivlen)

/-- The text that is encrypted. -/
def text (m : Message) (ecb : Espcb K R) : List UInt8 :=
  fresh m.mem EsphdrSize ecb.espivlen ++ m.payload ++
    fresh m.mem (EsphdrSize + (m.payload.length + ecb.espivlen)) (m.pad ecb) ++
      [uchar (m.pad ecb), if ecb.header then m.nexthdr else 0]

end Message

@[simp] theorem length_fresh (mem : ℕ → UInt8) (i n : ℕ) : (fresh mem i n).length = n := by
  simp [fresh]

theorem length_text (m : Message) (ecb : Espcb K R) :
    (m.text ecb).length = ecb.espivlen + m.payload.length + m.pad ecb + 2 := by
  simp only [Message.text, List.length_append, length_fresh, List.length_cons, List.length_nil]

@[simp] theorem length_v6tov4 (v6 : List UInt8) : (v6tov4 v6).length = 4 := by
  unfold v6tov4
  split_ifs <;> simp

theorem length_iphdr (c : Conv K R) (mem : ℕ → UInt8) : (iphdr c mem).length = IphdrSize := by
  simp only [iphdr, List.length_append, length_v6tov4]
  rfl

/-- The text is made of whole blocks, and its padding can be told in a byte. -/
theorem StateSync.text_blocks {s r : Espcb K R}
    (h : StateSync s.cipher s.espivlen s.espblklen s.espstate r.espstate) (m : Message) :
    4 ∣ (m.text s).length ∧ s.espblklen ∣ (m.text s).length ∧ m.pad s < 256 := by
  rw [length_text, Message.pad, padlen, EsptailSize]
  generalize s.espblklen = blk, s.espivlen = iv, s.cipher = f, s.espstate = st, r.espstate = st'
    at h
  cases h <;> simp only [Nat.reduceLT, if_true, if_false] <;> omega

/-- The packet that is built of a message. -/
theorem espkick_eq {c : Conv K R} (m : Message) (hblk : c.ptcl.ahblklen = 1)
    {st : Espstate K R} {ctext : List UInt8}
    (hcipher : c.ptcl.runCipher L (m.text c.ptcl) =
      .ok ({ c.ptcl with espstate := st }, ctext, true)) :
    espkick L c (m.written c.ptcl.header) m.mem =
      (({ c.ptcl with espstate := st, seq := ulong (c.ptcl.seq + 1) } : Espcb K R).runAuth L
        (hnputl c.ptcl.spi ++ hnputl (ulong (c.ptcl.seq + 1)) ++ ctext)
        (fresh m.mem (EsphdrSize + (m.payload.length + c.ptcl.espivlen) + m.pad c.ptcl +
          EsptailSize) c.ptcl.ahlen)).map fun r =>
        ({ c with ptcl := { c.ptcl with espstate := st, seq := ulong (c.ptcl.seq + 1) } },
          some (iphdr c m.mem ++ (hnputl c.ptcl.spi ++ hnputl (ulong (c.ptcl.seq + 1)) ++ ctext) ++
            r.2)) := by
  have hshort : ¬ (c.ptcl.header = true ∧ (m.written c.ptcl.header).length < UserhdrSize) := by
    rintro ⟨hheader, hlt⟩
    rw [hheader, Message.written, if_pos rfl, List.length_append] at hlt
    simp only [List.length_cons, List.length_nil, UserhdrSize] at hlt
    omega
  have hbody : (if c.ptcl.header = true then (m.written c.ptcl.header).drop UserhdrSize
      else m.written c.ptcl.header) = m.payload := by
    unfold Message.written
    split <;> rfl
  have hnext : (if c.ptcl.header = true then (m.written c.ptcl.header).getD 0 0 else 0) =
      if c.ptcl.header = true then m.nexthdr else 0 := by
    unfold Message.written
    split <;> rfl
  have hpanic (align : ℕ) : ¬ align % c.ptcl.ahblklen ≠ 0 := by
    rw [hblk, Nat.mod_one]
    exact fun h => h rfl
  rw [espkick]
  dsimp only
  rw [if_neg hshort, hbody, hnext, if_neg (hpanic _)]
  simp only [bind, Except.bind, pure, Except.pure]
  unfold Message.text Message.pad at hcipher
  rw [hcipher]
  rfl

/-- What becomes of a packet whose authenticator is right and whose text decrypts. -/
theorem espiput_eq {esp : List (Conv K R)} {i spi : ℕ} (hfound : convlookup esp spi = some i)
    (hspi : spi < 4294967296) {ecb : Espcb K R} (hecb : (esp.getD i {}).ptcl = ecb) (m : Message)
    {st : Espstate K R} {hd seq ctext ptext tag tag' : List UInt8}
    (hhd : hd.length = IphdrSize) (hseq : seq.length = 4) (htag : tag.length = ecb.ahlen)
    (hlen : ctext.length = (m.text ecb).length) (hplen : ptext.length = ctext.length)
    (hdvd : 4 ∣ ctext.length) (hdvd' : ecb.espblklen ∣ ctext.length) (hpad : m.pad ecb < 256)
    (hplain : ptext.drop ecb.espivlen = (m.text ecb).drop ecb.espivlen)
    (hne : m.payload ≠ [])
    (hauth : ecb.runAuth L (hnputl spi ++ seq ++ ctext) tag = .ok (true, tag'))
    (hcipher : ecb.runCipher L ctext = .ok ({ ecb with espstate := st }, ptext, true)) :
    espiput L esp (hd ++ (hnputl spi ++ seq ++ ctext) ++ tag) m.full =
      .ok (esp.set i { esp.getD i {} with ptcl := { ecb with espstate := st } },
        m.expected ecb.header) := by
  have hpos := List.length_pos_iff.mpr hne
  rw [length_text] at hlen
  have hbp : (hd ++ (hnputl spi ++ seq ++ ctext) ++ tag).length =
      28 + ctext.length + ecb.ahlen := by
    simp only [List.length_append, hhd, hseq, htag, length_hnputl, IphdrSize]
    omega
  have hspi' : nhgetl ((hd ++ (hnputl spi ++ seq ++ ctext) ++ tag).drop IphdrSize) = spi := by
    rw [List.append_assoc, List.drop_append_of_le_length hhd.ge, List.drop_of_length_le hhd.le,
      List.nil_append, List.append_assoc, List.append_assoc, nhgetl_hnputl_append,
      Nat.mod_eq_of_lt hspi]
  have hcovered : slice (hd ++ (hnputl spi ++ seq ++ ctext) ++ tag) IphdrSize
      (28 + ctext.length + ecb.ahlen - ecb.ahlen - IphdrSize) = hnputl spi ++ seq ++ ctext := by
    rw [slice, List.append_assoc, List.drop_append_of_le_length hhd.ge,
      List.drop_of_length_le hhd.le, List.nil_append, List.take_append_of_le_length,
      List.take_of_length_le] <;>
    · simp only [List.length_append, length_hnputl, hseq, IphdrSize]
      omega
  have htag' : (hd ++ (hnputl spi ++ seq ++ ctext) ++ tag).drop
      (28 + ctext.length + ecb.ahlen - ecb.ahlen) = tag := by
    rw [List.drop_append_of_le_length, List.drop_of_length_le, List.nil_append] <;>
    · simp only [List.length_append, length_hnputl, hhd, hseq, IphdrSize]
      omega
  have hslice : slice (hd ++ (hnputl spi ++ seq ++ ctext) ++ tag) EsphdrSize
      (28 + ctext.length + ecb.ahlen - EsphdrSize - ecb.ahlen) = ctext := by
    rw [slice, ← List.append_assoc hd, List.append_assoc _ ctext, List.drop_append_of_le_length,
      List.drop_of_length_le, List.nil_append, List.take_append_of_le_length,
      List.take_of_length_le] <;>
    · simp only [List.length_append, length_hnputl, hhd, hseq, IphdrSize, EsphdrSize]
      omega
  have hn : 28 + ctext.length + ecb.ahlen - EsphdrSize - ecb.ahlen = ctext.length := by
    unfold EsphdrSize
    omega
  have hplain : ptext.drop ecb.espivlen = m.payload ++
      (fresh m.mem (EsphdrSize + (m.payload.length + ecb.espivlen)) (m.pad ecb) ++
        [uchar (m.pad ecb), if ecb.header then m.nexthdr else 0]) := by
    rw [hplain, Message.text, List.append_assoc, List.append_assoc,
      List.drop_append_of_le_length (length_fresh _ _ _).ge,
      List.drop_of_length_le (length_fresh _ _ _).le, List.nil_append]
  have hget (k : ℕ) (hk : k < 2) : ptext.getD (ctext.length - EsptailSize + k) 0 =
      [uchar (m.pad ecb), if ecb.header then m.nexthdr else 0].getD k 0 := by
    rw [show ctext.length - EsptailSize + k = ecb.espivlen + (m.payload.length + (m.pad ecb + k)) by
      unfold EsptailSize; omega, List.getD_eq_getElem?_getD, List.getD_eq_getElem?_getD,
      ← List.getElem?_drop, hplain, List.getElem?_append_right (Nat.le_add_right _ _),
      Nat.add_sub_cancel_left,
      List.getElem?_append_right ((length_fresh _ _ _).trans_le (Nat.le_add_right _ _)),
      length_fresh, Nat.add_sub_cancel_left]
  have hdata : slice ptext ecb.espivlen m.payload.length = m.payload := by
    rw [slice, hplain, List.take_left]
  rw [espiput, if_neg (by rw [hbp]; unfold EsphdrSize EsptailSize; omega), hspi', hfound]
  dsimp only
  rw [hecb, hbp, if_neg (by unfold EsphdrSize EsptailSize; omega), hcovered, htag', hauth, hslice,
    hn]
  simp only [bind, Except.bind, pure, Except.pure]
  rw [if_neg (by decide), if_neg (by omega), hcipher]
  dsimp only
  have hpadbyte : (ptext.getD (ctext.length - EsptailSize) 0).toNat = m.pad ecb := by
    rw [← Nat.add_zero (ctext.length - EsptailSize), hget 0 (by decide), List.getD_cons_zero,
      toNat_uchar, Nat.mod_eq_of_lt hpad]
  have hleft : ((ctext.length - EsptailSize : ℕ) : ℤ) - (m.pad ecb + ecb.espivlen) =
      m.payload.length := by
    unfold EsptailSize
    omega
  rw [if_neg (by decide), hpadbyte, hleft, if_neg (by omega), Int.toNat_natCast, hdata,
    hget 1 (by decide), Message.expected]
  cases m.full <;> cases ecb.header <;> simp

/-! ### A conversation and its receiver -/

/-- The receiver of a sending conversation is in place `i`, and in step with it. -/
structure Link (c : Conv K R) (esp : List (Conv K R)) (i : ℕ) : Prop where
  found : convlookup esp c.ptcl.spi = some i
  spi_lt : c.ptcl.spi < 4294967296
  sync : Sync c.ptcl (esp.getD i {}).ptcl

/-- A conversation that keeps its index and its direction is found in its place. -/
theorem convlookup_set {esp : List (Conv K R)} {i : ℕ} {c : Conv K R} (spi : ℕ)
    (hspi : c.ptcl.spi = (esp.getD i {}).ptcl.spi)
    (hin : c.ptcl.incoming = (esp.getD i {}).ptcl.incoming) :
    convlookup (esp.set i c) spi = convlookup esp spi := by
  unfold convlookup
  induction esp generalizing i with
  | nil => rfl
  | cons d esp ih =>
    cases i with
    | zero =>
      simp only [List.getD_cons_zero] at hspi hin
      simp only [List.set_cons_zero, List.findIdx?_cons, hspi, hin]
    | succ i =>
      simp only [List.getD_cons_succ] at hspi hin
      simp only [List.set_cons_succ, List.findIdx?_cons, ih hspi hin]

/-- A packet passes from a conversation to its receiver, and both stay in step. -/
theorem Link.packet (hL : L.Lawful) {c : Conv K R} {esp : List (Conv K R)} {i : ℕ}
    (h : Link c esp i) (hkey : KeyStored c.ptcl (esp.getD i {}).ptcl) (m : Message)
    (hne : m.payload ≠ []) :
    ∃ c' pkt esp', espkick L c (m.written c.ptcl.header) m.mem = .ok (c', some pkt) ∧
      espiput L esp pkt m.full = .ok (esp', m.expected c.ptcl.header) ∧ Link c' esp' i ∧
      KeyStored c'.ptcl (esp'.getD i {}).ptcl ∧ c'.ptcl.header = c.ptcl.header := by
  obtain ⟨hfound, hspi, hsync⟩ := h
  obtain ⟨hdvd, hdvd', hpad⟩ := hsync.state.text_blocks m
  obtain ⟨st, st', ctext, ptext, hcipher, hplain, hclen, hplen, hdrop, hstate⟩ :=
    runCipher_sync hL hsync (by rw [length_text]; omega) hdvd'
  obtain ⟨b, tag, htag, hauth, hcheck⟩ := runAuth_sync hL
    (s := { c.ptcl with espstate := st, seq := ulong (c.ptcl.seq + 1) }) hsync.ahlen hkey
    (hnputl c.ptcl.spi ++ hnputl (ulong (c.ptcl.seq + 1)) ++ ctext)
    (length_fresh m.mem (EsphdrSize + (m.payload.length + c.ptcl.espivlen) + m.pad c.ptcl +
      EsptailSize) c.ptcl.ahlen)
  have htext : m.text (esp.getD i {}).ptcl = m.text c.ptcl := by
    simp only [Message.text, Message.pad, hsync.espivlen, hsync.espblklen, hsync.header]
  have hpad' : m.pad (esp.getD i {}).ptcl = m.pad c.ptcl := by
    simp only [Message.pad, hsync.espivlen, hsync.espblklen]
  have hkick := espkick_eq m hsync.ahblklen hcipher
  rw [hauth] at hkick
  have hiput := espiput_eq hfound hspi rfl m (length_iphdr c m.mem)
    (length_hnputl (ulong (c.ptcl.seq + 1))) (htag.trans hsync.ahlen.symm) (htext ▸ hclen)
    (hplen.trans hclen.symm) (hclen ▸ hdvd) (hsync.espblklen ▸ hclen ▸ hdvd') (hpad' ▸ hpad)
    (by rw [hsync.espivlen, htext, hdrop]) hne hcheck hplain
  rw [congrArg m.expected hsync.header] at hiput
  have hlt : i < esp.length := (List.findIdx?_eq_some_iff_getElem.mp hfound).1
  have hset (d : Conv K R) : (esp.set i d).getD i {} = d := by
    rw [List.getD_eq_getElem?_getD, List.getElem?_set_self hlt, Option.getD_some]
  refine ⟨_, _, _, hkick, hiput, ⟨?_, hspi, ?_⟩, ?_, rfl⟩
  · rw [convlookup_set]
    · exact hfound
    · rfl
    · rfl
  · rw [hset]
    exact { hsync with state := hstate }
  · rw [hset]
    exact hkey

/-! ### Setting up -/

/-- The algorithms of a conversation and their keys, as they stand in control requests. -/
structure Keying where
  esp : String := "null"
  espkey : String := "0"
  ah : String := "null"
  ahkey : String := "0"
  header : Bool := false
  deriving DecidableEq

/-- Set up one end; none if a request is refused. -/
def configure (L : Libsec K R) (k : Keying) (ecb : Espcb K R) (nrand : ℕ → UInt8) :
    Except Fault (Option (Espcb K R)) := do
  let (ecb, e) ← espctl L ecb ["esp", k.esp, k.espkey] nrand
  if e ≠ none then return none
  let (ecb, e) ← espctl L ecb ["ah", k.ah, k.ahkey] nrand
  if e ≠ none then return none
  let (ecb, _) ← espctl L ecb [if k.header then "header" else "noheader"] nrand
  return some ecb

/-- The algorithm and the key of a request. -/
def chosen (alg : List (Algorithm K R)) (name digits : String) :
    Option (Algorithm K R × List UInt8) :=
  (alg.find? fun a => a.name = name).bind fun a =>
    (digits.toList.mapM hexdigit).map fun ds =>
      let nbyte := (a.keylen + 7) >>> 3
      (a, keyLoop nbyte ds.reverse 0 (List.replicate nbyte 0))

theorem length_keyLoop (nbyte : ℕ) (cs : List ℕ) (i : ℕ) (key : List UInt8) :
    (keyLoop nbyte cs i key).length = key.length := by
  induction cs generalizing i key with
  | nil => rfl
  | cons c cs ih =>
    rw [keyLoop]
    split
    · rw [ih, List.length_set]
    · rfl

/-- A request that is not refused sets up its algorithm with its key. -/
theorem setalg_ok {ecb ecb' : Espcb K R} {verb name digits : String}
    {alg : List (Algorithm K R)} {nrand : ℕ → UInt8}
    (h : setalg ecb [verb, name, digits] alg nrand = .ok (ecb', none)) :
    ∃ a key, chosen alg name digits = some (a, key) ∧ a ∈ alg ∧ a.name = name ∧
      key.length = (a.keylen + 7) >>> 3 ∧ a.init ecb a.name key a.keylen nrand = .ok ecb' := by
  rw [setalg, if_neg (by simp only [List.length_cons, List.length_nil]; omega)] at h
  simp only [List.getD_cons_succ, List.getD_cons_zero] at h
  split at h
  · cases h
  · rename_i a hfind
    rw [if_neg (by simp)] at h
    split at h
    · cases h
    · rename_i ds hds
      set key := keyLoop ((a.keylen + 7) >>> 3) ds.reverse 0
        (List.replicate ((a.keylen + 7) >>> 3) 0) with hkey
      refine ⟨a, key, ?_, List.mem_of_find?_eq_some hfind, by simpa using List.find?_some hfind,
        ?_, ?_⟩
      · rw [chosen, hfind, Option.bind_some, hds]
        rfl
      · rw [hkey, length_keyLoop, List.length_replicate]
      · cases hinit : a.init ecb a.name key a.keylen nrand with
        | error e =>
          rw [hinit] at h
          cases h
        | ok ecb₁ =>
          rw [hinit] at h
          cases h
          rfl

/-- The requests of one end, one by one. -/
theorem configure_ok {k : Keying} {ecb ecb' : Espcb K R} {nrand : ℕ → UInt8}
    (h : configure L k ecb nrand = .ok (some ecb')) :
    ∃ ecb₁ ecb₂, setalg ecb ["esp", k.esp, k.espkey] (espalg L) nrand = .ok (ecb₁, none) ∧
      setalg ecb₁ ["ah", k.ah, k.ahkey] ahalg nrand = .ok (ecb₂, none) ∧
      ecb' = { ecb₂ with header := k.header } := by
  have hesp : espctl L ecb ["esp", k.esp, k.espkey] nrand =
      setalg ecb ["esp", k.esp, k.espkey] (espalg L) nrand := rfl
  have hah (ecb : Espcb K R) : espctl L ecb ["ah", k.ah, k.ahkey] nrand =
      setalg ecb ["ah", k.ah, k.ahkey] ahalg nrand := rfl
  have hheader (ecb : Espcb K R) :
      espctl L ecb [if k.header then "header" else "noheader"] nrand =
        .ok ({ ecb with header := k.header }, none) := by
    cases k.header <;> rfl
  simp only [configure, bind, Except.bind, hesp, hah, hheader] at h
  split at h
  · cases h
  · rename_i r hr
    obtain ⟨ecb₁, e⟩ := r
    cases e with
    | some e => cases h
    | none =>
      dsimp only at h
      rw [if_neg (fun h => h rfl)] at h
      dsimp only [pure, Except.pure] at h
      split at h
      · cases h
      · rename_i r hr'
        obtain ⟨ecb₂, e⟩ := r
        cases e with
        | some e => cases h
        | none =>
          cases h
          exact ⟨ecb₁, ecb₂, hr, hr', rfl⟩

theorem readKey_length (key : List UInt8) : readKey key key.length = .ok key := by
  rw [readKey, if_pos le_rfl, List.take_length]

/-- The encryption algorithms put the ciphers of two conversations in step. -/
theorem espinit_sync {a : Algorithm K R} (ha : a ∈ espalg L) {key : List UInt8}
    (hlen : key.length = (a.keylen + 7) >>> 3) {s s' r r' : Espcb K R} {nrand nrand' : ℕ → UInt8}
    (h : a.init s a.name key a.keylen nrand = .ok s')
    (h' : a.init r a.name key a.keylen nrand' = .ok r') :
    (s'.incoming = s.incoming ∧ s'.spi = s.spi) ∧ (r'.incoming = r.incoming ∧ r'.spi = r.spi) ∧
      r'.cipher = s'.cipher ∧ r'.espivlen = s'.espivlen ∧ r'.espblklen = s'.espblklen ∧
      StateSync s'.cipher s'.espivlen s'.espblklen s'.espstate r'.espstate := by
  simp only [espalg, List.mem_cons, List.not_mem_nil, or_false] at ha
  rcases ha with rfl | rfl | rfl
  · cases h
    cases h'
    exact ⟨⟨rfl, rfl⟩, ⟨rfl, rfl⟩, rfl, rfl, rfl, .null _ _⟩
  · have hread : readKey key (min ((64 + 7) >>> 3) 8) = .ok key := by
      rw [← readKey_length key, hlen]
      rfl
    simp only [desespinit, hread, bind, Except.bind, pure, Except.pure] at h h'
    cases h
    cases h'
    exact ⟨⟨rfl, rfl⟩, ⟨rfl, rfl⟩, rfl, rfl, rfl, .des _ _ _ (by simp)⟩
  · have hread : readKey key ((128 + 7) >>> 3) = .ok key := by
      rw [← readKey_length key, hlen]
    simp only [rc4espinit, hread, bind, Except.bind, pure, Except.pure] at h h'
    cases h
    cases h'
    exact ⟨⟨rfl, rfl⟩, ⟨rfl, rfl⟩, rfl, rfl, rfl, .rc4 _ _ _ _ _ _ _ (by decide)⟩

/-- The bytes of its key that an authentication algorithm stores are those it reads, but for the
first hash, which stores none. -/
theorem ahinit_sync {a : Algorithm K R} (ha : a ∈ ahalg) {key : List UInt8}
    (hlen : key.length = (a.keylen + 7) >>> 3) {s s' r r' : Espcb K R} {nrand nrand' : ℕ → UInt8}
    (h : a.init s a.name key a.keylen nrand = .ok s')
    (h' : a.init r a.name key a.keylen nrand' = .ok r') :
    s' = { s with
        ahalg := a.name, ahstate := s'.ahstate, ahlen := s'.ahlen, ahblklen := 1,
        auth := s'.auth } ∧
      r' = { r with
        ahalg := a.name, ahstate := r'.ahstate, ahlen := s'.ahlen, ahblklen := 1,
        auth := r'.auth } ∧
      ((a.name ≠ "hmac_sha1_96" ∧ KeyStored s' r') ∨
        (a.name = "hmac_sha1_96" ∧ s'.auth = .shaauth ∧ s'.ahstate = [])) := by
  simp only [ahalg, List.mem_cons, List.not_mem_nil, or_false] at ha
  rcases ha with rfl | rfl | rfl
  · cases h
    cases h'
    exact ⟨rfl, rfl, .inl ⟨by simp, .inl ⟨rfl, rfl, rfl⟩⟩⟩
  · have hread : readKey key (128 >>> 8) = .ok [] := rfl
    simp only [shaahinit, hread, bind, Except.bind, pure, Except.pure] at h h'
    cases h
    cases h'
    exact ⟨rfl, rfl, .inr ⟨rfl, rfl, rfl⟩⟩
  · have hlen : key.length = 16 := by simpa using hlen
    have hread : readKey key (128 >>> 3) = .ok key := by
      rw [← readKey_length key, hlen]
      rfl
    simp only [md5ahinit, hread, bind, Except.bind, pure, Except.pure] at h h'
    cases h
    cases h'
    exact ⟨rfl, rfl, .inl ⟨by simp, .inr ⟨rfl, rfl, rfl, hlen, rfl⟩⟩⟩

/-- The same requests put a sending and a receiving conversation in step. The keys are stored,
except by the hash that stores none. -/
theorem sync_of_configure {k : Keying} {s s' r r' : Espcb K R} {nrand nrand' : ℕ → UInt8}
    (hs : configure L k s nrand = .ok (some s')) (hr : configure L k r nrand' = .ok (some r'))
    (hout : s.incoming = false) (hin : r.incoming = true) (hspi : r.spi = s.spi) :
    Sync s' r' ∧ s'.header = k.header ∧ s'.spi = s.spi ∧
      ((k.ah ≠ "hmac_sha1_96" ∧ KeyStored s' r') ∨
        (k.ah = "hmac_sha1_96" ∧ s'.auth = .shaauth ∧ s'.ahstate = [])) := by
  obtain ⟨s₁, s₂, hs₁, hs₂, rfl⟩ := configure_ok hs
  obtain ⟨r₁, r₂, hr₁, hr₂, rfl⟩ := configure_ok hr
  obtain ⟨a, key, hchosen, ha, -, hlen, hinit⟩ := setalg_ok hs₁
  obtain ⟨a', key', hchosen', -, -, -, hinit'⟩ := setalg_ok hr₁
  cases Option.some.inj (hchosen.symm.trans hchosen')
  obtain ⟨b, bkey, hbchosen, hb, hbname, hblen, hbinit⟩ := setalg_ok hs₂
  obtain ⟨b', bkey', hbchosen', -, -, -, hbinit'⟩ := setalg_ok hr₂
  cases Option.some.inj (hbchosen.symm.trans hbchosen')
  obtain ⟨⟨hsin, hsspi⟩, ⟨hrin, hrspi⟩, hcipher, hiv, hblk, hstate⟩ :=
    espinit_sync ha hlen hinit hinit'
  obtain ⟨hs₂, hr₂, hkey⟩ := ahinit_sync hb hblen hbinit hbinit'
  rw [← hbname]
  refine ⟨?_, rfl, ?_, hkey⟩
  · rw [hs₂, hr₂]
    exact ⟨hsin.trans hout, hrin.trans hin, by rw [hrspi, hspi, hsspi], rfl, hcipher, hiv, hblk,
      hstate, rfl, rfl⟩
  · rw [hs₂]
    exact hsspi

/-! ### All that is written -/

/-- Send messages, and receive their packets in order. -/
def transfer (L : Libsec K R) :
    Conv K R → List (Conv K R) → List Message → Except Fault (List Input)
  | _, _, [] => .ok []
  | c, esp, m :: ms => do
      let (c, pkt) ← espkick L c (m.written c.ptcl.header) m.mem
      match pkt with
      | none => transfer L c esp ms
      | some pkt =>
          let (esp, r) ← espiput L esp pkt m.full
          let rs ← transfer L c esp ms
          pure (r :: rs)

/-- With the keys stored, every message arrives. -/
theorem Link.transfer (hL : L.Lawful) {c : Conv K R} {esp : List (Conv K R)} {i : ℕ}
    (h : Link c esp i) (hkey : KeyStored c.ptcl (esp.getD i {}).ptcl) {ms : List Message}
    (hne : ∀ m ∈ ms, m.payload ≠ []) :
    Esp.transfer L c esp ms = .ok (ms.map fun m => m.expected c.ptcl.header) := by
  induction ms generalizing c esp with
  | nil => rfl
  | cons m ms ih =>
    obtain ⟨c', pkt, esp', hkick, hiput, hlink, hkey', hheader⟩ :=
      h.packet hL hkey m (hne m List.mem_cons_self)
    have hrest := ih hlink hkey' fun m hm => hne m (List.mem_cons_of_mem _ hm)
    simp only [Esp.transfer, hkick, bind, Except.bind, hiput, hrest, hheader, pure, Except.pure,
      List.map_cons]

/-- A hash that has stored no byte of its key reads outside of it. -/
theorem Link.kick_fault (hL : L.Lawful) {c : Conv K R} {esp : List (Conv K R)} {i : ℕ}
    (h : Link c esp i) (hauth : c.ptcl.auth = .shaauth) (hstored : c.ptcl.ahstate = [])
    (m : Message) : espkick L c (m.written c.ptcl.header) m.mem = .error .badread := by
  obtain ⟨-, -, hsync⟩ := h
  obtain ⟨st, -, ctext, -, hcipher, -⟩ := runCipher_sync hL hsync
    (by rw [length_text]; omega : c.ptcl.espivlen ≤ (m.text c.ptcl).length)
    (hsync.state.text_blocks m).2.1
  have hread : readKey c.ptcl.ahstate 16 = .error .badread := by
    rw [hstored]
    rfl
  rw [espkick_eq m hsync.ahblklen hcipher, Espcb.runAuth]
  simp only [hauth, shaauth, hmacauth, hread]
  rfl

/-- Two conversations are set up by the same requests, the sender's packets reach the receiver in
order, and something is written. All of it arrives, without a read outside a stored key, just when
the authenticator is another one than SHA-1. -/
theorem transfer_iff (hL : L.Lawful) {k : Keying} {c : Conv K R} {esp : List (Conv K R)} {i : ℕ}
    {s r : Espcb K R} {nrand nrand' : ℕ → UInt8}
    (hs : configure L k s nrand = .ok (some c.ptcl))
    (hr : configure L k r nrand' = .ok (some (esp.getD i {}).ptcl))
    (hout : s.incoming = false) (hin : r.incoming = true) (hspi : r.spi = s.spi)
    (hlt : s.spi < 4294967296) (hfound : convlookup esp s.spi = some i) {ms : List Message}
    (hms : ms ≠ []) (hne : ∀ m ∈ ms, m.payload ≠ []) :
    transfer L c esp ms = .ok (ms.map fun m => m.expected k.header) ↔ k.ah ≠ "hmac_sha1_96" := by
  obtain ⟨hsync, hheader, hsspi, hkey⟩ := sync_of_configure hs hr hout hin hspi
  have hlink : Link c esp i := ⟨hsspi ▸ hfound, hsspi ▸ hlt, hsync⟩
  rw [← hheader]
  rcases hkey with ⟨hah, hkey⟩ | ⟨hah, hauth, hstored⟩
  · exact ⟨fun _ => hah, fun _ => hlink.transfer hL hkey hne⟩
  · refine ⟨fun h => ?_, fun h => absurd hah h⟩
    obtain ⟨m, ms, rfl⟩ := List.exists_cons_of_ne_nil hms
    rw [transfer, hlink.kick_fault hL hauth hstored m] at h
    cases h

/-- A library whose ciphers leave a text as it is. -/
def plain : Libsec (List UInt8) (List UInt8) where
  setupDESstate := id
  block_cipher _ b _ := b
  setupRC4state := id
  rc4 r p := (p, r)
  rc4skip r _ := r
  sha1 _ := List.replicate 20 0
  md5 _ := List.replicate 16 0

theorem plain_lawful : plain.Lawful where
  length_block_cipher _ _ h := h
  block_cipher_inverse _ _ _ := rfl
  length_rc4 _ _ := rfl
  rc4_inverse _ _ := rfl
  length_sha1 _ := rfl
  length_md5 _ := rfl

/-- Without encryption and authentication, a block of one byte arrives with its next header. -/
theorem transfer_null :
    transfer plain { ptcl := { spi := 300, header := true } }
      [{ ptcl := { spi := 300, incoming := true, header := true } }]
      [{ nexthdr := 17, payload := [1] }] = .ok [.up [17, 0, 0, 0, 1]] :=
  have hs : configure plain { header := true } { spi := 300 } (fun _ => 0) =
      .ok (some { spi := 300, header := true }) := rfl
  have hr : configure plain { header := true } { spi := 300, incoming := true } (fun _ => 0) =
      .ok (some { spi := 300, incoming := true, header := true }) := rfl
  (transfer_iff (k := { header := true }) (c := { ptcl := { spi := 300, header := true } })
    (r := { spi := 300, incoming := true }) (i := 0)
    plain_lawful hs hr rfl rfl rfl (by decide) rfl (List.cons_ne_nil _ _) (by simp)).mpr
    (by decide)

/-- An end with the SHA-1 authenticator. -/
def shaEnd (incoming : Bool) : Espcb (List UInt8) (List UInt8) where
  incoming := incoming
  spi := 300
  ahalg := "hmac_sha1_96"
  ahlen := 12
  auth := .shaauth

/-- Both ends set up the SHA-1 authenticator with the same key. The first packet reads sixteen bytes
of a key of which none was stored. -/
theorem not_transfer_sha1 :
    configure plain { ah := "hmac_sha1_96", ahkey := "0123456789abcdef0123456789abcdef" }
      { spi := 300 } (fun _ => 0) = .ok (some (shaEnd false)) ∧
    configure plain { ah := "hmac_sha1_96", ahkey := "0123456789abcdef0123456789abcdef" }
      { spi := 300, incoming := true } (fun _ => 0) = .ok (some (shaEnd true)) ∧
    (shaEnd false).ahstate = [] ∧
    transfer plain { ptcl := shaEnd false } [{ ptcl := shaEnd true }] [{ payload := [1] }] =
      .error .badread ∧
    transfer plain { ptcl := shaEnd false } [{ ptcl := shaEnd true }] [{ payload := [1] }] ≠
      .ok [.up [1]] := by
  have hfault : transfer plain { ptcl := shaEnd false } [{ ptcl := shaEnd true }]
      [{ payload := [1] }] = .error .badread := rfl
  refine ⟨rfl, rfl, rfl, hfault, fun h => ?_⟩
  cases hfault.symm.trans h

end PlanNine.Esp
