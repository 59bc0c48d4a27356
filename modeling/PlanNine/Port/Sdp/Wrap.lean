import PlanNine.Port.Sdp.Cipher

/-!
# The wrap of the sequence number

The wrap count is not sent. The sender counts it, and authenticates its packets with it; the
receiver guesses it from the sequence number, but lets the authenticator use the count of the last
packet. Two ends that are in step stay so until the sequence number wraps, and not longer.

## Main definitions

* `MacExact`: the digest tells wrap counts apart.
* `InSync`: an outbound and an inbound direction are in step.
* `Sending`: a packet that one end sends and the other takes.
* `InStep`: the receiver accepts every packet and counts as the sender does.

## Main results

* `inSync_encode`: a packet before the wrap is accepted and keeps the directions in step.
* `judge_wrap`: the first packet after the wrap is not accepted.
* `inStep_iff`: the packets are accepted if and only if none of them wraps.
-/

namespace PlanNine.Sdp

open Kern

variable {L : Libsec}

/-! ### Packets as they are sent -/

/-- The bytes that the authenticator puts behind a packet. -/
def mac (L : Libsec) (wrap : ℕ) (key t : List UInt8) : List UInt8 :=
  (seanq_hmac_md5 L wrap t (key.take 16)).take 12

theorem length_mac (wrap : ℕ) (key t : List UInt8) : (mac L wrap key t).length = 12 := by
  simp [mac, seanq_hmac_md5, L.length_md5]

/-- The header of a packet. -/
def header (type subtype seq : ℕ) : List UInt8 := uchar (type <<< 4 ||| subtype) :: seqBytes seq

@[simp] theorem length_header (type subtype seq : ℕ) : (header type subtype seq).length = 4 := rfl

section

variable {type subtype seq : ℕ} {t : List UInt8}

theorem pktType_header (htype : type < 16) (hsub : subtype < 16) :
    pktType (header type subtype seq ++ t) = type := by
  have hbyte : pktType (header type subtype seq ++ t) = ((type <<< 4 ||| subtype) % 256) >>> 4 := by
    rw [← toNat_uchar]
    rfl
  rw [hbyte, ← Nat.shiftLeft_add_eq_or_of_lt (by simpa using hsub), Nat.shiftLeft_eq,
    Nat.shiftRight_eq_div_pow]
  omega

theorem pktSeq_header (hseq : seq < SeqMax) : pktSeq (header type subtype seq ++ t) = seq := by
  have hbyte : pktSeq (header type subtype seq ++ t) =
      ((seq >>> 16) % 256) <<< 16 + ((seq >>> 8) % 256) <<< 8 + seq % 256 := by
    rw [← toNat_uchar, ← toNat_uchar, ← toNat_uchar]
    rfl
  simp only [SeqMax, Nat.shiftLeft_eq] at hseq
  rw [hbyte]
  simp only [Nat.shiftLeft_eq, Nat.shiftRight_eq_div_pow]
  omega

end

/-- The authenticator of a packet that ends in twelve bytes of digest. -/
theorem md5auth_append {ow : OneWay} {key t m : List UInt8} (hlen : ow.authlen = 12)
    (hkey : ow.authstate = some key) (hm : m.length = 12) :
    md5auth L ow (t ++ m) =
      some (m == mac L ow.seqwrap key t, t ++ mac L ow.seqwrap key t) := by
  have hn : ¬ (t ++ m).length < 12 := by
    rw [List.length_append, hm]
    omega
  have hsub : (t ++ m).length - 12 = t.length := by
    rw [List.length_append, hm, Nat.add_sub_cancel]
  unfold md5auth
  rw [hkey, hlen, if_neg hn]
  dsimp only
  rw [hsub, List.take_left, List.drop_left]
  rfl

/-- What `convoput` makes of a payload that the cipher has turned into `c`. -/
theorem encode_of_encipher {ow ow' : OneWay} {type subtype : ℕ} {b iv c key : List UInt8}
    (hc : encipher L ow.nextSeq (iv ++ b ++ padding ow.nextSeq b.length) = some (ow', c))
    (hauth : ow'.auth = some .md5auth) (hlen : ow'.authlen = 12)
    (hkey : ow'.authstate = some key) (hseq : ow'.seq = ow.nextSeq.seq) :
    encode L ow type subtype b iv =
      some (ow', header type subtype ow'.seq ++ c ++
        mac L ow'.seqwrap key (header type subtype ow'.seq ++ c)) := by
  have hmd5 := md5auth_append (L := L) (t := header type subtype ow'.seq ++ c)
    (m := List.replicate 12 0) hlen hkey (List.length_replicate ..)
  unfold encode
  dsimp only
  rw [hc]
  simp only [Option.bind_eq_bind, Option.bind_some]
  rw [hauth, hlen, ← hseq]
  change (md5auth L ow' (header type subtype ow'.seq ++ c ++ List.replicate 12 0)).bind _ = _
  rw [hmd5]
  rfl

/-- The authenticator of the receiver compares the digest and takes it off. -/
theorem undoAuth_packet {ow : OneWay} {key h c m : List UInt8} (hauth : ow.auth = some .md5auth)
    (hlen : ow.authlen = 12) (hkey : ow.authstate = some key) (hm : m.length = 12)
    (hh : h.length = 4) :
    (m = mac L ow.seqwrap key (h ++ c) →
      ∃ blk : Block, undoAuth L ow (pktPayload (h ++ c ++ m)) = some (true, blk) ∧ blk.data = c ∧
        blk.blen = c.length ∧ blk.wp ≤ blk.buf.length) ∧
    (m ≠ mac L ow.seqwrap key (h ++ c) →
      ∃ blk, undoAuth L ow (pktPayload (h ++ c ++ m)) = some (false, blk)) := by
  have htake : (pktPayload (h ++ c ++ m)).buf.take (pktPayload (h ++ c ++ m)).wp = h ++ c ++ m :=
    List.take_length
  have hundo : undoAuth L ow (pktPayload (h ++ c ++ m)) =
      some (m == mac L ow.seqwrap key (h ++ c),
        { pktPayload (h ++ c ++ m) with
          buf := h ++ c ++ mac L ow.seqwrap key (h ++ c) ++
            (h ++ c ++ m).drop (h ++ c ++ m).length
          wp := (h ++ c ++ m).length -
            (if m == mac L ow.seqwrap key (h ++ c) then 12 else 0) }) := by
    unfold undoAuth
    rw [hauth, htake]
    dsimp only [AuthFn.run]
    rw [md5auth_append hlen hkey hm, Option.map_some, hlen]
    rfl
  constructor
  · rintro rfl
    refine ⟨_, by rw [hundo, beq_self_eq_true, if_pos rfl], ?_, ?_, ?_⟩
    · simp only [Block.data, pktPayload, Block.ofList, List.drop_length, List.append_nil]
      rw [show (h ++ c ++ mac L ow.seqwrap key (h ++ c)).length - 12 = (h ++ c).length by
        rw [List.length_append, hm, Nat.add_sub_cancel], List.take_left, ← hh, List.drop_left]
    · simp only [Block.blen, pktPayload, Block.ofList, List.length_append, hm, hh]
      push_cast
      omega
    · simp only [pktPayload, Block.ofList, List.length_append, length_mac]
      omega
  · intro hne
    refine ⟨_, by rw [hundo, beq_eq_false_iff_ne.mpr hne]⟩

/-! ### Directions in step -/

/-- The digest tells wrap counts apart. -/
def MacExact (L : Libsec) : Prop :=
  ∀ w w' key t, w < 4294967296 → w' < 4294967296 → mac L w key t = mac L w' key t → w = w'

/-- An outbound and an inbound direction under `hmac_md5_96` that are in step. -/
structure InSync (s r : OneWay) : Prop where
  seq : r.seq = s.seq
  seqwrap : r.seqwrap = s.seqwrap
  seq_lt : s.seq < SeqMax
  wrap_lt : s.seqwrap < 4294967296
  auth : s.auth = some .md5auth ∧ r.auth = some .md5auth
  authlen : s.authlen = 12 ∧ r.authlen = 12
  authstate : ∃ key, s.authstate = some key ∧ r.authstate = some key
  cipher : CipherSync s r

theorem inSync_wire {s r : OneWay} : InSync s r.wire ↔ InSync s r :=
  ⟨fun h => ⟨h.1, h.2, h.3, h.4, h.5, h.6, h.7, h.8⟩,
    fun h => ⟨h.1, h.2, h.3, h.4, h.5, h.6, h.7, h.8⟩⟩

/-- The next packet of the same wrap. -/
theorem nextSeq_of_lt {ow : OneWay} (h : ow.seq + 1 < SeqMax) :
    ow.nextSeq = { ow with seq := ow.seq + 1 } := by
  have hmax : SeqMax = 16777216 := rfl
  unfold OneWay.nextSeq
  rw [if_neg (by omega), incr, Nat.mod_eq_of_lt (by omega)]

/-- The first packet of the next wrap. -/
theorem nextSeq_of_eq {ow : OneWay} (h : ow.seq + 1 = SeqMax) :
    ow.nextSeq = { ow with seq := 0, seqwrap := incr ow.seqwrap } := by
  unfold OneWay.nextSeq
  rw [if_pos h]

/-- What the sender makes of a payload: only its count and its cipher change, and the receiver's
cipher undoes it. -/
theorem encode_sync (hL : InversePair L) {s r next : OneWay} {key : List UInt8}
    (hnext : s.nextSeq = next) (hauth : next.auth = some .md5auth) (hlen : next.authlen = 12)
    (hkey : next.authstate = some key) (hiv : next.cipherivlen = s.cipherivlen)
    (hc : CipherSync next r) (type subtype : ℕ) (b : List UInt8) :
    ∃ st c, encode L s type subtype b (List.replicate s.cipherivlen 0) =
        some ({ next with cipherstate := st },
          header type subtype next.seq ++ c ++
            mac L next.seqwrap key (header type subtype next.seq ++ c)) ∧
      Undone L { next with cipherstate := st } r c := by
  obtain ⟨st, c, henc, hundone⟩ := cipher_roundtrip hL hc b
  refine ⟨st, c, ?_, hundone⟩
  rw [← hiv]
  exact encode_of_encipher (by rw [hnext]; exact henc) hauth hlen hkey (by rw [hnext])

/-- A packet of the same wrap is accepted and keeps the directions in step. -/
theorem inSync_encode (hL : InversePair L) {s r : OneWay} (h : InSync s r)
    (hseq : s.seq + 1 < SeqMax) {type subtype : ℕ} (htype : 0 < type ∧ type < 16)
    (hsub : subtype < 16) (b : List UInt8) :
    ∃ s' pkt, encode L s type subtype b (List.replicate s.cipherivlen 0) = some (s', pkt) ∧
      4 ≤ pkt.length ∧ pktType pkt ≠ TConnect ∧ (judge L r pkt).2 = true ∧
      InSync s' (judge L r pkt).1 ∧ s'.seq = s.seq + 1 := by
  obtain ⟨key, hkey, hkey'⟩ := h.authstate
  obtain ⟨st, c, henc, hundone⟩ := encode_sync hL (nextSeq_of_lt hseq) h.auth.1 h.authlen.1 hkey
    rfl h.cipher type subtype b
  refine ⟨_, _, henc, by simp, ?_, ?_⟩
  · rw [List.append_assoc, pktType_header htype.2 hsub]
    exact htype.1.ne'
  dsimp only
  generalize hp : header type subtype (s.seq + 1) ++ c ++
    mac L s.seqwrap key (header type subtype (s.seq + 1) ++ c) = pkt
  have hpseq : pktSeq pkt = s.seq + 1 := by
    rw [← hp, List.append_assoc, pktSeq_header hseq]
  have hmax : SeqMax = 16777216 := rfl
  have hguess : guess r (pktSeq pkt) = (r.seqwrap, 1) := by
    rw [hpseq, guess_of_near hseq (by rw [h.seq]; omega) (by rw [h.seq]; omega)
      (by rw [h.seq]; omega), h.seq]
    congr 1
    push_cast
    ring
  obtain ⟨blk, hundo, hdata, hblen, hwp⟩ := (undoAuth_packet h.auth.2 h.authlen.2 hkey'
    (length_mac s.seqwrap key (header type subtype (s.seq + 1) ++ c)) rfl).1 (by rw [h.seqwrap])
  rw [hp] at hundo
  obtain ⟨st', b', hcipher, hsync⟩ := hundone blk hdata hblen hwp
  have hjudge : judge L r pkt =
      (slide { r with cipherstate := st' } (s.seq + 1) r.seqwrap 1, true) := by
    unfold judge judgeAuth
    rw [hguess]
    dsimp only
    rw [show seqCheck r 1 = .new from rfl]
    dsimp only
    rw [hundo]
    dsimp only
    rw [hcipher, hpseq]
  rw [hjudge]
  refine ⟨rfl, ?_, rfl⟩
  simp only [slide, Int.one_pos, if_true]
  exact ⟨rfl, h.seqwrap, hseq, h.wrap_lt, h.auth, h.authlen, ⟨key, hkey, hkey'⟩, hsync⟩

/-- The first packet of the next wrap is not accepted: it is authenticated with a wrap count that
the receiver guesses but does not use. -/
theorem judge_wrap (hL : InversePair L) (hM : MacExact L) {s r : OneWay} (h : InSync s r)
    (hseq : s.seq + 1 = SeqMax) {type subtype : ℕ} (htype : 0 < type ∧ type < 16)
    (hsub : subtype < 16) (b : List UInt8) :
    ∃ s' pkt, encode L s type subtype b (List.replicate s.cipherivlen 0) = some (s', pkt) ∧
      4 ≤ pkt.length ∧ pktType pkt ≠ TConnect ∧ (judge L r pkt).2 = false := by
  obtain ⟨key, hkey, hkey'⟩ := h.authstate
  obtain ⟨st, c, henc, -⟩ := encode_sync hL (nextSeq_of_eq hseq) h.auth.1 h.authlen.1 hkey
    rfl h.cipher type subtype b
  refine ⟨_, _, henc, by simp, ?_, ?_⟩
  · rw [List.append_assoc, pktType_header htype.2 hsub]
    exact htype.1.ne'
  dsimp only
  have hne : mac L (incr s.seqwrap) key (header type subtype 0 ++ c) ≠
      mac L r.seqwrap key (header type subtype 0 ++ c) := by
    intro heq
    have := hM _ _ _ _ (Nat.mod_lt _ (by decide)) (by rw [h.seqwrap]; exact h.wrap_lt) heq
    rw [h.seqwrap] at this
    exact incr_ne_self _ this
  obtain ⟨blk, hundo⟩ := (undoAuth_packet h.auth.2 h.authlen.2 hkey' (length_mac _ _ _)
    (length_header type subtype 0)).2 hne
  have hauth (g : ℕ × ℤ) : (judgeAuth L r (header type subtype 0 ++ c ++
      mac L (incr s.seqwrap) key (header type subtype 0 ++ c)) g).2 = false := by
    unfold judgeAuth
    rw [hundo]
  unfold judge
  split
  · rfl
  · rfl
  · exact hauth _
  · exact hauth _

/-! ### Packets from one end to the other -/

/-- A packet that one end sends and the other takes, with what their two calls meet outside. Only
packets of connections have type 0. -/
structure Sending where
  env : Env := {}
  type : ℕ
  subtype : ℕ
  payload : List UInt8
  env' : Env := {}
  control : Bool := false
  type_pos : 0 < type := by decide
  type_lt : type < 16 := by decide
  subtype_lt : subtype < 16 := by decide

/-- The sender after its call. -/
def Sending.put (L : Libsec) (x : Sending) (s : Conv) : World :=
  (convoput L x.env x.type x.subtype x.payload { conv := s }).2

/-- The receiver after its call. -/
def Sending.take (L : Libsec) (x : Sending) (pkt : List UInt8) (r : Conv) : Conv :=
  (conviput L x.env' pkt x.control { conv := r }).2.conv

/-- Every packet is written to the channel: none is dropped and no write fails. -/
def Sent (L : Libsec) : Conv → List Sending → Prop
  | _, [] => True
  | s, x :: es => (x.put L s).sent ≠ [] ∧ Sent L (x.put L s).conv es

/-- The receiver accepts every packet, and after each its count is the sender's. -/
def InStep (L : Libsec) : Conv → Conv → List Sending → Prop
  | _, _, [] => True
  | s, r, x :: es => ∀ pkt ∈ (x.put L s).sent,
      (verdict L r.inp pkt).2 = true ∧
      (x.take L pkt r).inp.seqwrap = (x.put L s).conv.out.seqwrap ∧
      (x.take L pkt r).inp.seq = (x.put L s).conv.out.seq ∧
      InStep L (x.put L s).conv (x.take L pkt r) es

/-- The sender writes what `encode` makes of the payload, or nothing. -/
theorem sent_put {x : Sending} {s : Conv} {ow : OneWay} {pkt : List UInt8}
    (henc : encode L s.out x.type x.subtype x.payload (List.replicate s.out.cipherivlen 0) =
      some (ow, pkt)) (hsent : (x.put L s).sent ≠ []) :
    (x.put L s).sent = [pkt] ∧ (x.put L s).conv.out = ow := by
  have hwrite {w : World} (hw : w.sent = []) (hout : w.conv.out = ow) :
      (convwriteblock x.env pkt).wp
        (fun _ w' => w'.sent ≠ [] → w'.sent = [pkt] ∧ w'.conv.out = ow)
        (fun _ w' => w'.sent ≠ [] → w'.sent = [pkt] ∧ w'.conv.out = ow) w := by
    have hclose : Leaves World.sent convclose := leaves_convclose fun _ _ => rfl
    simp only [convwriteblock, wp_bind, wp_get, wp_modify, wp_ite, wp_pure, wp_assert, wp_error]
    split_ifs
    · exact fun h => absurd hw h
    · exact wp_mono (hclose [] _ hw) (fun _ _ h' h => absurd h' h) fun _ _ h' h => absurd h' h
    · exact fun _ => ⟨by rw [hw, List.nil_append], hout⟩
    · exact fun h => absurd hw h
  refine wp_snd (P := fun w => w.sent ≠ [] → w.sent = [pkt] ∧ w.conv.out = ow)
    (m := convoput L x.env x.type x.subtype x.payload) (s := { conv := s }) ?_ hsent
  unfold convoput
  rw [wp_bind, wp_modify, wp_bind, wp_setConv, wp_bind, wp_getConv]
  simp only [out_map_countOut]
  rw [henc]
  dsimp only
  rw [wp_bind, wp_setConv]
  exact hwrite rfl rfl

/-- The receiver of a data packet does what its inbound direction says. -/
theorem hears_take {x : Sending} {r : Conv} {pkt : List UInt8} (hr : Hearing r)
    (hlen : 4 ≤ pkt.length) (htype : pktType pkt ≠ TConnect) :
    Hearing (x.take L pkt r) ∧ (x.take L pkt r).inp.wire = (judge L r.inp pkt).1.wire :=
  wp_snd (wp_conviput_data (w := { conv := r }) hr hlen htype)

theorem verdict_of_data {ow : OneWay} {pkt : List UInt8} (hlen : 4 ≤ pkt.length)
    (htype : pktType pkt ≠ TConnect) : verdict L ow pkt = judge L ow pkt := by
  unfold verdict
  rw [if_neg (by simp [htype, hlen])]

/-- Two ends in step stay in step, and the receiver accepts all packets, if and only if the
sequence number of the sender does not wrap. -/
theorem inStep_iff (hL : InversePair L) (hM : MacExact L) {s r : Conv} (hr : Hearing r)
    (h : InSync s.out r.inp) {es : List Sending} (hes : Sent L s es) :
    InStep L s r es ↔ s.out.seq + es.length < SeqMax := by
  induction es generalizing s r with
  | nil => simpa [InStep] using h.seq_lt
  | cons x es ih =>
      obtain ⟨hsent, hrest⟩ := hes
      rw [List.length_cons]
      by_cases hseq : s.out.seq + 1 < SeqMax
      · obtain ⟨ow, pkt, henc, hlen, htype, hacc, hsync, hnext⟩ := inSync_encode hL h hseq
          ⟨x.type_pos, x.type_lt⟩ x.subtype_lt x.payload
        obtain ⟨hpkt, hout⟩ := sent_put henc hsent
        obtain ⟨hr', hwire⟩ := hears_take (L := L) (x := x) hr hlen htype
        have hsync' : InSync (x.put L s).conv.out (x.take L pkt r).inp := by
          rw [hout, ← inSync_wire, hwire]
          exact inSync_wire.mpr hsync
        have hiff := ih hr' hsync' hrest
        rw [hout, hnext] at hiff
        simp only [InStep, hpkt, List.mem_singleton, forall_eq, verdict_of_data hlen htype, hacc,
          hsync'.seq, hsync'.seqwrap, true_and]
        rw [hiff]
        omega
      · have hlast : s.out.seq + 1 = SeqMax := by
          have := h.seq_lt
          omega
        obtain ⟨ow, pkt, henc, hlen, htype, hrej⟩ := judge_wrap hL hM h hlast
          ⟨x.type_pos, x.type_lt⟩ x.subtype_lt x.payload
        obtain ⟨hpkt, -⟩ := sent_put henc hsent
        constructor
        · intro hin
          obtain ⟨hacc, -⟩ := hin pkt (by rw [hpkt]; exact List.mem_singleton.mpr rfl)
          rw [verdict_of_data hlen htype, hrej] at hacc
          exact absurd hacc (by decide)
        · intro hlt
          omega

/-! ### At the wrap -/

/-- A security library whose digest shows the first bytes behind a block of key. -/
def Libsec.plain : Libsec :=
  { Libsec.null with
    md5 := fun l => (l.drop 64 ++ List.replicate 16 0).take 16
    length_md5 := by simp }

theorem inversePair_plain : InversePair Libsec.plain := fun _ _ _ => rfl

theorem mac_plain (w : ℕ) (key t : List UInt8) :
    (mac Libsec.plain w key t).take 4 = hnputl w := by
  have hpad (b : UInt8) : ((List.range 64).map fun i => b ^^^ (key.take 16).getD i 0).length =
      64 := by simp
  simp only [mac, seanq_hmac_md5, Libsec.plain, List.append_assoc, List.drop_left' (hpad _)]
  rfl

theorem macExact_plain : MacExact Libsec.plain := by
  intro w w' key t hw hw' h
  have htake := congrArg (List.take 4) h
  rw [mac_plain, mac_plain] at htake
  exact hnputl_injective hw hw' htake

/-- The sender after `seq` packets of the first wrap. -/
def sender (seq : ℕ) : Conv where
  ref := 3
  state := .cOpen
  chan := true
  out :=
    { seq := seq, auth := some .md5auth, authlen := 12
      authstate := some (List.replicate 16 0) }

/-- The receiver after the packet with the number `seq`. -/
def receiver (seq : ℕ) : Conv :=
  { opened with inp := { opened.inp with seq := seq } }

theorem inSync_sender {seq : ℕ} (h : seq < SeqMax) :
    InSync (sender seq).out (receiver seq).inp where
  seq := rfl
  seqwrap := rfl
  seq_lt := h
  wrap_lt := Nat.zero_lt_succ _
  auth := ⟨rfl, rfl⟩
  authlen := ⟨rfl, rfl⟩
  authstate := ⟨_, rfl, rfl⟩
  cipher := .inl ⟨rfl, rfl, rfl, rfl⟩

/-- One byte of data. -/
def oneByte : Sending where
  type := TData
  subtype := 0
  payload := [0x41]
  subtype_lt := (0 : Fin 16).isLt

theorem inStep_iff_one :
    InStep Libsec.plain (sender 0) (receiver 0) [oneByte] ↔ 0 + 1 < SeqMax :=
  inStep_iff inversePair_plain macExact_plain (.inl ⟨rfl, by decide⟩) (inSync_sender (by decide))
    ⟨by decide, trivial⟩

/-- Two ends in step at the last number of a wrap: the next packet is not accepted. -/
theorem not_inStep_at_wrap :
    InSync (sender 16777215).out (receiver 16777215).inp ∧ Hearing (receiver 16777215) ∧
      Sent Libsec.plain (sender 16777215) [oneByte] ∧
      ¬ InStep Libsec.plain (sender 16777215) (receiver 16777215) [oneByte] := by
  refine ⟨inSync_sender (by decide), .inl ⟨rfl, by decide⟩, ⟨by decide, trivial⟩, ?_⟩
  intro h
  obtain ⟨hacc, -⟩ := h _ (List.mem_singleton.mpr rfl)
  exact absurd hacc (by decide)

end PlanNine.Sdp
