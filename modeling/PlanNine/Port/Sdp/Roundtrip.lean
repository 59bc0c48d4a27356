import PlanNine.Lib.Run
import PlanNine.Port.Sdp.Sealed

/-!
# Payloads from one end to the other

Two conversations with agreeing secrets are given the same cipher and the same authenticator. One
writes payloads and the other takes the packets in any order, with losses and duplicates. Every
block returned for a sequence number is the payload written under that number, and when the packets
come in order each is returned. The null algorithms are the exception: the functions of an outbound
direction are left over from the algorithm given up, have no state, and stop the machine.

## Main definitions

* `Packet`: the packet of a payload under a cipher and an authenticator.
* `Link`: two conversations, what was written and what was returned.
* `RoundTrips`: the blocks returned are the payloads, and none is missed in order.

## Main results

* `returned_packet`: what a receiver makes of a packet in any state of its run.
* `roundTrips_iff`: the payloads round trip unless a null algorithm takes the place of another one.
-/

namespace PlanNine.Sdp

open Kern

variable {L : Libsec}

/-! ### Packets -/

/-- What the authenticator with the key `k`, if there is one, puts behind a packet. -/
def trailer (L : Libsec) (k : Option (List UInt8)) (wrap : ℕ) (t : List UInt8) : List UInt8 :=
  match k with
  | none => []
  | some key => mac L wrap key t

/-- The inbound direction verifies packets with the key `k`. -/
def Verifies (k : Option (List UInt8)) (r : OneWay) : Prop :=
  match k with
  | none => r.auth = none
  | some key => r.auth = some .md5auth ∧ r.authlen = 12 ∧ r.authstate = some key

/-- The outbound direction signs packets with the key `k`. Its authenticator may be left over from
an algorithm given up before, but it has no state. -/
def Signs (k : Option (List UInt8)) (s : OneWay) : Prop :=
  match k with
  | none => s.authstate = none ∧ s.authlen = 0
  | some key => s.auth = some .md5auth ∧ s.authlen = 12 ∧ s.authstate = some key

/-- A function of the outbound direction is left over from an algorithm given up before. -/
def Stale (e : Sealing) (k : Option (List UInt8)) (s : OneWay) : Prop :=
  e = .null ∧ s.cipher ≠ none ∨ k = none ∧ s.auth ≠ none

/-- The packet with the number `seq` of the payload `b` at the position `pos` of the key stream. -/
def Packet (L : Libsec) (e : Sealing) (k : Option (List UInt8)) (type wrap seq pos : ℕ)
    (b pkt : List UInt8) : Prop :=
  (0 < type ∧ type < 16) ∧ ∃ subtype c, subtype < 16 ∧ e.Seals L pos b c ∧
    pkt = header type subtype seq ++ c ++ trailer L k wrap (header type subtype seq ++ c)

section

variable {e : Sealing} {k : Option (List UInt8)} {type subtype wrap seq pos p : ℕ}
  {b pkt : List UInt8} {r s : OneWay}

theorem Packet.length (h : Packet L e k type wrap seq pos b pkt) : 4 ≤ pkt.length := by
  obtain ⟨-, subtype, c, -, -, rfl⟩ := h
  simp only [List.length_append, length_header]
  omega

theorem Packet.pktType (h : Packet L e k type wrap seq pos b pkt) : pktType pkt = type := by
  obtain ⟨⟨-, htype⟩, subtype, c, hsub, -, rfl⟩ := h
  rw [List.append_assoc, pktType_header htype hsub]

theorem Packet.pktSeq (h : Packet L e k type wrap seq pos b pkt) (hseq : seq < SeqMax) :
    pktSeq pkt = seq := by
  obtain ⟨-, subtype, c, -, -, rfl⟩ := h
  rw [List.append_assoc, pktSeq_header hseq]

/-- The packet of the next payload, unless a function left over has no state. -/
theorem encode_packet (he : e.Encrypts pos s) (hk : Signs k s) (hseq : s.seq + 1 < SeqMax)
    (hroom : e.Room (pos + b.length)) (htype : 0 < type ∧ type < 16) (hsub : subtype < 16) :
    (Stale e k s ∧ encode L s type subtype b (List.replicate s.cipherivlen 0) = none) ∨
    ∃ st pkt, encode L s type subtype b (List.replicate s.cipherivlen 0) =
        some ({ s with seq := s.seq + 1, cipherstate := st }, pkt) ∧
      Packet L e k type s.seqwrap (s.seq + 1) pos b pkt ∧
      e.Encrypts (pos + b.length) { s with seq := s.seq + 1, cipherstate := st } := by
  have hnext := nextSeq_of_lt hseq
  have he' : e.Encrypts pos s.nextSeq := by
    rw [hnext]
    cases e <;> exact he
  have hiv : s.nextSeq.cipherivlen = s.cipherivlen := by rw [hnext]
  rcases encipher_seals (L := L) he' hroom with ⟨hnull, hstale, hnone⟩ | ⟨st, c, henc, hc, he''⟩
  · rw [hnext] at hstale
    rw [hiv] at hnone
    refine .inl ⟨.inl ⟨hnull, hstale⟩, ?_⟩
    unfold encode
    dsimp only
    rw [hnone]
    rfl
  rw [hiv] at henc
  rcases k with _ | key
  · rw [hnext] at henc he''
    unfold encode
    rw [hnext]
    dsimp only at henc ⊢
    rw [henc]
    simp only [Option.bind_eq_bind, Option.bind_some]
    rcases hauth : s.auth with _ | f
    · refine .inr ⟨st, _, rfl, ⟨htype, subtype, c, hsub, hc, ?_⟩, ?_⟩
      · rw [trailer, List.append_nil]
        rfl
      · cases e <;> exact he''
    · refine .inl ⟨.inr ⟨rfl, by rw [hauth]; simp⟩, ?_⟩
      obtain ⟨hst, hlen⟩ := hk
      cases f
      simp only [AuthFn.run, md5auth, hst, hlen]
      rfl
  · obtain ⟨hauth, hlen, hkey⟩ := hk
    have hpkt : encode L s type subtype b (List.replicate s.cipherivlen 0) = _ :=
      encode_of_encipher henc (by rw [hnext]; exact hauth) (by rw [hnext]; exact hlen)
        (by rw [hnext]; exact hkey) rfl
    rw [hnext] at hpkt he''
    exact .inr ⟨st, _, hpkt, ⟨htype, subtype, c, hsub, hc, rfl⟩, he''⟩

/-- The authenticator of the receiver takes the digest off, or the packet is of another wrap. -/
theorem undoAuth_trailer (hk : Verifies k r) (wrap : ℕ) {h : List UInt8} (hh : h.length = 4)
    (c : List UInt8) :
    (∃ blk : Block, undoAuth L r (pktPayload (h ++ c ++ trailer L k wrap (h ++ c))) =
        some (true, blk) ∧ blk.data = c ∧ blk.blen = c.length ∧ blk.wp ≤ blk.buf.length) ∨
    r.seqwrap ≠ wrap ∧
      ∃ blk, undoAuth L r (pktPayload (h ++ c ++ trailer L k wrap (h ++ c))) =
        some (false, blk) := by
  rcases k with _ | key
  · have hauth : r.auth = none := hk
    refine .inl ⟨pktPayload (h ++ c ++ []), by rw [undoAuth, hauth]; rfl, ?_, ?_, ?_⟩
    · rw [List.append_nil]
      simp only [Block.data, pktPayload, Block.ofList, List.take_length]
      exact List.drop_left' hh
    · simp only [Block.blen, pktPayload, Block.ofList, List.append_nil, List.length_append, hh]
      push_cast
      omega
    · exact le_rfl
  · obtain ⟨hauth, hlen, hkey⟩ := hk
    obtain ⟨hgood, hbad⟩ := undoAuth_packet (L := L) (c := c) hauth hlen hkey
      (length_mac wrap key (h ++ c)) hh
    by_cases hmac : mac L wrap key (h ++ c) = mac L r.seqwrap key (h ++ c)
    · exact .inl (hgood hmac)
    · exact .inr ⟨fun heq => hmac (by rw [heq]), hbad hmac⟩

/-- The authenticator and the cipher of the receiver open a packet to its payload or refuse it, and
the packet that comes next they open. -/
theorem open_packet (hL : InversePair L) (hk : Verifies k r) (hr : e.Decrypts p r)
    (h : Packet L e k type wrap seq pos b pkt) (hroom : e.Room (pos + b.length)) (g : ℕ × ℤ) :
    ∃ st p', e.Decrypts p' { r with cipherstate := st } ∧
      (openAuth L r pkt = none ∧ judgeAuth L r pkt g = ({ r with cipherstate := st }, false) ∧
          ¬ (r.seqwrap = wrap ∧ p = pos) ∨
        ∃ b', openAuth L r pkt = some b' ∧ b'.data = b ∧
          judgeAuth L r pkt g =
            (slide { r with cipherstate := st } (PlanNine.Sdp.pktSeq pkt) g.1 g.2,
            true) ∧ (p = pos → p' = pos + b.length)) := by
  obtain ⟨-, subtype, c, -, hc, rfl⟩ := h
  unfold openAuth judgeAuth
  rcases undoAuth_trailer (L := L) hk wrap (length_header type subtype seq) c with
    ⟨blk, hundo, hdata, hblen, hwp⟩ | ⟨hwrap, blk, hundo⟩
  · rw [hundo]
    obtain ⟨ok, st, b', p', hcipher, hr', hb', hnext⟩ :=
      undoCipher_seals hL hr hc hroom hdata hblen hwp
    refine ⟨st, p', hr', ?_⟩
    dsimp only
    rw [hcipher]
    rcases ok with _ | _
    · exact .inl ⟨rfl, rfl, fun hn => absurd (hnext hn.2).1 (by decide)⟩
    · exact .inr ⟨b', rfl, hb' rfl, rfl, fun hp => (hnext hp).2⟩
  · rw [hundo]
    exact ⟨r.cipherstate, p, hr, .inl ⟨rfl, rfl, fun hn => hwrap hn.1⟩⟩

theorem decrypts_slide {n w : ℕ} {d : ℤ} (h : e.Decrypts p r) : e.Decrypts p (slide r n w d) := by
  unfold slide
  split_ifs <;> cases e <;> exact h

/-- What the receiver keeps over its run: its key, and that it has no compressor. -/
structure Receives (k : Option (List UInt8)) (e : Sealing) (r : OneWay) : Prop where
  verifies : Verifies k r
  comp : r.comp = none
  decrypts : ∃ p, e.Decrypts p r

/-- In whatever state of its run, a receiver returns the payload of a packet or nothing. -/
theorem returned_packet (hL : InversePair L) (h : Receives k e r)
    (hp : Packet L e k type wrap seq pos b pkt) (hroom : e.Room (pos + b.length)) (control : Bool) :
    Receives k e (judge L r pkt).1 ∧
      ∀ b', returned L r pkt control = some b' → b'.data = b := by
  obtain ⟨p, hr⟩ := h.decrypts
  have hstay : Receives k e r ∧ ∀ b', (none : Option Block) = some b' → b'.data = b :=
    ⟨h, fun b' hb' => absurd hb' (by simp)⟩
  have hopen : Receives k e (judgeAuth L r pkt (guess r (PlanNine.Sdp.pktSeq pkt))).1 ∧
      ∀ b', (openAuth L r pkt).bind (given (PlanNine.Sdp.pktType pkt) control) = some b' →
        b'.data = b := by
    obtain ⟨st, p', hr', ⟨hnone, hjudge, -⟩ | ⟨b₁, hsome, hb₁, hjudge, -⟩⟩ :=
      open_packet hL h.verifies hr hp hroom (guess r (PlanNine.Sdp.pktSeq pkt))
    · rw [hnone, hjudge]
      exact ⟨⟨h.verifies, h.comp, p', hr'⟩, fun b' hb' => absurd hb' (by simp)⟩
    · rw [hsome, hjudge]
      refine ⟨⟨?_, ?_, p', decrypts_slide hr'⟩, fun b' hb' => ?_⟩
      · have hv := h.verifies
        unfold slide
        split_ifs <;> cases k <;> exact hv
      · have hcomp := h.comp
        unfold slide
        split_ifs <;> exact hcomp
      · rw [Option.bind_some, given] at hb'
        split_ifs at hb'
        rw [← Option.some.inj hb']
        exact hb₁
  unfold judge returned
  cases seqCheck r (guess r (PlanNine.Sdp.pktSeq pkt)).2 with
  | old | dup => exact hstay
  | reorder | new => exact hopen

/-- The packet of data that comes next is returned, and the receiver moves on behind it. -/
theorem returned_next (hL : InversePair L) (hk : Verifies k r) (hr : e.Decrypts pos r)
    (hp : Packet L e k TData r.seqwrap (r.seq + 1) pos b pkt) (hroom : e.Room (pos + b.length))
    (hseq : r.seq + 1 < SeqMax) :
    (∃ b', returned L r pkt false = some b' ∧ b'.data = b) ∧
      e.Decrypts (pos + b.length) (judge L r pkt).1 ∧ (judge L r pkt).1.seq = r.seq + 1 ∧
      (judge L r pkt).1.seqwrap = r.seqwrap := by
  have hmax : SeqMax = 16777216 := rfl
  have hguess : guess r (PlanNine.Sdp.pktSeq pkt) = (r.seqwrap, 1) := by
    rw [hp.pktSeq hseq, guess_of_near hseq (by omega) (by omega) (by omega)]
    congr 1
    push_cast
    ring
  obtain ⟨st, p', hr', ⟨-, -, hn⟩ | ⟨b', hsome, hb', hjudge, hnext⟩⟩ :=
    open_packet hL hk hr hp hroom (guess r (PlanNine.Sdp.pktSeq pkt))
  · exact absurd ⟨rfl, rfl⟩ hn
  have hnew : seqCheck r (1 : ℤ) = .new := rfl
  unfold returned judge
  rw [hguess] at hjudge ⊢
  dsimp only
  rw [hnew]
  dsimp only
  rw [hsome, hjudge, ← hnext rfl]
  dsimp only
  refine ⟨⟨b', ?_, hb'⟩, decrypts_slide hr', ?_, ?_⟩
  · rw [Option.bind_some, given, if_pos ⟨hp.pktType, rfl⟩]
  · simp only [slide, Int.one_pos, if_true]
    exact hp.pktSeq hseq
  · simp only [slide, Int.one_pos, if_true]

end

/-! ### Two ends and the packets between them -/

/-- Two conversations: what was written at one end, the packets that it wrote to its channel, how
many of them were taken at the other end, and the sequence numbers and the bytes of the blocks
returned there. -/
structure Link where
  snd : Conv
  rcv : Conv
  written : List (List UInt8) := []
  wire : List (List UInt8) := []
  taken : ℕ := 0
  got : List (ℕ × List UInt8) := []

/-- A payload is written, or the packet number `i` is taken. -/
inductive LinkEvent where
  | put (env : Env) (type subtype : ℕ) (b : List UInt8)
  | take (env : Env) (i : ℕ) (control : Bool)

namespace Link

def put (L : Libsec) (t : Link) (env : Env) (type subtype : ℕ) (b : List UInt8) : Link :=
  let w := (convoput L env type subtype b { conv := t.snd }).2
  { t with snd := w.conv, written := t.written ++ [b], wire := t.wire ++ w.sent }

def take (L : Libsec) (t : Link) (env : Env) (pkt : List UInt8) (control : Bool) : Link :=
  let r := conviput L env pkt control { conv := t.rcv }
  { t with
    rcv := r.2.conv
    taken := t.taken + 1
    got := t.got ++ match r.1 with
      | .ok (some b) => [(pktSeq pkt, b.data)]
      | _ => [] }

end Link

/-- A step of two ends: a write that does not stop the machine, or any packet of those written. -/
inductive Carry (L : Libsec) (t : Link) : LinkEvent → Link → Prop
  | put {env : Env} {type subtype : ℕ} {b : List UInt8} (htype : 0 < type ∧ type < 16)
      (hsub : subtype < 16)
      (hrun : ∀ why, (convoput L env type subtype b { conv := t.snd }).1 ≠ .error (.panic why)) :
      Carry L t (.put env type subtype b) (t.put L env type subtype b)
  | take {env : Env} {i : ℕ} {control : Bool} {pkt : List UInt8} (hpkt : t.wire[i]? = some pkt) :
      Carry L t (.take env i control) (t.take L env pkt control)

/-- The packet that is written gets to the channel. -/
def Arrives (env : Env) (c : Conv) : Prop :=
  c.chan = true ∧ ¬ (c.drop ≠ 0 ∧ env.dropped 0 = true) ∧ env.fails 0 = false

/-- Data are written, and all packets arrive in order. -/
def InOrder (t : Link) : LinkEvent → Prop
  | .put env type _ _ => type = TData ∧ Arrives env t.snd
  | .take _ i control => i = t.taken ∧ control = false

/-- The counters of RC4 tell the bytes apart. -/
def Cipheralg.Room : Cipheralg → ℕ → Prop
  | .rc4_128, n | .rc4_256, n => n < 2147483648
  | .null, _ | .des_56_cbc, _ => True

/-- There are fewer packets than sequence numbers, and fewer bytes than RC4 counts. -/
def Within (a : Cipheralg) (base : ℕ) (written : List (List UInt8)) : Prop :=
  base + written.length < SeqMax ∧ a.Room written.flatten.length

/-- Every block returned for a sequence number is the payload written under it. -/
def Link.Sound (t : Link) (base : ℕ) : Prop :=
  ∀ q ∈ t.got, base < q.1 ∧ t.written[q.1 - base - 1]? = some q.2

/-- The next payload can be written, and the blocks returned are the payloads of the packets
taken. -/
def Link.Complete (L : Libsec) (a : Cipheralg) (t : Link) (base : ℕ) : Prop :=
  (∀ env subtype b, subtype < 16 → Arrives env t.snd → Within a base (t.written ++ [b]) →
    (convoput L env TData subtype b { conv := t.snd }).1 = .ok ()) ∧
  t.got.map Prod.snd = t.written.take t.taken

/-- Every block returned is the right payload, and none is missed when the packets come in
order. -/
def RoundTrips (L : Libsec) (a : Cipheralg) (s r : Conv) : Prop :=
  (∀ t, Run (Carry L) (fun _ _ => True) { snd := s, rcv := r } t →
    Within a s.out.seq t.written → t.Sound s.out.seq) ∧
  ∀ t, Run (Carry L) InOrder { snd := s, rcv := r } t →
    Within a s.out.seq t.written → t.Complete L a s.out.seq

/-! ### A write -/

section

variable {env : Env} {type subtype : ℕ} {b pkt : List UInt8} {c : Conv} {ow : OneWay}

/-- A packet that cannot be made stops the machine. -/
theorem convoput_of_none
    (henc : encode L c.out type subtype b (List.replicate c.out.cipherivlen 0) = none) :
    (convoput L env type subtype b { conv := c }).1 = .error (.panic .nilalg) := by
  have hwp : (convoput L env type subtype b).wp (fun _ _ => False)
      (fun e _ => e = .panic .nilalg) { conv := c } := by
    unfold convoput
    rw [wp_bind, wp_modify, wp_bind, wp_setConv, wp_bind, wp_getConv]
    simp only [out_map_countOut]
    rw [henc]
    rfl
  unfold Kern.wp at hwp
  rcases h : convoput L env type subtype b { conv := c } with ⟨_ | _, w⟩ <;> rw [h] at hwp
  · rw [hwp]
  · exact hwp.elim

/-- The world after a write that returns. -/
def Wrote (arrives : Prop) (ow : OneWay) (pkt : List UInt8) (w : World) : Prop :=
  Hearing w.conv ∧ w.conv.out = ow ∧ (w.sent = [] ∨ w.sent = [pkt]) ∧ (arrives → w.sent = [pkt])

/-- The world after a write that raises an error or stops the machine. -/
def Unwritten (arrives : Prop) (ow : OneWay) (w : World) : Prop :=
  Hearing w.conv ∧ w.conv.out = ow ∧ w.sent = [] ∧ ¬ arrives

theorem wrote_convwriteblock {arrives : Prop} {w : World} (hhear : Hearing w.conv)
    (hout : w.conv.out = ow) (hsent : w.sent = [])
    (harr : arrives → w.conv.chan = true ∧ ¬ env.refuses w ∧
      ¬ (w.conv.drop ≠ 0 ∧ env.dropped w.nwrite = true)) :
    (convwriteblock env pkt).wp (fun _ => Wrote arrives ow pkt) (fun _ => Unwritten arrives ow)
      w := by
  by_cases hchan : w.conv.chan = true
  · rw [wp_convwriteblock hchan]
    refine ⟨fun _ => ⟨hhear, hout, ?_, fun ha => ?_⟩, fun hrefuse => ?_⟩
    · simp only [World.wrote, hsent]
      split_ifs
      · exact .inl rfl
      · exact .inr rfl
    · simp only [World.wrote, hsent, if_neg (harr ha).2.2, List.nil_append]
    · rw [wp_convclose_of_held (by exact hhear.closed_or_lt)]
      exact ⟨.inr rfl, hout, hsent, fun ha => (harr ha).2.1 hrefuse⟩
  · simp only [convwriteblock, wp_bind, wp_get, wp_modify, wp_ite, wp_pure, wp_assert, hchan,
      Bool.false_eq_true, if_false]
    split_ifs
    · exact ⟨hhear, hout, .inl hsent, fun ha => absurd (harr ha).1 hchan⟩
    · exact ⟨hhear, hout, hsent, fun ha => hchan (harr ha).1⟩

/-- A packet that can be made is written or dropped, or the write closes the conversation. -/
theorem convoput_of_some (env : Env) (hc : Hearing c)
    (henc : encode L c.out type subtype b (List.replicate c.out.cipherivlen 0) = some (ow, pkt)) :
    let w := convoput L env type subtype b { conv := c }
    Hearing w.2.conv ∧ w.2.conv.out = ow ∧ (w.2.sent = [] ∨ w.2.sent = [pkt]) ∧
      (Arrives env c → w.1 = .ok () ∧ w.2.sent = [pkt]) := by
  have hwp : (convoput L env type subtype b).wp (fun _ => Wrote (Arrives env c) ow pkt)
      (fun _ => Unwritten (Arrives env c) ow) { conv := c } := by
    unfold convoput
    rw [wp_bind, wp_modify, wp_bind, wp_setConv, wp_bind, wp_getConv]
    simp only [out_map_countOut]
    rw [henc]
    dsimp only
    rw [wp_bind, wp_setConv]
    refine wrote_convwriteblock hc rfl rfl fun ha => ⟨ha.1, fun hrefuse => ?_, ha.2.1⟩
    exact absurd (ha.2.2.symm.trans hrefuse.1) (by decide)
  unfold Kern.wp at hwp
  rcases h : convoput L env type subtype b { conv := c } with ⟨_ | _, w⟩ <;> rw [h] at hwp
  · obtain ⟨hear, hout, hsent, hno⟩ := hwp
    exact ⟨hear, hout, .inl hsent, fun ha => absurd ha hno⟩
  · obtain ⟨hear, hout, hsent, harr⟩ := hwp
    exact ⟨hear, hout, hsent, fun ha => ⟨rfl, harr ha⟩⟩

end

/-! ### Every block is the right payload -/

/-- The bytes written before the payload number `i`. -/
def offset (written : List (List UInt8)) (i : ℕ) : ℕ := (written.take i).flatten.length

theorem offset_append {written : List (List UInt8)} {i : ℕ} (h : i ≤ written.length)
    (b : List UInt8) : offset (written ++ [b]) i = offset written i := by
  rw [offset, List.take_append_of_le_length h, offset]

theorem offset_succ {written : List (List UInt8)} {i : ℕ} {b : List UInt8}
    (h : written[i]? = some b) : offset written (i + 1) = offset written i + b.length := by
  rw [offset, offset, List.take_add_one, h, List.flatten_append, List.length_append]
  simp

theorem offset_le (written : List (List UInt8)) (i : ℕ) :
    offset written i ≤ written.flatten.length := by
  have h := congrArg (fun l => (List.flatten l).length) (List.take_append_drop i written)
  simp only [List.flatten_append, List.length_append] at h
  unfold offset
  omega

/-- A packet of the payload number `i` of those written. -/
def PacketAt (L : Libsec) (e : Sealing) (k : Option (List UInt8)) (wrap base : ℕ)
    (written : List (List UInt8)) (type i : ℕ) (pkt : List UInt8) : Prop :=
  ∃ b, written[i]? = some b ∧ Packet L e k type wrap (base + i + 1) (offset written i) b pkt

variable {e : Sealing} {k : Option (List UInt8)} {wrap base : ℕ}

theorem PacketAt.append {written : List (List UInt8)} {type i : ℕ} {pkt : List UInt8}
    (h : PacketAt L e k wrap base written type i pkt) (b : List UInt8) :
    PacketAt L e k wrap base (written ++ [b]) type i pkt := by
  obtain ⟨b', hb', hp⟩ := h
  have hi : i < written.length := (List.getElem?_eq_some_iff.mp hb').1
  refine ⟨b', ?_, ?_⟩
  · rw [List.getElem?_append_left hi, hb']
  · rwa [offset_append hi.le]

/-- What holds of the sender. -/
structure Link.Sends (e : Sealing) (k : Option (List UInt8)) (wrap base : ℕ) (t : Link) :
    Prop where
  hearing : Hearing t.snd
  seq : t.snd.out.seq = base + t.written.length
  seqwrap : t.snd.out.seqwrap = wrap
  encrypts : e.Encrypts t.written.flatten.length t.snd.out
  signs : Signs k t.snd.out

/-- What holds in every run. -/
structure Link.Inv (L : Libsec) (e : Sealing) (k : Option (List UInt8)) (wrap base : ℕ) (t : Link) :
    Prop extends t.Sends e k wrap base where
  listens : Hearing t.rcv
  receives : Receives k e t.rcv.inp
  wire : ∀ pkt ∈ t.wire, ∃ type i, PacketAt L e k wrap base t.written type i pkt
  sound : t.Sound base

/-- There is room for all that was written. -/
def Fits (e : Sealing) (base : ℕ) (written : List (List UInt8)) : Prop :=
  base + written.length < SeqMax ∧ e.Room written.flatten.length

theorem Sealing.Room.mono {m n : ℕ} (h : e.Room n) (hle : m ≤ n) : e.Room m := by
  cases e with
  | rc4 key => exact lt_of_le_of_lt hle h
  | _ => trivial

theorem Fits.of_append {written : List (List UInt8)} {b : List UInt8}
    (h : Fits e base (written ++ [b])) : Fits e base written := by
  obtain ⟨hlen, hroom⟩ := h
  rw [List.length_append, List.length_singleton] at hlen
  refine ⟨by omega, hroom.mono ?_⟩
  rw [List.flatten_append, List.length_append]
  exact Nat.le_add_right _ _

theorem Fits.room {written : List (List UInt8)} {i : ℕ} {b : List UInt8}
    (h : Fits e base written) (hb : written[i]? = some b) :
    e.Room (offset written i + b.length) := by
  rw [← offset_succ hb]
  exact h.2.mono (offset_le _ _)

variable {t t' : Link} {env : Env} {type subtype : ℕ} {b : List UInt8}

/-- What a write that does not stop the machine does: the next packet is written or lost. -/
theorem sends_put (env : Env) (h : t.Sends e k wrap base) (hfits : Fits e base (t.written ++ [b]))
    (htype : 0 < type ∧ type < 16) (hsub : subtype < 16) :
    (Stale e k t.snd.out ∧
      (convoput L env type subtype b { conv := t.snd }).1 = .error (.panic .nilalg)) ∨
    ∃ pkt, (t.put L env type subtype b).Sends e k wrap base ∧
      PacketAt L e k wrap base (t.written ++ [b]) type t.written.length pkt ∧
      ((convoput L env type subtype b { conv := t.snd }).2.sent = [] ∨
        (convoput L env type subtype b { conv := t.snd }).2.sent = [pkt]) ∧
      (Arrives env t.snd → (convoput L env type subtype b { conv := t.snd }).1 = .ok () ∧
        (convoput L env type subtype b { conv := t.snd }).2.sent = [pkt]) ∧
      (t.put L env type subtype b).snd.out.cipher = t.snd.out.cipher ∧
      (t.put L env type subtype b).snd.out.auth = t.snd.out.auth := by
  obtain ⟨hlen, hroom⟩ := hfits
  rw [List.length_append, List.length_singleton] at hlen
  rw [List.flatten_append, List.length_append, List.flatten_singleton] at hroom
  rcases encode_packet (L := L) h.encrypts h.signs (by rw [h.seq]; omega) hroom htype hsub with
    ⟨hstale, hnone⟩ | ⟨st, pkt, hsome, hpkt, henc⟩
  · exact .inl ⟨hstale, convoput_of_none hnone⟩
  obtain ⟨hear, hout, hsent, harr⟩ := convoput_of_some env h.hearing hsome
  have hsnd : (t.put L env type subtype b).snd.out =
      { t.snd.out with seq := t.snd.out.seq + 1, cipherstate := st } := hout
  have hwritten : (t.put L env type subtype b).written = t.written ++ [b] := rfl
  refine .inr ⟨pkt, ⟨hear, ?_, ?_, ?_, ?_⟩, ⟨b, List.getElem?_concat_length, ?_⟩, hsent, harr,
    by rw [hsnd], by rw [hsnd]⟩
  · rw [hsnd, hwritten, List.length_append, List.length_singleton, ← add_assoc, ← h.seq]
  · rw [hsnd]
    exact h.seqwrap
  · rw [hsnd, hwritten, List.flatten_append, List.length_append, List.flatten_singleton]
    exact henc
  · rw [hsnd]
    have hsigns := h.signs
    cases k <;> exact hsigns
  · rw [offset_append le_rfl, offset, List.take_length, ← h.seq, ← h.seqwrap]
    exact hpkt

theorem judge_comp (ow : OneWay) {pkt : List UInt8} (hlen : 4 ≤ pkt.length)
    (htype : pktType pkt ≠ TConnect) : (judge L ow pkt).1.comp = ow.comp := by
  have hauth (g : ℕ × ℤ) : (judgeAuth L ow pkt g).1.comp = ow.comp := by
    obtain ⟨st, h | ⟨h, -⟩⟩ := judgeAuth_cases L ow pkt g hlen htype
    · rw [h]
    · rw [h]
      unfold slide
      split_ifs <;> rfl
  unfold judge
  split
  · rfl
  · rfl
  · exact hauth _
  · exact hauth _

/-- What a delivery does: the receiver judges the packet, and what it returns is recorded. -/
theorem take_eq (env : Env) (control : Bool) {pkt : List UInt8} (hr : Hearing t.rcv)
    (hcomp : t.rcv.inp.comp = none) (hlen : 4 ≤ pkt.length) (htype : pktType pkt ≠ TConnect) :
    Hearing (t.take L env pkt control).rcv ∧
      (t.take L env pkt control).rcv.inp.wire = (judge L t.rcv.inp pkt).1.wire ∧
      (t.take L env pkt control).got = t.got ++
        ((returned L t.rcv.inp pkt control).map fun b => (pktSeq pkt, b.data)).toList := by
  have hjudge : (judge L t.rcv.inp pkt).1.wire.comp = none :=
    (judge_comp t.rcv.inp hlen htype).trans hcomp
  have hwp := wp_conviput_returns (L := L) env control (w := { conv := t.rcv }) hr hlen htype
  unfold Kern.wp at hwp
  rw [Link.take]
  rcases h : conviput L env pkt control { conv := t.rcv } with ⟨_ | r, w⟩ <;> rw [h] at hwp
  · obtain ⟨⟨hear, hwire⟩, hret⟩ := hwp
    refine ⟨hear, hwire, ?_⟩
    rw [hret fun _ => hjudge]
    rfl
  · obtain ⟨⟨hear, hwire⟩, hret⟩ := hwp
    refine ⟨hear, hwire, ?_⟩
    rw [← hret fun _ => hjudge]
    cases r <;> rfl

theorem receives_wire {r : OneWay} : Receives k e r.wire ↔ Receives k e r := by
  constructor <;> rintro ⟨hv, hc, p, hd⟩ <;> refine ⟨?_, hc, p, ?_⟩
  all_goals first | (cases k <;> exact hv) | (cases e <;> exact hd)

theorem Link.Sound.append {l : List (ℕ × List UInt8)} (h : t.Sound base)
    (hgot : t'.got = t.got ++ l) (hwritten : t'.written = t.written)
    (hl : ∀ q ∈ l, base < q.1 ∧ t.written[q.1 - base - 1]? = some q.2) : t'.Sound base := by
  intro q hq
  rw [hgot, List.mem_append] at hq
  rw [hwritten]
  exact hq.elim (h q) (hl q)

/-- A step keeps the sender going, and what is returned right. -/
theorem inv_carry (hL : InversePair L) {ev : LinkEvent} (h : t.Inv L e k wrap base)
    (hstep : Carry L t ev t') (hfits : Fits e base t'.written) : t'.Inv L e k wrap base := by
  cases hstep with
  | put htype hsub hrun =>
    rename_i env type subtype b
    rcases sends_put (L := L) env h.toSends hfits htype hsub with
      ⟨-, hpanic⟩ | ⟨pkt, hsends, hpkt, hsent, -⟩
    · exact absurd hpanic (hrun _)
    refine ⟨hsends, h.listens, h.receives, fun p hp => ?_, fun q hq => ?_⟩
    · rcases List.mem_append.mp hp with hold | hnew
      · obtain ⟨type', i, hat⟩ := h.wire p hold
        exact ⟨type', i, hat.append b⟩
      · rcases hsent with hsent | hsent
        · rw [hsent] at hnew
          exact absurd hnew List.not_mem_nil
        · rw [hsent, List.mem_singleton] at hnew
          exact ⟨type, t.written.length, hnew ▸ hpkt⟩
    · obtain ⟨hlt, hget⟩ := h.sound q hq
      refine ⟨hlt, ?_⟩
      have hi := (List.getElem?_eq_some_iff.mp hget).1
      exact (List.getElem?_append_left hi).trans hget
  | take hpkt =>
    rename_i env i control pkt
    obtain ⟨type, i, b, hb, hp⟩ := h.wire pkt (List.mem_of_getElem? hpkt)
    have hi : i < t.written.length := (List.getElem?_eq_some_iff.mp hb).1
    have hseq : base + i + 1 < SeqMax := by
      have := hfits.1
      change base + t.written.length < SeqMax at this
      omega
    have htype : pktType pkt ≠ TConnect := by
      rw [hp.pktType]
      exact hp.1.1.ne'
    obtain ⟨hrec, hret⟩ := returned_packet hL h.receives hp (Fits.room hfits hb) control
    obtain ⟨hear, hwire, hgot⟩ := take_eq (L := L) env control h.listens
      h.receives.comp hp.length htype
    refine ⟨⟨h.hearing, h.seq, h.seqwrap, h.encrypts, h.signs⟩, hear, ?_, h.wire,
      h.sound.append hgot rfl fun q hq => ?_⟩
    · rw [← receives_wire, hwire, receives_wire]
      exact hrec
    · rcases hr : returned L t.rcv.inp pkt control with _ | b'
      · rw [hr] at hq
        exact absurd hq List.not_mem_nil
      · rw [hr] at hq
        obtain rfl := List.mem_singleton.mp hq
        dsimp only
        rw [hp.pktSeq hseq, hret b' hr, show base + i + 1 - base - 1 = i by omega]
        exact ⟨by omega, hb⟩

/-- What fits after a step fitted before it. -/
theorem fits_of_carry {ev : LinkEvent} (hstep : Carry L t ev t') (h : Fits e base t'.written) :
    Fits e base t.written := by
  cases hstep with
  | put => exact h.of_append
  | take => exact h

/-- What every step keeps while there is room for what was written. -/
theorem invariant_of_fits {ok : Link → LinkEvent → Prop} {P : Link → Prop} {s : Link} (h0 : P s)
    (hstep : ∀ t ev u, P t → ok t ev → Carry L t ev u → Fits e base u.written → P u)
    (h : Run (Carry L) ok s t) : Fits e base t.written → P t := by
  induction h with
  | nil => exact fun _ => h0
  | snoc _ hok hst ih => exact fun hfits => hstep _ _ _ (ih (fits_of_carry hst hfits)) hok hst hfits

/-! ### In order none is missed -/

/-- What holds in every run in which all packets arrive in order. -/
structure Link.Ordered (L : Libsec) (e : Sealing) (k : Option (List UInt8)) (wrap base : ℕ)
    (t : Link) : Prop extends t.Sends e k wrap base where
  fresh : ¬ Stale e k t.snd.out
  listens : Hearing t.rcv
  verifies : Verifies k t.rcv.inp
  comp : t.rcv.inp.comp = none
  count : t.wire.length = t.written.length
  wire : ∀ i pkt, t.wire[i]? = some pkt → PacketAt L e k wrap base t.written TData i pkt
  taken : t.taken ≤ t.wire.length
  rseq : t.rcv.inp.seq = base + t.taken
  rseqwrap : t.rcv.inp.seqwrap = wrap
  decrypts : e.Decrypts (offset t.written t.taken) t.rcv.inp
  got : t.got.map Prod.snd = t.written.take t.taken

theorem ordered_put (h : t.Ordered L e k wrap base) (hfits : Fits e base (t.written ++ [b]))
    (htype : 0 < type ∧ type < 16) (hdata : type = TData) (hsub : subtype < 16)
    (harr : Arrives env t.snd) :
    (t.put L env type subtype b).Ordered L e k wrap base := by
  have hle : t.taken ≤ t.written.length := h.count ▸ h.taken
  rcases sends_put (L := L) env h.toSends hfits htype hsub with
    ⟨hstale, -⟩ | ⟨pkt, hsends, hpkt, -, hsent, hcipher, hauth⟩
  · exact absurd hstale h.fresh
  have hwire : (t.put L env type subtype b).wire = t.wire ++ [pkt] :=
    congrArg (t.wire ++ ·) (hsent harr).2
  have hwritten : (t.put L env type subtype b).written = t.written ++ [b] := rfl
  refine ⟨hsends, ?_, h.listens, h.verifies, h.comp, ?_, fun i p hp => ?_, ?_, h.rseq, h.rseqwrap,
    ?_, ?_⟩
  · rw [Stale, hcipher, hauth]
    exact h.fresh
  · rw [hwire, hwritten, List.length_append, List.length_append, h.count]
    rfl
  · rw [hwire] at hp
    rcases Nat.lt_or_ge i t.wire.length with hi | hi
    · rw [List.getElem?_append_left hi] at hp
      exact (h.wire i p hp).append b
    · rw [List.getElem?_append_right hi] at hp
      obtain ⟨hlt, hp⟩ := List.getElem?_eq_some_iff.mp hp
      rw [List.length_singleton] at hlt
      obtain rfl : i = t.written.length := by
        have := h.count
        omega
      rw [← hp, List.getElem_singleton, ← hdata]
      exact hpkt
  · rw [hwire, List.length_append]
    exact h.taken.trans (Nat.le_add_right _ _)
  · rw [hwritten]
    have hd := h.decrypts
    rw [← offset_append hle b] at hd
    exact hd
  · rw [hwritten, List.take_append_of_le_length]
    · exact h.got
    · exact hle

theorem decrypts_wire {p : ℕ} {r : OneWay} : e.Decrypts p r.wire ↔ e.Decrypts p r := by
  cases e <;> rfl

theorem verifies_wire {r : OneWay} : Verifies k r.wire ↔ Verifies k r := by
  cases k <;> rfl

theorem ordered_take (hL : InversePair L) (h : t.Ordered L e k wrap base)
    (hfits : Fits e base t.written) {pkt : List UInt8} (hpkt : t.wire[t.taken]? = some pkt) :
    (t.take L env pkt false).Ordered L e k wrap base := by
  obtain ⟨b, hb, hp⟩ := h.wire t.taken pkt hpkt
  have hi : t.taken < t.written.length := (List.getElem?_eq_some_iff.mp hb).1
  have htype : pktType pkt ≠ TConnect := by
    rw [hp.pktType]
    decide
  have hseq : t.rcv.inp.seq + 1 < SeqMax := by
    have := hfits.1
    rw [h.rseq]
    omega
  have hp' : Packet L e k TData t.rcv.inp.seqwrap (t.rcv.inp.seq + 1) (offset t.written t.taken) b
      pkt := by
    rw [h.rseqwrap, h.rseq]
    exact hp
  obtain ⟨⟨b', hret, hb'⟩, hdec, hseq', hwrap'⟩ :=
    returned_next hL h.verifies h.decrypts hp' (hfits.room hb) hseq
  obtain ⟨hrec, -⟩ := returned_packet hL ⟨h.verifies, h.comp, _, h.decrypts⟩ hp' (hfits.room hb)
    false
  obtain ⟨hear, hwire, hgot⟩ := take_eq (L := L) env false h.listens h.comp
    hp.length htype
  obtain ⟨hwseq, hwwrap, -, -⟩ := wire_eq hwire
  refine ⟨⟨h.hearing, h.seq, h.seqwrap, h.encrypts, h.signs⟩, h.fresh, hear, ?_, ?_, h.count,
    h.wire, ?_, ?_, ?_, ?_, ?_⟩
  · rw [← verifies_wire, hwire, verifies_wire]
    exact hrec.verifies
  · exact (congrArg OneWay.comp hwire).trans hrec.comp
  · exact (List.getElem?_eq_some_iff.mp hpkt).1
  · rw [hwseq, hseq', h.rseq, add_assoc]
    rfl
  · rw [hwwrap, hwrap', h.rseqwrap]
  · rw [← decrypts_wire, hwire, decrypts_wire]
    have hsucc := offset_succ hb
    rw [← hsucc] at hdec
    exact hdec
  · rw [hgot, hret, List.map_append, h.got]
    change t.written.take t.taken ++ [b'.data] = t.written.take (t.taken + 1)
    rw [List.take_add_one, hb, hb']
    rfl

theorem ordered_carry (hL : InversePair L) {ev : LinkEvent} (h : t.Ordered L e k wrap base)
    (hok : InOrder t ev) (hstep : Carry L t ev t') (hfits : Fits e base t'.written) :
    t'.Ordered L e k wrap base := by
  cases hstep with
  | put htype hsub hrun => exact ordered_put h hfits htype hok.1 hsub hok.2
  | take hpkt =>
    obtain ⟨rfl, rfl⟩ := hok
    exact ordered_take hL h hfits hpkt

/-! ### Two ends set up alike -/

/-- Two conversations with agreeing secrets that count alike: what the one sends is for the
other. -/
structure Paired (s r : Conv) : Prop where
  sends : Hearing s
  listens : Hearing r
  chan : s.chan = true
  secret : s.out.secret = r.inp.secret
  seq : r.inp.seq = s.out.seq
  seq_lt : s.out.seq + 1 < SeqMax
  seqwrap : r.inp.seqwrap = s.out.seqwrap
  comp : r.inp.comp = none

/-- The conversation with the authenticator `m` and the cipher `a`. -/
def configure (L : Libsec) (env : Env) (a : Cipheralg) (m : Authalg) (c : Conv) : Conv :=
  setcipher L env a (setauth L m c)

/-- A null algorithm does not take the place of another one in the outbound direction. -/
def Settable (a : Cipheralg) (m : Authalg) (s : Conv) : Prop :=
  (a = .null → s.out.cipher = none) ∧ (m ≠ .hmac_md5_96 → s.out.auth = none)

/-- The key of a conversation with the secret of the direction `ow`. -/
def Cipheralg.sealing (L : Libsec) (ow : OneWay) : Cipheralg → Sealing
  | .null => .null
  | .des_56_cbc => .des (setkey L 7 ow cipherPrefix ++ [0])
  | .rc4_128 => .rc4 (setkey L 16 ow cipherPrefix)
  | .rc4_256 => .rc4 (setkey L 32 ow cipherPrefix)

/-- The key of the authenticator with the secret of the direction `ow`. -/
def Authalg.signing (L : Libsec) (ow : OneWay) : Authalg → Option (List UInt8)
  | .null | .hmac_sha1_96 => none
  | .hmac_md5_96 => some (setkey L 16 ow authPrefix)

theorem setkey_congr {ow ow' : OneWay} (h : ow.secret = ow'.secret) (n : ℕ) (p : List UInt8) :
    setkey L n ow p = setkey L n ow' p := by
  unfold setkey setkeyRound
  rw [h]

section

variable {s r : Conv} {a : Cipheralg} {m : Authalg}

theorem room_sealing {ow : OneWay} {n : ℕ} : a.Room n ↔ (a.sealing L ow).Room n := by
  cases a <;> rfl

/-- What the choice of an authenticator leaves alone. -/
theorem setauth_frame (c : Conv) :
    (setauth L m c).state = c.state ∧ (setauth L m c).ref = c.ref ∧
      (setauth L m c).chan = c.chan ∧ (setauth L m c).out.seq = c.out.seq ∧
      (setauth L m c).out.seqwrap = c.out.seqwrap ∧ (setauth L m c).out.secret = c.out.secret ∧
      (setauth L m c).out.cipher = c.out.cipher ∧ (setauth L m c).inp.seq = c.inp.seq ∧
      (setauth L m c).inp.seqwrap = c.inp.seqwrap ∧ (setauth L m c).inp.secret = c.inp.secret ∧
      (setauth L m c).inp.comp = c.inp.comp := by
  cases m <;> exact ⟨rfl, rfl, rfl, rfl, rfl, rfl, rfl, rfl, rfl, rfl, rfl⟩

/-- What the choice of a cipher leaves alone. -/
theorem setcipher_frame (env : Env) (c : Conv) :
    (setcipher L env a c).state = c.state ∧ (setcipher L env a c).ref = c.ref ∧
      (setcipher L env a c).chan = c.chan ∧ (setcipher L env a c).out.seq = c.out.seq ∧
      (setcipher L env a c).out.seqwrap = c.out.seqwrap ∧
      (setcipher L env a c).out.auth = c.out.auth ∧
      (setcipher L env a c).out.authlen = c.out.authlen ∧
      (setcipher L env a c).out.authstate = c.out.authstate ∧
      (setcipher L env a c).inp.seq = c.inp.seq ∧
      (setcipher L env a c).inp.seqwrap = c.inp.seqwrap ∧
      (setcipher L env a c).inp.comp = c.inp.comp ∧
      (setcipher L env a c).inp.auth = c.inp.auth ∧
      (setcipher L env a c).inp.authlen = c.inp.authlen ∧
      (setcipher L env a c).inp.authstate = c.inp.authstate := by
  cases a <;> exact ⟨rfl, rfl, rfl, rfl, rfl, rfl, rfl, rfl, rfl, rfl, rfl, rfl, rfl, rfl⟩

theorem encrypts_setcipher (c : Conv) (henv : env.ivec.length = 8) :
    (a.sealing L c.out).Encrypts 0 (setcipher L env a c).out := by
  cases a with
  | null => exact ⟨rfl, rfl, rfl⟩
  | des_56_cbc => exact ⟨rfl, ⟨env.ivec, rfl, henv⟩, rfl, rfl⟩
  | rc4_128 | rc4_256 => exact ⟨rfl, ⟨_, rfl, rfl, rfl⟩, rfl, rfl⟩

theorem decrypts_setcipher (c : Conv) :
    (a.sealing L c.inp).Decrypts 0 (setcipher L env a c).inp := by
  have htracks (key : List UInt8) : Tracks key 0 { current := ⟨key, 0⟩ } :=
    ⟨rfl, rfl, by decide, fun h => absurd h Bool.false_ne_true⟩
  cases a with
  | null => exact rfl
  | des_56_cbc => exact ⟨rfl, ⟨_, rfl⟩, rfl, rfl⟩
  | rc4_128 | rc4_256 => exact ⟨rfl, ⟨_, rfl, htracks _⟩, rfl, rfl⟩

theorem signs_setauth (c : Conv) :
    Signs (m.signing L c.out) (setauth L m c).out ∧
      Verifies (m.signing L c.inp) (setauth L m c).inp := by
  have hkey (ow : OneWay) : setkey L 16 ow authPrefix ++ List.replicate (16 - 16) 0 =
      setkey L 16 ow authPrefix := List.append_nil _
  cases m with
  | null | hmac_sha1_96 => exact ⟨⟨rfl, rfl⟩, rfl⟩
  | hmac_md5_96 => exact ⟨⟨rfl, rfl, congrArg some (hkey _)⟩, rfl, rfl, congrArg some (hkey _)⟩

theorem sealing_congr {ow ow' : OneWay} (h : ow.secret = ow'.secret) :
    a.sealing L ow = a.sealing L ow' := by
  cases a <;> simp only [Cipheralg.sealing, setkey_congr h]

theorem signing_congr {ow ow' : OneWay} (h : ow.secret = ow'.secret) :
    m.signing L ow = m.signing L ow' := by
  cases m <;> simp only [Authalg.signing, setkey_congr h]

/-- The outbound direction of a conversation that is set up. -/
theorem configure_out (s : Conv) (henv : env.ivec.length = 8) :
    (a.sealing L s.out).Encrypts 0 (configure L env a m s).out ∧
      Signs (m.signing L s.out) (configure L env a m s).out ∧
      (configure L env a m s).out.seq = s.out.seq ∧
      (configure L env a m s).out.seqwrap = s.out.seqwrap := by
  obtain ⟨-, -, -, hseq, hwrap, hsecret, -⟩ := setauth_frame (L := L) (m := m) s
  obtain ⟨-, -, -, hseq', hwrap', hauth, hlen, hst, -⟩ :=
    setcipher_frame (L := L) (a := a) env (setauth L m s)
  refine ⟨?_, ?_, hseq'.trans hseq, hwrap'.trans hwrap⟩
  · rw [sealing_congr hsecret.symm]
    exact encrypts_setcipher _ henv
  · have hsigns := (signs_setauth (L := L) (m := m) s).1
    generalize m.signing L s.out = k at hsigns
    cases k <;> simp only [Signs, configure, hauth, hlen, hst] <;> exact hsigns

/-- The inbound direction of a conversation that is set up. -/
theorem configure_inp (env : Env) (r : Conv) {ow : OneWay} (h : ow.secret = r.inp.secret) :
    (a.sealing L ow).Decrypts 0 (configure L env a m r).inp ∧
      Verifies (m.signing L ow) (configure L env a m r).inp ∧
      (configure L env a m r).inp.seq = r.inp.seq ∧
      (configure L env a m r).inp.seqwrap = r.inp.seqwrap ∧
      (configure L env a m r).inp.comp = r.inp.comp := by
  obtain ⟨-, -, -, -, -, -, -, hseq, hwrap, hsecret, hcomp⟩ := setauth_frame (L := L) (m := m) r
  obtain ⟨-, -, -, -, -, -, -, -, hseq', hwrap', hcomp', hauth, hlen, hst⟩ :=
    setcipher_frame (L := L) (a := a) env (setauth L m r)
  refine ⟨?_, ?_, hseq'.trans hseq, hwrap'.trans hwrap, hcomp'.trans hcomp⟩
  · rw [sealing_congr (h.trans hsecret.symm)]
    exact decrypts_setcipher _
  · have hverifies := (signs_setauth (L := L) (m := m) r).2
    rw [signing_congr h]
    generalize m.signing L r.inp = k at hverifies
    cases k <;> simp only [Verifies, configure, hauth, hlen, hst] <;> exact hverifies

/-- A function left over is one that a null algorithm was to replace. -/
theorem stale_configure (s : Conv) :
    Stale (a.sealing L s.out) (m.signing L s.out) (configure L env a m s).out ↔
      ¬ Settable a m s := by
  obtain ⟨-, -, -, -, -, -, hcipher, -⟩ := setauth_frame (L := L) (m := m) s
  obtain ⟨-, -, -, -, -, hauth, -⟩ :=
    setcipher_frame (L := L) (a := a) env (setauth L m s)
  have hcipher' (h : a = .null) : (configure L env a m s).out.cipher = s.out.cipher := by
    rw [← hcipher, h]
    rfl
  have hauth' (h : m ≠ .hmac_md5_96) : (configure L env a m s).out.auth = s.out.auth := by
    rw [configure, hauth]
    cases m <;> first | exact absurd rfl h | rfl
  have hnull : a.sealing L s.out = .null ↔ a = .null := by cases a <;> simp [Cipheralg.sealing]
  have hnone : m.signing L s.out = none ↔ m ≠ .hmac_md5_96 := by
    cases m <;> simp [Authalg.signing]
  rw [Stale, hnull, hnone, Settable, not_and_or, Classical.not_imp, Classical.not_imp]
  refine or_congr (and_congr_right fun h => ?_) (and_congr_right fun h => ?_)
  · rw [hcipher' h]
  · rw [hauth' h]

theorem hearing_configure {c : Conv} (h : Hearing c) : Hearing (configure L env a m c) := by
  obtain ⟨hstate, href, -⟩ := setauth_frame (L := L) (m := m) c
  obtain ⟨hstate', href', -⟩ := setcipher_frame (L := L) (a := a) env (setauth L m c)
  rwa [Hearing, configure, hstate', href', hstate, href]

theorem within_iff {ow : OneWay} {written : List (List UInt8)} :
    Within a base written ↔ Fits (a.sealing L ow) base written :=
  and_congr_right fun _ => room_sealing

/-- An authenticator left over has no state. -/
theorem run_auth_missing {f : AuthFn} {ow : OneWay} (hst : ow.authstate = none)
    (hlen : ow.authlen = 0) (t : List UInt8) : f.run L ow t = none := by
  cases f
  simp only [AuthFn.run, md5auth, hst, hlen, Nat.not_lt_zero, if_false]

/-- A function left over stops the machine when a payload of one block is written. -/
theorem encode_of_stale {s : OneWay} (he : e.Encrypts 0 s) (hk : Signs k s) (hstale : Stale e k s)
    (hseq : s.seq + 1 < SeqMax) (type subtype : ℕ) :
    encode L s type subtype (List.replicate 8 0) (List.replicate s.cipherivlen 0) = none := by
  have hnext := nextSeq_of_lt hseq
  unfold encode
  dsimp only
  rcases hstale with ⟨rfl, hcipher⟩ | ⟨rfl, hauth⟩
  · obtain ⟨f, hf⟩ := Option.ne_none_iff_exists'.mp hcipher
    obtain ⟨hst, hiv, hblk⟩ := he
    have hrun : f.run L s.nextSeq (List.replicate 8 0) 8 = none := by
      rw [hnext]
      cases f <;> simp [CipherFn.run, desencrypt, desdecrypt, rc4encrypt, rc4decrypt, hst]
    have hbody : List.replicate s.cipherivlen 0 ++ List.replicate 8 0 ++
        padding s.nextSeq (List.replicate 8 (0 : UInt8)).length = List.replicate 8 0 := by
      rw [hnext, hiv]
      simp [padding, hblk]
    have hf' : s.nextSeq.cipher = some f := by
      rw [hnext]
      exact hf
    rw [hbody, encipher_some hf', List.length_replicate]
    have hcast : ((8 : ℕ) : ℤ) = 8 := rfl
    rw [hcast, hrun]
    rfl
  · obtain ⟨f, hf⟩ := Option.ne_none_iff_exists'.mp hauth
    have hroom : e.Room (0 + (List.replicate 8 (0 : UInt8)).length) := by
      cases e <;> simp [Sealing.Room]
    have he' : e.Encrypts 0 s.nextSeq := by
      rw [hnext]
      cases e <;> exact he
    have hiv : s.nextSeq.cipherivlen = s.cipherivlen := by rw [hnext]
    rcases encipher_seals (L := L) he' hroom with ⟨-, -, hnone⟩ | ⟨st, c, henc, -⟩
    · rw [hiv] at hnone
      rw [hnone]
      rfl
    · rw [hiv] at henc
      rw [henc, hnext]
      simp only [Option.bind_eq_bind, Option.bind_some, hf]
      rw [run_auth_missing (by exact hk.1) (by exact hk.2)]
      rfl

/-- The two ends at the start. -/
theorem inv_configure (h : Paired s r) (env' : Env) (henv : env.ivec.length = 8) :
    Link.Inv L (a.sealing L s.out) (m.signing L s.out) s.out.seqwrap s.out.seq
      { snd := configure L env a m s, rcv := configure L env' a m r } := by
  obtain ⟨henc, hsigns, hseq, hwrap⟩ := configure_out (L := L) (a := a) (m := m) s henv
  obtain ⟨hdec, hverifies, -, -, hcomp⟩ :=
    configure_inp (L := L) (a := a) (m := m) env' r h.secret
  exact ⟨⟨hearing_configure h.sends, hseq, hwrap, henc, hsigns⟩, hearing_configure h.listens,
    ⟨hverifies, hcomp.trans h.comp, 0, hdec⟩, fun _ hp => absurd hp List.not_mem_nil,
    fun _ hq => absurd hq List.not_mem_nil⟩

/-- The two ends at the start, when no function is left over. -/
theorem ordered_configure (h : Paired s r) (env' : Env) (henv : env.ivec.length = 8)
    (hset : Settable a m s) :
    Link.Ordered L (a.sealing L s.out) (m.signing L s.out) s.out.seqwrap s.out.seq
      { snd := configure L env a m s, rcv := configure L env' a m r } := by
  have hinv := inv_configure (L := L) (a := a) (m := m) h env' henv
  obtain ⟨hdec, hverifies, hrseq, hrwrap, hcomp⟩ :=
    configure_inp (L := L) (a := a) (m := m) env' r h.secret
  exact ⟨hinv.toSends, fun hstale => stale_configure s |>.mp hstale hset, hinv.listens, hverifies,
    hcomp.trans h.comp, rfl, fun i pkt hp => absurd hp (by simp), le_rfl, hrseq.trans h.seq,
    hrwrap.trans h.seqwrap, hdec, rfl⟩

/-- A payload of one block cannot be written behind a function left over. -/
theorem settable_of_complete (h : Paired s r) (env' : Env) (henv : env.ivec.length = 8)
    (hcomplete : Link.Complete L a
      { snd := configure L env a m s, rcv := configure L env' a m r } s.out.seq) :
    Settable a m s := by
  by_contra hset
  obtain ⟨henc, hsigns, hseq, -⟩ := configure_out (L := L) (a := a) (m := m) s henv
  have hnone := encode_of_stale (L := L) henc hsigns ((stale_configure s).mpr hset)
    (by rw [hseq]; exact h.seq_lt) TData 0
  have hchan : (configure L env a m s).chan = true := by
    obtain ⟨-, -, hauth, -⟩ := setauth_frame (L := L) (m := m) s
    obtain ⟨-, -, hcipher, -⟩ := setcipher_frame (L := L) (a := a) env (setauth L m s)
    exact hcipher.trans (hauth.trans h.chan)
  have hwithin : Within a s.out.seq ([] ++ [List.replicate 8 0]) :=
    ⟨h.seq_lt, by cases a <;> simp [Cipheralg.Room]⟩
  have hok := hcomplete.1 {} 0 (List.replicate 8 0) (by decide) ⟨hchan, by simp, rfl⟩ hwithin
  rw [convoput_of_none hnone] at hok
  exact absurd hok (by simp)

/-- What is written under one sequence number is returned under it, and none is missed in order,
if and only if no null algorithm takes the place of another one. -/
theorem roundTrips_iff (hL : InversePair L) (h : Paired s r) {env env' : Env}
    (henv : env.ivec.length = 8) :
    RoundTrips L a (configure L env a m s) (configure L env' a m r) ↔ Settable a m s := by
  have hseq := (configure_out (L := L) (a := a) (m := m) s henv).2.2.1
  rw [RoundTrips, hseq]
  constructor
  · rintro ⟨-, hcomplete⟩
    refine settable_of_complete (L := L) h env' henv (hcomplete _ .nil ⟨?_, ?_⟩)
    · have := h.seq_lt
      simp only [List.length_nil]
      omega
    · cases a <;> simp [Cipheralg.Room]
  intro hset
  refine ⟨fun t hrun hwithin => ?_, fun t hrun hwithin => ?_⟩
  · exact (invariant_of_fits (inv_configure h env' henv)
      (fun _ _ _ hinv _ hstep hfits => inv_carry hL hinv hstep hfits) hrun
      (within_iff.mp hwithin)).sound
  · have hord := invariant_of_fits (ordered_configure h env' henv hset)
      (fun _ _ _ hinv hok hstep hfits => ordered_carry hL hinv hok hstep hfits) hrun
      (within_iff.mp hwithin)
    refine ⟨fun env subtype b hsub harr hwithin' => ?_, hord.got⟩
    have hdata : 0 < TData ∧ TData < 16 := by decide
    rcases sends_put (L := L) env hord.toSends (within_iff.mp hwithin') hdata hsub with
      ⟨hstale, -⟩ | ⟨pkt, -, -, -, hsent, -⟩
    · exact absurd hstale hord.fresh
    · exact (hsent harr).1

end

theorem paired_sender : Paired (sender 0) (receiver 0) where
  sends := .inl ⟨rfl, by decide⟩
  listens := .inl ⟨rfl, by decide⟩
  chan := rfl
  secret := rfl
  seq := rfl
  seq_lt := by decide
  seqwrap := rfl
  comp := rfl

theorem roundTrips_des :
    RoundTrips Libsec.plain .des_56_cbc
      (configure Libsec.plain {} .des_56_cbc .hmac_md5_96 (sender 0))
      (configure Libsec.plain {} .des_56_cbc .hmac_md5_96 (receiver 0)) :=
  (roundTrips_iff inversePair_plain paired_sender rfl).mpr
    ⟨fun h => absurd h (by decide), fun h => absurd rfl h⟩

/-- The authenticator that a conversation starts with is given up at both ends: it stays in the
outbound direction, and the next write stops the machine. -/
theorem not_roundTrips_null :
    Paired (sender 0) (receiver 0) ∧
      ¬ RoundTrips Libsec.plain .null (configure Libsec.plain {} .null .null (sender 0))
        (configure Libsec.plain {} .null .null (receiver 0)) := by
  refine ⟨paired_sender, fun h => ?_⟩
  have hset : Settable .null .null (sender 0) :=
    settable_of_complete paired_sender {} rfl
      (h.2 _ .nil ⟨by decide, trivial⟩)
  exact absurd (hset.2 (by decide)) (by decide)

end PlanNine.Sdp
