import PlanNine.Port.Sdp.Receive

/-!
# Replayed packets

An open conversation keeps the highest sequence number it has accepted and a window of the 32
numbers up to it. A packet is verified under the wrap count of the conversation, which is also the
one that its sender has put in, but its number is compared under a wrap count guessed from it: a
packet that lies more than three quarters of the range behind counts as one of the next wrap. Unless
a packet that old arrives, no number is accepted twice and the window tells which were accepted.

## Main definitions

* `Authentic`: the packet passes the authenticator and the cipher.
* `Lapsed`: it does, though it lies more than three quarters of the range behind.
* `Heard`, `Listen`: an open conversation with the log of the packets it has accepted, and its
  steps.

## Main results

* `judge_cases`: what a verdict means.
* `inv_listen`: what one packet does to the window and the log.
* `replay_free_of_run`: a run without lapsed packets accepts no packet twice.
-/

namespace PlanNine.Sdp

open Kern

variable {L : Libsec}

/-! ### What a verdict means -/

/-- A packet of data that passes the authenticator and the cipher. -/
def Authentic (L : Libsec) (ow : OneWay) (pkt : List UInt8) : Prop :=
  4 ≤ pkt.length ∧ pktType pkt ≠ TConnect ∧
    ∃ b ow' b', undoAuth L ow (pktPayload pkt) = some (true, b) ∧
      undoCipher L ow b = some (true, ow', b')

/-- The packet is authentic, though it lies more than three quarters of the range behind. -/
def Lapsed (L : Libsec) (ow : OneWay) (pkt : List UInt8) : Prop :=
  Authentic L ow pkt ∧ pktSeq pkt + SeqMax * 3 / 4 < ow.seq

theorem judgeAuth_cases (L : Libsec) (ow : OneWay) (pkt : List UInt8) (g : ℕ × ℤ)
    (hlen : 4 ≤ pkt.length) (htype : pktType pkt ≠ TConnect) :
    ∃ st, judgeAuth L ow pkt g = ({ ow with cipherstate := st }, false) ∨
      judgeAuth L ow pkt g = (slide { ow with cipherstate := st } (pktSeq pkt) g.1 g.2, true) ∧
        Authentic L ow pkt := by
  have hself : ({ ow with cipherstate := ow.cipherstate } : OneWay) = ow := rfl
  unfold judgeAuth
  rcases ha : undoAuth L ow (pktPayload pkt) with _ | ⟨_ | _, b⟩
  · exact ⟨ow.cipherstate, .inl rfl⟩
  · exact ⟨ow.cipherstate, .inl rfl⟩
  dsimp only
  rcases hc : undoCipher L ow b with _ | ⟨_ | _, ow', b'⟩
  · exact ⟨ow.cipherstate, .inl rfl⟩
  · obtain ⟨st, rfl⟩ := undoCipher_frame hc
    exact ⟨st, .inl rfl⟩
  · obtain ⟨st, rfl⟩ := undoCipher_frame hc
    exact ⟨st, .inr ⟨rfl, hlen, htype, b, _, b', ha, hc⟩⟩

/-- A packet leaves the direction alone but for the cipher, or it is authentic, the window lets it
through and the window moves. -/
theorem verdict_cases (L : Libsec) (ow : OneWay) (pkt : List UInt8) :
    ∃ st, verdict L ow pkt = ({ ow with cipherstate := st }, false) ∨
      verdict L ow pkt = (slide { ow with cipherstate := st } (pktSeq pkt)
          (guess ow (pktSeq pkt)).1 (guess ow (pktSeq pkt)).2, true) ∧
        Authentic L ow pkt ∧
        (seqCheck ow (guess ow (pktSeq pkt)).2 = .reorder ∨
          seqCheck ow (guess ow (pktSeq pkt)).2 = .new) := by
  unfold verdict
  split
  · exact ⟨ow.cipherstate, .inl rfl⟩
  rename_i hdata
  obtain ⟨hlen, htype⟩ := not_or.mp hdata
  obtain ⟨st, h⟩ := judgeAuth_cases L ow pkt (guess ow (pktSeq pkt)) (by omega) htype
  unfold judge
  cases hchk : seqCheck ow (guess ow (pktSeq pkt)).2 with
  | old | dup => exact ⟨ow.cipherstate, .inl rfl⟩
  | reorder | new =>
      refine ⟨st, h.imp_right fun h => ⟨h.1, h.2, ?_⟩⟩
      simp

/-! ### Sequence numbers -/

theorem byte_lt (b : Block) (i : ℕ) : b.byte i < 256 := UInt8.toNat_lt _

theorem pktSeq_lt (pkt : List UInt8) : pktSeq pkt < SeqMax := by
  have h0 := byte_lt (pktBody pkt) 0
  have h1 := byte_lt (pktBody pkt) 1
  have h2 := byte_lt (pktBody pkt) 2
  simp only [pktSeq, SeqMax, Nat.shiftLeft_eq]
  omega

/-- The difference of two sequence numbers is taken without loss. -/
theorem long_seqdiff {a b : ℕ} (ha : a < SeqMax) (hb : b < SeqMax) :
    long (ulong ((a : ℤ) - b)) = (a : ℤ) - b := by
  simp only [SeqMax, Nat.shiftLeft_eq] at ha hb
  exact long_ulong_of_small (by omega) (by omega)

/-- A number within three quarters of the range counts as one of the same wrap. -/
theorem guess_of_near {ow : OneWay} {seq : ℕ} (hseq : seq < SeqMax) (how : ow.seq < SeqMax)
    (hlo : ow.seq ≤ seq + SeqMax * 3 / 4) (hhi : seq ≤ ow.seq + SeqMax * 3 / 4) :
    guess ow seq = (ow.seqwrap, (seq : ℤ) - ow.seq) := by
  simp only [guess, long_seqdiff hseq how]
  rw [if_neg (by push_cast; omega), if_neg (by push_cast; omega)]

/-- A number further ahead counts as one of the previous wrap. -/
theorem guess_of_ahead {ow : OneWay} {seq : ℕ} (hseq : seq < SeqMax) (how : ow.seq < SeqMax)
    (hhi : ow.seq + SeqMax * 3 / 4 < seq) :
    guess ow seq = (ulong ((ow.seqwrap : ℤ) - 1), (seq : ℤ) - ow.seq - SeqMax) := by
  simp only [guess, long_seqdiff hseq how]
  rw [if_neg (by push_cast; omega), if_pos (by push_cast; omega)]

/-! ### Open conversations and the packets they accept -/

/-- An open conversation, with the packets it has accepted and the wrap counts under which they
were verified. -/
structure Heard where
  conv : Conv
  log : List (ℕ × List UInt8) := []

/-- A packet that is delivered, and what the call that takes it meets outside. -/
structure Delivery where
  env : Env := {}
  pkt : List UInt8
  control : Bool := false

/-- The wrap count and the sequence number that a packet carries. -/
def carried (p : ℕ × List UInt8) : ℕ × ℕ := (p.1, pktSeq p.2)

/-- The bytes of a packet that its authenticator covers. -/
def signed (ow : OneWay) (pkt : List UInt8) : List UInt8 := pkt.take (pkt.length - ow.authlen)

def Heard.step (L : Libsec) (t : Heard) (e : Delivery) : Heard where
  conv := (conviput L e.env e.pkt e.control { conv := t.conv }).2.conv
  log := if (verdict L t.conv.inp e.pkt).2 then t.log ++ [(t.conv.inp.seqwrap, e.pkt)] else t.log

/-- A packet is delivered to an open conversation. -/
def Listen (L : Libsec) (t : Heard) (e : Delivery) (t' : Heard) : Prop :=
  t.conv.state = .cOpen ∧ t' = t.step L e

/-- The authenticator verifies only what the peer has signed, `peer`, and the packet is not
lapsed. -/
def Honest (L : Libsec) (peer : ℕ × List UInt8 → Prop) (t : Heard) (e : Delivery) : Prop :=
  (MacVerified L t.conv.inp e.pkt → peer (t.conv.inp.seqwrap, signed t.conv.inp e.pkt)) ∧
    ¬ Lapsed L t.conv.inp e.pkt

/-- A conversation that has just been opened with the authenticator `hmac_md5_96`. -/
structure JustOpened (c : Conv) : Prop where
  state : c.state = .cOpen
  ref : 1 < c.ref
  auth : c.inp.auth = some .md5auth
  authlen : c.inp.authlen = 12
  authstate : c.inp.authstate ≠ none
  seqwrap : c.inp.seqwrap = 0
  seq : c.inp.seq = 0
  window : c.inp.window = 4294967295

/-- What holds of an open conversation and its log. -/
structure Heard.Inv (peer : ℕ × List UInt8 → Prop) (t : Heard) : Prop where
  ref : t.conv.state = .cOpen → 1 < t.conv.ref
  authlen : t.conv.inp.authlen = 12
  seqwrap : t.conv.inp.seqwrap = 0
  seq_lt : t.conv.inp.seq < SeqMax
  peer : ∀ p ∈ t.log, peer (p.1, p.2.take (p.2.length - 12))
  range : ∀ p ∈ t.log, p.1 = 0 ∧ 0 < pktSeq p.2 ∧ pktSeq p.2 ≤ t.conv.inp.seq
  nodup : (t.log.map carried).Nodup
  window : ∀ i < 32, t.conv.inp.window.testBit i = true ↔
    t.conv.inp.seq ≤ i ∨ (0, t.conv.inp.seq - i) ∈ t.log.map carried

theorem inv_justOpened {peer : ℕ × List UInt8 → Prop} {c : Conv} (h : JustOpened c) :
    Heard.Inv peer { conv := c } where
  ref _ := h.ref
  authlen := h.authlen
  seqwrap := h.seqwrap
  seq_lt := by rw [h.seq]; decide
  peer := by simp
  range := by simp
  nodup := by simp
  window i hi := by
    rw [h.window, h.seq]
    simp only [Nat.zero_le, true_or, iff_true]
    rw [show 4294967295 = 2 ^ 32 - 1 by norm_num, Nat.testBit_two_pow_sub_one]
    simpa using hi

/-! ### One packet -/

theorem seqCheck_eq_new {ow : OneWay} {d : ℤ} (h : seqCheck ow d = .new) : 0 < d := by
  unfold seqCheck at h
  split_ifs at h
  omega

theorem seqCheck_eq_reorder {ow : OneWay} {d : ℤ} (h : seqCheck ow d = .reorder) :
    d ≤ 0 ∧ -32 < d ∧ ow.window.testBit (-d).toNat = false := by
  unfold seqCheck at h
  split_ifs at h with h1 h2 h3
  exact ⟨h1, not_le.mp h2, by simpa using h3⟩

/-- The numbers that the window lets through, unless they lie far behind. -/
theorem number_of_accepted {peer : ℕ × List UInt8 → Prop} {t : Heard} {seq : ℕ} (ht : t.Inv peer)
    (hseq : seq < SeqMax) (hnear : t.conv.inp.seq ≤ seq + SeqMax * 3 / 4)
    (h : seqCheck t.conv.inp (guess t.conv.inp seq).2 = .reorder ∨
      seqCheck t.conv.inp (guess t.conv.inp seq).2 = .new) :
    guess t.conv.inp seq = (0, (seq : ℤ) - t.conv.inp.seq) ∧
      (t.conv.inp.seq < seq ∨ seq ≤ t.conv.inp.seq ∧ t.conv.inp.seq < seq + 32 ∧
        t.conv.inp.window.testBit (t.conv.inp.seq - seq) = false) := by
  have hmax : SeqMax = 16777216 := rfl
  have hlt := ht.seq_lt
  by_cases hahead : t.conv.inp.seq + SeqMax * 3 / 4 < seq
  · -- the bits before the first packet are set, so the number counts as a duplicate
    exfalso
    rw [guess_of_ahead hseq hlt hahead] at h
    rcases h with h | h
    · obtain ⟨-, hlo, hbit⟩ := seqCheck_eq_reorder h
      dsimp only at hlo hbit
      generalize hi : (-((seq : ℤ) - t.conv.inp.seq - SeqMax)).toNat = i at hbit
      have hset := (ht.window i (by omega)).mpr (.inl (by omega))
      rw [hbit] at hset
      exact absurd hset (by decide)
    · have := seqCheck_eq_new h
      dsimp only at this
      omega
  · rw [guess_of_near hseq hlt hnear (by omega), ht.seqwrap] at h ⊢
    refine ⟨rfl, ?_⟩
    rcases h with h | h
    · obtain ⟨hle, hlo, hbit⟩ := seqCheck_eq_reorder h
      dsimp only at hle hlo hbit
      refine .inr ⟨by omega, by omega, ?_⟩
      rwa [show (-((seq : ℤ) - t.conv.inp.seq)).toNat = t.conv.inp.seq - seq by omega] at hbit
    · have := seqCheck_eq_new h
      dsimp only at this
      exact .inl (by omega)

/-- The bits of a window moved by `d`. -/
theorem testBit_slide {window d i : ℕ} (hi : i < 32) :
    ((window <<< d) % 4294967296 ||| 1).testBit i =
      (decide (i = 0) || decide (d ≤ i) && window.testBit (i - d)) := by
  have hone : Nat.testBit 1 i = decide (i = 0) := by
    rw [show 1 = 2 ^ 0 from rfl, Nat.testBit_two_pow]
    simp only [eq_comm]
  rw [Nat.testBit_or, show 4294967296 = 2 ^ 32 by norm_num, Nat.testBit_mod_two_pow,
    Nat.testBit_shiftLeft, hone]
  simp only [hi, decide_true, Bool.true_and]
  rw [Bool.or_comm]

theorem testBit_mark {window d i : ℕ} :
    (window ||| 1 <<< d).testBit i = (window.testBit i || decide (i = d)) := by
  rw [Nat.testBit_or, Nat.one_shiftLeft, Nat.testBit_two_pow]
  simp only [eq_comm]

/-- The window and the log after a packet ahead of all others. -/
theorem window_of_ahead {peer : ℕ × List UInt8 → Prop} {t : Heard} {pkt : List UInt8}
    (ht : t.Inv peer) (h : t.conv.inp.seq < pktSeq pkt) (i : ℕ) (hi : i < 32) :
    ((t.conv.inp.window <<< (pktSeq pkt - t.conv.inp.seq)) % 4294967296 ||| 1).testBit i = true ↔
      pktSeq pkt ≤ i ∨
        (0, pktSeq pkt - i) ∈ (t.log ++ [(0, pkt)]).map carried := by
  have hlog : ∀ s, (0, s) ∈ t.log.map carried → 0 < s ∧ s ≤ t.conv.inp.seq := by
    intro s hs
    obtain ⟨p, hp, heq⟩ := List.mem_map.mp hs
    obtain ⟨-, h1, h2⟩ := ht.range p hp
    obtain rfl : pktSeq p.2 = s := (Prod.mk.inj heq).2
    exact ⟨h1, h2⟩
  rw [testBit_slide hi, List.map_append, List.mem_append]
  have hnew : (0, pktSeq pkt - i) ∈ [((0 : ℕ), pkt)].map carried ↔ pktSeq pkt - i = pktSeq pkt := by
    simp [carried]
  rw [hnew]
  rcases Nat.eq_zero_or_pos i with rfl | hpos
  · simp
  by_cases hd : pktSeq pkt - t.conv.inp.seq ≤ i
  · have hwin := ht.window (i - (pktSeq pkt - t.conv.inp.seq)) (by omega)
    simp only [hd, decide_true, Bool.true_and, show i ≠ 0 by omega, decide_false, Bool.false_or]
    rw [hwin]
    by_cases hle : pktSeq pkt ≤ i
    · simp only [hle, true_or, iff_true]
      left
      omega
    · rw [show t.conv.inp.seq - (i - (pktSeq pkt - t.conv.inp.seq)) = pktSeq pkt - i by omega]
      constructor
      · rintro (h' | h')
        · omega
        · exact .inr (.inl h')
      · rintro (h' | h' | h')
        · omega
        · exact .inr h'
        · omega
  · simp only [hd, decide_false, Bool.false_and, show i ≠ 0 by omega, Bool.or_self,
      Bool.false_eq_true, false_iff, not_or]
    refine ⟨by omega, fun hmem => ?_, by omega⟩
    have := hlog _ hmem
    omega

/-- The window and the log after a packet within the window. -/
theorem window_of_within {peer : ℕ × List UInt8 → Prop} {t : Heard} {pkt : List UInt8}
    (ht : t.Inv peer) (h : pktSeq pkt ≤ t.conv.inp.seq) (i : ℕ) (hi : i < 32) :
    (t.conv.inp.window ||| 1 <<< (t.conv.inp.seq - pktSeq pkt)).testBit i = true ↔
      t.conv.inp.seq ≤ i ∨
        (0, t.conv.inp.seq - i) ∈ (t.log ++ [(0, pkt)]).map carried := by
  have hnew : (0, t.conv.inp.seq - i) ∈ [((0 : ℕ), pkt)].map carried ↔
      t.conv.inp.seq - i = pktSeq pkt := by
    simp [carried]
  rw [testBit_mark, List.map_append, List.mem_append, hnew, Bool.or_eq_true, ht.window i hi,
    decide_eq_true_eq]
  constructor
  · rintro ((h' | h') | h')
    · exact .inl h'
    · exact .inr (.inl h')
    · exact .inr (.inr (by omega))
  · rintro (h' | h' | h')
    · exact .inl (.inl h')
    · exact .inl (.inr h')
    · by_cases hle : t.conv.inp.seq ≤ i
      · exact .inl (.inl hle)
      · exact .inr (by omega)

theorem nodup_append_carried {peer : ℕ × List UInt8 → Prop} {t : Heard} {pkt : List UInt8}
    (ht : t.Inv peer) (hnew : (0, pktSeq pkt) ∉ t.log.map carried) :
    ((t.log ++ [(0, pkt)]).map carried).Nodup := by
  rw [List.map_append, List.nodup_append]
  refine ⟨ht.nodup, List.nodup_singleton _, ?_⟩
  rintro a ha b hb rfl
  obtain rfl : a = (0, pktSeq pkt) := by simpa [carried] using hb
  exact hnew ha

/-- An accepted packet keeps the invariant when it is honest. -/
theorem inv_accepted {peer : ℕ × List UInt8 → Prop} {t : Heard} {pkt : List UInt8} {c : Conv}
    {st : Option CipherState} (ht : t.Inv peer)
    (hmac : MacVerified L t.conv.inp pkt → peer (t.conv.inp.seqwrap, signed t.conv.inp pkt))
    (hauth : Authentic L t.conv.inp pkt) (hnear : t.conv.inp.seq ≤ pktSeq pkt + SeqMax * 3 / 4)
    (hchk : seqCheck t.conv.inp (guess t.conv.inp (pktSeq pkt)).2 = .reorder ∨
      seqCheck t.conv.inp (guess t.conv.inp (pktSeq pkt)).2 = .new)
    (hc : Remains (slide { t.conv.inp with cipherstate := st } (pktSeq pkt)
      (guess t.conv.inp (pktSeq pkt)).1 (guess t.conv.inp (pktSeq pkt)).2).wire { conv := c }) :
    Heard.Inv peer { conv := c, log := t.log ++ [(t.conv.inp.seqwrap, pkt)] } := by
  obtain ⟨hguess, hnum⟩ := number_of_accepted ht (pktSeq_lt pkt) hnear hchk
  obtain ⟨hwire, href⟩ := hc
  obtain ⟨-, -, b, -, -, hundo, -⟩ := hauth
  have hpeer := hmac (macVerified_of_undoAuth hundo)
  have hlen : c.inp.authlen = 12 := by
    rw [hguess] at hwire
    refine (wire_eq hwire).2.2.2.trans (Eq.trans ?_ ht.authlen)
    unfold slide
    split <;> rfl
  have hpeers : ∀ p ∈ t.log ++ [(t.conv.inp.seqwrap, pkt)],
      peer (p.1, p.2.take (p.2.length - 12)) := by
    intro p hp
    rcases List.mem_append.mp hp with hp | hp
    · exact ht.peer p hp
    · obtain rfl := List.mem_singleton.mp hp
      simpa only [signed, ht.authlen] using hpeer
  rw [hguess] at hwire
  rw [ht.seqwrap] at hpeers ⊢
  rcases hnum with hlt | ⟨hle, hwin, hbit⟩
  · have hd : (0 : ℤ) < (pktSeq pkt : ℤ) - t.conv.inp.seq := by omega
    simp only [slide, hd, if_true] at hwire
    obtain ⟨hseq, hwrap, hwindow, -⟩ := wire_eq hwire
    dsimp only at hseq hwrap hwindow
    refine ⟨href, hlen, hwrap, ?_, hpeers, ?_, ?_, ?_⟩
    · exact hseq ▸ pktSeq_lt pkt
    · intro p hp
      rw [hseq]
      rcases List.mem_append.mp hp with hp | hp
      · obtain ⟨h0, h1, h2⟩ := ht.range p hp
        exact ⟨h0, h1, by omega⟩
      · obtain rfl := List.mem_singleton.mp hp
        exact ⟨rfl, by simp only; omega, le_rfl⟩
    · refine nodup_append_carried ht fun hmem => ?_
      obtain ⟨p, hp, heq⟩ := List.mem_map.mp hmem
      have := (ht.range p hp).2.2
      have : pktSeq p.2 = pktSeq pkt := (Prod.mk.inj heq).2
      omega
    · intro i hi
      have := window_of_ahead ht hlt i hi
      rw [hseq]
      rw [show ((pktSeq pkt : ℤ) - t.conv.inp.seq).toNat = pktSeq pkt - t.conv.inp.seq by omega]
        at hwindow
      exact hwindow ▸ this
  · have hd : ¬ (0 : ℤ) < (pktSeq pkt : ℤ) - t.conv.inp.seq := by omega
    simp only [slide, hd, if_false] at hwire
    obtain ⟨hseq, hwrap, hwindow, -⟩ := wire_eq hwire
    dsimp only at hseq hwrap hwindow
    have hmem : ¬ (t.conv.inp.seq ≤ t.conv.inp.seq - pktSeq pkt ∨
        (0, pktSeq pkt) ∈ t.log.map carried) := by
      have := (ht.window (t.conv.inp.seq - pktSeq pkt) (by omega)).not.mp (by simp [hbit])
      rwa [show t.conv.inp.seq - (t.conv.inp.seq - pktSeq pkt) = pktSeq pkt by omega] at this
    obtain ⟨hpos, hnew⟩ := not_or.mp hmem
    refine ⟨href, hlen, hwrap.trans ht.seqwrap, ?_, hpeers, ?_, ?_, ?_⟩
    · exact hseq ▸ ht.seq_lt
    · intro p hp
      rw [hseq]
      rcases List.mem_append.mp hp with hp | hp
      · exact ht.range p hp
      · obtain rfl := List.mem_singleton.mp hp
        exact ⟨rfl, by simp only; omega, hle⟩
    · exact nodup_append_carried ht hnew
    · intro i hi
      have := window_of_within ht hle i hi
      rw [hseq]
      rw [show (-((pktSeq pkt : ℤ) - t.conv.inp.seq)).toNat = t.conv.inp.seq - pktSeq pkt by omega]
        at hwindow
      exact hwindow ▸ this

/-- A packet that is delivered to an open conversation keeps the invariant when it is honest. -/
theorem inv_listen {peer : ℕ × List UInt8 → Prop} {t t' : Heard} {e : Delivery} (ht : t.Inv peer)
    (hok : Honest L peer t e) (h : Listen L t e t') : t'.Inv peer := by
  obtain ⟨hs, rfl⟩ := h
  have hrem := wp_snd (wp_conviput_open L e.env e.pkt e.control (w := { conv := t.conv }) hs
    (ht.ref hs))
  obtain ⟨st, hv | ⟨hv, hauth, hchk⟩⟩ := verdict_cases L t.conv.inp e.pkt
  · obtain ⟨hwire, href⟩ := hrem
    rw [hv] at hwire
    have hlog : (t.step L e).log = t.log := by simp [Heard.step, hv]
    obtain ⟨hseq, hwrap, hwindow, hlen⟩ := wire_eq hwire
    change (t.step L e).conv.inp.seq = t.conv.inp.seq at hseq
    change (t.step L e).conv.inp.window = t.conv.inp.window at hwindow
    refine ⟨href, hlen.trans ht.authlen, hwrap.trans ht.seqwrap, ?_, ?_, ?_, ?_, ?_⟩
    · exact hseq ▸ ht.seq_lt
    · exact hlog ▸ ht.peer
    · exact hlog ▸ hseq ▸ ht.range
    · exact hlog ▸ ht.nodup
    · rw [hlog, hseq, hwindow]
      exact ht.window
  · have hstep : t.step L e = ⟨(conviput L e.env e.pkt e.control { conv := t.conv }).2.conv,
        t.log ++ [(t.conv.inp.seqwrap, e.pkt)]⟩ := by
      simp [Heard.step, hv]
    rw [hstep]
    rw [hv] at hrem
    refine inv_accepted ht hok.1 hauth ?_ hchk hrem
    exact not_lt.mp fun hlt => hok.2 ⟨hauth, hlt⟩

theorem inv_of_listening {peer : ℕ × List UInt8 → Prop} {c : Conv} {t : Heard} (hc : JustOpened c)
    (h : Run (Listen L) (Honest L peer) { conv := c } t) : t.Inv peer :=
  h.invariant (inv_justOpened hc) fun _ _ _ ht hok hstep => inv_listen ht hok hstep

/-- In a run without lapsed packets an open conversation accepts only what its peer has signed, no
wrap count and sequence number twice, and nothing that lies 32 or more behind; the window tells
which of the last 32 packets were accepted or come before the first one. -/
theorem replay_free_of_run {peer : ℕ × List UInt8 → Prop} {c : Conv} {t : Heard}
    (hc : JustOpened c) (h : Run (Listen L) (Honest L peer) { conv := c } t) :
    (∀ p ∈ t.log, peer (p.1, p.2.take (p.2.length - 12))) ∧ (t.log.map carried).Nodup ∧
      (∀ i < 32, t.conv.inp.window.testBit i = true ↔
        t.conv.inp.seq ≤ i ∨ (t.conv.inp.seqwrap, t.conv.inp.seq - i) ∈ t.log.map carried) ∧
      ∀ e, Honest L peer t e → (verdict L t.conv.inp e.pkt).2 = true →
        t.conv.inp.seq < pktSeq e.pkt + 32 := by
  have ht := inv_of_listening hc h
  refine ⟨ht.peer, ht.nodup, ?_, fun e hok hacc => ?_⟩
  · rw [ht.seqwrap]
    exact ht.window
  · obtain ⟨st, hv | ⟨hv, hauth, hchk⟩⟩ := verdict_cases L t.conv.inp e.pkt
    · simp [hv] at hacc
    have hnear := not_lt.mp fun hlt => hok.2 ⟨hauth, hlt⟩
    obtain ⟨-, hlt | ⟨-, hlt, -⟩⟩ := number_of_accepted ht (pktSeq_lt e.pkt) hnear hchk
    · omega
    · exact hlt

/-! ### A replay -/

/-- A conversation that has just been opened, read by a process that holds it. -/
def opened : Conv where
  ref := 3
  state := .cOpen
  chan := true
  inp :=
    { window := 4294967295, auth := some .md5auth, authlen := 12
      authstate := some (List.replicate 16 0) }

theorem justOpened_opened : JustOpened opened := by
  constructor <;> decide

/-- A packet of one byte of data, as the library that computes nothing signs it. -/
def dataPacket (seq : ℕ) : List UInt8 :=
  0x20 :: (seqBytes seq ++ 0x41 :: List.replicate 12 0)

/-- What the peer has signed: three packets of the first wrap. -/
def threeSigned (p : ℕ × List UInt8) : Prop :=
  p.1 = 0 ∧ p.2 ∈ [1, 12582912, 12582914].map fun seq => (dataPacket seq).take 5

instance : DecidablePred threeSigned := fun _ => inferInstanceAs (Decidable (_ ∧ _))

theorem replay_free_of_run_one :
    let t : Heard := Heard.step Libsec.null { conv := opened } { pkt := dataPacket 1 }
    (∀ p ∈ t.log, threeSigned (p.1, p.2.take (p.2.length - 12))) ∧ (t.log.map carried).Nodup ∧
      (∀ i < 32, t.conv.inp.window.testBit i = true ↔
        t.conv.inp.seq ≤ i ∨ (t.conv.inp.seqwrap, t.conv.inp.seq - i) ∈ t.log.map carried) ∧
      ∀ e, Honest Libsec.null threeSigned t e → (verdict Libsec.null t.conv.inp e.pkt).2 = true →
        t.conv.inp.seq < pktSeq e.pkt + 32 :=
  replay_free_of_run justOpened_opened
    (.snoc .nil ⟨fun _ => by decide, fun h => absurd h.2 (by decide)⟩ ⟨rfl, rfl⟩)

/-- The first packet is accepted again once the numbers are three quarters of the range ahead. -/
theorem replayed_after_jump :
    ∃ t, Run (Listen Libsec.null)
        (fun t e => MacVerified Libsec.null t.conv.inp e.pkt →
          threeSigned (t.conv.inp.seqwrap, signed t.conv.inp e.pkt)) { conv := opened } t ∧
      ¬ (t.log.map carried).Nodup := by
  refine ⟨_, .snoc (.snoc (.snoc (.snoc .nil (e := { pkt := dataPacket 1 }) ?_ ⟨rfl, rfl⟩)
    (e := { pkt := dataPacket 12582912 }) ?_ ⟨rfl, rfl⟩)
    (e := { pkt := dataPacket 12582914 }) ?_ ⟨rfl, rfl⟩)
    (e := { pkt := dataPacket 1 }) ?_ ⟨rfl, rfl⟩, ?_⟩
  · exact fun _ => by decide
  · exact fun _ => by decide
  · exact fun _ => by decide
  · exact fun _ => by decide
  · decide

end PlanNine.Sdp
