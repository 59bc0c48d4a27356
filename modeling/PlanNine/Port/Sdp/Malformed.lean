import PlanNine.Port.Sdp.Input
import PlanNine.Port.Sdp.Sealed
import PlanNine.Port.Sdp.Switch
import PlanNine.Port.Sdp.Unlock
import PlanNine.Port.Thwack.Ring

/-!
# Malformed packets

Whether a conversation copes with whatever packet comes in: `conviput` returns, touches the bytes of
the packet only, and frees its block or passes one on with the pointers in order.

Some packets are not coped with. The test of `desdecrypt` for whole blocks reads `n & 0x7 != 0`,
which is a test for an odd length. `thwackuncomp` takes four bytes of a packet that is not
compressed, whether or not there are any, leaves a packet of another kind unfreed, and may
decompress to fewer than four bytes or without an end. `convicontrol` leaves the packets unfreed
that it does not expect.

## Main definitions

* `Receives`: an open conversation without an authenticator, whose algorithms are set up.
* `Copes`: the packet is handled within its bytes, and freed or passed on with its pointers in
  order.
* `Fits`: the packets that are coped with.

## Main results

* `ends_convicontrol_iff`, `delivers_convicomp_iff`, `settled_conviputAuth_iff`: the parts of a
  packet, one routine after the other.
* `conviput_copes_iff`: an open conversation without an authenticator copes with just the packets
  that fit.
-/

namespace PlanNine.Sdp.Input

open Thw Kern

/-! ### Packets that fit -/

variable (L env)

/-- The length of a DES text is refused, or one of whole blocks. -/
def Aligned (n : ℕ) : Prop := n < 8 ∨ n % 2 ≠ 0 ∨ n % 8 = 0

/-- A control packet that is expected, where the acknowledgement that it asks for can be made. -/
def ControlFits (c : Conv) (subtype : ℕ) (b : Block) : Prop :=
  4 ≤ b.blen ∧
    (subtype = ControlMesg ∧
      (nhgetl b.data = c.inp.controlseq ∧
          (c.inp.controlpkt = none → Unlock.ackPacket L c ≠ none) ∨
        nhgetl b.data = incr c.inp.controlseq ∧
          (b.blen = 4 → Unlock.ackPacket L c ≠ none)) ∨
    subtype = ControlAck ∧ nhgetl b.data = c.out.controlseq ∧ (AckPktSize : ℤ) ≤ b.blen)

/-- The packet decompresses. -/
def Decodes (ut : Unthwack) (seq : ℕ) (src : List UInt8) : Prop :=
  (unthwack ut ThwMaxBlock src seq).2 ≠ .bad ∧ (unthwack ut ThwMaxBlock src seq).2 ≠ .dropped

/-- A packet of compressed data that has the four bytes of the acknowledgement, where they are
passed on, and whose block can be inserted. -/
def CompFits (ut : Unthwack) (control : Bool) (subtype seq : ℕ) (b : Block) : Prop :=
  subtype = ThwackU ∧ (if control then b.rp + 4 ≤ b.buf.length else (4 : ℤ) ≤ b.blen) ∨
    subtype = ThwackC ∧ (Decodes ut seq b.data → ¬Crowded ut seq) ∧
      (control = false →
        ∀ l, (unthwack ut ThwMaxBlock b.data seq).2 = .done l → 4 ≤ l.length)

/-- What a good packet has to fit. -/
def GoodFits (c : Conv) (type subtype seq : ℕ) (control : Bool) (b : Block) : Prop :=
  (type = TControl → ControlFits L c subtype b) ∧
    (type = TCompData → c.inp.comp ≠ none →
      ∀ ut, c.inp.compstate = some (.unthwack ut) → CompFits ut control subtype seq b)

/-- The window lets the packet through. -/
def Admitted (ow : OneWay) (pkt : List UInt8) : Prop :=
  seqCheck ow (guess ow (pktSeq pkt)).2 = .reorder ∨ seqCheck ow (guess ow (pktSeq pkt)).2 = .new

/-- A packet that the window lets through is made of whole blocks where the cipher needs them, and
fits when it is deciphered. -/
def Opens (pkt : List UInt8) (control : Bool) (c : Conv) : Prop :=
  (1 < c.inp.cipherblklen → Aligned (pkt.length - 4)) ∧
    ∀ b, openAuth L c.inp pkt = some b →
      GoodFits L c (pktType pkt) (pktSubtype pkt) (pktSeq pkt) control b

/-- The packets that an open conversation copes with. -/
def Fits (pkt : List UInt8) (control : Bool) (c : Conv) : Prop :=
  4 ≤ pkt.length → pktType pkt ≠ TConnect → Admitted c.inp pkt → Opens L pkt control c

/-- The pointers of a block are in order, and within the packet or the decompressed block. -/
def Lies (pkt : List UInt8) (i : Id) (b : Block) : Prop :=
  b.rp ≤ b.wp ∧ b.wp ≤ match i with
    | .packet => pkt.length
    | .fresh => ThwMaxBlock

/-- Every block in hand is the one that is passed on, and those passed on have their pointers in
order. -/
structure Settled (pkt : List UInt8) (r : Option (Id × Block)) (s : Holding) : Prop where
  held : s.held = r.toList.map Prod.fst
  passed : ∀ i b, r = some (i, b) → Lies pkt i b
  kept : ∀ b ∈ s.kept, Lies pkt .packet b

/-- `conviput` returns, or an error of the channel goes through it, and the packet is settled. -/
def Copes (pkt : List UInt8) (control : Bool) (w : World) : Prop :=
  (conviput L env pkt control).wp (Settled pkt)
    (fun e s => (∃ msg, e = .error msg) ∧ Settled pkt none s) { world := w }

/-- An open conversation without an authenticator that somebody holds; its inbound cipher and its
compressor are set up. -/
structure Receives (c : Conv) : Prop where
  state : c.state = .cOpen
  chan : c.chan = true
  ref : 1 < c.ref
  auth : c.inp.auth = none
  cipher : c.inp.CipherReady
  comp : c.inp.comp ≠ none → c.CompReady
  slot : ∀ ut, c.inp.compstate = some (.unthwack ut) → ut.slot < DWinBlocks

variable {L env}

/-! ### Acknowledgements -/

/-- The lengths that a cipher refuses. -/
def Refuses : CipherFn → ℤ → Prop
  | .desencrypt, n | .desdecrypt, n => n < 8 ∨ n % 2 ≠ 0
  | .rc4encrypt, n | .rc4decrypt, n => n < 4

/-- A cipher fails on the lengths that it does not refuse when its state is missing. -/
theorem run_eq_none_iff {f : CipherFn} {ow : OneWay} {p : List UInt8} {n : ℤ} :
    f.run L ow p n = none ↔ ¬Refuses f n ∧ ∀ st, ow.cipherstate = some st → ¬f.Fits st := by
  by_cases hst : ∃ st, ow.cipherstate = some st ∧ f.Fits st
  · obtain ⟨st, hst, hfits⟩ := hst
    obtain ⟨ok, q, st', hrun, -⟩ := run_cipher_fits (L := L) hst hfits p n
    rw [hrun]
    exact iff_of_false (by rintro ⟨⟩) fun h => h.2 st hst hfits
  have hmissing (st : CipherState) (h : ow.cipherstate = some st) : ¬f.Fits st :=
    fun hfits => hst ⟨st, h, hfits⟩
  rw [and_iff_left hmissing]
  cases f <;> simp only [CipherFn.run, desencrypt, desdecrypt, rc4encrypt, rc4decrypt, Refuses] <;>
    split_ifs with hn
  all_goals first | exact iff_of_false (by rintro ⟨⟩) fun h => h hn | refine iff_of_true ?_ hn
  all_goals
    rcases hcase : ow.cipherstate with _ | st
    · rfl
    · have hfits := hmissing st hcase
      cases st <;> first | rfl | exact absurd trivial hfits

/-- An authenticator fails on a packet with room for the digest when its state is missing. -/
theorem md5auth_eq_none_iff {ow : OneWay} {t : List UInt8} (h : ow.authlen ≤ t.length) :
    md5auth L ow t = none ↔ ow.authstate = none := by
  rw [md5auth, if_neg (not_lt.mpr h)]
  cases ow.authstate <;> simp

theorem nextSeq_auth (ow : OneWay) :
    ow.nextSeq.auth = ow.auth ∧ ow.nextSeq.authstate = ow.authstate := by
  unfold OneWay.nextSeq
  split_ifs <;> exact ⟨rfl, rfl⟩

/-- A packet cannot be made when the cipher fails, or the authenticator. -/
theorem encode_eq_none_iff {ow : OneWay} {type subtype : ℕ} {b iv : List UInt8} :
    encode L ow type subtype b iv = none ↔
      encipher L ow.nextSeq (iv ++ b ++ padding ow.nextSeq b.length) = none ∨
        ow.auth ≠ none ∧ ow.authstate = none := by
  obtain ⟨hfn, hkey⟩ := nextSeq_auth ow
  rw [← hfn, ← hkey, encode]
  cases henc : encipher L ow.nextSeq (iv ++ b ++ padding ow.nextSeq b.length) with
  | none => exact iff_of_true rfl (.inl rfl)
  | some r =>
    obtain ⟨ow', c⟩ := r
    have hframe : ow'.auth = ow.nextSeq.auth ∧ ow'.authstate = ow.nextSeq.authstate := by
      obtain ⟨st, rfl⟩ := encipher_frame henc
      exact ⟨rfl, rfl⟩
    rw [or_iff_right (Option.some_ne_none _), ← hframe.1, ← hframe.2]
    simp only [Option.bind_eq_bind, Option.bind_some]
    cases ow'.auth with
    | none => exact iff_of_false (by rintro ⟨⟩) fun h => h.1 rfl
    | some f =>
      cases f
      set pkt := uchar (type <<< 4 ||| subtype) :: seqBytes ow.nextSeq.seq ++ c
      have hlen : ow'.authlen ≤ (pkt ++ List.replicate ow'.authlen 0).length := by
        rw [List.length_append, List.length_replicate]
        exact Nat.le_add_left _ _
      have hmac := md5auth_eq_none_iff (L := L) hlen
      rw [and_iff_right (Option.some_ne_none _), ← hmac]
      simp only [AuthFn.run]
      cases md5auth L ow' (pkt ++ List.replicate ow'.authlen 0) with
      | none => exact iff_of_true rfl rfl
      | some r => exact iff_of_false (by rintro ⟨⟩) (by rintro ⟨⟩)

/-- Whether a packet can be made shows in the length of its data only. -/
theorem encode_eq_none_congr {ow : OneWay} {type subtype : ℕ} {b b' iv : List UInt8}
    (h : b.length = b'.length) :
    encode L ow type subtype b iv = none ↔ encode L ow type subtype b' iv = none := by
  have hbody : (iv ++ b ++ padding ow.nextSeq b.length).length =
      (iv ++ b' ++ padding ow.nextSeq b'.length).length := by
    simp only [List.length_append, h]
  rw [encode_eq_none_iff, encode_eq_none_iff]
  refine or_congr_left ?_
  unfold encipher
  cases ow.nextSeq.cipher with
  | none => exact iff_of_false nofun nofun
  | some f =>
    dsimp only
    rw [Option.map_eq_none_iff, Option.map_eq_none_iff, run_eq_none_iff, run_eq_none_iff, hbody]

theorem length_flatMap_hnputl (l : List ℕ) : (l.flatMap hnputl).length = 4 * l.length := by
  induction l with
  | nil => rfl
  | cons v l ih =>
    rw [List.flatMap_cons, List.length_append, length_hnputl, ih, List.length_cons]
    omega

/-- Whether an acknowledgement can be made is up to the outbound direction. -/
theorem ackPacket_eq_none_congr {c c' : Conv} (h : c'.out = c.out) :
    Unlock.ackPacket L c' = none ↔ Unlock.ackPacket L c = none := by
  unfold Unlock.ackPacket
  rw [h]
  refine encode_eq_none_congr ?_
  rw [length_flatMap_hnputl, length_flatMap_hnputl]
  rfl

section

variable {pkt : List UInt8} {s : Holding} {b : Block} {control : Bool} {subtype seq : ℕ}

/-- The early stops that are coped with. -/
abbrev Stops (pkt : List UInt8) (e : Stop Fault) (s : Holding) : Prop :=
  (∃ msg, e = .error msg) ∧ Settled pkt none s

/-- A routine copes with the packet and passes no block on. -/
abbrev Ends (pkt : List UInt8) (m : InputM Unit) (s : Holding) : Prop :=
  m.wp (fun _ => Settled pkt none) (Stops pkt) s

theorem not_stops_panic {why : Fault} : ¬Stops pkt (.panic why) s := fun ⟨⟨_, h⟩, _⟩ => by cases h

theorem settled_world_iff {r : Option (Id × Block)} {w : World} :
    Settled pkt r { s with world := w } ↔ Settled pkt r s :=
  ⟨fun h => ⟨h.held, h.passed, h.kept⟩, fun h => ⟨h.held, h.passed, h.kept⟩⟩

theorem mem_held (hheld : s.held = [.packet]) : Id.packet ∈ s.held := by
  rw [hheld]
  exact List.mem_singleton.mpr rfl

theorem settled_none_iff (hkept : s.kept = []) : Settled pkt none s ↔ s.held = [] := by
  refine ⟨fun h => h.held, fun h => ⟨h, nofun, ?_⟩⟩
  rw [hkept]
  exact fun b hb => absurd hb List.not_mem_nil

/-- A packet that is freed is settled. -/
theorem settled_freed (hheld : s.held = [.packet]) (hkept : s.kept = []) (w : World) :
    Settled pkt none { s with world := w, held := s.held.erase .packet } := by
  refine (settled_none_iff (by exact hkept)).mpr ?_
  rw [hheld]
  rfl

/-- When the packet is freed, the rest copes just when the acknowledgement can be made. -/
theorem ends_convack_iff (h : Settled pkt none s) (hchan : s.world.conv.chan = true)
    (href : s.world.conv.state = .cClosed ∨ 1 < s.world.conv.ref) :
    Ends pkt (under (convack L env)) s ↔ Unlock.ackPacket L s.world.conv ≠ none := by
  have hsettled (w : World) : Settled pkt none { s with world := w } := settled_world_iff.mpr h
  rw [Ends, wp_under]
  simp only [convack, wp_bind, wp_getConv]
  cases henc : Unlock.ackPacket L s.world.conv with
  | none =>
    rw [Unlock.wp_convoput_of_none henc]
    exact iff_of_false not_stops_panic fun h => h rfl
  | some r =>
    rw [Unlock.wp_convoput_of_some henc, wp_convwriteblock (by exact hchan)]
    refine iff_of_true ⟨fun _ => hsettled _, fun _ => ?_⟩ (Option.some_ne_none r)
    rw [wp_convclose_of_held (by exact href)]
    exact ⟨⟨_, rfl⟩, hsettled _⟩

/-! ### Control packets -/

/-- A control packet is coped with just when it fits. -/
theorem ends_convicontrol_iff (hheld : s.held = [.packet]) (hkept : s.kept = [])
    (hb : Lies pkt .packet b) (hlen : b.buf.length = pkt.length)
    (hchan : s.world.conv.chan = true)
    (href : s.world.conv.state = .cClosed ∨ 1 < s.world.conv.ref) :
    Ends pkt (convicontrol L env subtype b) s ↔ ControlFits L s.world.conv subtype b := by
  have hlost (t : Holding) (h : t.held = [.packet]) : ¬Settled pkt none t := fun ht => by
    rw [ht.held] at h
    cases h
  have hfreed (w : World) := @settled_freed pkt s hheld hkept w
  have hin := mem_held hheld
  obtain ⟨hrp, (hwp : b.wp ≤ pkt.length)⟩ := hb
  have hmesg : ControlMesg ≠ ControlAck := by decide
  rw [Ends, convicontrol, ControlFits]
  by_cases hshort : b.blen < 4
  · rw [if_pos hshort]
    exact iff_of_false (hlost s hheld) fun h => by omega
  rw [if_neg hshort, and_iff_right (not_lt.mp hshort), wp_bind, wp_touch, if_pos (by
    unfold Block.blen at hshort; omega)]
  simp only [wp_bind, wp_under_getConv]
  by_cases hsub : subtype = ControlMesg
  · rw [if_pos hsub]
    subst hsub
    have hnot : ¬(ControlMesg = ControlAck ∧ nhgetl b.data = s.world.conv.out.controlseq ∧
        (AckPktSize : ℤ) ≤ b.blen) := fun h => hmesg h.1
    rw [or_iff_left hnot, and_iff_right rfl]
    by_cases hdup : nhgetl b.data = s.world.conv.inp.controlseq
    · have hnext : ¬(nhgetl b.data = incr s.world.conv.inp.controlseq ∧
          (b.blen = 4 → Unlock.ackPacket L s.world.conv ≠ none)) := fun h =>
        incr_ne_self _ (h.1.symm.trans hdup)
      rw [if_pos hdup, or_iff_left hnext, and_iff_right hdup, wp_bind, wp_freeb, if_pos hin]
      by_cases hempty : s.world.conv.inp.controlpkt = none
      · rw [if_pos hempty, forall_prop_of_true hempty]
        exact ends_convack_iff (hfreed _) hchan href
      · rw [if_neg hempty]
        exact iff_of_true (hfreed _) fun h => absurd h hempty
    rw [if_neg hdup, or_iff_right fun h => hdup h.1]
    by_cases hnext : nhgetl b.data = incr s.world.conv.inp.controlseq
    · rw [if_neg (not_not.mpr hnext), and_iff_right hnext]
      simp only [wp_bind, wp_under_setConv]
      by_cases hping : b.blen = 4
      · have hzero : ({ b with rp := b.rp + 4 } : Block).blen = 0 := by
          unfold Block.blen at hping ⊢
          push_cast
          omega
        rw [if_pos hzero, forall_prop_of_true hping, wp_bind, wp_freeb, if_pos (by exact hin)]
        refine (ends_convack_iff (hfreed _) ?_ ?_).trans (not_congr (ackPacket_eq_none_congr ?_))
        · exact hchan
        · exact href
        · rfl
      · have hzero : ({ b with rp := b.rp + 4 } : Block).blen ≠ 0 := by
          unfold Block.blen at hping ⊢
          push_cast
          omega
        rw [if_neg hzero, wp_bind, wp_keep]
        refine iff_of_true ?_ fun h => absurd h hping
        refine wp_under.mpr ⟨?_, by rintro _ _ ⟨⟩, fun b' hb' => ?_⟩
        · rw [hheld]
          rfl
        · rw [hkept] at hb'
          obtain rfl := List.mem_singleton.mp hb'
          unfold Block.blen at hshort
          exact ⟨by dsimp only; omega, hwp⟩
    · rw [if_pos hnext]
      exact iff_of_false (hlost s hheld) fun h => hnext h.1
  rw [if_neg hsub, or_iff_right fun h => hsub h.1]
  by_cases hack : subtype = ControlAck
  · rw [if_pos hack, and_iff_right hack]
    by_cases hseq : nhgetl b.data = s.world.conv.out.controlseq
    · rw [if_neg (not_not.mpr hseq), and_iff_right hseq]
      by_cases hsize : b.blen < AckPktSize
      · rw [if_pos hsize]
        exact iff_of_false (hlost s hheld) (not_le.mpr hsize)
      · have htouch : b.rp + AckPktSize ≤ b.buf.length := by
          unfold Block.blen at hsize
          omega
        rw [if_neg hsize]
        simp only [wp_bind, wp_touch, if_pos htouch, wp_under_setConv, wp_freeb, hin, if_true]
        exact iff_of_true (hfreed _) (not_lt.mp hsize)
    · rw [if_pos hseq]
      exact iff_of_false (hlost s hheld) fun h => hseq h.1
  · rw [if_neg hack]
    exact iff_of_false (hlost s hheld) fun h => hack h.1

/-! ### Compressed packets -/

/-- What the rest of `conviput` makes of the block that `convicomp` gives. -/
def Delivers (pkt : List UInt8) (control : Bool) : Option (Id × Block) → Holding → Prop
  | none, s => Settled pkt none s
  | some (i, b), s =>
      if control then i ∈ s.held ∧ Settled pkt none { s with held := s.held.erase i }
      else Settled pkt (some (i, b)) s

theorem settled_some_iff {i : Id} (hkept : s.kept = []) (hheld : s.held = [i]) :
    Settled pkt (some (i, b)) s ↔ Lies pkt i b := by
  refine ⟨fun h => h.passed i b rfl, fun h => ⟨hheld, fun j b' heq => ?_, ?_⟩⟩
  · cases heq
    exact h
  · rw [hkept]
    exact fun b hb => absurd hb List.not_mem_nil

/-- A block that is the only one in hand is delivered unless its pointers are passed on out of
order. -/
theorem delivers_some_iff {i : Id} (hkept : s.kept = []) (hheld : s.held = [i]) :
    Delivers pkt control (some (i, b)) s ↔ (control = false → Lies pkt i b) := by
  cases control with
  | false =>
    rw [forall_prop_of_true rfl]
    exact settled_some_iff hkept hheld
  | true =>
    refine iff_of_true ⟨?_, (settled_none_iff (by exact hkept)).mpr ?_⟩ nofun
    · rw [hheld]
      exact List.mem_singleton.mpr rfl
    · rw [hheld]
      exact List.erase_cons_head i []

theorem delivers_thwackuncomp_iff {ut : Unthwack} (hheld : s.held = [.packet])
    (hkept : s.kept = []) (hb : Lies pkt .packet b) (hlen : b.buf.length = pkt.length)
    (hcomp : s.world.conv.CompReady)
    (hut : s.world.conv.inp.compstate = some (.unthwack ut)) (hslot : ut.slot < DWinBlocks) :
    (thwackuncomp subtype seq b).wp (Delivers pkt control) (Stops pkt) s ↔
      CompFits ut control subtype seq b := by
  obtain ⟨-, tw, htw⟩ := hcomp
  obtain ⟨hrp, (hwp : b.wp ≤ pkt.length)⟩ := hb
  rw [thwackuncomp, CompFits]
  simp only [wp_bind, wp_under_getConv]
  by_cases hU : subtype = ThwackU
  · have hC : subtype ≠ ThwackC := by
      rw [hU]
      decide
    have hfour : (4 : ℤ) ≤ b.blen ↔ b.rp + 4 ≤ b.wp := by
      unfold Block.blen
      omega
    rw [if_pos hU, and_iff_right hU, or_iff_left fun h => hC h.1, wp_bind, wp_touch, hfour]
    by_cases htouch : b.rp + 4 ≤ b.buf.length
    · rw [if_pos htouch]
      simp only [htw, wp_bind, wp_under_setConv, wp_pure]
      refine (delivers_some_iff (by exact hkept) (by exact hheld)).trans ?_
      cases control with
      | true => exact iff_of_true (by rintro ⟨⟩) htouch
      | false =>
        rw [forall_prop_of_true rfl]
        exact and_iff_left hwp
    · rw [if_neg htouch]
      refine iff_of_false not_stops_panic fun h => htouch ?_
      cases control with
      | true => exact h
      | false =>
        have h : b.rp + 4 ≤ b.wp := h
        omega
  rw [if_neg hU, or_iff_right fun h => hU h.1]
  by_cases hC : subtype = ThwackC
  · have hin : Id.packet ∈ s.held ++ [Id.fresh] := by
      rw [hheld]
      exact List.mem_cons_self
    have hleft : (s.held ++ [Id.fresh]).erase .packet = [.fresh] := by
      rw [hheld]
      rfl
    have hends := @unthwack_decodes ut ThwMaxBlock b.data seq hslot
    rw [if_pos hC, and_iff_right hC, Decodes, wp_bind, wp_allocb]
    simp only [hut, htw]
    generalize unthwack ut ThwMaxBlock b.data seq = result at hends ⊢
    obtain ⟨ut', r⟩ := result
    dsimp only at hends ⊢
    cases r with
    | done l =>
      obtain ⟨-, h⟩ | ⟨hroom, l', h, hlen'⟩ := hends (by rintro ⟨⟩) (by rintro ⟨⟩)
      · cases h
      obtain rfl := UnthwResult.done.inj h
      simp only [wp_bind, wp_freeb, wp_under_setConv, wp_pure]
      rw [if_pos hin, and_iff_right fun _ => hroom]
      refine (delivers_some_iff (by exact hkept) (by exact hleft)).trans ?_
      refine forall_congr' fun _ => ⟨fun h l' heq => ?_, fun h => ⟨h l rfl, hlen'⟩⟩
      obtain rfl := UnthwResult.done.inj heq
      exact h.1
    | stuck =>
      obtain ⟨hcrowded, -⟩ | ⟨-, l, h, -⟩ := hends (by rintro ⟨⟩) (by rintro ⟨⟩)
      · exact iff_of_false not_stops_panic fun h => h.1 (by constructor <;> rintro ⟨⟩) hcrowded
      · cases h
    | bad | dropped =>
      simp only [wp_bind, wp_freeb, wp_under_setConv, wp_pure]
      rw [if_pos hin, hleft, if_pos (List.mem_singleton.mpr rfl)]
      refine iff_of_true ((settled_none_iff (by exact hkept)).mpr rfl)
        ⟨fun h => ?_, by rintro _ _ ⟨⟩⟩
      first | exact absurd rfl h.1 | exact absurd rfl h.2
  · rw [if_neg hC]
    simp only [wp_bind, wp_under_setConv, wp_pure]
    refine iff_of_false (fun h => ?_) fun h => hC h.1
    have hnil := (settled_none_iff (by exact hkept)).mp h
    rw [hheld] at hnil
    cases hnil

/-- A packet of compressed data is delivered just when it fits, or there is no compressor. -/
theorem delivers_convicomp_iff (hheld : s.held = [.packet]) (hkept : s.kept = [])
    (hb : Lies pkt .packet b) (hlen : b.buf.length = pkt.length)
    (hcomp : s.world.conv.inp.comp ≠ none → s.world.conv.CompReady)
    (hslot : ∀ ut, s.world.conv.inp.compstate = some (.unthwack ut) → ut.slot < DWinBlocks) :
    (convicomp subtype seq b).wp (Delivers pkt control) (Stops pkt) s ↔
      (s.world.conv.inp.comp ≠ none →
        ∀ ut, s.world.conv.inp.compstate = some (.unthwack ut) →
          CompFits ut control subtype seq b) := by
  simp only [convicomp, wp_bind, wp_under_getConv]
  cases hfn : s.world.conv.inp.comp with
  | none =>
    dsimp only
    rw [wp_bind, wp_freeb, if_pos (mem_held hheld)]
    exact iff_of_true (settled_freed hheld hkept _) fun h => absurd rfl h
  | some f =>
    have hready : s.world.conv.CompReady := hcomp (by rw [hfn]; exact Option.some_ne_none f)
    obtain ⟨⟨ut, hut⟩, -⟩ := id hready
    rw [forall_prop_of_true (Option.some_ne_none f)]
    refine (delivers_thwackuncomp_iff hheld hkept hb hlen hready hut (hslot ut hut)).trans ?_
    refine ⟨fun h ut' hut' => ?_, fun h => h ut hut⟩
    cases hut.symm.trans hut'
    exact h

/-! ### Good packets -/

/-- A good packet is coped with just when it fits. -/
theorem settled_conviputGood_iff {type : ℕ} (hheld : s.held = [.packet]) (hkept : s.kept = [])
    (hb : Lies pkt .packet b) (hlen : b.buf.length = pkt.length)
    (hchan : s.world.conv.chan = true)
    (href : s.world.conv.state = .cClosed ∨ 1 < s.world.conv.ref)
    (hcomp : s.world.conv.inp.comp ≠ none → s.world.conv.CompReady)
    (hslot : ∀ ut, s.world.conv.inp.compstate = some (.unthwack ut) → ut.slot < DWinBlocks) :
    (conviputGood L env type subtype seq control b).wp (Settled pkt) (Stops pkt) s ↔
      GoodFits L s.world.conv type subtype seq control b := by
  have hin := mem_held hheld
  have hfreed (w : World) := @settled_freed pkt s hheld hkept w
  rw [conviputGood, GoodFits]
  by_cases hcontrol : type = TControl
  · have hdata : type ≠ TCompData := by
      rw [hcontrol]
      decide
    rw [if_pos hcontrol, forall_prop_of_true hcontrol, and_iff_left fun h => absurd h hdata,
      wp_bind]
    simp only [wp_pure]
    exact ends_convicontrol_iff hheld hkept hb hlen hchan href
  rw [if_neg hcontrol, and_iff_right fun h => absurd h hcontrol]
  by_cases hdata : type = TData
  · have hcompdata : type ≠ TCompData := by
      rw [hdata]
      decide
    rw [if_pos hdata, wp_bind, wp_under_count]
    refine iff_of_true ?_ fun h => absurd h hcompdata
    cases control with
    | true =>
      rw [if_pos rfl]
      simp only [wp_bind, wp_under_count, wp_freeb, hin, if_true, wp_pure]
      exact hfreed _
    | false => exact (settled_some_iff (by exact hkept) (by exact hheld)).mpr hb
  rw [if_neg hdata]
  by_cases hcompdata : type = TCompData
  · rw [if_pos hcompdata, forall_prop_of_true hcompdata, wp_bind, wp_under_count, wp_bind]
    refine (wp_congr fun r t => ?_).trans
      (delivers_convicomp_iff (by exact hheld) (by exact hkept) hb hlen hcomp hslot)
    rcases r with _ | ⟨i, b'⟩
    · simp only [wp_bind, wp_under_count, wp_pure]
      exact settled_world_iff
    · dsimp only [Delivers]
      cases control with
      | true =>
        simp only [wp_bind, wp_under_count, if_true, wp_freeb, wp_pure]
        by_cases hi : i ∈ t.held
        · rw [if_pos hi, and_iff_right hi]
          exact settled_world_iff (s := { t with held := t.held.erase i })
        · rw [if_neg hi]
          exact iff_of_false not_stops_panic fun h => hi h.1
      | false =>
        simp only [wp_bind, wp_under_count]
        exact settled_world_iff
  · rw [if_neg hcompdata, wp_bind, wp_under_count]
    simp only [wp_bind, wp_freeb, hin, if_true, wp_pure]
    exact iff_of_true (hfreed _) fun h => absurd h hcompdata

/-! ### Ciphers -/

section

variable {Q : Unit → Holding → Prop} {E : Stop Fault → Holding → Prop}

/-- The loop stays in the buffer just when the rest of it is made of whole blocks. -/
theorem wp_desLoop {fuel p ep : ℕ} (hep : ep = b.buf.length) (hp : p ≤ ep)
    (hfuel : ep ≤ p + fuel) :
    (desLoop b ep fuel p).wp Q E s ↔
      if (ep - p) % 8 = 0 then Q () s else E (.panic .outside) s := by
  induction fuel generalizing p with
  | zero =>
    have hend : ep - p = 0 := by omega
    rw [desLoop, hend, if_pos (Nat.zero_mod 8), wp_pure]
  | succ fuel ih =>
    rw [desLoop]
    by_cases hlt : p < ep
    · rw [if_pos hlt, wp_bind, wp_touch]
      by_cases hfit : p + 8 ≤ b.buf.length
      · have hmod : (ep - p) % 8 = (ep - (p + 8)) % 8 := by omega
        rw [if_pos hfit, ih (by omega) (by omega), hmod]
      · rw [if_neg hfit, if_neg (by omega)]
    · have hend : ep - p = 0 := by omega
      rw [if_neg hlt, hend, if_pos (Nat.zero_mod 8), wp_pure]

theorem wp_touchDes (hrp : b.rp ≤ b.wp) (hwp : b.wp = b.buf.length) :
    (touchDes b b.blen).wp Q E s ↔
      (Aligned (b.wp - b.rp) → Q () s) ∧ (¬Aligned (b.wp - b.rp) → E (.panic .outside) s) := by
  have hn : b.blen.toNat = b.wp - b.rp := by
    unfold Block.blen
    omega
  have hrefuse : (b.blen < 8 ∨ b.blen % 2 ≠ 0) ↔ (b.wp - b.rp < 8 ∨ (b.wp - b.rp) % 2 ≠ 0) := by
    unfold Block.blen
    omega
  rw [touchDes, Aligned]
  by_cases h : b.wp - b.rp < 8 ∨ (b.wp - b.rp) % 2 ≠ 0
  · rw [if_pos (hrefuse.mpr h), wp_pure]
    rw [← or_assoc]
    exact ⟨fun hq => ⟨fun _ => hq, fun hnot => absurd (.inl h) hnot⟩, fun hq => hq.1 (.inl h)⟩
  · have hep : b.rp + (b.wp - b.rp) = b.buf.length := by omega
    have hmod : (b.rp + (b.wp - b.rp) - (b.rp + 8)) % 8 = 0 ↔ (b.wp - b.rp) % 8 = 0 := by omega
    rw [if_neg (mt hrefuse.mp h), wp_bind, wp_touch, if_pos (by omega), hn,
      wp_desLoop hep (by omega) (by omega), ← or_assoc, or_iff_right h]
    simp only [hmod]
    by_cases h8 : (b.wp - b.rp) % 8 = 0
    · rw [if_pos h8]
      exact ⟨fun hq => ⟨fun _ => hq, fun hnot => absurd h8 hnot⟩, fun hq => hq.1 h8⟩
    · rw [if_neg h8]
      exact ⟨fun he => ⟨fun hnot => absurd hnot h8, fun _ => he⟩, fun hq => hq.2 h8⟩

theorem wp_touchRc4 (hrp : b.rp ≤ b.wp) (hwp : b.wp = b.buf.length) :
    (touchRc4 b b.blen).wp Q E s ↔ Q () s := by
  rw [touchRc4]
  by_cases h : b.blen < 4
  · rw [if_pos h, wp_pure]
  · have hn : (b.blen - 4).toNat = b.wp - b.rp - 4 := by
      unfold Block.blen
      omega
    have hfour : b.rp + 4 ≤ b.wp := by
      unfold Block.blen at h
      omega
    rw [if_neg h, wp_bind, wp_touch, if_pos (by omega), wp_touch, hn, if_pos (by omega)]

/-- A cipher stays in the packet unless it is a block cipher and the text is not aligned. -/
theorem wp_touchCipher {ow : OneWay} (hready : ow.CipherReady) (hpos : 0 < b.wp)
    (hrp : b.rp ≤ b.wp) (hwp : b.wp = b.buf.length) :
    (touchCipher L ow b).wp Q E s ↔
      ((1 < ow.cipherblklen → Aligned (b.wp - b.rp)) → Q () s) ∧
        (¬(1 < ow.cipherblklen → Aligned (b.wp - b.rp)) → E (.panic .outside) s) := by
  have hpad (ok : Prop) [Decidable ok] : (if ok then touch b (b.wp - 1) 1 else pure ()).wp Q E s ↔
      Q () s := by
    split_ifs
    · rw [wp_touch, if_pos (by omega)]
    · exact .rfl
  unfold touchCipher
  unfold OneWay.CipherReady at hready
  cases hf : ow.cipher with
  | none =>
    simp only [hf] at hready
    have hblk : ¬1 < ow.cipherblklen := by omega
    simp only [hblk, false_implies, forall_const, not_true, and_true]
    exact .rfl
  | some f =>
    simp only [hf] at hready
    have hblk : ow.cipherblklen = f.lens.1 := congrArg Prod.fst hready.2
    simp only [wp_bind]
    cases f with
    | desencrypt | desdecrypt =>
      have hblk : 1 < ow.cipherblklen := by
        rw [hblk]
        decide
      rw [forall_prop_of_true hblk]
      refine (wp_touchDes hrp hwp).trans (and_congr_left fun _ => imp_congr_right fun _ => ?_)
      exact hpad _
    | rc4encrypt | rc4decrypt =>
      have hblk : ¬1 < ow.cipherblklen := by
        rw [hblk]
        decide
      simp only [hblk, false_implies, forall_const, not_true, and_true]
      exact (wp_touchRc4 hrp hwp).trans (hpad _)

end

/-- A cipher that succeeds finds room for what it takes off, and returns no more bytes than it
got. -/
theorem run_cipher_length {f : CipherFn} {ow ow' : OneWay} {p q : List UInt8}
    (h : f.run L ow p p.length = some (true, ow', q)) :
    f.lens.2 ≤ p.length ∧ q.length ≤ p.length := by
  cases f with
  | desencrypt | desdecrypt =>
    simp only [CipherFn.run, desencrypt, desdecrypt] at h
    split_ifs at h with hn
    · cases h
    split at h
    · simp only [Option.some.injEq, Prod.mk.injEq, true_and] at h
      obtain ⟨-, rfl⟩ := h
      refine ⟨?_, by simp⟩
      change 8 ≤ p.length
      omega
    · cases h
  | rc4encrypt =>
    simp only [CipherFn.run, rc4encrypt] at h
    split_ifs at h with hn
    · cases h
    split at h
    · simp only [Option.some.injEq, Prod.mk.injEq, true_and] at h
      obtain ⟨-, rfl⟩ := h
      have hfour : 4 ≤ p.length := by omega
      refine ⟨hfour, ?_⟩
      rw [List.length_append, length_rc4, length_hnputl, List.length_drop]
      omega
    · cases h
  | rc4decrypt =>
    simp only [CipherFn.run, rc4decrypt] at h
    have hdone (hfour : ¬(p.length : ℤ) < 4) {st : RC4state}
        (hq : p.take 4 ++ (rc4 L st (p.drop 4)).2 = q) :
        4 ≤ p.length ∧ q.length ≤ p.length := by
      rw [← hq, List.length_append, length_rc4, List.length_take, List.length_drop]
      omega
    split_ifs at h with hn
    · cases h
    split at h
    · split_ifs at h
      all_goals
        simp only [Option.some.injEq, Prod.mk.injEq, true_and, Bool.false_eq_true, false_and] at h
      all_goals exact hdone hn h.2
    · cases h

/-- A block that the cipher leaves has its pointers in order. -/
theorem undoCipher_lies {ow ow' : OneWay} {b' : Block} (hready : ow.CipherReady)
    (hrp : b.rp ≤ b.wp) (hwp : b.wp ≤ b.buf.length)
    (h : undoCipher L ow b = some (true, ow', b')) :
    b'.rp ≤ b'.wp ∧ b'.wp ≤ b.wp ∧ b'.buf.length = b.buf.length := by
  have hdata : b.data.length = b.wp - b.rp := by
    rw [Block.data, List.length_drop, List.length_take, Nat.min_eq_left hwp]
  have hblen : b.blen = b.data.length := by
    rw [hdata, Block.blen]
    omega
  unfold undoCipher at h
  unfold OneWay.CipherReady at hready
  cases hf : ow.cipher with
  | none =>
    simp only [hf, Option.some.injEq, Prod.mk.injEq, true_and] at h
    obtain ⟨-, rfl⟩ := h
    exact ⟨hrp, le_rfl, rfl⟩
  | some f =>
    simp only [hf] at h hready
    obtain ⟨⟨ok, ow₁, p⟩, hrun, heq⟩ := Option.map_eq_some_iff.mp h
    rw [hblen] at hrun
    have hivlen : ow₁.cipherivlen = f.lens.2 := by
      obtain ⟨st, rfl⟩ := run_cipher_frame hrun
      exact congrArg Prod.snd hready.2
    cases ok with
    | false => simp at heq
    | true =>
      obtain ⟨hroom, hplen⟩ := run_cipher_length hrun
      have hwrite : (b.write b.rp p).buf.length = b.buf.length := by
        simp only [Block.write, List.length_append, List.length_take, List.length_drop]
        omega
      dsimp only at heq
      rw [if_neg (by decide)] at heq
      split_ifs at heq with hblk hpad
      · simp at heq
      · simp only [Prod.mk.injEq, true_and] at heq
        obtain ⟨-, rfl⟩ := heq
        simp only [Block.blen, not_lt] at hpad
        exact ⟨by dsimp only [Block.write] at hpad ⊢; omega, Nat.sub_le _ _, hwrite⟩
      · simp only [Prod.mk.injEq, true_and] at heq
        obtain ⟨-, rfl⟩ := heq
        exact ⟨by dsimp only [Block.write]; omega, le_rfl, hwrite⟩

/-! ### The packet as a whole -/

theorem goodFits_congr {c c' : Conv} {type : ℕ}
    (hseq : c'.inp.controlseq = c.inp.controlseq) (hpkt : c'.inp.controlpkt = c.inp.controlpkt)
    (hcomp : c'.inp.comp = c.inp.comp) (hstate : c'.inp.compstate = c.inp.compstate)
    (hout : c'.out = c.out) :
    GoodFits L c' type subtype seq control b ↔ GoodFits L c type subtype seq control b := by
  have hack := ackPacket_eq_none_congr (L := L) hout
  unfold GoodFits ControlFits
  simp only [hseq, hpkt, hcomp, hstate, hout, ne_eq, hack]

/-- The statistics do not matter. -/
theorem opens_congr {c : Conv} {stats : Stats} :
    Opens L pkt control { c with lstats := stats } ↔ Opens L pkt control c :=
  and_congr_right fun _ => forall₂_congr fun _ _ => goodFits_congr rfl rfl rfl rfl rfl

theorem Receives.setStats {c : Conv} (h : Receives c) (stats : Stats) :
    Receives { c with lstats := stats } :=
  ⟨h.state, h.chan, h.ref, h.auth, h.cipher, h.comp, h.slot⟩

theorem accept_controlpkt (ow : OneWay) (missing seq seqwrap : ℕ) (seqdiff : ℤ) :
    (accept ow missing seq seqwrap seqdiff).1.controlpkt = ow.controlpkt := by
  unfold accept
  split <;> rfl

/-- What is behind the header is coped with just when it opens. -/
theorem settled_conviputAuth_iff {seqwrap : ℕ} {seqdiff : ℤ} (h : Receives s.world.conv)
    (hheld : s.held = [.packet]) (hkept : s.kept = []) (hfour : 4 ≤ pkt.length) :
    (conviputAuth L env (pktType pkt) (pktSubtype pkt) (pktSeq pkt) seqwrap seqdiff control
      (pktPayload pkt)).wp (Settled pkt) (Stops pkt) s ↔ Opens L pkt control s.world.conv := by
  have hin := mem_held hheld
  have hfreed (w : World) := @settled_freed pkt s hheld hkept w
  have hauth : undoAuth L s.world.conv.inp (pktPayload pkt) = some (true, pktPayload pkt) := by
    simp only [undoAuth, h.auth]
  have htouch : touchAuth s.world.conv.inp (pktPayload pkt) = pure () := by
    simp only [touchAuth, h.auth]
  obtain ⟨ok, st, b', hrun, -⟩ := undoCipher_ready (L := L) h.cipher (pktPayload pkt)
  have hopen : openAuth L s.world.conv.inp pkt = if ok then some b' else none := by
    simp only [openAuth, hauth, hrun]
    cases ok <;> rfl
  simp only [conviputAuth, wp_bind, wp_under_getConv, htouch, hauth, wp_pure]
  refine (wp_touchCipher h.cipher ?_ ?_ ?_).trans ?_
  · exact Nat.lt_of_lt_of_le (by decide) hfour
  · exact hfour
  · rfl
  rw [Opens, hopen]
  by_cases halign : 1 < s.world.conv.inp.cipherblklen → Aligned (pkt.length - 4)
  · rw [and_iff_right halign]
    have hgo {Q E : Prop} : ((1 < s.world.conv.inp.cipherblklen → Aligned (pkt.length - 4)) → Q) ∧
        (¬(1 < s.world.conv.inp.cipherblklen → Aligned (pkt.length - 4)) → E) ↔ Q :=
      ⟨fun hq => hq.1 halign, fun hq => ⟨fun _ => hq, fun hnot => absurd halign hnot⟩⟩
    refine hgo.trans ?_
    simp only [hrun]
    cases ok with
    | false =>
      simp only [wp_bind, wp_under_setConv, wp_under_count, wp_freeb, hin, if_true, wp_pure]
      exact iff_of_true (hfreed _) (by rintro _ ⟨⟩)
    | true =>
      obtain ⟨hrp, hwp, hlen⟩ := undoCipher_lies h.cipher (by exact hfour) le_rfl hrun
      simp only [wp_bind, wp_under_setConv]
      refine (settled_conviputGood_iff (by exact hheld) (by exact hkept) ⟨hrp, hwp⟩ hlen
        (by exact h.chan) (by exact .inr h.ref) ?_ ?_).trans ?_
      · simp only [World.map, accept_comp, Conv.CompReady, accept_compstate]
        exact h.comp
      · simp only [World.map, accept_compstate]
        exact h.slot
      refine (goodFits_congr (c := s.world.conv) (accept_controlseq ..) (accept_controlpkt ..)
        (accept_comp ..) (accept_compstate ..) (by rfl)).trans ?_
      rw [if_pos trivial]
      refine ⟨fun h b heq => ?_, fun h => h b' rfl⟩
      obtain rfl := Option.some.inj heq
      exact h
  · refine iff_of_false (fun hw => not_stops_panic (hw.2 halign)) fun h => halign h.1

/-- What is behind the type is coped with just when the window turns it away or it opens. -/
theorem settled_conviputSeq_iff (h : Receives s.world.conv) (hheld : s.held = [.packet])
    (hkept : s.kept = []) (hfour : 4 ≤ pkt.length) :
    (conviputSeq L env (pktType pkt) (pktSubtype pkt) control (pktBody pkt)).wp (Settled pkt)
      (Stops pkt) s ↔ (Admitted s.world.conv.inp pkt → Opens L pkt control s.world.conv) := by
  have hdrop (w : World) : (do freeb .packet; return none : InputM (Option (Id × Block))).wp
      (Settled pkt) (Stops pkt) { s with world := w } := by
    rw [wp_bind, wp_freeb, if_pos (mem_held hheld)]
    exact settled_freed hheld hkept w
  rw [conviputSeq, wp_bind, wp_touch, if_pos (by exact hfour)]
  simp only [wp_bind, wp_under_getConv]
  rw [show (pktBody pkt).byte 0 <<< 16 + (pktBody pkt).byte 1 <<< 8 + (pktBody pkt).byte 2 =
    pktSeq pkt from rfl]
  unfold Admitted
  cases seqCheck s.world.conv.inp (guess s.world.conv.inp (pktSeq pkt)).2 with
  | old | dup =>
    refine iff_of_true ?_ (by rintro (⟨⟨⟩⟩ | ⟨⟨⟩⟩))
    dsimp only
    rw [wp_bind, wp_under_count]
    exact hdrop _
  | reorder =>
    rw [forall_prop_of_true (.inl rfl)]
    dsimp only
    rw [wp_bind, wp_under_count]
    refine (settled_conviputAuth_iff (by exact h.setStats _) (by exact hheld) (by exact hkept)
      hfour).trans ?_
    exact opens_congr
  | new =>
    rw [forall_prop_of_true (.inr rfl)]
    exact settled_conviputAuth_iff h hheld hkept hfour

/-! ### Connection packets -/

theorem wp_convoconnect_open {op dialid acceptid : ℕ} {w : World} (hchan : w.conv.chan = true)
    (h : Hearing w.conv) :
    (convoconnect env op dialid acceptid).wp (fun _ w' => Hearing w'.conv)
      (fun _ _ => False) w := by
  rw [wp_convoconnect, if_pos hchan]
  refine ⟨fun _ => h, fun _ => ?_⟩
  rw [wp_convclose_of_held (by exact h.closed_or_lt)]
  exact .inr rfl

/-- The handling of a connection packet stops at no assertion. -/
theorem returns_conviconnect {w : World} (h : Receives w.conv) :
    (Sdp.conviconnect L env subtype b).wp (fun _ _ => True) (fun _ _ => False) w := by
  have hhear : Hearing w.conv := .inl ⟨h.state, h.ref⟩
  have hclose {w : World} (hw : Hearing w.conv) :
      convclose.wp (fun _ _ => True) (fun _ _ => False) w := by
    rw [wp_convclose_of_held hw.closed_or_lt]
    trivial
  have hcon {op dialid acceptid : ℕ} : (convoconnect env op dialid acceptid).wp
      (fun _ w' => Hearing w'.conv) (fun _ _ => False) w := wp_convoconnect_open h.chan hhear
  have hrej {dialid acceptid : ℕ} : (conreset env dialid acceptid).wp (fun _ _ => True)
      (fun _ _ => False) w := by
    rw [conreset, wp_bind]
    exact wp_mono hcon (fun _ _ hw => hclose hw) fun _ _ => id
  unfold Sdp.conviconnect conviconnectIds
  simp only [wp_ite, wp_bind, wp_getConv, wp_pure, h.state, reduceCtorEq, if_false]
  split_ifs
  · exact hclose hhear
  · exact hrej
  · exact wp_mono hcon (fun _ _ _ => trivial) fun _ _ => id
  · refine wp_mono hcon (fun _ _ _ => ?_) fun _ _ => id
    rw [wp_convsetstate_remoteClose]
    trivial
  · exact hrej
  · exact hrej

/-- Every connection packet is coped with. -/
theorem ends_conviconnect (h : Receives s.world.conv) (hheld : s.held = [.packet])
    (hkept : s.kept = []) (hwp : b.wp ≤ b.buf.length) :
    Ends pkt (conviconnect L env subtype b) s := by
  have hin := mem_held hheld
  have hfreed (w : World) := @settled_freed pkt s hheld hkept w
  rw [Ends, conviconnect]
  by_cases hlen : b.blen ≠ 8
  · rw [if_pos hlen]
    simp only [wp_bind, wp_freeb, hin, if_true, wp_pure]
    exact hfreed _
  · have htouch : b.rp + 8 ≤ b.buf.length := by
      unfold Block.blen at hlen
      omega
    rw [if_neg hlen]
    simp only [wp_bind, wp_touch, if_pos htouch, wp_freeb, hin, if_true, wp_under]
    exact wp_mono (returns_conviconnect h) (fun _ _ _ => hfreed _) fun _ _ => False.elim

/-! ### The main result -/

/-- An open conversation without an authenticator copes with a packet just when it fits. -/
theorem conviput_copes_iff (L : Libsec) (env : Env) (pkt : List UInt8) (control : Bool) {w : World}
    (h : Receives w.conv) : Copes L env pkt control w ↔ Fits L pkt control w.conv := by
  have hdrop (w : World) : (do freeb .packet; return none : InputM (Option (Id × Block))).wp
      (Settled pkt) (Stops pkt) { world := w } := by
    exact (settled_none_iff rfl).mpr rfl
  have hstate : (w.map fun c => { c with
      lstats := { c.lstats with inPackets := incr c.lstats.inPackets } }).conv.state = .cOpen :=
    h.state
  rw [Copes, Fits, conviput]
  simp only [wp_bind, wp_under_count]
  by_cases hshort : pkt.length < 4
  · have hblen : (Block.ofList pkt).blen < 4 := by simpa [Block.blen, Block.ofList] using hshort
    rw [if_pos hblen, wp_bind, wp_under_count]
    exact iff_of_true (hdrop _) fun hlen => absurd hlen (not_le.mpr hshort)
  have hfour : 4 ≤ pkt.length := not_lt.mp hshort
  have hblen : ¬(Block.ofList pkt).blen < 4 := by simpa [Block.blen, Block.ofList] using hshort
  have hone : (Block.ofList pkt).rp + 1 ≤ (Block.ofList pkt).buf.length := by
    change 0 + 1 ≤ pkt.length
    omega
  rw [if_neg hblen, forall_prop_of_true hfour, wp_bind, wp_touch, if_pos hone]
  by_cases htype : pktType pkt = TConnect
  · rw [if_pos (by exact htype)]
    refine iff_of_true ?_ fun hne => absurd htype hne
    rw [wp_bind]
    exact ends_conviconnect (by exact h.setStats _) rfl rfl le_rfl
  · rw [if_neg (by exact htype), forall_prop_of_true htype]
    simp only [wp_bind, wp_under_getConv, hstate]
    refine (settled_conviputSeq_iff (by exact h.setStats _) rfl rfl hfour).trans ?_
    exact imp_congr_right fun _ => opens_congr

end

/-! ### Setting up -/

/-- Another cipher, and no authenticator, leave an open conversation to receive packets. -/
theorem receives_setcipher (L : Libsec) (env : Env) (a : Cipheralg) {c : Conv}
    (hstate : c.state = .cOpen) (hchan : c.chan = true) (href : 1 < c.ref)
    (hcomp : c.inp.comp ≠ none → c.CompReady)
    (hslot : ∀ ut, c.inp.compstate = some (.unthwack ut) → ut.slot < DWinBlocks) :
    Receives (setcipher L env a (setauth L .null c)) := by
  cases a <;> refine ⟨hstate, hchan, href, rfl, ?_, hcomp, hslot⟩
  · exact ⟨rfl, rfl⟩
  all_goals exact ⟨⟨_, rfl, trivial⟩, rfl⟩

/-- An open conversation with DES and no authenticator. -/
def desConv : Conv :=
  setcipher Libsec.null {} .des_56_cbc
    (setauth Libsec.null .null { state := .cOpen, chan := true, ref := 2 })

theorem receives_desConv : Receives desConv :=
  receives_setcipher _ _ _ rfl rfl (by decide) (fun h => absurd rfl h) nofun

/-- A packet of data that is shorter than a block is refused and freed. -/
theorem conviput_copes_short :
    Receives (World.conv { conv := desConv }) ∧
      Copes Libsec.null {} [0x20, 0, 0, 1, 0x41] false { conv := desConv } :=
  ⟨receives_desConv,
    (conviput_copes_iff Libsec.null {} [0x20, 0, 0, 1, 0x41] false receives_desConv).mpr
      fun _ _ _ => ⟨fun _ => .inl (by decide), fun _ h => by cases h⟩⟩

theorem ragged_outside : (conviput Libsec.null {} ([0x20, 0, 0, 1] ++ List.replicate 10 0) false
    { world := { conv := desConv } }).1 matches .error (.panic .outside) := by
  decide +kernel

/-- A packet of ten bytes behind the header: the second block of the text ends outside it. -/
theorem not_copes_ragged :
    ¬∀ (L : Libsec) (env : Env) (pkt : List UInt8) (control : Bool) (w : World),
      Receives w.conv → Copes L env pkt control w := by
  intro h
  have hrun := ragged_outside
  have hcopes := h Libsec.null {} ([0x20, 0, 0, 1] ++ List.replicate 10 0) false
    { conv := desConv } receives_desConv
  unfold Copes Kern.wp at hcopes
  generalize conviput Libsec.null {} ([0x20, 0, 0, 1] ++ List.replicate 10 0) false
    { world := { conv := desConv } } = r at hrun hcopes
  obtain ⟨(msg | why) | b, s⟩ := r
  · simp at hrun
  · exact not_stops_panic hcopes
  · simp at hrun

end PlanNine.Sdp.Input
