import Mathlib.Tactic
import PlanNine.Port.Sdp.Delivery

/-!
# What a conversation makes of a packet

A conversation in `COpen` whose state holds one of several references keeps its inbound direction
whatever it answers and whatever becomes of its answers. What it makes of a data packet is decided
by that direction alone: `judge`.

## Main definitions

* `OneWay.wire`: the part of a direction that packets are checked against.
* `Hearing`: the conversations that take data packets and are not freed by closing.
* `slide`: the direction after a packet found good.
* `judge`: the direction after a packet, and whether it is accepted.
* `returned`: the block that a packet of data is worth.

## Main results

* `accept_fst`: the loop that moves the window shifts it.
* `wp_conviput_returns`, `wp_conviput_open`: `conviput` does what `judge` and `returned` say.
-/

namespace PlanNine.Sdp

open Kern

variable {L : Libsec} {env : Env}

/-! ### Frames of the algorithms -/

/-- A cipher changes its own state only. -/
theorem run_cipher_frame {f : CipherFn} {ow ow' : OneWay} {p q : List UInt8} {n : ℤ} {ok : Bool}
    (h : f.run L ow p n = some (ok, ow', q)) : ∃ st, ow' = { ow with cipherstate := st } := by
  have hself : ∃ st, ow = { ow with cipherstate := st } := ⟨ow.cipherstate, rfl⟩
  have hfail (h : some (false, ow, p) = some (ok, ow', q)) :
      ∃ st, ow' = { ow with cipherstate := st } := by
    simp only [Option.some.injEq, Prod.mk.injEq] at h
    exact h.2.1 ▸ hself
  cases f <;> simp only [CipherFn.run, desencrypt, desdecrypt, rc4encrypt, rc4decrypt] at h <;>
    (split at h <;> [exact hfail h; skip]) <;> (split at h <;> [skip; simp at h]) <;>
    (try split_ifs at h) <;> simp only [Option.some.injEq, Prod.mk.injEq] at h <;>
    obtain ⟨-, rfl, -⟩ := h <;> first | exact hself | exact ⟨_, rfl⟩

theorem undoCipher_frame {ow ow' : OneWay} {b b' : Block} {ok : Bool}
    (h : undoCipher L ow b = some (ok, ow', b')) : ∃ st, ow' = { ow with cipherstate := st } := by
  unfold undoCipher at h
  cases hf : ow.cipher with
  | none =>
      simp only [hf, Option.some.injEq, Prod.mk.injEq] at h
      exact ⟨ow.cipherstate, by rw [← hf]; exact h.2.1.symm⟩
  | some f =>
      simp only [hf, Option.map_eq_some_iff] at h
      obtain ⟨⟨ok₁, ow₁, p⟩, hrun, heq⟩ := h
      obtain ⟨st, rfl⟩ := run_cipher_frame hrun
      split_ifs at heq <;> simp only [Prod.mk.injEq] at heq <;>
        exact ⟨st, by rw [← hf]; exact heq.2.1.symm⟩

theorem encipher_frame {ow ow' : OneWay} {body c : List UInt8}
    (h : encipher L ow body = some (ow', c)) : ∃ st, ow' = { ow with cipherstate := st } := by
  unfold encipher at h
  split at h
  · simp only [Option.some.injEq, Prod.mk.injEq] at h
    exact ⟨ow.cipherstate, h.1.symm⟩
  · rw [Option.map_eq_some_iff] at h
    obtain ⟨⟨_, _, _⟩, hrun, heq⟩ := h
    obtain ⟨st, rfl⟩ := run_cipher_frame hrun
    simp only [Prod.mk.injEq] at heq
    exact ⟨st, heq.1.symm⟩

/-- A packet moves the sequence number and the state of the cipher on. -/
theorem encode_frame {ow ow' : OneWay} {type subtype : ℕ} {b iv pkt : List UInt8}
    (h : encode L ow type subtype b iv = some (ow', pkt)) :
    ∃ st, ow' = { ow.nextSeq with cipherstate := st } := by
  simp only [encode, Option.bind_eq_bind, Option.bind_eq_some_iff] at h
  obtain ⟨⟨ow₁, c⟩, hc, h⟩ := h
  obtain ⟨st, rfl⟩ := encipher_frame hc
  refine ⟨st, ?_⟩
  dsimp only at h
  split at h
  · simp only [Option.some.injEq, Prod.mk.injEq] at h
    exact h.1.symm
  · simp only [Option.bind_eq_some_iff, Option.some.injEq, Prod.mk.injEq] at h
    obtain ⟨-, -, heq, -⟩ := h
    exact heq.symm

/-! ### The window -/

/-- The loop moves the window as one shift does, though it stops when the window is empty. -/
theorem shiftWindow_window : ∀ (d window missing : ℕ), 0 < d →
    (shiftWindow d window missing).2.1 = (window <<< d) % 4294967296
  | d + 1, window, missing, _ => by
      unfold shiftWindow
      split
      · rename_i hw
        simp [hw]
      · generalize (if window.testBit (SeqWindow - 1) = true then missing else incr missing) = m
        rcases Nat.eq_zero_or_pos d with rfl | hd
        · rfl
        · rw [shiftWindow_window d _ _ hd, Nat.shiftLeft_eq, Nat.shiftLeft_eq, Nat.shiftLeft_eq,
            Nat.mod_mul_mod, mul_assoc, pow_one, pow_succ' 2 d]

/-- The direction after a good packet. -/
def slide (ow : OneWay) (seq seqwrap : ℕ) (seqdiff : ℤ) : OneWay :=
  if 0 < seqdiff then
    { ow with
      seq := seq, seqwrap := seqwrap
      window := (ow.window <<< seqdiff.toNat) % 4294967296 ||| 1 }
  else { ow with window := ow.window ||| 1 <<< (-seqdiff).toNat }

theorem accept_fst (ow : OneWay) (missing seq seqwrap : ℕ) (seqdiff : ℤ) :
    (accept ow missing seq seqwrap seqdiff).1 = slide ow seq seqwrap seqdiff := by
  unfold accept slide
  split_ifs with hd
  · rw [← shiftWindow_window seqdiff.toNat ow.window missing (by omega)]
  · rfl

/-! ### The inbound direction -/

/-- The part of a direction that packets are checked against. -/
def OneWay.wire (ow : OneWay) : OneWay :=
  { ow with controlpkt := none, controlseq := 0, compstate := none }

theorem wire_eq {a b : OneWay} (h : a.wire = b.wire) :
    a.seq = b.seq ∧ a.seqwrap = b.seqwrap ∧ a.window = b.window ∧ a.authlen = b.authlen := by
  simp only [OneWay.wire, OneWay.mk.injEq] at h
  exact ⟨h.2.1, h.1, h.2.2.1, by tauto⟩

/-- The conversation takes data packets, and closing it does not free it. -/
def Hearing (c : Conv) : Prop := c.state = .cOpen ∧ 1 < c.ref ∨ c.state = .cClosed

/-- A conversation that takes data packets, with its inbound direction. -/
def Hears (ow : OneWay) (w : World) : Prop := Hearing w.conv ∧ w.conv.inp.wire = ow

variable {ow : OneWay}

theorem hears_setConv {f : Conv → Conv} (hs : ∀ c, (f c).state = c.state)
    (href : ∀ c, (f c).ref = c.ref) (hi : ∀ c, (f c).inp.wire = c.inp.wire) :
    Maintains (Hears ow) (setConv f) := by
  rintro w ⟨h, hw⟩
  refine ⟨?_, (hi _).trans hw⟩
  simpa only [Hearing, World.conv_map, hs, href] using h

theorem hears_getConv : Maintains (Hears ow) getConv := .bind .get fun _ => .pure _

theorem hears_count {f : Stats → Stats} : Maintains (Hears ow) (count f) :=
  hears_setConv (fun _ => rfl) (fun _ => rfl) fun _ => rfl

theorem Hearing.closed_or_lt {c : Conv} (h : Hearing c) : c.state = .cClosed ∨ 1 < c.ref :=
  h.symm.imp_right And.right

theorem hears_convclose : Maintains (Hears ow) convclose := by
  rintro w ⟨h, hw⟩
  rw [wp_convclose_of_held h.closed_or_lt]
  exact ⟨.inr rfl, hw⟩

theorem hears_convwriteblock {b : List UInt8} : Maintains (Hears ow) (convwriteblock env b) := by
  refine .bind .get fun w => .bind (.modify fun _ h => h) fun _ => .ite (fun _ => .pure ())
    fun _ => .bind (.assert _ _) fun _ => .ite (fun _ => ?_) fun _ => .modify fun _ h => h
  exact .bind hears_convclose fun _ => .bind (.error _) fun _ => .modify fun _ h => h

theorem hears_convoconnect {op dialid acceptid : ℕ} :
    Maintains (Hears ow) (convoconnect env op dialid acceptid) :=
  .bind (hears_setConv (fun _ => rfl) (fun _ => rfl) fun _ => rfl) fun _ =>
    .bind hears_getConv fun _ => .bind (.assert _ _) fun _ =>
      .waserror hears_convwriteblock fun _ => .pure ()

theorem hears_conreset {dialid acceptid : ℕ} :
    Maintains (Hears ow) (conreset env dialid acceptid) :=
  .bind hears_convoconnect fun _ => hears_convclose

theorem hears_convoput {type subtype : ℕ} {b : List UInt8} :
    Maintains (Hears ow) (convoput L env type subtype b) := by
  refine .bind (.modify fun _ h => h) fun _ =>
    .bind (hears_setConv (fun _ => rfl) (fun _ => rfl) fun _ => rfl) fun _ =>
    .bind hears_getConv fun c => ?_
  cases encode L c.out type subtype b (List.replicate c.out.cipherivlen 0) with
  | none => exact .panic _
  | some r =>
      exact .bind (hears_setConv (fun _ => rfl) (fun _ => rfl) fun _ => rfl) fun _ =>
        hears_convwriteblock

theorem hears_convack : Maintains (Hears ow) (convack L env) :=
  .bind hears_getConv fun _ => hears_convoput

theorem hears_convicontrol {subtype : ℕ} {b : Block} :
    Maintains (Hears ow) (convicontrol L env subtype b) := by
  have hset {f : Conv → Conv} (hs : ∀ c, (f c).state = c.state) (href : ∀ c, (f c).ref = c.ref)
      (hi : ∀ c, (f c).inp.wire = c.inp.wire) : Maintains (Hears ow) (setConv f) :=
    hears_setConv hs href hi
  unfold convicontrol
  refine .ite (fun _ => .pure ()) fun _ => .bind hears_getConv fun c => ?_
  refine .ite (fun _ => .ite (fun _ => .ite (fun _ => hears_convack) fun _ => .pure ()) fun _ =>
    .ite (fun _ => .pure ()) fun _ => ?_) fun _ => .ite (fun _ => .ite (fun _ => .pure ()) fun _ =>
      .ite (fun _ => .pure ()) fun _ => hset (fun _ => rfl) (fun _ => rfl) fun _ => rfl)
        fun _ => .pure ()
  refine .bind (hset (fun _ => rfl) (fun _ => rfl) fun _ => rfl) fun _ =>
    .ite (fun _ => hears_convack) fun _ => ?_
  exact .bind (hset (fun _ => rfl) (fun _ => rfl) fun _ => rfl) fun _ => .modify fun _ h => h

theorem thwackuncomp_wire {c c' : Conv} {subtype seq : ℕ} {b : Block} {r : Option Block}
    (h : thwackuncomp c subtype seq b = some (c', r)) : c'.inp.wire = c.inp.wire := by
  unfold thwackuncomp at h
  split_ifs at h
  · cases ho : c.out.compstate with
    | none => simp [ho] at h
    | some st =>
        cases st <;> simp only [ho, Option.some.injEq, Prod.mk.injEq, reduceCtorEq] at h
        obtain ⟨rfl, -⟩ := h
        rfl
  · rcases hi : c.inp.compstate with _ | _ | ut <;>
      rcases ho : c.out.compstate with _ | tw | _ <;> simp only [hi, ho, reduceCtorEq] at h
    split at h
    · obtain ⟨rfl, -⟩ := Option.some.inj h |> Prod.mk.inj
      rfl
    · simp at h
    · obtain ⟨rfl, -⟩ := Option.some.inj h |> Prod.mk.inj
      rfl
  · obtain ⟨rfl, -⟩ := Option.some.inj h |> Prod.mk.inj
    rfl

theorem hears_convicomp {subtype seq : ℕ} {b : Block} :
    Maintains (Hears ow) (convicomp subtype seq b) := by
  intro w h
  unfold wp
  rw [convicomp_apply]
  cases w.conv.inp.comp with
  | none => exact h
  | some f =>
      dsimp only
      cases hu : thwackuncomp w.conv subtype seq b with
      | none => exact h
      | some r =>
          obtain ⟨c', b'⟩ := r
          obtain ⟨href, hs, -, -⟩ := sameRefs_thwackuncomp hu
          refine ⟨?_, (thwackuncomp_wire hu).trans h.2⟩
          simpa only [Hearing, World.conv_map, hs, href] using h.1

theorem wp_convicomp_of_none {subtype seq : ℕ} {b : Block} {Q : Option Block → World → Prop}
    {E : Stop Panic → World → Prop} {w : World} (h : w.conv.inp.comp = none) :
    (convicomp subtype seq b).wp Q E w ↔ Q none w := by
  unfold Kern.wp
  rw [convicomp_apply, h]

/-- What a conversation returns for the block of a good packet that is not compressed. -/
def given (type : ℕ) (control : Bool) (b : Block) : Option Block :=
  if type = TData ∧ control = false then some b else none

theorem given_of_ne {type : ℕ} (h : type ≠ TData) (control : Bool) (b : Block) :
    given type control b = none := if_neg fun hc => h hc.1

theorem wp_conviputGood {type subtype seq : ℕ} {control : Bool} {b : Block} {w : World}
    (h : Hears ow w) :
    (conviputGood L env type subtype seq control b).wp
      (fun r w' => Hears ow w' ∧ ((type = TCompData → ow.comp = none) → r = given type control b))
      (fun _ w' => Hears ow w' ∧ type ≠ TData) w := by
  have hdrop {f : Stats → Stats} {w : World} (hw : Hears ow w) (hne : type ≠ TData) :
      (do count f; return none : ConvM (Option Block)).wp
        (fun r w' => Hears ow w' ∧ ((type = TCompData → ow.comp = none) → r = given type control b))
        (fun _ w' => Hears ow w' ∧ type ≠ TData) w := by
    rw [wp_bind, count, wp_setConv, wp_pure]
    exact ⟨hw, fun _ => (given_of_ne hne control b).symm⟩
  unfold conviputGood
  by_cases hcontrol : type = TControl
  · have hne : type ≠ TData := by rw [hcontrol]; decide
    rw [if_pos hcontrol, wp_bind]
    exact wp_mono (hears_convicontrol w h)
      (fun _ _ h' => ⟨h', fun _ => (given_of_ne hne control b).symm⟩) fun _ _ h' => ⟨h', hne⟩
  rw [if_neg hcontrol]
  by_cases hdata : type = TData
  · rw [if_pos hdata, wp_bind, count, wp_setConv]
    cases control
    · exact ⟨h, fun _ => by rw [given, if_pos ⟨hdata, rfl⟩]⟩
    · exact ⟨h, fun _ => by rw [given, if_neg (by simp)]⟩
  rw [if_neg hdata]
  by_cases hcomp : type = TCompData
  · have hne : type ≠ TData := hdata
    rw [if_pos hcomp, wp_bind, count, wp_setConv, wp_bind]
    by_cases hnone : ow.comp = none
    · have hcomp' : w.conv.inp.comp = none := by
        rw [← hnone, ← h.2]
        rfl
      rw [wp_convicomp_of_none (by exact hcomp')]
      exact hdrop h hne
    · refine wp_mono (hears_convicomp _ h) (fun r w' h' => ?_)
        fun _ _ h' => ⟨h', hne⟩
      cases r with
      | none => exact hdrop h' hne
      | some b' =>
          have hm : Maintains (Hears ow) (do
              count fun s => { s with inDataBytes := ulong (s.inDataBytes + b'.blen) }
              if control then
                count fun s => { s with inBadOther := incr s.inBadOther }
                return none
              return some b' : ConvM (Option Block)) :=
            .bind hears_count fun _ => .ite (fun _ => .bind hears_count fun _ => .pure none)
              fun _ => .pure _
          exact wp_mono (hm w' h') (fun _ _ h'' => ⟨h'', fun hc => absurd (hc hcomp) hnone⟩)
            fun _ _ h'' => ⟨h'', hne⟩
  · rw [if_neg hcomp]
    exact hdrop h hdata

/-! ### The verdict on a packet -/

/-- The direction after the authenticator and the cipher of a packet that the window lets
through, and whether the packet is accepted. -/
def judgeAuth (L : Libsec) (ow : OneWay) (pkt : List UInt8) (g : ℕ × ℤ) : OneWay × Bool :=
  match undoAuth L ow (pktPayload pkt) with
  | some (true, b) =>
      match undoCipher L ow b with
      | some (true, ow, _) => (slide ow (pktSeq pkt) g.1 g.2, true)
      | some (false, ow, _) => (ow, false)
      | none => (ow, false)
  | some (false, _) | none => (ow, false)

/-- The direction after a packet of data, and whether the packet is accepted. -/
def judge (L : Libsec) (ow : OneWay) (pkt : List UInt8) : OneWay × Bool :=
  match seqCheck ow (guess ow (pktSeq pkt)).2 with
  | .old | .dup => (ow, false)
  | .reorder | .new => judgeAuth L ow pkt (guess ow (pktSeq pkt))

/-- The block that the authenticator and the cipher leave of a packet, if it is genuine. -/
def openAuth (L : Libsec) (ow : OneWay) (pkt : List UInt8) : Option Block :=
  match undoAuth L ow (pktPayload pkt) with
  | some (true, b) =>
      match undoCipher L ow b with
      | some (true, _, b) => some b
      | some (false, _, _) | none => none
  | some (false, _) | none => none

/-- What a conversation without a compressor returns for a packet of data. -/
def returned (L : Libsec) (ow : OneWay) (pkt : List UInt8) (control : Bool) : Option Block :=
  match seqCheck ow (guess ow (pktSeq pkt)).2 with
  | .old | .dup => none
  | .reorder | .new => (openAuth L ow pkt).bind (given (pktType pkt) control)

/-- The direction is `ow`, and the block returned is `b` when nothing is compressed. -/
def Returns (type : ℕ) (ow : OneWay) (b : Option Block) (r : Option Block) (w : World) : Prop :=
  Hears ow w ∧ ((type = TCompData → ow.comp = none) → r = b)

/-- The direction is `ow`, and there is no block to return when nothing is compressed. -/
def Fails (type : ℕ) (ow : OneWay) (b : Option Block) (w : World) : Prop :=
  Hears ow w ∧ ((type = TCompData → ow.comp = none) → b = none)

theorem hears_drop (f : Stats → Stats) :
    Maintains (Hears ow) (do count f; return none : ConvM (Option Block)) :=
  .bind hears_count fun _ => .pure none

theorem returns_drop {f : Stats → Stats} {type : ℕ} {w : World} (h : Hears ow w) :
    (do count f; return none : ConvM (Option Block)).wp (Returns type ow none)
      (fun _ => Fails type ow none) w := ⟨h, fun _ => rfl⟩

theorem wp_conviputAuth {pkt : List UInt8} {subtype : ℕ} {control : Bool} {g : ℕ × ℤ}
    {w : World} (h : Hearing w.conv) :
    (conviputAuth L env (pktType pkt) subtype (pktSeq pkt) g.1 g.2 control (pktPayload pkt)).wp
      (Returns (pktType pkt) (judgeAuth L w.conv.inp pkt g).1.wire
        ((openAuth L w.conv.inp pkt).bind (given (pktType pkt) control)))
      (fun _ => Fails (pktType pkt) (judgeAuth L w.conv.inp pkt g).1.wire
        ((openAuth L w.conv.inp pkt).bind (given (pktType pkt) control))) w := by
  simp only [conviputAuth, judgeAuth, openAuth, wp_bind, wp_getConv]
  cases undoAuth L w.conv.inp (pktPayload pkt) with
  | none => exact ⟨⟨h, rfl⟩, fun _ => rfl⟩
  | some r =>
      obtain ⟨_ | _, b⟩ := r
      · exact returns_drop ⟨h, rfl⟩
      dsimp only
      cases undoCipher L w.conv.inp b with
      | none => exact ⟨⟨h, rfl⟩, fun _ => rfl⟩
      | some r =>
          obtain ⟨_ | _, ow, b⟩ := r
          · dsimp only
            rw [wp_bind, wp_setConv]
            exact returns_drop ⟨h, rfl⟩
          · dsimp only
            rw [wp_bind, wp_setConv]
            refine wp_mono (wp_conviputGood ⟨h, congrArg OneWay.wire (accept_fst ..)⟩)
              (fun _ _ h' => h') fun _ _ h' => ⟨h'.1, fun _ => ?_⟩
            exact given_of_ne h'.2 control b

theorem wp_conviputSeq {pkt : List UInt8} {subtype : ℕ} {control : Bool} {w : World}
    (h : Hearing w.conv) :
    (conviputSeq L env (pktType pkt) subtype control (pktBody pkt)).wp
      (Returns (pktType pkt) (judge L w.conv.inp pkt).1.wire
        (returned L w.conv.inp pkt control))
      (fun _ => Fails (pktType pkt) (judge L w.conv.inp pkt).1.wire
        (returned L w.conv.inp pkt control)) w := by
  simp only [conviputSeq, judge, returned, wp_bind, wp_getConv]
  change (match seqCheck w.conv.inp (guess w.conv.inp (pktSeq pkt)).2 with
    | .old => _
    | .dup => _
    | .reorder => _
    | .new => _ : ConvM (Option Block)).wp _ _ w
  cases seqCheck w.conv.inp (guess w.conv.inp (pktSeq pkt)).2 with
  | old | dup => exact returns_drop ⟨h, rfl⟩
  | reorder =>
      dsimp only
      rw [wp_bind, count, wp_setConv]
      exact wp_conviputAuth h
  | new => exact wp_conviputAuth h

/-- A conversation that takes data packets judges each by its inbound direction, and returns what
that makes of it. -/
theorem wp_conviput_returns {pkt : List UInt8} {w : World} (env : Env) (control : Bool)
    (h : Hearing w.conv) (hlen : 4 ≤ pkt.length) (htype : pktType pkt ≠ TConnect) :
    (conviput L env pkt control).wp
      (Returns (pktType pkt) (judge L w.conv.inp pkt).1.wire (returned L w.conv.inp pkt control))
      (fun _ => Fails (pktType pkt) (judge L w.conv.inp pkt).1.wire
        (returned L w.conv.inp pkt control)) w := by
  have hstate : w.conv.state = .cOpen ∨ w.conv.state = .cClosed := h.imp_left And.left
  have hblen : ¬ (Block.ofList pkt).blen < 4 := by
    simpa [Block.blen, Block.ofList] using hlen
  unfold conviput
  rw [wp_bind, count, wp_setConv, if_neg hblen, if_neg (by exact htype), wp_bind, wp_getConv]
  rcases hstate with hs | hs <;> simp only [World.conv_map, hs] <;> exact wp_conviputSeq h

/-- A conversation that takes data packets judges each by its inbound direction. -/
theorem wp_conviput_data {pkt : List UInt8} {control : Bool} {w : World} (h : Hearing w.conv)
    (hlen : 4 ≤ pkt.length) (htype : pktType pkt ≠ TConnect) :
    (conviput L env pkt control).wp (fun _ => Hears (judge L w.conv.inp pkt).1.wire)
      (fun _ => Hears (judge L w.conv.inp pkt).1.wire) w :=
  wp_mono (wp_conviput_returns _ _ h hlen htype) (fun _ _ h' => h'.1) fun _ _ h' => h'.1

/-! ### Open conversations -/

/-- What is left of an open conversation that somebody holds: its inbound direction, and the
references as long as it is open. -/
def Remains (ow : OneWay) (w : World) : Prop :=
  w.conv.inp.wire = ow ∧ (w.conv.state = .cOpen → 1 < w.conv.ref)

theorem Hears.remains {w : World} (h : Hears ow w) : Remains ow w := by
  refine ⟨h.2, fun hs => ?_⟩
  rcases h.1 with h | h
  · exact h.2
  · simp [h] at hs

theorem remains_of_hears {α : Type} {m : ConvM α} (hm : Maintains (Hears ow) m) {w : World}
    (h : Hears ow w) : m.wp (fun _ => Remains ow) (fun _ => Remains ow) w :=
  wp_mono (hm w h) (fun _ _ h' => h'.remains) fun _ _ h' => h'.remains

theorem wp_conviconnect_open {subtype : ℕ} {b : Block} {w : World} (hs : w.conv.state = .cOpen)
    (h : Hears ow w) :
    (conviconnect L env subtype b).wp (fun _ => Remains ow) (fun _ => Remains ow) w := by
  have hrej {dialid acceptid : ℕ} : (conreset env dialid acceptid).wp (fun _ => Remains ow)
      (fun _ => Remains ow) w := remains_of_hears hears_conreset h
  have hcon {op dialid acceptid : ℕ} : (convoconnect env op dialid acceptid).wp
      (fun _ => Remains ow) (fun _ => Remains ow) w := remains_of_hears hears_convoconnect h
  unfold conviconnect conviconnectIds
  simp only [wp_ite, wp_bind, wp_getConv, wp_pure, hs, reduceCtorEq, if_false]
  split_ifs
  · exact h.remains
  · exact remains_of_hears hears_convclose h
  · exact hrej
  · exact h.remains
  · exact hcon
  · exact h.remains
  · refine wp_mono (hears_convoconnect w h) (fun _ w' h' => ?_) fun _ _ h' => h'.remains
    rw [wp_convsetstate_remoteClose]
    exact ⟨h'.2, fun hs' => by simp at hs'⟩
  · exact hrej
  · exact hrej

/-- The verdict of an open conversation on any packet: only packets of data are judged. -/
def verdict (L : Libsec) (ow : OneWay) (pkt : List UInt8) : OneWay × Bool :=
  if pkt.length < 4 ∨ pktType pkt = TConnect then (ow, false) else judge L ow pkt

/-- An open conversation that somebody holds does what the verdict says. -/
theorem wp_conviput_open (L : Libsec) (env : Env) (pkt : List UInt8) (control : Bool) {w : World}
    (hs : w.conv.state = .cOpen) (href : 1 < w.conv.ref) :
    (conviput L env pkt control).wp (fun _ => Remains (verdict L w.conv.inp pkt).1.wire)
      (fun _ => Remains (verdict L w.conv.inp pkt).1.wire) w := by
  have h : Hearing w.conv := .inl ⟨hs, href⟩
  unfold verdict
  by_cases hlen : pkt.length < 4
  · have hblen : (Block.ofList pkt).blen < 4 := by simpa [Block.blen, Block.ofList] using hlen
    rw [if_pos (.inl hlen)]
    unfold conviput
    rw [wp_bind, count, wp_setConv, if_pos hblen]
    exact remains_of_hears (hears_drop _) ⟨h, rfl⟩
  by_cases htype : pktType pkt = TConnect
  · have hblen : ¬ (Block.ofList pkt).blen < 4 := by
      simpa [Block.blen, Block.ofList] using hlen
    rw [if_pos (.inr htype)]
    unfold conviput
    rw [wp_bind, count, wp_setConv, if_neg hblen, if_pos (by exact htype), wp_bind]
    exact wp_conviconnect_open (by exact hs) ⟨h, rfl⟩
  · rw [if_neg (by omega)]
    exact wp_mono (wp_conviput_data h (by omega) htype) (fun _ _ h' => h'.remains)
      fun _ _ h' => h'.remains

end PlanNine.Sdp
