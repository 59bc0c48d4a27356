import PlanNine.Port.Sdp.Lifecycle

/-!
# What a conversation hands to its readers

`conviput` hands the block of a data packet to its caller and leaves a control message for
`readcontrol`. In the state `COpen` it does so for genuine packets only. In the states `CInit` and
`CDial` it answers with a reset, closes the conversation and goes on with the packet; it goes on
with it in `CClosed`, too, under whatever authenticator the conversation has been left with.

## Main definitions

* `Hands`: a call hands out a block or a control message.
* `Passes`: a packet passes the checks of `conviput` behind the one of the state.
* `OnlyOpen`: what is handed out is genuine and comes in an open conversation.

## Main results

* `hands_conviputSeq`: the packets handed out are those that pass the checks.
* `onlyOpen_iff`: the states and packets for which only an open conversation hands out.
-/

namespace PlanNine.Sdp

open Kern

variable {L : Libsec} {env : Env}

/-! ### Routines that hand out nothing -/

/-- A routine that leaves no control message. -/
abbrev Silent {α : Type} (m : ConvM α) : Prop := Leaves World.handed m

theorem silent_getConv : Silent getConv := .bind .get fun _ => .pure _

theorem silent_setConv {f : Conv → Conv} : Silent (setConv f) := .modify fun _ => rfl

/-- Closing changes the conversation only. -/
theorem leaves_convclose {τ : Type} {p : World → τ} (hp : ∀ f w, p (World.map f w) = p w) :
    Leaves p convclose := by
  have hget : Leaves p getConv := .bind .get fun _ => .pure _
  have hset {f : Conv → Conv} : Leaves p (setConv f) := .modify fun w => hp f w
  have hderef : Leaves p convderef :=
    .bind hset fun _ => .bind hget fun _ => .ite (fun _ => .pure ()) fun _ =>
      .bind (.assert _ _) fun _ => .bind (.assert _ _) fun _ => .bind (.assert _ _) fun _ => hset
  exact .bind hget fun _ => .ite (fun _ => .bind hderef fun _ => hset) fun _ => hset

theorem silent_convclose : Silent convclose := leaves_convclose fun _ _ => rfl

theorem silent_convwriteblock {b : List UInt8} : Silent (convwriteblock env b) := by
  refine .bind .get fun w => .bind (.modify fun _ => rfl) fun _ => .ite (fun _ => .pure ())
    fun _ => .bind (.assert _ _) fun _ => .ite (fun _ => ?_) fun _ => .modify fun _ => rfl
  exact .bind silent_convclose fun _ => .bind (.error _) fun _ => .modify fun _ => rfl

theorem silent_convoconnect {op dialid acceptid : ℕ} :
    Silent (convoconnect env op dialid acceptid) :=
  .bind silent_setConv fun _ => .bind silent_getConv fun _ => .bind (.assert _ _) fun _ =>
    .waserror silent_convwriteblock fun _ => .pure ()

theorem silent_conreset {dialid acceptid : ℕ} : Silent (conreset env dialid acceptid) :=
  .bind silent_convoconnect fun _ => silent_convclose

theorem silent_convoput {type subtype : ℕ} {b : List UInt8} :
    Silent (convoput L env type subtype b) := by
  refine .bind (.modify fun _ => rfl) fun _ => .bind silent_setConv fun _ =>
    .bind silent_getConv fun c => ?_
  cases encode L c.out type subtype b (List.replicate c.out.cipherivlen 0) with
  | none => exact .panic _
  | some r => exact .bind silent_setConv fun _ => silent_convwriteblock

theorem silent_convack : Silent (convack L env) := .bind silent_getConv fun _ => silent_convoput

theorem silent_convsetstate {s : ConvState} : Silent (convsetstate L env s) := by
  have hretry : Silent (convretryinit env) := silent_setConv
  unfold convsetstate
  refine .bind silent_getConv fun c => ?_
  cases s with
  | cFree | cInit => exact .panic _
  | cDial | cAccept =>
      exact .bind (.assert _ _) fun _ => .bind silent_setConv fun _ => .bind hretry fun _ =>
        .bind silent_convoconnect fun _ => silent_setConv
  | cOpen =>
      refine .bind (.assert _ _) fun _ => .bind silent_setConv fun _ =>
        .ite (fun _ => .bind hretry fun _ => .bind silent_convoconnect fun _ => ?_) fun _ => ?_
      all_goals exact .bind silent_setConv fun _ => .bind silent_setConv fun _ => silent_setConv
  | cLocalClose =>
      exact .bind (.assert _ _) fun _ => .bind hretry fun _ =>
        .bind silent_convoconnect fun _ => silent_setConv
  | cRemoteClose => exact silent_setConv
  | cClosed => exact silent_convclose

theorem silent_conviconnect {subtype : ℕ} {b : Block} : Silent (conviconnect L env subtype b) := by
  unfold conviconnect conviconnectIds
  refine .ite (fun _ => .pure ()) fun _ => .ite (fun _ => silent_convclose) fun _ =>
    .bind silent_getConv fun c => .ite (fun _ => .panic _) fun _ =>
      .ite (fun _ => silent_conreset) fun _ => .ite (fun _ => ?_) fun _ => .ite (fun _ => ?_)
        fun _ => .ite (fun _ => ?_) fun _ => .ite (fun _ => ?_) fun _ => .ite (fun _ => ?_)
          fun _ => silent_conreset
  · cases c.state with
    | cInit => exact .bind silent_setConv fun _ => silent_convsetstate
    | cAccept | cOpen => exact .pure ()
    | _ => exact silent_conreset
  · cases c.state with
    | cDial => exact .bind silent_setConv fun _ => silent_convsetstate
    | cOpen => exact silent_convoconnect
    | _ => exact silent_conreset
  · cases c.state with
    | cAccept => exact silent_convsetstate
    | cOpen | cLocalClose | cRemoteClose => exact .pure ()
    | _ => exact silent_conreset
  · cases c.state with
    | cOpen => exact .bind silent_convoconnect fun _ => silent_convsetstate
    | cRemoteClose => exact silent_convoconnect
    | _ => exact silent_conreset
  · cases c.state with
    | cLocalClose => exact silent_convclose
    | _ => exact silent_conreset

/-! ### What is handed out -/

/-- The call returns a block, or leaves a control message. -/
def Hands (m : ConvM (Option Block)) (w : World) : Prop :=
  (∃ b, (m w).1 = .ok (some b)) ∨ (m w).2.handed ≠ w.handed

theorem not_hands_iff {m : ConvM (Option Block)} {w : World} :
    ¬ Hands m w ↔ m.wp (fun r w' => r = none ∧ w'.handed = w.handed)
      (fun _ w' => w'.handed = w.handed) w := by
  unfold Hands wp
  rcases m w with ⟨e | b, w'⟩
  · simp
  · cases b <;> simp

theorem not_hands_of_silent {m : ConvM Unit} {w : World} (hm : Silent m) :
    ¬ Hands (m >>= fun _ => pure none) w := by
  rw [not_hands_iff, wp_bind]
  exact wp_mono (hm.wp_self w) (fun _ _ h => ⟨rfl, h⟩) fun _ _ h => h

/-- The first half of a call that hands out nothing itself. -/
theorem hands_bind {α : Type} {m : ConvM α} {f : α → ConvM (Option Block)} {w w' : World} {a : α}
    (hm : m w = (.ok a, w')) (hw : w'.handed = w.handed) :
    Hands (m >>= f) w ↔ Hands (f a) w' := by
  rw [← not_iff_not, not_hands_iff, not_hands_iff, wp_bind]
  unfold wp
  rw [hm]
  simp only [hw]

theorem hands_setConv_bind {f : Conv → Conv} {m : ConvM (Option Block)} {w : World} :
    Hands (setConv f >>= fun _ => m) w ↔ Hands m (w.map f) :=
  hands_bind rfl rfl

theorem hands_count_bind {f : Stats → Stats} {m : ConvM (Option Block)} {w : World} :
    Hands (count f >>= fun _ => m) w ↔ Hands m (w.map fun c => { c with lstats := f c.lstats }) :=
  hands_setConv_bind

theorem hands_getConv_bind {m : Conv → ConvM (Option Block)} {w : World} :
    Hands (getConv >>= m) w ↔ Hands (m w.conv) w :=
  hands_bind rfl rfl

@[simp] theorem hands_pure_some {b : Block} {w : World} : Hands (pure (some b)) w :=
  .inl ⟨b, rfl⟩

@[simp] theorem not_hands_pure_none {w : World} : ¬ Hands (pure none) w := by
  simp [not_hands_iff]

@[simp] theorem not_hands_panic {p : Panic} {w : World} : ¬ Hands (panic p) w := by
  simp [not_hands_iff]

/-! ### The checks behind the state -/

/-- The packet is a new control message. -/
def NewControl (ow : OneWay) (subtype : ℕ) (b : Block) : Prop :=
  subtype = ControlMesg ∧ 4 < b.blen ∧ nhgetl b.data = incr ow.controlseq

/-- The compressor makes a block of the bytes. -/
def Decompresses (c : Conv) (subtype seq : ℕ) (b : Block) : Prop :=
  c.inp.comp ≠ none ∧ ∃ c' b', thwackuncomp c subtype seq b = some (c', some b')

/-- The packet is one that `conviput` hands out when it is good. -/
def Meant (c : Conv) (type subtype seq : ℕ) (control : Bool) (b : Block) : Prop :=
  type = TControl ∧ NewControl c.inp subtype b ∨
    control = false ∧ (type = TData ∨ type = TCompData ∧ Decompresses c subtype seq b)

theorem incr_ne_self (x : ℕ) : incr x ≠ x := by
  unfold incr
  omega

theorem hands_convicontrol {subtype : ℕ} {b : Block} {w : World} :
    Hands (convicontrol L env subtype b >>= fun _ => pure none) w ↔
      NewControl w.conv.inp subtype b := by
  by_cases hnew : NewControl w.conv.inp subtype b
  · obtain ⟨rfl, hlen, hseq⟩ := hnew
    refine ⟨fun _ => ⟨rfl, hlen, hseq⟩, fun _ => not_not.mp fun hq => ?_⟩
    have h4 : ¬ b.blen < 4 := by omega
    have hne : ¬ incr w.conv.inp.controlseq = w.conv.inp.controlseq := incr_ne_self _
    have hblen : ¬ ({ b with rp := b.rp + 4 } : Block).blen = 0 := by
      simp only [Block.blen] at *
      omega
    rw [not_hands_iff] at hq
    simp [convicontrol, handControl, wp_getConv, h4, hseq, hne, hblen, ControlMesg] at hq
  · refine ⟨fun hh => absurd hh (not_hands_iff.mpr ?_), fun h => absurd h hnew⟩
    have hack : ∀ w' : World, w'.handed = w.handed →
        (convack L env).wp (fun _ w'' => w''.handed = w.handed)
          (fun _ w'' => w''.handed = w.handed) w' := fun w' h' =>
      wp_mono (silent_convack.wp_self w') (fun _ _ h => h.trans h') fun _ _ h => h.trans h'
    simp only [convicontrol, wp_bind, wp_ite, wp_pure, wp_getConv, wp_setConv, true_and]
    split_ifs with hlen hmesg hold hpkt hseq hblen
    · exact hack _ rfl
    · exact hack _ rfl
    · refine absurd ⟨hmesg, ?_, not_not.mp hseq⟩ hnew
      simp only [Block.blen] at *
      omega
    · rfl

/-- Decompression looks at the two directions of a conversation only. -/
theorem decompresses_congr {c c' : Conv} {subtype seq : ℕ} {b : Block}
    (hcomp : c'.inp.comp = c.inp.comp) (hi : c'.inp.compstate = c.inp.compstate)
    (ho : c'.out.compstate = c.out.compstate) :
    Decompresses c' subtype seq b ↔ Decompresses c subtype seq b := by
  unfold Decompresses thwackuncomp
  rw [hcomp, hi, ho]
  split_ifs
  · cases c.out.compstate with
    | none => simp
    | some st => cases st <;> simp
  · cases c.inp.compstate with
    | none => simp
    | some st =>
        cases st with
        | thwack tw => simp
        | unthwack ut =>
            cases c.out.compstate with
            | none => simp
            | some st =>
                cases st with
                | unthwack ut => simp
                | thwack tw =>
                    dsimp only
                    split <;> simp
  · simp

theorem meant_congr {c c' : Conv} {type subtype seq : ℕ} {control : Bool} {b : Block}
    (hseq : c'.inp.controlseq = c.inp.controlseq) (hcomp : c'.inp.comp = c.inp.comp)
    (hi : c'.inp.compstate = c.inp.compstate) (ho : c'.out.compstate = c.out.compstate) :
    Meant c' type subtype seq control b ↔ Meant c type subtype seq control b := by
  unfold Meant NewControl
  rw [decompresses_congr hcomp hi ho, hseq]

theorem convicomp_apply (subtype seq : ℕ) (b : Block) (w : World) :
    convicomp subtype seq b w =
      match w.conv.inp.comp with
      | none => (.ok none, w)
      | some _ =>
          match thwackuncomp w.conv subtype seq b with
          | none => (.error (.panic .nilalg), w)
          | some (c, b) => (.ok b, w.map fun _ => c) := by
  change (match w.conv.inp.comp with
    | none => (pure none : ConvM (Option Block))
    | some _ =>
        match thwackuncomp w.conv subtype seq b with
        | none => panic .nilalg
        | some (c, b) => setConv (fun _ => c) >>= fun _ => pure b) w = _
  cases w.conv.inp.comp with
  | none => rfl
  | some f =>
      dsimp only
      cases thwackuncomp w.conv subtype seq b <;> rfl

/-- A block that comes out of the compressor is handed on, unless the reader process reads it. -/
theorem hands_convicomp {subtype seq : ℕ} {b : Block} {w : World}
    {f : Option Block → ConvM (Option Block)} (hnone : ∀ w, ¬ Hands (f none) w) {p : Prop}
    (hsome : ∀ b w, Hands (f (some b)) w ↔ p) :
    Hands (convicomp subtype seq b >>= f) w ↔ p ∧ Decompresses w.conv subtype seq b := by
  have happly := convicomp_apply subtype seq b w
  unfold Decompresses
  cases hcomp : w.conv.inp.comp with
  | none =>
      rw [hcomp] at happly
      rw [hands_bind happly rfl]
      simp [hnone]
  | some g =>
      rw [hcomp] at happly
      dsimp only at happly
      cases hu : thwackuncomp w.conv subtype seq b with
      | none =>
          rw [hu] at happly
          refine ⟨fun h => absurd h (not_hands_iff.mpr ?_), by simp⟩
          rw [wp_bind]
          unfold wp
          rw [happly]
      | some r =>
          obtain ⟨c', _ | b'⟩ := r <;> rw [hu] at happly <;> rw [hands_bind happly rfl]
          · simp [hnone]
          · simp [hsome]

theorem hands_conviputGood {type subtype seq : ℕ} {control : Bool} {b : Block} {w : World} :
    Hands (conviputGood L env type subtype seq control b) w ↔
      Meant w.conv type subtype seq control b := by
  unfold conviputGood
  by_cases hc : type = TControl
  · subst hc
    rw [if_pos rfl, hands_convicontrol]
    simp [Meant, TControl, TData, TCompData]
  rw [if_neg hc]
  by_cases hd : type = TData
  · subst hd
    rw [if_pos rfl, hands_count_bind]
    cases control <;> simp [hands_count_bind, Meant, TControl, TData, TCompData]
  rw [if_neg hd]
  by_cases hz : type = TCompData
  · subst hz
    rw [if_pos rfl, hands_count_bind]
    have hmeant : Meant w.conv TCompData subtype seq control b ↔
        control = false ∧ Decompresses w.conv subtype seq b := by
      simp [Meant, TControl, TData, TCompData]
    rw [hmeant, hands_convicomp (p := control = false)]
    · exact and_congr_right fun _ => decompresses_congr rfl rfl rfl
    · exact fun w => by simp [hands_count_bind]
    · exact fun b w => by cases control <;> simp [hands_count_bind]
  · rw [if_neg hz, hands_count_bind]
    simp [Meant, hc, hd, hz]

/-! ### Packets of a conversation -/

/-- The bytes of a packet behind its header. -/
def pktPayload (pkt : List UInt8) : Block := { Block.ofList pkt with rp := 4 }

/-- The sequence number of a packet. -/
def pktSeq (pkt : List UInt8) : ℕ :=
  (pktBody pkt).byte 0 <<< 16 + (pktBody pkt).byte 1 <<< 8 + (pktBody pkt).byte 2

/-- The packet passes the checks of the authenticator and the cipher and is one to hand out. -/
def Genuine (L : Libsec) (c : Conv) (pkt : List UInt8) (control : Bool) : Prop :=
  ∃ b₁ ow b₂, undoAuth L c.inp (pktPayload pkt) = some (true, b₁) ∧
    undoCipher L c.inp b₁ = some (true, ow, b₂) ∧
    Meant { c with inp := ow } (pktType pkt) (pktSubtype pkt) (pktSeq pkt) control b₂

theorem genuine_congr {c c' : Conv} {pkt : List UInt8} {control : Bool} (hi : c'.inp = c.inp)
    (ho : c'.out = c.out) : Genuine L c' pkt control ↔ Genuine L c pkt control := by
  unfold Genuine
  rw [hi]
  refine exists_congr fun b₁ => exists_congr fun ow => exists_congr fun b₂ =>
    and_congr_right fun _ => and_congr_right fun _ => meant_congr rfl rfl rfl ?_
  rw [ho]

/-- The packet passes all checks behind the one of the state and is one to hand out. -/
def Passes (L : Libsec) (c : Conv) (pkt : List UInt8) (control : Bool) : Prop :=
  (seqCheck c.inp (guess c.inp (pktSeq pkt)).2 = .reorder ∨
    seqCheck c.inp (guess c.inp (pktSeq pkt)).2 = .new) ∧ Genuine L c pkt control

theorem accept_controlseq (ow : OneWay) (missing seq seqwrap : ℕ) (seqdiff : ℤ) :
    (accept ow missing seq seqwrap seqdiff).1.controlseq = ow.controlseq := by
  unfold accept
  split <;> rfl

theorem accept_comp (ow : OneWay) (missing seq seqwrap : ℕ) (seqdiff : ℤ) :
    (accept ow missing seq seqwrap seqdiff).1.comp = ow.comp := by
  unfold accept
  split <;> rfl

theorem accept_compstate (ow : OneWay) (missing seq seqwrap : ℕ) (seqdiff : ℤ) :
    (accept ow missing seq seqwrap seqdiff).1.compstate = ow.compstate := by
  unfold accept
  split <;> rfl

theorem hands_conviputAuth {pkt : List UInt8} {seqwrap : ℕ} {seqdiff : ℤ} {control : Bool}
    {w : World} :
    Hands (conviputAuth L env (pktType pkt) (pktSubtype pkt) (pktSeq pkt) seqwrap seqdiff control
      (pktPayload pkt)) w ↔ Genuine L w.conv pkt control := by
  unfold conviputAuth Genuine
  rw [hands_getConv_bind]
  cases undoAuth L w.conv.inp (pktPayload pkt) with
  | none => simp
  | some r =>
      obtain ⟨_ | _, b₁⟩ := r
      · simp [hands_count_bind]
      dsimp only
      cases hci : undoCipher L w.conv.inp b₁ with
      | none => simp [hci]
      | some r =>
          obtain ⟨_ | _, ow, b₂⟩ := r
          · simp [hci, hands_setConv_bind, hands_count_bind]
          · dsimp only
            rw [hands_setConv_bind, hands_conviputGood]
            refine Iff.trans (b := Meant { w.conv with inp := ow } _ _ _ _ b₂)
              (meant_congr ?_ ?_ ?_ rfl) (by simp [hci])
            · exact accept_controlseq ow ..
            · exact accept_comp ow ..
            · exact accept_compstate ow ..

theorem hands_conviputSeq {pkt : List UInt8} {control : Bool} {w : World} :
    Hands (conviputSeq L env (pktType pkt) (pktSubtype pkt) control (pktBody pkt)) w ↔
      Passes L w.conv pkt control := by
  unfold conviputSeq Passes
  rw [hands_getConv_bind]
  dsimp only
  rw [show (pktBody pkt).byte 0 <<< 16 + (pktBody pkt).byte 1 <<< 8 + (pktBody pkt).byte 2 =
    pktSeq pkt from rfl]
  cases seqCheck w.conv.inp (guess w.conv.inp (pktSeq pkt)).2 with
  | old | dup => simp [hands_count_bind]
  | reorder =>
      dsimp only
      rw [hands_count_bind]
      refine hands_conviputAuth.trans ?_
      simp only [true_or, true_and]
      exact genuine_congr rfl rfl
  | new =>
      refine hands_conviputAuth.trans ?_
      simp

/-! ### Only in an open conversation -/

/-- The authenticator of a direction, if there is one, finds the packet genuine. -/
def MacVerified (L : Libsec) (ow : OneWay) (pkt : List UInt8) : Prop :=
  ∀ f, ow.auth = some f → ∃ t, f.run L ow pkt = some (true, t)

/-- A packet that is handed out comes in an open conversation and is genuine. -/
def OnlyOpen (L : Libsec) (env : Env) (c : Conv) (pkt : List UInt8) (control : Bool) : Prop :=
  Hands (conviput L env pkt control) { conv := c } → c.state = .cOpen ∧ MacVerified L c.inp pkt

/-- The conversation that a reset leaves behind; freed first when nobody else holds it. -/
def afterReset (c : Conv) : Conv :=
  if 1 < c.ref then closed c else { cleared (dropRef c) with state := .cClosed }

/-- A reset is sent and the conversation closed without a stop of the machine. -/
def Resets (c : Conv) : Prop :=
  c.chan = true ∧ (1 < c.ref ∨ c.ref = 1 ∧ c.dataopen = 0 ∧ c.controlopen = 0)

/-- The conversation is not open, and nothing keeps `conviput` from handing out the packet. -/
def SlipsThrough (L : Libsec) (c : Conv) (pkt : List UInt8) (control : Bool) : Prop :=
  4 ≤ pkt.length ∧ pktType pkt ≠ TConnect ∧
    match c.state with
    | .cInit | .cDial => Resets c ∧ Passes L (afterReset c) pkt control
    | .cFree | .cClosed => Passes L c pkt control
    | .cAccept | .cOpen | .cLocalClose | .cRemoteClose => False

theorem macVerified_of_undoAuth {ow : OneWay} {pkt : List UInt8} {b : Block}
    (h : undoAuth L ow (pktPayload pkt) = some (true, b)) : MacVerified L ow pkt := by
  intro f hf
  simp only [undoAuth, hf, Option.map_eq_some_iff, Prod.mk.injEq] at h
  obtain ⟨⟨ok, t⟩, hrun, hok, -⟩ := h
  simp only [pktPayload, Block.ofList, List.take_length] at hrun
  obtain rfl : ok = true := hok
  exact ⟨t, hrun⟩

theorem passes_congr {c c' : Conv} {pkt : List UInt8} {control : Bool} (hi : c'.inp = c.inp)
    (ho : c'.out = c.out) : Passes L c' pkt control ↔ Passes L c pkt control := by
  unfold Passes
  rw [genuine_congr hi ho, hi]

/-- Closing in general: somebody else holds the conversation, or it is freed first, or the machine
stops. -/
theorem wp_convclose {Q : Unit → World → Prop} {E : Stop Panic → World → Prop} {w : World}
    (hs : w.conv.state ≠ .cClosed) :
    convclose.wp Q E w ↔
      if 1 < w.conv.ref ∨ w.conv.ref = 1 ∧ w.conv.dataopen = 0 ∧ w.conv.controlopen = 0 then
        Q () (w.map afterReset)
      else E (.panic .convderef) (w.map dropRef) := by
  by_cases href : 1 < w.conv.ref
  · rw [if_pos (.inl href), wp_convclose_of_held (.inr href)]
    simp only [World.map, afterReset, href, if_true]
  by_cases hlast : w.conv.ref = 1 ∧ w.conv.dataopen = 0 ∧ w.conv.controlopen = 0
  · rw [if_pos (.inr hlast)]
    simp only [convclose, wp_bind, wp_getConv, wp_ite, hs, ne_eq, not_false_eq_true, if_true,
      wp_convderef_of_last hlast.1 hlast.2.1 hlast.2.2, wp_setConv]
    simp only [World.map, afterReset, href, if_false]
  · rw [if_neg (not_or.mpr ⟨href, hlast⟩)]
    have h0 : ¬ 0 < w.conv.ref - 1 := by omega
    simp only [convclose, convderef, wp_bind, wp_getConv, wp_ite, hs, ne_eq, not_false_eq_true,
      if_true, wp_setConv, World.conv_map, dropRef, wp_pure, h0, if_false, wp_assert,
      decide_eq_true_eq]
    by_cases h1 : w.conv.ref - 1 = 0
    · by_cases h2 : w.conv.dataopen = 0
      · have h3 : ¬ w.conv.controlopen = 0 := fun h3 => hlast ⟨by omega, h2, h3⟩
        simp only [h1, h2, h3, if_true, if_false]
      · simp only [h1, h2, if_true, if_false]
    · simp only [h1, if_false]

theorem closed_of_closed {c : Conv} (h : c.state = .cClosed) : closed c = c := by
  cases c
  simp_all [closed]

/-- What a reset leaves. -/
theorem wp_conreset (env : Env) (dialid acceptid : ℕ) {w : World} (hs : w.conv.state ≠ .cClosed) :
    (conreset env dialid acceptid).wp
      (fun _ w' => Resets w.conv ∧ w'.conv = afterReset (countOut w.conv) ∧ w'.handed = w.handed)
      (fun _ w' => ¬ Resets w.conv ∧ w'.handed = w.handed) w := by
  simp only [conreset, wp_bind]
  rw [wp_convoconnect]
  by_cases hc : w.conv.chan = true
  swap
  · rw [if_neg hc]
    exact ⟨fun hr => hc hr.1, rfl⟩
  rw [if_pos hc]
  have hclosed : (afterReset (countOut w.conv)).state = .cClosed := by
    unfold afterReset
    split <;> rfl
  refine ⟨fun _ => ?_, fun _ => ?_⟩
  · refine (wp_convclose (by exact hs)).mpr ?_
    split
    · exact ⟨⟨hc, ‹_›⟩, rfl, rfl⟩
    · exact ⟨fun hr => absurd hr.2 ‹_›, rfl⟩
  · refine (wp_convclose (by exact hs)).mpr ?_
    split
    · refine (wp_convclose_of_held (.inl hclosed)).mpr ?_
      exact ⟨⟨hc, ‹_›⟩, closed_of_closed hclosed, rfl⟩
    · exact ⟨fun hr => absurd hr.2 ‹_›, rfl⟩

theorem afterReset_inp (c : Conv) : (afterReset c).inp = if 1 < c.ref then c.inp else {} := by
  unfold afterReset
  split <;> rfl

theorem afterReset_out (c : Conv) : (afterReset c).out = if 1 < c.ref then c.out else {} := by
  unfold afterReset
  split <;> rfl

/-- The packet after a reset is checked against what the reset has left. -/
theorem hands_conreset_bind {pkt : List UInt8} {control : Bool} {dialid acceptid : ℕ} {w : World}
    (hs : w.conv.state ≠ .cClosed) :
    Hands (conreset env dialid acceptid >>= fun _ =>
        conviputSeq L env (pktType pkt) (pktSubtype pkt) control (pktBody pkt)) w ↔
      Resets w.conv ∧ Passes L (afterReset w.conv) pkt control := by
  have hspec := wp_conreset env dialid acceptid hs
  unfold wp at hspec
  rcases hr : conreset env dialid acceptid w with ⟨e | a, w'⟩
  · rw [hr] at hspec
    refine ⟨fun h => absurd h (not_hands_iff.mpr ?_), fun h => absurd h.1 hspec.1⟩
    rw [wp_bind]
    unfold wp
    rw [hr]
    exact hspec.2
  · rw [hr] at hspec
    obtain ⟨hres, hconv, hhanded⟩ := hspec
    rw [hands_bind hr hhanded, hands_conviputSeq, hconv]
    refine (passes_congr (c := afterReset w.conv) ?_ ?_).trans (by simp [hres])
    · rw [afterReset_inp, afterReset_inp]
      rfl
    · rw [afterReset_out, afterReset_out]
      rfl

/-- What `conviput` hands out. -/
theorem hands_conviput {c : Conv} {pkt : List UInt8} {control : Bool} :
    Hands (conviput L env pkt control) { conv := c } ↔
      c.state = .cOpen ∧ 4 ≤ pkt.length ∧ pktType pkt ≠ TConnect ∧ Passes L c pkt control ∨
        SlipsThrough L c pkt control := by
  unfold conviput SlipsThrough
  rw [hands_count_bind]
  by_cases hlen : pkt.length < 4
  · rw [if_pos (by simpa [Block.blen, Block.ofList] using hlen), hands_count_bind]
    simp [show ¬ 4 ≤ pkt.length by omega]
  rw [if_neg (by simpa [Block.blen, Block.ofList] using hlen)]
  by_cases htype : pktType pkt = TConnect
  · rw [if_pos (by exact htype)]
    simp only [htype, ne_eq, not_true, false_and, and_false, or_self, iff_false]
    exact not_hands_of_silent silent_conviconnect
  rw [if_neg (by exact htype), hands_getConv_bind]
  simp only [show 4 ≤ pkt.length by omega, htype, ne_eq, not_false_eq_true, true_and]
  have hseq (w : World) : Hands (conviputSeq L env ((Block.ofList pkt).byte 0 >>> 4)
      ((Block.ofList pkt).byte 0 &&& 0xf) control { Block.ofList pkt with rp := 0 + 1 }) w ↔
        Passes L w.conv pkt control := hands_conviputSeq
  simp only [World.conv_map]
  cases hs : c.state with
  | cInit | cDial =>
      dsimp only
      rw [hands_count_bind]
      refine (hands_conreset_bind (by simp [hs])).trans ?_
      simp only [reduceCtorEq, false_and, false_or]
      refine and_congr Iff.rfl (passes_congr ?_ ?_)
      · rw [afterReset_inp, afterReset_inp]
        rfl
      · rw [afterReset_out, afterReset_out]
        rfl
  | cAccept | cLocalClose | cRemoteClose => simp [hands_count_bind]
  | cOpen =>
      simp only [true_and, or_false]
      exact (hseq _).trans (passes_congr rfl rfl)
  | cFree | cClosed =>
      simp only [reduceCtorEq, false_and, false_or]
      exact (hseq _).trans (passes_congr rfl rfl)

/-- Only an open conversation hands out packets, genuine ones, exactly when none slips through
another state. -/
theorem onlyOpen_iff (c : Conv) (pkt : List UInt8) (control : Bool) :
    OnlyOpen L env c pkt control ↔ ¬ SlipsThrough L c pkt control := by
  unfold OnlyOpen
  rw [hands_conviput]
  constructor
  · intro h hslip
    have hopen := (h (.inr hslip)).1
    simp [SlipsThrough, hopen] at hslip
  · rintro hslip (⟨hopen, -, -, -, hgen⟩ | h)
    · obtain ⟨b₁, -, -, hauth, -⟩ := hgen
      exact ⟨hopen, macVerified_of_undoAuth hauth⟩
    · exact absurd h hslip

/-- A conversation is cloned and waits for a call, and its data file is opened. The first packet
that comes in, of one byte of data, is handed out though nobody has called. -/
theorem not_onlyOpen_waiting :
    ∃ d, Run (Step Libsec.null) (fun _ _ => True) {} d ∧
      ∃ s ∈ d.conv, ¬ OnlyOpen Libsec.null {} s.conv [0x20, 0, 0, 1, 0x41] false := by
  refine ⟨_, .snoc (.snoc (.snoc .nil (e := ({}, .clone "u" fun _ => false)) trivial rfl)
    (e := ({}, .call 0 (.ctl ["accept", "/net/udp/0/data"]))) trivial rfl)
    (e := ({}, .call 0 (.open .Qdata "u" 0))) trivial rfl, _, List.mem_singleton.mpr rfl, ?_⟩
  refine fun h => absurd (h (.inl ⟨⟨[0x20, 0, 0, 1, 0x41], 4, 5⟩, rfl⟩)).1 ?_
  decide

end PlanNine.Sdp
