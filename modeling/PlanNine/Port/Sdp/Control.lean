import PlanNine.Lib.Run
import PlanNine.Lib.StopWait
import PlanNine.Port.Sdp.Receive

/-!
# The control channel

Two open conversations exchange control messages and acknowledgements. Each end calls
`writecontrol` and `readcontrol`, runs its timer and takes control packets that the other end has
put on the channel, any of them, in any order and any number of times. Each direction is an
instance of stop and wait: the keepalives of the timer are its pings, and the number of the last
message is `out.controlseq` at one end and `in.controlseq` at the other.

## Main definitions

* `Party`, `Act`: one end and its steps.
* `Exchange`: the two ends, with `Exchange.Step`.
* `Turn`: what a step does to the part of a conversation that the control channel works with.
* `Directs`: an instance of `StopWait` in one direction of the exchange.

## Main results

* `act_turn`: every step is one of the turns, or closes the conversation.
* `turn_sends`, `turn_receives`: a turn is a step of stop and wait, or none, in both directions.
* `returned_prefix_of_run`: the blocks returned are the first messages accepted.
-/

namespace PlanNine.Sdp

open Kern

variable {L : Libsec} {env : Env}

/-! ### The two ends -/

/-- A conversation with what its routines gave to `convoput`, the messages that `writecontrol`
accepted and the blocks that `readcontrol` returned. -/
structure Party where
  conv : Conv
  puts : List (ℕ × ℕ × List UInt8) := []
  accepted : List (List UInt8) := []
  returned : List (List UInt8) := []

/-- The part of a conversation that the control channel works with. -/
structure Control where
  state : ConvState
  outseq : ℕ
  outpkt : Option (List UInt8)
  inseq : ℕ
  inpkt : Option (List UInt8)

def Conv.control (c : Conv) : Control where
  state := c.state
  outseq := c.out.controlseq
  outpkt := c.out.controlpkt
  inseq := c.inp.controlseq
  inpkt := c.inp.controlpkt

/-- A call at one end; an error goes to the caller and changes nothing more. -/
def Party.call {α : Type} (p : Party) (m : ConvM α) (ok : Party → α → Party) : Option Party :=
  match m { conv := p.conv } with
  | (.ok a, w) => some (ok { p with conv := w.conv, puts := p.puts ++ w.puts } a)
  | (.error (.error _), w) => some { p with conv := w.conv, puts := p.puts ++ w.puts }
  | (.error (.panic _), _) => none

/-- The steps of one end. -/
inductive PartyEvent where
  | writecontrol (env : Env) (m : List UInt8)
  | readcontrol (env : Env)
  | timer (env : Env)
  | packet (env : Env) (subtype : ℕ) (b : Block)
  | other (c : Conv)

/-- A step of the end `p`: a call, a control packet of the end `q`, or anything that leaves the
control channel alone. -/
inductive Act (L : Libsec) (p q : Party) : PartyEvent → Party → Prop
  | writecontrol {env : Env} {m : List UInt8} {p' : Party}
      (h : p.call (Sdp.writecontrol L env m) (fun p sent =>
        if sent then { p with accepted := p.accepted ++ [m] } else p) = some p') :
      Act L p q (.writecontrol env m) p'
  | readcontrol {env : Env} {p' : Party}
      (h : p.call (Sdp.readcontrol L env) (fun p b =>
        { p with returned := p.returned ++ b.join.toList }) = some p') :
      Act L p q (.readcontrol env) p'
  | timer {env : Env} {p' : Party} (h : p.call (convtimer L env) (fun p _ => p) = some p') :
      Act L p q (.timer env) p'
  | packet {env : Env} {subtype : ℕ} {b : Block} {p' : Party}
      (hput : (TControl, subtype, b.data) ∈ q.puts) (hlen : b.blen = b.data.length)
      (h : p.call (convicontrol L env subtype b) (fun p _ => p) = some p') :
      Act L p q (.packet env subtype b) p'
  | other {c : Conv} (h : c.control = p.conv.control) : Act L p q (.other c) { p with conv := c }

/-- The two ends. -/
structure Exchange where
  near : Party
  far : Party

/-- A step of one of the two ends. -/
inductive Exchange.Step (L : Libsec) (x : Exchange) : Bool × PartyEvent → Exchange → Prop
  | near {ev : PartyEvent} {p : Party} (h : Act L x.near x.far ev p) :
      Step L x (false, ev) { x with near := p }
  | far {ev : PartyEvent} {p : Party} (h : Act L x.far x.near ev p) :
      Step L x (true, ev) { x with far := p }

/-- The conversation is open, and not all of its numbers are used up. -/
def Party.Open (p : Party) : Prop :=
  p.conv.state = .cOpen ∧ p.conv.out.controlseq + 1 < 4294967296

/-- Both conversations are open, and neither has sent 2^32 messages. -/
def Exchange.Open (x : Exchange) (_ : Bool × PartyEvent) : Prop := x.near.Open ∧ x.far.Open

/-- A conversation that has just come to `COpen`. -/
def Conv.Fresh (c : Conv) : Prop := c.control = ⟨.cOpen, 0, none, 0, none⟩

/-! ### What a step does -/

/-- What a step of one end does to the control part of its conversation, what it puts on the
channel, the messages it accepts and the blocks it returns; `heard` is what the other end has put
on the channel. -/
inductive Turn (heard : List (ℕ × ℕ × List UInt8)) (c : Control) :
    Control → List (ℕ × ℕ × List UInt8) → List (List UInt8) → List (List UInt8) → Prop
  | idle : Turn heard c c [] [] []
  | resend {b : List UInt8} (hpkt : c.outpkt = some b) :
      Turn heard c c [(TControl, ControlMesg, b)] [] []
  | send {m : List UInt8} {acc : List (List UInt8)} (hpkt : c.outpkt = none)
      (hacc : acc = [m] ∨ m = [] ∧ acc = []) :
      Turn heard c
        { c with outseq := incr c.outseq, outpkt := some (hnputl (incr c.outseq) ++ m) }
        [(TControl, ControlMesg, hnputl (incr c.outseq) ++ m)] acc []
  | again {b : List UInt8} (hpkt : c.inpkt = none) (hb : nhgetl b = c.inseq % 4294967296) :
      Turn heard c c [(TControl, ControlAck, b)] [] []
  | pinged {b m : List UInt8} (hput : (TControl, ControlMesg, m) ∈ heard) (hlen : m.length = 4)
      (hseq : nhgetl m = incr c.inseq) (hb : nhgetl b = incr c.inseq % 4294967296) :
      Turn heard c { c with inseq := incr c.inseq } [(TControl, ControlAck, b)] [] []
  | filled {m : List UInt8} (hput : (TControl, ControlMesg, m) ∈ heard) (hlen : 4 < m.length)
      (hseq : nhgetl m = incr c.inseq) :
      Turn heard c { c with inseq := incr c.inseq, inpkt := some (m.drop 4) } [] [] []
  | acked {b : List UInt8} (hput : (TControl, ControlAck, b) ∈ heard) (hseq : nhgetl b = c.outseq) :
      Turn heard c { c with outpkt := none } [] [] []
  | read {b m : List UInt8} (hpkt : c.inpkt = some m) (hb : nhgetl b = c.inseq % 4294967296) :
      Turn heard c { c with inpkt := none } [(TControl, ControlAck, b)] [] [m]

/-- A turn, or the end of the conversation, with nothing accepted or returned. -/
def Outcome (heard : List (ℕ × ℕ × List UInt8)) (c : Control) (acc ret : List (List UInt8))
    (w : World) : Prop :=
  (w.conv.state ≠ .cOpen ∧ acc = [] ∧ ret = []) ∨ Turn heard c w.conv.control w.puts acc ret

/-- A panic, or an error after which the conversation is closed. -/
def Ends (e : Stop Panic) (w : World) : Prop := (∃ why, e = .panic why) ∨ w.conv.state ≠ .cOpen

/-- A panic, or an error that is a turn. -/
def Errs (heard : List (ℕ × ℕ × List UInt8)) (c : Control) (e : Stop Panic) (w : World) : Prop :=
  (∃ why, e = .panic why) ∨ Outcome heard c [] [] w

theorem Ends.errs {heard : List (ℕ × ℕ × List UInt8)} {c : Control} {e : Stop Panic} {w : World}
    (h : Ends e w) : Errs heard c e w :=
  h.imp_right fun h => .inl ⟨h, rfl, rfl⟩

theorem ends_convclose {w : World} :
    convclose.wp (fun _ w' => w'.conv.state ≠ .cOpen) Ends w := by
  have hend (w : World) : (setConv fun c => { c with state := .cClosed }).wp
      (fun _ w' => w'.conv.state ≠ .cOpen) Ends w := by
    rw [wp_setConv]
    simp [World.map]
  unfold convclose
  simp only [wp_bind, wp_getConv, wp_ite]
  split_ifs
  · simp only [convderef, wp_bind, wp_setConv, wp_getConv, wp_ite, wp_pure, wp_assert]
    split_ifs
    all_goals first | exact hend _ | exact .inl ⟨_, rfl⟩
  · exact hend _

theorem ends_convwriteblock {w : World} (b : List UInt8) :
    (convwriteblock env b).wp (fun _ w' => w'.conv = w.conv ∧ w'.puts = w.puts) Ends w := by
  simp only [convwriteblock, wp_bind, wp_get, wp_modify, wp_ite, wp_pure, wp_assert, wp_error]
  split_ifs
  · exact ⟨trivial, trivial⟩
  · exact wp_mono ends_convclose (fun _ _ h => .inr h) fun _ _ h => h
  · exact ⟨trivial, trivial⟩
  · exact .inl ⟨_, rfl⟩

theorem ends_convoput {w : World} (type subtype : ℕ) (b : List UInt8) :
    (convoput L env type subtype b).wp
      (fun _ w' => w'.conv.control = w.conv.control ∧ w'.conv.lastrecv = w.conv.lastrecv ∧
        w'.puts = w.puts ++ [(type, subtype, b)]) Ends w := by
  unfold convoput
  rw [wp_bind, wp_modify, wp_bind, wp_setConv, wp_bind, wp_getConv]
  simp only [out_map_countOut]
  cases henc : encode L w.conv.out type subtype b (List.replicate w.conv.out.cipherivlen 0) with
  | none => exact .inl ⟨_, rfl⟩
  | some r =>
      obtain ⟨st, hframe⟩ := encode_frame henc
      dsimp only
      rw [wp_bind, wp_setConv]
      refine wp_mono (ends_convwriteblock r.2) (fun _ w' h => ?_) fun _ _ h => h
      rw [h.1, h.2, hframe]
      refine ⟨?_, rfl, rfl⟩
      have hnext : w.conv.out.nextSeq.controlseq = w.conv.out.controlseq ∧
          w.conv.out.nextSeq.controlpkt = w.conv.out.controlpkt := by
        unfold OneWay.nextSeq
        split <;> exact ⟨rfl, rfl⟩
      simp only [Conv.control, World.conv_map, countOut, hnext.1, hnext.2]

theorem ends_convack {w : World} :
    (convack L env).wp (fun _ w' => w'.conv.control = w.conv.control ∧
      ∃ b, nhgetl b = w.conv.inp.controlseq % 4294967296 ∧
        w'.puts = w.puts ++ [(TControl, ControlAck, b)]) Ends w := by
  unfold convack
  rw [wp_bind, wp_getConv]
  refine wp_mono (ends_convoput _ _ _) (fun _ w' h => ⟨h.1, _, ?_, h.2.2⟩) fun _ _ h => h
  exact nhgetl_hnputl_append _ _

/-- An error of a connection packet is caught. -/
theorem ends_convoconnect {w : World} (op dialid acceptid : ℕ) :
    (convoconnect env op dialid acceptid).wp (fun _ _ => True) Ends w := by
  simp only [convoconnect, wp_bind, wp_setConv, wp_getConv, wp_assert, wp_waserror]
  split_ifs
  · refine wp_mono (ends_convwriteblock _) (fun _ _ _ => trivial) fun e w' h => ?_
    cases e with
    | error msg => trivial
    | panic why => exact h
  · exact .inl ⟨_, rfl⟩

/-- A retry leaves the control channel alone, or the conversation is closed. -/
theorem ends_convretry {w : World} (reset : Bool) :
    (convretry env reset).wp (fun again w' => if again then
      w'.conv.control = w.conv.control ∧ w'.puts = w.puts else w'.conv.state ≠ .cOpen) Ends w := by
  have hclose (w₁ : World) : (convclose >>= fun _ => pure false : ConvM Bool).wp
      (fun again w' => if again then w'.conv.control = w.conv.control ∧ w'.puts = w.puts
        else w'.conv.state ≠ .cOpen) Ends w₁ := by
    rw [wp_bind]
    exact wp_mono ends_convclose (fun _ _ h => by simpa using h) fun _ _ h => h
  unfold convretry
  rw [wp_bind, wp_setConv, wp_bind, wp_getConv, wp_ite]
  by_cases hmax : MaxRetries < w.conv.retries + 1
  · rw [if_pos (by exact hmax)]
    dsimp only
    cases reset with
    | false => exact hclose _
    | true =>
      rw [if_pos rfl, wp_bind]
      exact wp_mono (ends_convoconnect _ _ _) (fun _ w₁ _ => hclose w₁) fun _ _ h => h
  · rw [if_neg (by exact hmax)]
    exact ⟨rfl, rfl⟩

section

variable {heard : List (ℕ × ℕ × List UInt8)} {c : Conv}

theorem outcome_idle {w : World} (hc : w.conv.control = c.control) (hp : w.puts = []) :
    Outcome heard c.control [] [] w := by
  rw [Outcome, hc, hp]
  exact .inr .idle

theorem turn_writecontrol (m : List UInt8) (hc : c.state = .cOpen) :
    (writecontrol L env m).wp
      (fun sent => Outcome heard c.control (if sent then [m] else []) [])
      (Errs heard c.control) { conv := c } := by
  unfold writecontrol writewait
  rw [wp_bind, wp_bind, wp_getConv]
  dsimp only
  rw [if_neg (by simp [hc]), wp_pure]
  by_cases hpkt : c.out.controlpkt = none
  · rw [if_pos (by simp [hc, hpkt])]
    simp only [convretryinit, wp_bind, wp_getConv, wp_setConv, wp_pure]
    refine wp_mono (ends_convoput _ _ _) (fun _ w' h => .inr ?_) fun _ _ h => h.errs
    rw [h.1, h.2.2]
    exact .send hpkt (.inl rfl)
  · rw [if_neg (by simp [hpkt])]
    exact outcome_idle rfl rfl

theorem turn_readcontrol (hc : c.state = .cOpen) :
    (readcontrol L env).wp (fun b => Outcome heard c.control [] b.join.toList)
      (Errs heard c.control) { conv := c } := by
  unfold readcontrol
  rw [wp_bind, wp_getConv]
  dsimp only
  by_cases hchan : c.chan = false
  · rw [if_pos (.inl hchan)]
    exact .inr (outcome_idle rfl rfl)
  rw [if_neg (by simp [hchan, hc])]
  rcases hpkt : c.inp.controlpkt with _ | m
  · dsimp only
    rw [if_neg (by simp [hc])]
    exact outcome_idle rfl rfl
  · simp only [wp_bind]
    refine wp_mono ends_convack (fun _ w' h => ?_) fun _ _ h => h.errs
    obtain ⟨hctl, b, hb, hput⟩ := h
    have hinpkt : w'.conv.inp.controlpkt = some m := (congrArg Control.inpkt hctl).trans hpkt
    rw [wp_getConv, wp_setConv, wp_pure, hinpkt]
    refine .inr ?_
    have hturn : Turn heard c.control { w'.conv.control with inpkt := none } w'.puts [] [m] := by
      rw [hctl, hput]
      exact .read hpkt hb
    exact hturn

theorem turn_convtimer (hc : c.state = .cOpen) :
    (convtimer L env).wp (fun _ => Outcome heard c.control [] [])
      (Errs heard c.control) { conv := c } := by
  unfold convtimer
  rw [wp_bind, wp_getConv]
  dsimp only
  by_cases htimeout : env.sec < c.timeout
  · rw [if_pos htimeout]
    exact outcome_idle rfl rfl
  rw [if_neg htimeout, hc]
  rcases hpkt : c.out.controlpkt with _ | b
  · dsimp only
    rw [wp_bind, wp_setConv]
    by_cases halive : env.sec < c.lastrecv + KeepAlive
    · rw [if_pos halive]
      exact outcome_idle rfl rfl
    rw [if_neg halive]
    split
    · exact outcome_idle rfl rfl
    simp only [convretryinit, wp_bind, wp_setConv, wp_waserror]
    have hsend (w' : World)
        (h : w'.puts = [(TControl, ControlMesg, hnputl (incr c.out.controlseq))]) (hctl :
          w'.conv.control = { c.control with
            outseq := incr c.out.controlseq, outpkt := some (hnputl (incr c.out.controlseq)) }) :
        Outcome heard c.control [] [] w' := by
      rw [Outcome, hctl, h, ← List.append_nil (hnputl (incr c.out.controlseq))]
      exact .inr (.send hpkt (.inr ⟨rfl, rfl⟩))
    refine wp_mono (ends_convoput _ _ _) (fun _ w' h => hsend w' h.2.2 h.1) fun e w' h => ?_
    cases e with
    | error msg => exact .inl ⟨h.resolve_left (by simp), rfl, rfl⟩
    | panic why => exact .inl ⟨why, rfl⟩
  · dsimp only
    rw [wp_bind]
    refine wp_mono (ends_convretry _) (fun again w' h => ?_) fun _ _ h => h.errs
    cases again with
    | false => exact .inl ⟨by simpa using h, rfl, rfl⟩
    | true =>
      obtain ⟨hctl, hputs⟩ := (if_pos rfl).mp h
      rw [if_pos rfl]
      refine wp_mono (ends_convoput _ _ _) (fun _ w'' h => .inr ?_) fun _ _ h => h.errs
      rw [h.1, h.2.2, hctl, hputs]
      exact .resend hpkt

theorem turn_convicontrol {subtype : ℕ} {b : Block}
    (hput : (TControl, subtype, b.data) ∈ heard) (hlen : b.blen = b.data.length) :
    (convicontrol L env subtype b).wp (fun _ => Outcome heard c.control [] [])
      (Errs heard c.control) { conv := c } := by
  have hidle : Outcome heard c.control [] [] { conv := c } := outcome_idle rfl rfl
  unfold convicontrol
  by_cases hshort : b.blen < 4
  · rw [if_pos hshort]
    exact hidle
  rw [if_neg hshort, wp_bind, wp_getConv]
  dsimp only
  by_cases hmesg : subtype = ControlMesg
  · subst hmesg
    rw [if_pos rfl]
    by_cases hdup : nhgetl b.data = c.inp.controlseq
    · rw [if_pos hdup]
      by_cases hpkt : c.inp.controlpkt = none
      · rw [if_pos hpkt]
        refine wp_mono ends_convack (fun _ w' h => .inr ?_) fun _ _ h => h.errs
        obtain ⟨hctl, a, ha, hputs⟩ := h
        rw [hctl, hputs]
        exact .again hpkt ha
      · rw [if_neg hpkt]
        exact hidle
    rw [if_neg hdup]
    by_cases hnext : nhgetl b.data = incr c.inp.controlseq
    swap
    · rw [if_pos hnext]
      exact hidle
    rw [if_neg (not_not.mpr hnext), wp_bind, wp_setConv, hnext]
    have hdata : ({ b with rp := b.rp + 4 } : Block).data = b.data.drop 4 := List.drop_drop.symm
    have hblen : ({ b with rp := b.rp + 4 } : Block).blen = b.data.length - 4 := by
      rw [← hlen]
      simp only [Block.blen]
      push_cast
      ring
    by_cases hping : ({ b with rp := b.rp + 4 } : Block).blen = 0
    · rw [if_pos hping]
      refine wp_mono ends_convack (fun _ w' h => .inr ?_) fun _ _ h => h.errs
      obtain ⟨hctl, a, ha, hputs⟩ := h
      rw [hctl, hputs]
      rw [hblen] at hping
      exact .pinged hput (by omega) hnext ha
    · rw [if_neg hping, hdata]
      rw [hblen] at hping
      exact .inr (.filled hput (by omega) hnext)
  rw [if_neg hmesg]
  by_cases hack : subtype = ControlAck
  · subst hack
    rw [if_pos rfl]
    by_cases hseq : nhgetl b.data ≠ c.out.controlseq
    · rw [if_pos hseq]
      exact hidle
    rw [if_neg hseq]
    by_cases hsize : b.blen < AckPktSize
    · rw [if_pos hsize]
      exact hidle
    rw [if_neg hsize]
    exact .inr (.acked hput (not_not.mp hseq))
  · rw [if_neg hack]
    exact hidle

end

/-- The end `p` has become `p'` by a turn, or its conversation is not open any more. -/
def Turned (heard : List (ℕ × ℕ × List UInt8)) (p p' : Party) : Prop :=
  ∃ new acc ret, p'.puts = p.puts ++ new ∧ p'.accepted = p.accepted ++ acc ∧
    p'.returned = p.returned ++ ret ∧
    ((p'.conv.state ≠ .cOpen ∧ acc = [] ∧ ret = []) ∨
      Turn heard p.conv.control p'.conv.control new acc ret)

section

variable {p q p' : Party}

theorem turned_call {α : Type} {m : ConvM α} {ok : Party → α → Party}
    (acc ret : α → List (List UInt8))
    (hok : ∀ p a, ok p a =
      { p with accepted := p.accepted ++ acc a, returned := p.returned ++ ret a })
    (hwp : m.wp (fun a => Outcome q.puts p.conv.control (acc a) (ret a))
      (Errs q.puts p.conv.control) { conv := p.conv })
    (h : p.call m ok = some p') : Turned q.puts p p' := by
  unfold Party.call at h
  unfold Kern.wp at hwp
  rcases hm : m { conv := p.conv } with ⟨(msg | why) | a, w⟩ <;> rw [hm] at h hwp
  · obtain rfl := Option.some.inj h
    exact ⟨w.puts, [], [], rfl, (List.append_nil _).symm, (List.append_nil _).symm,
      hwp.resolve_left (by simp)⟩
  · exact absurd h (by simp)
  · obtain rfl := Option.some.inj h
    rw [hok]
    exact ⟨w.puts, acc a, ret a, rfl, rfl, rfl, hwp⟩

/-- Every step is a turn, or closes the conversation. -/
theorem act_turn {ev : PartyEvent} (hp : p.conv.state = .cOpen) (h : Act L p q ev p') :
    Turned q.puts p p' := by
  have hsame (p : Party) :
      p = { p with accepted := p.accepted ++ [], returned := p.returned ++ [] } := by simp
  cases h with
  | writecontrol h =>
    rename_i env m
    refine turned_call (fun sent => if sent then [m] else []) (fun _ => []) (fun p sent => ?_)
      (turn_writecontrol m hp) h
    cases sent <;> simp
  | readcontrol h =>
    exact turned_call (fun _ => []) (fun b => b.join.toList) (fun p b => by simp)
      (turn_readcontrol hp) h
  | timer h =>
    exact turned_call (fun _ => []) (fun _ => []) (fun p _ => hsame p)
      (turn_convtimer hp) h
  | packet hput hlen h =>
    exact turned_call (fun _ => []) (fun _ => []) (fun p _ => hsame p)
      (turn_convicontrol hput hlen) h
  | other h =>
    refine ⟨[], [], [], ?_, ?_, ?_, .inr ?_⟩
    · exact (List.append_nil _).symm
    · exact (List.append_nil _).symm
    · exact (List.append_nil _).symm
    · rw [h]
      exact .idle

end

/-! ### Stop and wait -/

/-- The direction from `p` to `q` is in the state `d` of stop and wait. -/
structure Directs (p q : Party) (d : StopWait (List UInt8)) : Prop where
  length : d.sent.length < 4294967296
  outseq : p.conv.control.outseq = d.sent.length
  idle : d.pending = false → p.conv.control.outpkt = none
  pending : d.pending = true → ∃ m, d.sent.getLast? = some m ∧
    p.conv.control.outpkt = some (hnputl d.sent.length ++ m)
  mesgs : ∀ b, (TControl, ControlMesg, b) ∈ p.puts →
    ∃ i m, d.sent[i]? = some m ∧ b = hnputl (i + 1) ++ m
  acks : ∀ b, (TControl, ControlAck, b) ∈ q.puts → nhgetl b ∈ d.acks
  inseq : q.conv.control.inseq = d.seq
  inpkt : q.conv.control.inpkt = d.slot
  returned : q.returned = d.got
  accepted : p.accepted.filter (fun m => !m.isEmpty) = d.sent.filter fun m => !m.isEmpty

section

variable {p q p' : Party} {d : StopWait (List UInt8)} {c : Control}
  {new : List (ℕ × ℕ × List UInt8)} {acc ret : List (List UInt8)}

/-- The number of the next message. -/
theorem incr_of_lt {n : ℕ} (h : n + 1 < 4294967296) : incr n = n + 1 := Nat.mod_eq_of_lt h

/-- What is put on the channel keeps to the messages sent. -/
theorem mesgs_append {sent : List (List UInt8)} (h : ∀ b, (TControl, ControlMesg, b) ∈ p.puts →
      ∃ i m, sent[i]? = some m ∧ b = hnputl (i + 1) ++ m)
    (hputs : p'.puts = p.puts ++ new) (hnew : ∀ b, (TControl, ControlMesg, b) ∈ new →
      ∃ i m, sent[i]? = some m ∧ b = hnputl (i + 1) ++ m) :
    ∀ b, (TControl, ControlMesg, b) ∈ p'.puts →
      ∃ i m, sent[i]? = some m ∧ b = hnputl (i + 1) ++ m := by
  intro b hb
  rw [hputs, List.mem_append] at hb
  exact hb.elim (h b) (hnew b)

/-- A turn of the sender is a step of its direction, or none. -/
theorem turn_sends (hd : Directs p q d) (hopen : d.sent.length + 1 < 4294967296)
    (hputs : p'.puts = p.puts ++ new) (hacc : p'.accepted = p.accepted ++ acc)
    (hc : p'.conv.control = c) (h : Turn q.puts p.conv.control c new acc ret) :
    ∃ d', (d' = d ∨ d.Step List.isEmpty d') ∧ Directs p' q d' := by
  -- a turn that puts no message on the channel and leaves the sender as it is
  have hkeep (hacc' : acc = []) (hnew : ∀ b, (TControl, ControlMesg, b) ∉ new)
      (hseq : c.outseq = p.conv.control.outseq) (hpkt : c.outpkt = p.conv.control.outpkt) :
      ∃ d', (d' = d ∨ d.Step List.isEmpty d') ∧ Directs p' q d' := by
    refine ⟨d, .inl rfl, hd.length, ?_, ?_, ?_, ?_, hd.acks, hd.inseq, hd.inpkt, hd.returned, ?_⟩
    · rw [hc, hseq, hd.outseq]
    · rw [hc, hpkt]
      exact hd.idle
    · rw [hc, hpkt]
      exact hd.pending
    · exact mesgs_append hd.mesgs hputs fun b hb => absurd hb (hnew b)
    · rw [hacc, hacc', List.append_nil, hd.accepted]
  cases h with
  | idle => exact hkeep rfl (by simp) rfl rfl
  | @resend b hpkt =>
    have hpending : d.pending = true := by
      by_contra hno
      rw [hd.idle (by simpa using hno)] at hpkt
      exact absurd hpkt (by simp)
    obtain ⟨m, hlast, hm⟩ := hd.pending hpending
    obtain rfl : b = hnputl d.sent.length ++ m := by
      rw [hm] at hpkt
      exact (Option.some.inj hpkt).symm
    have hpos : 0 < d.sent.length := by
      rw [List.length_pos_iff]
      rintro hnil
      rw [hnil] at hlast
      exact absurd hlast (by simp)
    refine ⟨d, .inl rfl, hd.length, ?_, ?_, ?_, ?_, hd.acks, hd.inseq, hd.inpkt, hd.returned, ?_⟩
    · rw [hc, hd.outseq]
    · rw [hc]
      exact hd.idle
    · rw [hc]
      exact hd.pending
    · refine mesgs_append hd.mesgs hputs fun b hb => ⟨d.sent.length - 1, m, ?_, ?_⟩
      · rw [← List.getLast?_eq_getElem?, hlast]
      · simp only [List.mem_singleton, Prod.mk.injEq, true_and] at hb
        rw [hb, Nat.sub_add_cancel hpos]
    · rw [hacc, List.append_nil, hd.accepted]
  | @send m acc hpkt hm =>
    have hidle : d.pending = false := by
      by_contra hno
      obtain ⟨m', -, hm'⟩ := hd.pending (by simpa using hno)
      rw [hm'] at hpkt
      exact absurd hpkt (by simp)
    have hincr : incr p.conv.control.outseq = d.sent.length + 1 := by
      rw [hd.outseq, incr_of_lt hopen]
    have hold {i : ℕ} {m' : List UInt8} (h : d.sent[i]? = some m') :
        (d.sent ++ [m])[i]? = some m' := by
      rw [List.getElem?_append_left (List.getElem?_eq_some_iff.mp h).1, h]
    refine ⟨_, .inr (.send m hidle), ?_, ?_, fun h => Bool.noConfusion h, fun _ => ⟨m, ?_, ?_⟩, ?_,
      hd.acks, hd.inseq, hd.inpkt, hd.returned, ?_⟩
    · rw [List.length_append]
      exact hopen
    · rw [hc, List.length_append]
      exact hincr
    · exact List.getLast?_concat
    · rw [hc, List.length_append, hincr]
      rfl
    · refine mesgs_append (fun b hb => ?_) hputs fun b hb => ⟨d.sent.length, m, ?_, ?_⟩
      · obtain ⟨i, m', hi, hb'⟩ := hd.mesgs b hb
        exact ⟨i, m', hold hi, hb'⟩
      · exact List.getElem?_concat_length
      · simp only [List.mem_singleton, Prod.mk.injEq, true_and] at hb
        rw [hb, hincr]
    · rw [hacc, List.filter_append, List.filter_append, hd.accepted]
      rcases hm with rfl | ⟨rfl, rfl⟩ <;> rfl
  | again => exact hkeep rfl (by simp [ControlMesg, ControlAck]) rfl rfl
  | pinged => exact hkeep rfl (by simp [ControlMesg, ControlAck]) rfl rfl
  | filled => exact hkeep rfl (by simp) rfl rfl
  | read => exact hkeep rfl (by simp [ControlMesg, ControlAck]) rfl rfl
  | acked hput hseq =>
    refine ⟨_, .inr (.acked ?_), hd.length, ?_, fun _ => ?_, fun h => Bool.noConfusion h, ?_,
      hd.acks, hd.inseq, hd.inpkt, hd.returned, ?_⟩
    · rw [← hd.outseq, ← hseq]
      exact hd.acks _ hput
    · rw [hc]
      exact hd.outseq
    · rw [hc]
    · exact mesgs_append hd.mesgs hputs fun b hb => absurd hb List.not_mem_nil
    · rw [hacc, List.append_nil, hd.accepted]

/-- What is put on the channel keeps to the acknowledgements made. -/
theorem acks_append {acks : List ℕ}
    (h : ∀ b, (TControl, ControlAck, b) ∈ p.puts → nhgetl b ∈ acks)
    (hputs : p'.puts = p.puts ++ new) (hnew : ∀ b, (TControl, ControlAck, b) ∈ new →
      nhgetl b ∈ acks) : ∀ b, (TControl, ControlAck, b) ∈ p'.puts → nhgetl b ∈ acks := by
  intro b hb
  rw [hputs, List.mem_append] at hb
  exact hb.elim (h b) (hnew b)

/-- A message with the next number is the next message sent. -/
theorem next_of_put (hd : Directs q p d) (hinv : d.Inv List.isEmpty) {m : List UInt8}
    (hput : (TControl, ControlMesg, m) ∈ q.puts)
    (hseq : nhgetl m = incr p.conv.control.inseq) :
    incr p.conv.control.inseq = d.seq + 1 ∧ d.sent[d.seq]? = some (m.drop 4) ∧ 4 ≤ m.length := by
  obtain ⟨i, m', hi, rfl⟩ := hd.mesgs m hput
  have hlt : i < d.sent.length := (List.getElem?_eq_some_iff.mp hi).1
  have hlen := hd.length
  have hle := hinv.seq_le
  rw [hd.inseq, nhgetl_hnputl_append, Nat.mod_eq_of_lt (by omega)] at hseq
  have hnext : incr d.seq = d.seq + 1 := by
    unfold incr at hseq ⊢
    omega
  rw [hd.inseq, hnext]
  rw [hnext] at hseq
  obtain rfl : i = d.seq := by omega
  exact ⟨rfl, hi, by simp⟩

/-- A turn of the receiver is a step of the direction to it, or none. -/
theorem turn_receives (hd : Directs q p d) (hinv : d.Inv List.isEmpty)
    (hputs : p'.puts = p.puts ++ new) (hret : p'.returned = p.returned ++ ret)
    (hc : p'.conv.control = c) (h : Turn q.puts p.conv.control c new acc ret) :
    ∃ d', (d' = d ∨ d.Step List.isEmpty d') ∧ Directs q p' d' := by
  -- a turn that makes no acknowledgement and leaves the receiver as it is
  have hkeep (hret' : ret = []) (hnew : ∀ b, (TControl, ControlAck, b) ∉ new)
      (hseq : c.inseq = p.conv.control.inseq) (hpkt : c.inpkt = p.conv.control.inpkt) :
      ∃ d', (d' = d ∨ d.Step List.isEmpty d') ∧ Directs q p' d' := by
    refine ⟨d, .inl rfl, hd.length, hd.outseq, hd.idle, hd.pending, hd.mesgs, ?_, ?_, ?_, ?_,
      hd.accepted⟩
    · exact acks_append hd.acks hputs fun b hb => absurd hb (hnew b)
    · rw [hc, hseq, hd.inseq]
    · rw [hc, hpkt, hd.inpkt]
    · rw [hret, hret', List.append_nil, hd.returned]
  have hlt : d.seq % 4294967296 = d.seq :=
    Nat.mod_eq_of_lt (hinv.seq_le.trans_lt hd.length)
  -- an acknowledgement of the last message received
  have hack {b : List UInt8} (hb : nhgetl b = p.conv.control.inseq % 4294967296)
      (hnew : new = [(TControl, ControlAck, b)]) :
      ∀ b, (TControl, ControlAck, b) ∈ p'.puts → nhgetl b ∈ d.acks ++ [d.seq] := by
    refine acks_append (fun b' hb' => List.mem_append_left _ (hd.acks b' hb')) hputs
      fun b' hb' => ?_
    rw [hnew] at hb'
    simp only [List.mem_singleton, Prod.mk.injEq, true_and] at hb'
    rw [hb', hb, hd.inseq, hlt]
    exact List.mem_append_right _ (List.mem_singleton.mpr rfl)
  cases h with
  | idle => exact hkeep rfl (by simp) rfl rfl
  | resend hpkt => exact hkeep rfl (by simp [ControlMesg, ControlAck]) rfl rfl
  | send hpkt hacc => exact hkeep rfl (by simp [ControlMesg, ControlAck]) rfl rfl
  | acked hput hseq => exact hkeep rfl (by simp) rfl rfl
  | again hpkt hb =>
    refine ⟨_, .inr (.again (hd.inpkt.symm.trans hpkt)), hd.length, hd.outseq, hd.idle, hd.pending,
      hd.mesgs, hack hb rfl, ?_, ?_, ?_, hd.accepted⟩
    · rw [hc, hd.inseq]
    · rw [hc, hd.inpkt]
    · rw [hret, List.append_nil, hd.returned]
  | @pinged b m hput hlen hseq hb =>
    obtain ⟨hincr, hnext, -⟩ := next_of_put hd hinv hput hseq
    have hnil : m.drop 4 = [] := List.drop_eq_nil_of_le hlen.le
    refine ⟨_, .inr (.pinged hnext (by rw [hnil]; rfl)), hd.length, hd.outseq, hd.idle, hd.pending,
      hd.mesgs, ?_, ?_, ?_, ?_, hd.accepted⟩
    · refine acks_append (fun b' hb' => List.mem_append_left _ (hd.acks b' hb')) hputs
        fun b' hb' => List.mem_append_right _ ?_
      simp only [List.mem_singleton, Prod.mk.injEq, true_and] at hb'
      have hlt : d.seq < d.sent.length := (List.getElem?_eq_some_iff.mp hnext).1
      have hlen := hd.length
      rw [hb', hb, hincr, Nat.mod_eq_of_lt (by omega)]
      exact List.mem_singleton.mpr rfl
    · rw [hc]
      exact hincr
    · rw [hc]
      exact hd.inpkt
    · rw [hret, List.append_nil, hd.returned]
  | @filled m hput hlen hseq =>
    obtain ⟨hincr, hnext, -⟩ := next_of_put hd hinv hput hseq
    have hne : (m.drop 4).isEmpty = false := by
      rw [List.isEmpty_eq_false_iff, ← List.length_pos_iff, List.length_drop]
      omega
    refine ⟨_, .inr (.filled hnext hne), hd.length, hd.outseq, hd.idle, hd.pending,
      hd.mesgs, ?_, ?_, ?_, ?_, hd.accepted⟩
    · exact acks_append hd.acks hputs fun b hb => absurd hb List.not_mem_nil
    · rw [hc]
      exact hincr
    · rw [hc]
    · rw [hret, List.append_nil, hd.returned]
  | read hpkt hb =>
    refine ⟨_, .inr (.read (hd.inpkt.symm.trans hpkt)), hd.length, hd.outseq, hd.idle, hd.pending,
      hd.mesgs, hack hb rfl, ?_, ?_, ?_, hd.accepted⟩
    · rw [hc, hd.inseq]
    · rw [hc]
    · rw [hret, hd.returned]

/-- The blocks returned at one end are the first of the messages accepted at the other. -/
theorem Directs.returned_initial (hd : Directs p q d) (hinv : d.Inv List.isEmpty) :
    q.returned <+: p.accepted.filter fun m => !m.isEmpty := by
  rw [hd.returned, hd.accepted]
  exact hinv.got_initial

theorem inv_of_step {d' : StopWait (List UInt8)} (hinv : d.Inv List.isEmpty)
    (h : d' = d ∨ d.Step List.isEmpty d') : d'.Inv List.isEmpty := by
  rcases h with rfl | h
  · exact hinv
  · exact hinv.step h

/-- Both directions are in a state of stop and wait. -/
def Coupled (p q : Party) : Prop :=
  ∃ d e : StopWait (List UInt8), Directs p q d ∧ d.Inv List.isEmpty ∧ Directs q p e ∧
    e.Inv List.isEmpty

theorem Coupled.symm (h : Coupled p q) : Coupled q p := by
  obtain ⟨d, e, hd, hdinv, he, heinv⟩ := h
  exact ⟨e, d, he, heinv, hd, hdinv⟩

/-- A step of one end keeps both directions in a state of stop and wait, unless it closes the
conversation; then nothing was accepted or returned. -/
theorem coupled_act {ev : PartyEvent} (hp : p.Open) (h : Coupled p q) (hact : Act L p q ev p') :
    p'.conv.state ≠ .cOpen ∧ p'.accepted = p.accepted ∧ p'.returned = p.returned ∨
      Coupled p' q := by
  obtain ⟨d, e, hd, hdinv, he, heinv⟩ := h
  obtain ⟨new, acc, ret, hputs, hacc, hret, ⟨hclosed, rfl, rfl⟩ | hturn⟩ := act_turn hp.1 hact
  · rw [List.append_nil] at hacc hret
    exact .inl ⟨hclosed, hacc, hret⟩
  have hroom : d.sent.length + 1 < 4294967296 := hd.outseq ▸ hp.2
  obtain ⟨d', hd', hsends⟩ := turn_sends hd hroom hputs hacc rfl hturn
  obtain ⟨e', he', hreceives⟩ := turn_receives he heinv hputs hret rfl hturn
  exact .inr ⟨d', e', hsends, inv_of_step hdinv hd', hreceives, inv_of_step heinv he'⟩

end

/-! ### Runs of the two ends -/

/-- What holds in every run: the blocks returned are the first messages accepted, and while both
conversations are open both directions are in a state of stop and wait. -/
structure Exchange.Inv (x : Exchange) : Prop where
  near : x.near.returned <+: x.far.accepted.filter fun m => !m.isEmpty
  far : x.far.returned <+: x.near.accepted.filter fun m => !m.isEmpty
  coupled : x.near.conv.state = .cOpen → x.far.conv.state = .cOpen → Coupled x.near x.far

theorem inv_coupled {p q : Party} (h : Coupled p q) : Exchange.Inv ⟨p, q⟩ := by
  have hcoupled := h
  obtain ⟨d, e, hd, hdinv, he, heinv⟩ := h
  exact ⟨he.returned_initial heinv, hd.returned_initial hdinv, fun _ _ => hcoupled⟩

theorem Exchange.Inv.symm {p q : Party} (h : Exchange.Inv ⟨p, q⟩) : Exchange.Inv ⟨q, p⟩ :=
  ⟨h.far, h.near, fun hq hp => (h.coupled hp hq).symm⟩

theorem inv_act {p q p' : Party} {ev : PartyEvent} (hp : p.Open) (hq : q.Open)
    (h : Exchange.Inv ⟨p, q⟩) (hact : Act L p q ev p') : Exchange.Inv ⟨p', q⟩ := by
  rcases coupled_act hp (h.coupled hp.1 hq.1) hact with ⟨hclosed, hacc, hret⟩ | hcoupled
  · refine ⟨?_, ?_, fun hopen => absurd hopen hclosed⟩
    · rw [hret]
      exact h.near
    · rw [hacc]
      exact h.far
  · exact inv_coupled hcoupled

theorem inv_exchange {x y : Exchange} {ev : Bool × PartyEvent} (h : x.Inv) (hopen : x.Open ev)
    (hstep : Exchange.Step L x ev y) : y.Inv := by
  cases hstep with
  | near hact => exact inv_act hopen.1 hopen.2 h hact
  | far hact => exact (inv_act hopen.2 hopen.1 h.symm hact).symm

theorem directs_fresh {c c' : Conv} (h : c.Fresh) (h' : c'.Fresh) :
    Directs { conv := c } { conv := c' } {} where
  length := Nat.zero_lt_succ _
  outseq := congrArg Control.outseq h
  idle := fun _ => congrArg Control.outpkt h
  pending := fun hp => Bool.noConfusion hp
  mesgs := fun _ hb => absurd hb List.not_mem_nil
  acks := fun _ hb => absurd hb List.not_mem_nil
  inseq := congrArg Control.inseq h'
  inpkt := congrArg Control.inpkt h'
  returned := rfl
  accepted := rfl

/-- Exactly once: in every run of two conversations, the blocks that `readcontrol` returns at one
end are the first of the messages that `writecontrol` accepted at the other, in order and without
repetition, the empty ones left out. -/
theorem returned_prefix_of_run {c c' : Conv} (h : c.Fresh) (h' : c'.Fresh) {x : Exchange}
    (hrun : Run (Exchange.Step L) Exchange.Open
      { near := { conv := c }, far := { conv := c' } } x) :
    (x.near.returned <+: x.far.accepted.filter fun m => !m.isEmpty) ∧
      x.far.returned <+: x.near.accepted.filter fun m => !m.isEmpty := by
  have hinit : Exchange.Inv ⟨{ conv := c }, { conv := c' }⟩ :=
    inv_coupled ⟨{}, {}, directs_fresh h h', StopWait.inv_init, directs_fresh h' h,
      StopWait.inv_init⟩
  have hinv : x.Inv := hrun.invariant hinit fun _ _ _ hinv hopen hstep =>
    inv_exchange hinv hopen hstep
  exact ⟨hinv.near, hinv.far⟩

/-- An open conversation that has no algorithms. -/
def talker : Conv where
  ref := 3
  state := .cOpen
  chan := true

theorem fresh_talker : talker.Fresh := rfl

theorem open_of_lt {x : Exchange} {ev : Bool × PartyEvent}
    (hnear : x.near.conv.state = .cOpen ∧ x.near.conv.out.controlseq < 2)
    (hfar : x.far.conv.state = .cOpen ∧ x.far.conv.out.controlseq < 2) : x.Open ev :=
  ⟨⟨hnear.1, by omega⟩, hfar.1, by omega⟩

/-- One message is written, arrives and is read. -/
theorem run_talker :
    ∃ x, Run (Exchange.Step Libsec.null) Exchange.Open
      { near := { conv := talker }, far := { conv := talker } } x ∧ x.far.returned = [[0x41]] := by
  refine ⟨_, .snoc (.snoc (.snoc .nil (open_of_lt ⟨rfl, ?_⟩ ⟨rfl, ?_⟩)
    (.near (@Act.writecontrol _ _ _ {} [0x41] _ rfl))) (open_of_lt ⟨rfl, ?_⟩ ⟨rfl, ?_⟩)
    (.far (@Act.packet _ _ _ {} ControlMesg (.ofList (hnputl 1 ++ [0x41])) _ ?_ rfl rfl)))
    (open_of_lt ⟨rfl, ?_⟩ ⟨rfl, ?_⟩) (.far (@Act.readcontrol _ _ _ {} _ rfl)), rfl⟩
  case refine_5 => exact List.mem_singleton.mpr rfl
  all_goals decide

theorem returned_prefix_one :
    ∃ x, Run (Exchange.Step Libsec.null) Exchange.Open
      { near := { conv := talker }, far := { conv := talker } } x ∧ x.far.returned = [[0x41]] ∧
      x.far.returned <+: x.near.accepted.filter fun m => !m.isEmpty := by
  obtain ⟨x, hrun, hret⟩ := run_talker
  exact ⟨x, hrun, hret, (returned_prefix_of_run fresh_talker fresh_talker hrun).2⟩

end PlanNine.Sdp
