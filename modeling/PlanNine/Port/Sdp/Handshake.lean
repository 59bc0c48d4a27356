import PlanNine.Port.Sdp.Receive

/-!
# The handshake

A dialer asks, an acceptor answers and the dialer acknowledges. Both repeat themselves on a timer,
and the network loses, repeats and reorders what they say. A dialer that is open already answers a
repeated `ConOpenAck` with the two ids in each other's place; the acceptor takes this answer for one
that belongs to another conversation and resets. Unless such an answer reaches it, neither end
resets, and two open ends have the same ids and secrets.

## Main definitions

* `Conv.shaken`: the part of a conversation that the handshake is about.
* `Handshake`, `Shakes`: a dialer and an acceptor with all they have sent, and their steps.
* `Crossed`: an acknowledgement with the ids of the acceptor in each other's place arrives.
* `Handshake.Inv`: what holds of the two ends and of the packets between them.

## Main results

* `inv_shakes`: what one step does to the invariant.
* `handshake_of_run`: in a run without crossed acknowledgements nobody resets and open ends agree.
-/

namespace PlanNine.Sdp

open Kern

variable {L : Libsec} {env : Env}

/-! ### What the handshake changes -/

/-- The part of a conversation that the handshake is about. -/
structure Shaken where
  state : ConvState
  chan : Bool
  dialid : ℕ
  acceptid : ℕ
  secretIn : List UInt8
  secretOut : List UInt8

def Conv.shaken (c : Conv) : Shaken :=
  ⟨c.state, c.chan, c.dialid, c.acceptid, c.inp.secret, c.out.secret⟩

/-- The writes of a call go through, and its random number is one of 32 bits. -/
def Env.Calm (env : Env) : Prop := (∀ i, env.fails i = false) ∧ env.rand < 4294967296

/-- After a call the conversation is `v`, and the connection packets that it has added to those
sent meet `q`. -/
def Moved (w : World) (v : Shaken) (q : List UInt8 → Prop) (w' : World) : Prop :=
  w'.conv.shaken = v ∧ ∀ p ∈ w'.sent, pktType p = TConnect → p ∈ w.sent ∨ q p

theorem moved_self (w : World) (q : List UInt8 → Prop) : Moved w w.conv.shaken q w :=
  ⟨rfl, fun _ hp _ => .inl hp⟩

theorem Moved.mono {w w' : World} {v : Shaken} {q q' : List UInt8 → Prop} (h : Moved w v q w')
    (hq : ∀ p, q p → q' p) : Moved w v q' w' :=
  ⟨h.1, fun p hp htype => (h.2 p hp htype).imp_right (hq p)⟩

theorem mem_wrote {w : World} {p pkt : List UInt8} (h : p ∈ (w.wrote env pkt).sent) :
    p ∈ w.sent ∨ p = pkt := by
  simp only [World.wrote] at h
  split at h
  · exact .inl h
  · rwa [List.mem_append, List.mem_singleton] at h

theorem wp_convoconnect_calm (henv : env.Calm) {op i j : ℕ} {Q : Unit → World → Prop}
    {E : Stop Panic → World → Prop} {w : World} (hchan : w.conv.chan = true) :
    (convoconnect env op i j).wp Q E w ↔
      Q () ((w.map countOut).wrote env (connectPacket op i j)) := by
  have hf : ¬ env.refuses w := fun h => absurd h.1 (by simp [henv.1])
  rw [wp_convoconnect, if_pos hchan]
  simp [hf]

/-! ### The packets of connections -/

theorem pktType_cons (x : UInt8) (t : List UInt8) : pktType (x :: t) = x.toNat >>> 4 := rfl

theorem pktType_connectPacket {op : ℕ} (hop : op < 16) (i j : ℕ) :
    pktType (connectPacket op i j) = TConnect := by
  rw [connectPacket, pktType_cons, toNat_uchar, TConnect, Nat.zero_shiftLeft, Nat.zero_or,
    Nat.shiftRight_eq_div_pow]
  omega

theorem connectPacket_op {op op' i j i' j' : ℕ} (hop : op < 16) (hop' : op' < 16)
    (h : connectPacket op i j = connectPacket op' i' j') : op = op' := by
  have hhead := congrArg UInt8.toNat (List.cons.inj h).1
  rw [toNat_uchar, toNat_uchar, TConnect, Nat.zero_shiftLeft, Nat.zero_or, Nat.zero_or] at hhead
  omega

theorem pktSubtype_connectPacket {op : ℕ} (hop : op < 16) (i j : ℕ) :
    pktSubtype (connectPacket op i j) = op := by
  have h : pktSubtype (connectPacket op i j) = (TConnect <<< 4 ||| op) % 256 &&& 0xf := by
    rw [← toNat_uchar]
    rfl
  rw [h, TConnect, Nat.zero_shiftLeft, Nat.zero_or, Nat.mod_eq_of_lt (by omega),
    show 0xf = 2 ^ 4 - 1 from rfl, Nat.and_two_pow_sub_one_eq_mod, Nat.mod_eq_of_lt (by omega)]

theorem blen_pktBody (op i j : ℕ) : (pktBody (connectPacket op i j)).blen = 8 := rfl

theorem nhgetl_pktBody {i : ℕ} (hi : i < 4294967296) (op j : ℕ) :
    nhgetl (pktBody (connectPacket op i j)).data = i := by
  change nhgetl (hnputl i ++ hnputl j) = i
  rw [nhgetl_hnputl_append, Nat.mod_eq_of_lt hi]

theorem nhgetl_drop_pktBody {j : ℕ} (hj : j < 4294967296) (op i : ℕ) :
    nhgetl ((pktBody (connectPacket op i j)).data.drop 4) = j := by
  change nhgetl (hnputl j) = j
  rw [nhgetl_hnputl, Nat.mod_eq_of_lt hj]

/-- `c->lstats.inPackets++`. -/
def countIn (c : Conv) : Conv :=
  { c with lstats := { c.lstats with inPackets := incr c.lstats.inPackets } }

/-- A connection packet with the right ids goes to the second switch of `conviconnect`. -/
theorem wp_conviput_connect {op i j : ℕ} (hop : op < 16) (hreset : op ≠ ConReset)
    (hi : i < 4294967296) (hj : j < 4294967296) {control : Bool} {Q : Option Block → World → Prop}
    {E : Stop Panic → World → Prop} {w : World} (hfree : w.conv.state ≠ .cFree)
    (hids : wrongIds w.conv op i j = false) :
    (conviput L env (connectPacket op i j) control).wp Q E w ↔
      (conviconnectIds L env w.conv.state op i j).wp (fun _ => Q none) E (w.map countIn) := by
  have hblen : ¬ (Block.ofList (connectPacket op i j)).blen < 4 := by
    change ¬ ((9 : ℕ) : ℤ) - ((0 : ℕ) : ℤ) < 4
    decide
  unfold conviput
  rw [wp_bind, count, wp_setConv, if_neg hblen, if_pos (by exact pktType_connectPacket hop i j),
    wp_bind]
  change (conviconnect L env (pktSubtype (connectPacket op i j))
    (pktBody (connectPacket op i j))).wp _ _ _ ↔ _
  rw [pktSubtype_connectPacket hop]
  unfold conviconnect
  rw [if_neg (not_not.mpr (blen_pktBody ..))]
  dsimp only
  rw [nhgetl_pktBody hi, nhgetl_drop_pktBody hj, if_neg hreset, wp_bind, wp_getConv,
    if_neg (by exact hfree)]
  change (if wrongIds w.conv op i j = true then _ else _ : ConvM Unit).wp _ _ _ ↔ _
  rw [hids, if_neg (by decide)]
  rfl

/-! ### The calls of the handshake -/

/-- The secret of a direction of an open conversation. -/
def mixed (secret : List UInt8) (a b : ℕ) : List UInt8 := hnputl a ++ hnputl b ++ secret.drop 8

section

variable {w : World} {i j : ℕ} {control : Bool}

/-- The call of `m` moves the conversation of `w` to `v` and sends only what meets `q`. -/
def Brings {α : Type} (m : ConvM α) (w : World) (v : Shaken) (q : List UInt8 → Prop) : Prop :=
  m.wp (fun _ => Moved w v q) (fun _ => Moved w v q) w

theorem moves_dial (henv : env.Calm) (hs : w.conv.state = .cInit) (hchan : w.conv.chan = true) :
    Brings (convsetstate L env .cDial) w
      { w.conv.shaken with state := .cDial, dialid := env.rand }
      (· = connectPacket ConOpenRequest env.rand 0) := by
  unfold Brings convsetstate
  simp only [wp_bind, wp_getConv, hs, wp_assert, decide_true, if_true, wp_setConv, convretryinit]
  rw [wp_convoconnect_calm henv (by exact hchan)]
  exact ⟨rfl, fun p hp _ => mem_wrote hp⟩

theorem moves_accept (henv : env.Calm) (hs : w.conv.state = .cInit) (hchan : w.conv.chan = true) :
    Brings (convsetstate L env .cAccept) w
      { w.conv.shaken with state := .cAccept, acceptid := env.rand }
      (· = connectPacket ConOpenAck w.conv.dialid env.rand) := by
  unfold Brings convsetstate
  simp only [wp_bind, wp_getConv, hs, wp_assert, decide_true, if_true, wp_setConv, convretryinit]
  rw [wp_convoconnect_calm henv (by exact hchan)]
  exact ⟨rfl, fun p hp _ => mem_wrote hp⟩

theorem moves_open_dial (henv : env.Calm) (hs : w.conv.state = .cDial)
    (hchan : w.conv.chan = true) :
    Brings (convsetstate L env .cOpen) w
      { w.conv.shaken with
        state := .cOpen, secretIn := mixed w.conv.inp.secret w.conv.acceptid w.conv.dialid
        secretOut := mixed w.conv.out.secret w.conv.dialid w.conv.acceptid }
      (· = connectPacket ConOpenAckAck w.conv.dialid w.conv.acceptid) := by
  unfold Brings convsetstate
  simp only [wp_bind, wp_getConv, hs, wp_assert, true_or, decide_true, if_true, wp_setConv,
    convretryinit, wp_ite]
  rw [wp_convoconnect_calm henv (by exact hchan)]
  refine ⟨?_, fun p hp _ => mem_wrote hp⟩
  simp only [Conv.shaken, World.conv_map, World.conv_wrote, countOut, putSecret, setauth,
    Authalg.init, md5authinit, authfree, mixed]

theorem moves_open_accept (hs : w.conv.state = .cAccept) :
    Brings (convsetstate L env .cOpen) w
      { w.conv.shaken with
        state := .cOpen, secretIn := mixed w.conv.inp.secret w.conv.dialid w.conv.acceptid
        secretOut := mixed w.conv.out.secret w.conv.acceptid w.conv.dialid }
      fun _ => False := by
  unfold Brings convsetstate
  simp only [wp_bind, wp_getConv, hs, wp_assert, or_true, decide_true, if_true, wp_setConv,
    reduceCtorEq, if_false, wp_ite]
  refine ⟨?_, fun p hp _ => .inl hp⟩
  simp only [Conv.shaken, World.conv_map, putSecret, setauth, Authalg.init, md5authinit, authfree,
    mixed]

/-- A request opens the way to `CAccept`. -/
theorem moves_openRequest (L : Libsec) (env : Env) (control : Bool) (henv : env.Calm)
    (hi : i < 4294967296) (hj : j < 4294967296)
    (hs : w.conv.state = .cInit) (hchan : w.conv.chan = true) :
    Brings (conviput L env (connectPacket ConOpenRequest i j) control) w
      { w.conv.shaken with state := .cAccept, dialid := i, acceptid := env.rand }
      (· = connectPacket ConOpenAck i env.rand) := by
  have hids : wrongIds w.conv ConOpenRequest i j = false := by simp only [wrongIds, hs]
  unfold Brings
  rw [wp_conviput_connect (by decide) (by decide) hi hj (by simp [hs]) hids, hs]
  exact moves_accept (L := L)
    (w := (w.map countIn).map fun c => { c with dialid := i }) henv hs hchan

/-- A repeated request is ignored. -/
theorem moves_openRequest_again (L : Libsec) (env : Env) (control : Bool)
    (hi : i < 4294967296) (hj : j < 4294967296)
    (hs : w.conv.state = .cAccept ∨ w.conv.state = .cOpen) (hdial : w.conv.dialid = i) :
    Brings (conviput L env (connectPacket ConOpenRequest i j) control) w w.conv.shaken
      fun _ => False := by
  have hids : wrongIds w.conv ConOpenRequest i j = false := by
    rcases hs with hs | hs <;> simp [wrongIds, hs, hdial]
  unfold Brings
  rw [wp_conviput_connect (by decide) (by decide) hi hj (by rcases hs with hs | hs <;> simp [hs])
    hids]
  rcases hs with hs | hs <;> rw [hs] <;> exact moved_self w _

/-- An acknowledgement opens the dialer. -/
theorem moves_openAck (L : Libsec) (env : Env) (control : Bool) (henv : env.Calm)
    (hi : i < 4294967296) (hj : j < 4294967296)
    (hs : w.conv.state = .cDial) (hchan : w.conv.chan = true) (hdial : w.conv.dialid = i) :
    Brings (conviput L env (connectPacket ConOpenAck i j) control) w
      { w.conv.shaken with
        state := .cOpen, acceptid := j, secretIn := mixed w.conv.inp.secret j i
        secretOut := mixed w.conv.out.secret i j }
      (· = connectPacket ConOpenAckAck i j) := by
  have hids : wrongIds w.conv ConOpenAck i j = false := by simp [wrongIds, hs, hdial]
  unfold Brings
  rw [wp_conviput_connect (by decide) (by decide) hi hj (by simp [hs]) hids, hs]
  subst hdial
  exact moves_open_dial (L := L)
    (w := (w.map countIn).map fun c => { c with acceptid := j }) henv hs hchan

/-- An open dialer answers a repeated acknowledgement with the ids in each other's place. -/
theorem moves_openAck_again (L : Libsec) (env : Env) (control : Bool) (henv : env.Calm)
    (hi : i < 4294967296) (hj : j < 4294967296)
    (hs : w.conv.state = .cOpen) (hchan : w.conv.chan = true) (hdial : w.conv.dialid = i)
    (haccept : w.conv.acceptid = j) :
    Brings (conviput L env (connectPacket ConOpenAck i j) control) w w.conv.shaken
      (· = connectPacket ConOpenAckAck j i) := by
  have hids : wrongIds w.conv ConOpenAck i j = false := by simp [wrongIds, hs, hdial, haccept]
  unfold Brings
  rw [wp_conviput_connect (by decide) (by decide) hi hj (by simp [hs]) hids, hs]
  unfold conviconnectIds
  rw [if_neg (by decide), if_pos rfl]
  dsimp only
  rw [wp_convoconnect_calm henv (by exact hchan)]
  exact ⟨rfl, fun p hp _ => mem_wrote hp⟩

/-- The acknowledgement of the acknowledgement opens the acceptor. -/
theorem moves_openAckAck (L : Libsec) (env : Env) (control : Bool) (hi : i < 4294967296)
    (hj : j < 4294967296)
    (hs : w.conv.state = .cAccept) (hdial : w.conv.dialid = i) (haccept : w.conv.acceptid = j) :
    Brings (conviput L env (connectPacket ConOpenAckAck i j) control) w
      { w.conv.shaken with
        state := .cOpen, secretIn := mixed w.conv.inp.secret i j
        secretOut := mixed w.conv.out.secret j i }
      fun _ => False := by
  have hids : wrongIds w.conv ConOpenAckAck i j = false := by
    simp [wrongIds, hs, hdial, haccept]
  unfold Brings
  rw [wp_conviput_connect (by decide) (by decide) hi hj (by simp [hs]) hids, hs]
  subst hdial haccept
  exact moves_open_accept (L := L) (w := w.map countIn) hs

theorem moves_openAckAck_again (L : Libsec) (env : Env) (control : Bool)
    (hi : i < 4294967296) (hj : j < 4294967296)
    (hs : w.conv.state = .cOpen) (hdial : w.conv.dialid = i) (haccept : w.conv.acceptid = j) :
    Brings (conviput L env (connectPacket ConOpenAckAck i j) control) w w.conv.shaken
      fun _ => False := by
  have hids : wrongIds w.conv ConOpenAckAck i j = false := by
    simp [wrongIds, hs, hdial, haccept]
  unfold Brings
  rw [wp_conviput_connect (by decide) (by decide) hi hj (by simp [hs]) hids, hs]
  exact moved_self w _

/-- What `convoput` makes of the direction and where its packet begins. -/
theorem encode_head {ow ow' : OneWay} {type subtype : ℕ} {b iv pkt : List UInt8}
    (h : encode L ow type subtype b iv = some (ow', pkt)) :
    ow'.secret = ow.secret ∧ ∃ t, pkt = uchar (type <<< 4 ||| subtype) :: t := by
  obtain ⟨st, hframe⟩ := encode_frame h
  have hnext : ow.nextSeq.secret = ow.secret := by
    unfold OneWay.nextSeq
    split <;> rfl
  refine ⟨by rw [hframe]; exact hnext, ?_⟩
  simp only [encode, Option.bind_eq_bind, Option.bind_eq_some_iff] at h
  obtain ⟨⟨ow₁, c⟩, hc, h⟩ := h
  dsimp only at h
  cases hauth : ow₁.auth with
  | none =>
      simp only [hauth, Option.some.injEq, Prod.mk.injEq] at h
      exact ⟨_, h.2.symm⟩
  | some f =>
      simp only [hauth, Option.bind_eq_some_iff, Option.some.injEq, Prod.mk.injEq] at h
      obtain ⟨⟨ok, t⟩, hrun, -, rfl⟩ := h
      simp only [AuthFn.run, md5auth] at hrun
      split at hrun
      · simp only [Option.some.injEq, Prod.mk.injEq] at hrun
        exact ⟨_, hrun.2.symm⟩
      · split at hrun
        · simp at hrun
        · simp only [Option.some.injEq, Prod.mk.injEq] at hrun
          rw [← hrun.2, List.length_append, List.length_replicate, Nat.add_sub_cancel,
            List.take_left' rfl]
          exact ⟨_, rfl⟩

/-- The control messages of a timer are no connection packets. -/
theorem moves_convoput (henv : env.Calm) (b : List UInt8) :
    Brings (convoput L env TControl ControlMesg b) w w.conv.shaken fun _ => False := by
  unfold Brings convoput
  rw [wp_bind, wp_modify, wp_bind, wp_setConv, wp_bind, wp_getConv]
  simp only [out_map_countOut]
  cases henc : encode L w.conv.out TControl ControlMesg b
      (List.replicate w.conv.out.cipherivlen 0) with
  | none => exact ⟨rfl, fun p hp _ => .inl hp⟩
  | some r =>
      obtain ⟨ow, pkt⟩ := r
      obtain ⟨hsecret, t, rfl⟩ := encode_head henc
      have hshaken : (World.map (fun c => { c with out := ow }) (w.map countOut)).conv.shaken =
          w.conv.shaken := by
        simp only [Conv.shaken, World.conv_map, countOut, hsecret]
      dsimp only
      rw [wp_bind, wp_setConv]
      simp only [convwriteblock, wp_bind, wp_get, wp_modify, wp_ite, wp_pure, wp_assert, henv.1,
        Bool.false_eq_true, if_false]
      split
      · exact ⟨hshaken, fun p hp _ => .inl hp⟩
      split
      · refine ⟨hshaken, fun p hp htype => ?_⟩
        rcases List.mem_append.mp hp with hp | hp
        · exact .inl hp
        · obtain rfl := List.mem_singleton.mp hp
          rw [pktType_cons, toNat_uchar] at htype
          exact absurd htype (by decide)
      · exact ⟨hshaken, fun p hp _ => .inl hp⟩

/-- The timer repeats the last message of the handshake, or sends none. -/
theorem moves_timer (henv : env.Calm) (hchan : w.conv.chan = true)
    (hs : w.conv.state = .cInit ∨ w.conv.state = .cDial ∨ w.conv.state = .cAccept ∨
      w.conv.state = .cOpen)
    (hretries : w.conv.retries < MaxRetries) :
    Brings (convtimer L env) w w.conv.shaken fun p =>
      w.conv.state = .cDial ∧ p = connectPacket ConOpenRequest w.conv.dialid 0 ∨
      w.conv.state = .cAccept ∧ p = connectPacket ConOpenAck w.conv.dialid w.conv.acceptid := by
  unfold Brings convtimer
  rw [wp_bind, wp_getConv, wp_ite]
  split
  · exact moved_self w _
  rcases hs with hs | hs | hs | hs <;> simp only [hs]
  · exact moved_self w _
  · rw [wp_bind, wp_convretry_of_le (Nat.not_lt.mpr hretries), if_pos rfl]
    rw [wp_convoconnect_calm henv (by exact hchan)]
    refine ⟨rfl, fun p hp _ => (mem_wrote hp).imp_right fun h => .inl ⟨trivial, h⟩⟩
  · rw [wp_bind, wp_convretry_of_le (Nat.not_lt.mpr hretries), if_pos rfl]
    rw [wp_convoconnect_calm henv (by exact hchan)]
    refine ⟨rfl, fun p hp _ => (mem_wrote hp).imp_right fun h => .inr ⟨trivial, h⟩⟩
  · have hput {f : Conv → Conv} {b : List UInt8} (hf : (f w.conv).shaken = w.conv.shaken) :
        (convoput L env TControl ControlMesg b).wp (fun _ => Moved w w.conv.shaken fun _ => False)
          (fun _ => Moved w w.conv.shaken fun _ => False) (w.map f) := by
      have h := moves_convoput (L := L) (w := w.map f) henv b
      unfold Brings at h
      rwa [World.conv_map, hf] at h
    have hweak {q : List UInt8 → Prop} {w' : World}
        (h : Moved w w.conv.shaken (fun _ => False) w') : Moved w w.conv.shaken q w' :=
      h.mono fun _ h => h.elim
    cases w.conv.out.controlpkt with
    | some b =>
        dsimp only
        rw [wp_bind, wp_convretry_of_le (Nat.not_lt.mpr hretries), if_pos rfl]
        exact wp_mono (hput rfl) (fun _ _ h => hweak h) fun _ _ h => hweak h
    | none =>
        simp only [wp_bind, wp_setConv, wp_ite, wp_pure, convretryinit]
        split
        · exact moved_self w _
        split
        · exact moved_self w _
        rw [wp_waserror]
        refine wp_mono (hput (f := fun c => _) rfl) (fun _ _ h => hweak h) fun e _ h => ?_
        cases e <;> exact hweak h

end

/-! ### The two ends -/

/-- The states that the dialer and the acceptor go through together. -/
inductive Phase : ConvState → ConvState → Prop
  | idle : Phase .cInit .cInit
  | asked : Phase .cDial .cInit
  | answered : Phase .cDial .cAccept
  | opened : Phase .cOpen .cAccept
  | agreed : Phase .cOpen .cOpen

theorem Phase.dialer {s s' : ConvState} (h : Phase s s') :
    s = .cInit ∨ s = .cDial ∨ s = .cOpen := by
  cases h <;> simp

theorem Phase.acceptor {s s' : ConvState} (h : Phase s s') :
    s' = .cInit ∨ s' = .cAccept ∨ s' = .cOpen := by
  cases h <;> simp

/-- What holds of a dialer `d` and an acceptor `a` whose secrets were `s₁` and `s₂` at the start,
and of the packets `sd` and `sa` that they have sent. -/
structure Shaking (s₁ s₂ : List UInt8) (d a : Shaken) (sd sa : List (List UInt8)) : Prop where
  phase : Phase d.state a.state
  chan : d.chan = true ∧ a.chan = true
  dialid_lt : d.dialid < 4294967296
  acceptid_lt : a.acceptid < 4294967296
  dialid : a.state ≠ .cInit → a.dialid = d.dialid
  acceptid : d.state = .cOpen → d.acceptid = a.acceptid
  fromDialer : ∀ p ∈ sd, pktType p = TConnect →
    d.state ≠ .cInit ∧ p = connectPacket ConOpenRequest d.dialid 0 ∨
    d.state = .cOpen ∧ (p = connectPacket ConOpenAckAck d.dialid a.acceptid ∨
      p = connectPacket ConOpenAckAck a.acceptid d.dialid)
  fromAcceptor : ∀ p ∈ sa, pktType p = TConnect →
    a.state ≠ .cInit ∧ p = connectPacket ConOpenAck d.dialid a.acceptid
  dialerSecret : (d.secretIn, d.secretOut) =
    if d.state = .cOpen then (mixed s₁ a.acceptid d.dialid, mixed s₂ d.dialid a.acceptid)
    else (s₁, s₂)
  acceptorSecret : (a.secretIn, a.secretOut) =
    if a.state = .cOpen then (mixed s₂ d.dialid a.acceptid, mixed s₁ a.acceptid d.dialid)
    else (s₂, s₁)

namespace Shaking

variable {s₁ s₂ : List UInt8} {d a : Shaken} {sd sa sent : List (List UInt8)}

/-- The dialer says nothing that it could not have said before. -/
theorem repeatDialer (h : Shaking s₁ s₂ d a sd sa)
    (hsent : ∀ p ∈ sent, pktType p = TConnect → p ∈ sd ∨
      d.state ≠ .cInit ∧ p = connectPacket ConOpenRequest d.dialid 0 ∨
      d.state = .cOpen ∧ p = connectPacket ConOpenAckAck a.acceptid d.dialid) :
    Shaking s₁ s₂ d a sent sa where
  __ := h
  fromDialer p hp htype := by
    rcases hsent p hp htype with hp | hp | ⟨hs, hp⟩
    · exact h.fromDialer p hp htype
    · exact .inl hp
    · exact .inr ⟨hs, .inr hp⟩

/-- The acceptor says nothing that it could not have said before. -/
theorem repeatAcceptor (h : Shaking s₁ s₂ d a sd sa)
    (hsent : ∀ p ∈ sent, pktType p = TConnect → p ∈ sa ∨
      a.state ≠ .cInit ∧ p = connectPacket ConOpenAck d.dialid a.acceptid) :
    Shaking s₁ s₂ d a sd sent where
  __ := h
  fromAcceptor p hp htype := by
    rcases hsent p hp htype with hp | hp
    · exact h.fromAcceptor p hp htype
    · exact hp

theorem dial {i : ℕ} (h : Shaking s₁ s₂ d a sd sa) (hs : d.state = .cInit) (hi : i < 4294967296)
    (hsent : ∀ p ∈ sent, pktType p = TConnect →
      p ∈ sd ∨ p = connectPacket ConOpenRequest i 0) :
    Shaking s₁ s₂ { d with state := .cDial, dialid := i } a sent sa := by
  obtain ⟨st, chan, di, ac, si, so⟩ := d
  obtain rfl : st = .cInit := hs
  obtain ⟨st', chan', di', ac', si', so'⟩ := a
  obtain ⟨phase, hchan, hdl, hal, hdial, haccept, hfd, hfa, hds, has⟩ := h
  cases phase
  refine ⟨.asked, hchan, hi, hal, fun h => absurd rfl h, nofun, ?_, ?_, hds, has⟩
  · intro p hp htype
    rcases hsent p hp htype with hp | rfl
    · rcases hfd p hp htype with ⟨h, -⟩ | ⟨h, -⟩
      · exact absurd rfl h
      · cases h
    · exact .inl ⟨nofun, rfl⟩
  · exact fun p hp htype => absurd rfl (hfa p hp htype).1

theorem accept {j : ℕ} (h : Shaking s₁ s₂ d a sd sa) (hs : d.state ≠ .cInit)
    (hs' : a.state = .cInit) (hj : j < 4294967296)
    (hsent : ∀ p ∈ sent, pktType p = TConnect →
      p ∈ sa ∨ p = connectPacket ConOpenAck d.dialid j) :
    Shaking s₁ s₂ d { a with state := .cAccept, dialid := d.dialid, acceptid := j } sd sent := by
  obtain ⟨st, chan, di, ac, si, so⟩ := d
  obtain ⟨st', chan', di', ac', si', so'⟩ := a
  obtain rfl : st' = .cInit := hs'
  obtain ⟨phase, hchan, hdl, hal, hdial, haccept, hfd, hfa, hds, has⟩ := h
  cases phase with
  | idle => exact absurd rfl hs
  | asked =>
    refine ⟨.answered, hchan, hdl, hj, fun _ => rfl, nofun, ?_, ?_, hds, has⟩
    · intro p hp htype
      rcases hfd p hp htype with h | ⟨h, -⟩
      · exact .inl h
      · cases h
    · intro p hp htype
      rcases hsent p hp htype with hp | rfl
      · exact absurd rfl (hfa p hp htype).1
      · exact ⟨nofun, rfl⟩

theorem openDialer (h : Shaking s₁ s₂ d a sd sa) (hs : d.state = .cDial) (hs' : a.state ≠ .cInit)
    (hsent : ∀ p ∈ sent, pktType p = TConnect →
      p ∈ sd ∨ p = connectPacket ConOpenAckAck d.dialid a.acceptid) :
    Shaking s₁ s₂
      { d with
        state := .cOpen, acceptid := a.acceptid, secretIn := mixed d.secretIn a.acceptid d.dialid
        secretOut := mixed d.secretOut d.dialid a.acceptid }
      a sent sa := by
  obtain ⟨st, chan, di, ac, si, so⟩ := d
  obtain rfl : st = .cDial := hs
  obtain ⟨st', chan', di', ac', si', so'⟩ := a
  obtain ⟨phase, hchan, hdl, hal, hdial, haccept, hfd, hfa, hds, has⟩ := h
  cases phase with
  | asked => exact absurd rfl hs'
  | answered =>
    obtain ⟨rfl, rfl⟩ : si = s₁ ∧ so = s₂ := Prod.mk.inj hds
    refine ⟨.opened, hchan, hdl, hal, hdial, fun _ => rfl, ?_, hfa, rfl, has⟩
    intro p hp htype
    rcases hsent p hp htype with hp | rfl
    · rcases hfd p hp htype with ⟨-, h⟩ | ⟨h, -⟩
      · exact .inl ⟨nofun, h⟩
      · cases h
    · exact .inr ⟨rfl, .inl rfl⟩

theorem openAcceptor (h : Shaking s₁ s₂ d a sd sa) (hs : d.state = .cOpen)
    (hs' : a.state = .cAccept) (hsent : ∀ p ∈ sent, pktType p = TConnect → p ∈ sa) :
    Shaking s₁ s₂ d
      { a with
        state := .cOpen, secretIn := mixed a.secretIn d.dialid a.acceptid
        secretOut := mixed a.secretOut a.acceptid d.dialid }
      sd sent := by
  obtain ⟨st, chan, di, ac, si, so⟩ := d
  obtain rfl : st = .cOpen := hs
  obtain ⟨st', chan', di', ac', si', so'⟩ := a
  obtain rfl : st' = .cAccept := hs'
  obtain ⟨phase, hchan, hdl, hal, hdial, haccept, hfd, hfa, hds, has⟩ := h
  obtain ⟨rfl, rfl⟩ : si' = s₂ ∧ so' = s₁ := Prod.mk.inj has
  refine ⟨.agreed, hchan, hdl, hal, fun _ => hdial nofun, haccept, hfd, ?_, hds, rfl⟩
  exact fun p hp htype => ⟨nofun, (hfa p (hsent p hp htype) htype).2⟩

end Shaking

/-! ### Runs of the handshake -/

/-- A dialer and an acceptor, with all the packets that they have sent: the network may deliver each
of them at any time, any number of times, or never. -/
structure Handshake where
  dialer : World
  acceptor : World

inductive HandshakeEvent where
  | dial
  | dialerTimer
  | acceptorTimer
  | toDialer (pkt : List UInt8) (control : Bool)
  | toAcceptor (pkt : List UInt8) (control : Bool)

/-- A timer has retries left, and the packet that arrives is one of a connection and has been
sent. -/
def HandshakeEvent.Enabled (t : Handshake) : HandshakeEvent → Prop
  | .dial => t.dialer.conv.state = .cInit
  | .dialerTimer => t.dialer.conv.retries < MaxRetries
  | .acceptorTimer => t.acceptor.conv.retries < MaxRetries
  | .toDialer pkt _ => pkt ∈ t.acceptor.sent ∧ pktType pkt = TConnect
  | .toAcceptor pkt _ => pkt ∈ t.dialer.sent ∧ pktType pkt = TConnect

instance (t : Handshake) : DecidablePred (HandshakeEvent.Enabled t)
  | .dial => inferInstanceAs (Decidable (_ = _))
  | .dialerTimer | .acceptorTimer => inferInstanceAs (Decidable (_ < _))
  | .toDialer _ _ | .toAcceptor _ _ => inferInstanceAs (Decidable (_ ∧ _))

def Handshake.step (L : Libsec) (env : Env) (t : Handshake) : HandshakeEvent → Handshake
  | .dial => { t with dialer := (convsetstate L env .cDial t.dialer).2 }
  | .dialerTimer => { t with dialer := (convtimer L env t.dialer).2 }
  | .acceptorTimer => { t with acceptor := (convtimer L env t.acceptor).2 }
  | .toDialer pkt control => { t with dialer := (conviput L env pkt control t.dialer).2 }
  | .toAcceptor pkt control => { t with acceptor := (conviput L env pkt control t.acceptor).2 }

/-- A step of the handshake, in an environment in which the writes succeed. -/
def Shakes (L : Libsec) (t : Handshake) (e : Env × HandshakeEvent) (t' : Handshake) : Prop :=
  e.1.Calm ∧ e.2.Enabled t ∧ t' = t.step L e.1 e.2

/-- A `ConOpenAckAck` with the ids of the acceptor in each other's place arrives. -/
def Crossed (t : Handshake) : Env × HandshakeEvent → Prop
  | (_, .toAcceptor pkt _) =>
      pkt = connectPacket ConOpenAckAck t.acceptor.conv.acceptid t.acceptor.conv.dialid ∧
        t.acceptor.conv.acceptid ≠ t.acceptor.conv.dialid
  | _ => False

/-- A dialer and an acceptor that have opened their channels, with the same secrets, those of new
conversations for instance. -/
structure Ready (d a : Conv) : Prop where
  state : d.state = .cInit ∧ a.state = .cInit
  chan : d.chan = true ∧ a.chan = true
  ids_lt : d.dialid < 4294967296 ∧ a.acceptid < 4294967296
  secret : d.inp.secret = a.out.secret ∧ d.out.secret = a.inp.secret

/-- Nobody has sent a reset. -/
def Handshake.NoReset (t : Handshake) : Prop :=
  ∀ p ∈ t.dialer.sent ++ t.acceptor.sent, ∀ i j, p ≠ connectPacket ConReset i j

/-- Two open ends have the same ids and secrets. -/
def Handshake.Agree (t : Handshake) : Prop :=
  let d := t.dialer.conv
  let a := t.acceptor.conv
  d.state = .cOpen → a.state = .cOpen →
    d.dialid = a.dialid ∧ d.acceptid = a.acceptid ∧ d.inp.secret = a.out.secret ∧
      a.inp.secret = d.out.secret

def Handshake.Inv (s₁ s₂ : List UInt8) (t : Handshake) : Prop :=
  Shaking s₁ s₂ t.dialer.conv.shaken t.acceptor.conv.shaken t.dialer.sent t.acceptor.sent

section

variable {s₁ s₂ : List UInt8} {t : Handshake} {pkt : List UInt8} {control : Bool}

theorem inv_of_dialer {w : World} {v : Shaken} {q : List UInt8 → Prop} (hm : Moved t.dialer v q w)
    (h : Shaking s₁ s₂ v t.acceptor.conv.shaken w.sent t.acceptor.sent) :
    Handshake.Inv s₁ s₂ { t with dialer := w } := by
  obtain ⟨rfl, -⟩ := hm
  exact h

theorem inv_of_acceptor {w : World} {v : Shaken} {q : List UInt8 → Prop}
    (hm : Moved t.acceptor v q w)
    (h : Shaking s₁ s₂ t.dialer.conv.shaken v t.dialer.sent w.sent) :
    Handshake.Inv s₁ s₂ { t with acceptor := w } := by
  obtain ⟨rfl, -⟩ := hm
  exact h

theorem inv_dialerTimer (henv : env.Calm) (h : t.Inv s₁ s₂)
    (hretries : t.dialer.conv.retries < MaxRetries) :
    (t.step L env .dialerTimer).Inv s₁ s₂ := by
  have hs : t.dialer.conv.state = .cInit ∨ t.dialer.conv.state = .cDial ∨
      t.dialer.conv.state = .cOpen := Phase.dialer h.phase
  have hm := wp_snd (moves_timer (L := L) henv h.chan.1 (by tauto) hretries)
  refine inv_of_dialer hm (h.repeatDialer fun p hp htype =>
    (hm.2 p hp htype).imp_right fun hq => ?_)
  rcases hq with ⟨hd, hp⟩ | ⟨ha, -⟩
  · exact .inl ⟨fun h0 => ConvState.noConfusion (hd.symm.trans h0), hp⟩
  · simp [ha] at hs

theorem inv_acceptorTimer (henv : env.Calm) (h : t.Inv s₁ s₂)
    (hretries : t.acceptor.conv.retries < MaxRetries) :
    (t.step L env .acceptorTimer).Inv s₁ s₂ := by
  have hs : t.acceptor.conv.state = .cInit ∨ t.acceptor.conv.state = .cAccept ∨
      t.acceptor.conv.state = .cOpen := Phase.acceptor h.phase
  have hm := wp_snd (moves_timer (L := L) henv h.chan.2 (by tauto) hretries)
  refine inv_of_acceptor hm (h.repeatAcceptor fun p hp htype =>
    (hm.2 p hp htype).imp_right fun hq => ?_)
  rcases hq with ⟨hd, -⟩ | ⟨ha, hp⟩
  · simp [hd] at hs
  · have hne : t.acceptor.conv.shaken.state ≠ .cInit :=
      fun h0 => ConvState.noConfusion (ha.symm.trans h0)
    exact ⟨hne, hp.trans (congrArg₂ _ (h.dialid hne) rfl)⟩

theorem inv_dial (henv : env.Calm) (h : t.Inv s₁ s₂) (hs : t.dialer.conv.state = .cInit) :
    (t.step L env .dial).Inv s₁ s₂ := by
  have hm := wp_snd (moves_dial (L := L) henv hs h.chan.1)
  exact inv_of_dialer hm (h.dial hs henv.2 hm.2)

theorem inv_toDialer (henv : env.Calm) (h : t.Inv s₁ s₂) (hpkt : pkt ∈ t.acceptor.sent)
    (htype : pktType pkt = TConnect) : (t.step L env (.toDialer pkt control)).Inv s₁ s₂ := by
  obtain ⟨ha, rfl⟩ := h.fromAcceptor pkt hpkt htype
  have hs : t.dialer.conv.state = .cInit ∨ t.dialer.conv.state = .cDial ∨
      t.dialer.conv.state = .cOpen := Phase.dialer h.phase
  rcases hs with hs | hs | hs
  · have hphase : Phase t.dialer.conv.state t.acceptor.conv.shaken.state := h.phase
    rw [hs] at hphase
    generalize t.acceptor.conv.shaken.state = s at ha hphase
    cases hphase
    exact absurd rfl ha
  · have hm := wp_snd (moves_openAck L env control henv h.dialid_lt
      h.acceptid_lt hs h.chan.1 rfl)
    exact inv_of_dialer hm (h.openDialer hs ha hm.2)
  · have hm := wp_snd (moves_openAck_again L env control henv
      h.dialid_lt h.acceptid_lt hs h.chan.1 rfl (h.acceptid hs))
    exact inv_of_dialer hm (h.repeatDialer fun p hp htype =>
      (hm.2 p hp htype).imp_right fun hq => .inr ⟨hs, hq⟩)

/-- An acknowledgement that is not crossed names the ids in their places. -/
theorem inv_openAckAck (h : t.Inv s₁ s₂) (hs : t.dialer.conv.state = .cOpen)
    (hpkt : pkt = connectPacket ConOpenAckAck t.dialer.conv.dialid t.acceptor.conv.acceptid) :
    (t.step L env (.toAcceptor pkt control)).Inv s₁ s₂ := by
  subst hpkt
  have ha : t.acceptor.conv.state = .cAccept ∨ t.acceptor.conv.state = .cOpen := by
    have hphase : Phase t.dialer.conv.state t.acceptor.conv.state := h.phase
    rw [hs] at hphase
    generalize t.acceptor.conv.state = s at hphase ⊢
    cases hphase <;> simp
  have hdial : t.acceptor.conv.dialid = t.dialer.conv.dialid :=
    h.dialid fun h0 => by
      have h0' : t.acceptor.conv.state = .cInit := h0
      simp [h0'] at ha
  rcases ha with ha | ha
  · have hm := wp_snd (moves_openAckAck L env control
      h.dialid_lt h.acceptid_lt ha hdial rfl)
    exact inv_of_acceptor hm (h.openAcceptor hs ha fun p hp htype =>
      (hm.2 p hp htype).resolve_right id)
  · have hm := wp_snd (moves_openAckAck_again L env control h.dialid_lt h.acceptid_lt ha hdial rfl)
    exact inv_of_acceptor hm (h.repeatAcceptor fun p hp htype =>
      (hm.2 p hp htype).imp_right False.elim)

theorem inv_openRequest (henv : env.Calm) (h : t.Inv s₁ s₂) (hs : t.dialer.conv.state ≠ .cInit)
    (hpkt : pkt = connectPacket ConOpenRequest t.dialer.conv.dialid 0) :
    (t.step L env (.toAcceptor pkt control)).Inv s₁ s₂ := by
  subst hpkt
  have ha : t.acceptor.conv.state = .cInit ∨ t.acceptor.conv.state = .cAccept ∨
      t.acceptor.conv.state = .cOpen := Phase.acceptor h.phase
  by_cases h0 : t.acceptor.conv.state = .cInit
  · have hm := wp_snd (moves_openRequest L env control henv
      h.dialid_lt (Nat.zero_lt_succ _) h0 h.chan.2)
    exact inv_of_acceptor hm (h.accept hs h0 henv.2 hm.2)
  · have hm := wp_snd (moves_openRequest_again L env control h.dialid_lt (Nat.zero_lt_succ _)
      (ha.resolve_left h0) (h.dialid h0))
    exact inv_of_acceptor hm (h.repeatAcceptor fun p hp htype =>
      (hm.2 p hp htype).imp_right False.elim)

theorem inv_toAcceptor (henv : env.Calm) (h : t.Inv s₁ s₂) (hpkt : pkt ∈ t.dialer.sent)
    (htype : pktType pkt = TConnect) (hok : ¬ Crossed t (env, .toAcceptor pkt control)) :
    (t.step L env (.toAcceptor pkt control)).Inv s₁ s₂ := by
  rcases h.fromDialer pkt hpkt htype with ⟨hs, hp⟩ | ⟨hs, hp | hp⟩
  · exact inv_openRequest henv h hs hp
  · exact inv_openAckAck h hs hp
  · -- the ids are the same, for otherwise the acknowledgement would be crossed
    have hdial : t.acceptor.conv.dialid = t.dialer.conv.dialid := by
      refine h.dialid fun h0 => ?_
      have hphase : Phase t.dialer.conv.shaken.state t.acceptor.conv.shaken.state := h.phase
      rw [hs, h0] at hphase
      cases hphase
    have heq : t.acceptor.conv.acceptid = t.dialer.conv.dialid := by
      by_contra hne
      exact hok ⟨hp.trans (congrArg₂ _ rfl hdial.symm), fun heq => hne (heq.trans hdial)⟩
    refine inv_openAckAck h hs (hp.trans ?_)
    change connectPacket ConOpenAckAck t.acceptor.conv.acceptid t.dialer.conv.dialid = _
    rw [heq]

/-- A step in which no crossed acknowledgement arrives keeps the invariant. -/
theorem inv_shakes {e : Env × HandshakeEvent} {t' : Handshake} (h : t.Inv s₁ s₂)
    (hok : ¬ Crossed t e) (hstep : Shakes L t e t') : t'.Inv s₁ s₂ := by
  obtain ⟨env, e⟩ := e
  obtain ⟨henv, hen, rfl⟩ := hstep
  cases e with
  | dial => exact inv_dial henv h hen
  | dialerTimer => exact inv_dialerTimer henv h hen
  | acceptorTimer => exact inv_acceptorTimer henv h hen
  | toDialer pkt control => exact inv_toDialer henv h hen.1 hen.2
  | toAcceptor pkt control => exact inv_toAcceptor henv h hen.1 hen.2 hok

theorem inv_ready {d a : Conv} (h : Ready d a) :
    Handshake.Inv d.inp.secret d.out.secret ⟨{ conv := d }, { conv := a }⟩ := by
  have hphase : Phase d.state a.state := by
    rw [h.state.1, h.state.2]
    exact .idle
  have hd : d.state ≠ .cOpen := by simp [h.state.1]
  have ha : a.state ≠ .cOpen := by simp [h.state.2]
  exact
    { phase := hphase
      chan := h.chan
      dialid_lt := h.ids_lt.1
      acceptid_lt := h.ids_lt.2
      dialid := fun hne => absurd h.state.2 hne
      acceptid := fun hs => absurd hs hd
      fromDialer := nofun
      fromAcceptor := nofun
      dialerSecret := (if_neg hd).symm
      acceptorSecret := (if_neg ha).symm ▸ congrArg₂ Prod.mk h.secret.2.symm h.secret.1.symm }

theorem noReset_of_inv (h : t.Inv s₁ s₂) : t.NoReset := by
  rintro p hp i j rfl
  have htype : pktType (connectPacket ConReset i j) = TConnect :=
    pktType_connectPacket (by decide) i j
  have hne {op i' j' : ℕ} (hop : op < ConReset) :
      connectPacket ConReset i j ≠ connectPacket op i' j' := fun heq =>
    hop.ne (connectPacket_op (by decide) (hop.trans (by decide)) heq).symm
  rcases List.mem_append.mp hp with hp | hp
  · rcases h.fromDialer _ hp htype with ⟨-, h⟩ | ⟨-, h | h⟩
    · exact hne (by decide) h
    · exact hne (by decide) h
    · exact hne (by decide) h
  · exact hne (by decide) (h.fromAcceptor _ hp htype).2

theorem agree_of_inv (h : t.Inv s₁ s₂) : t.Agree := by
  intro hd ha
  have hds : (t.dialer.conv.inp.secret, t.dialer.conv.out.secret) = _ :=
    h.dialerSecret.trans (if_pos hd)
  have has : (t.acceptor.conv.inp.secret, t.acceptor.conv.out.secret) = _ :=
    h.acceptorSecret.trans (if_pos ha)
  obtain ⟨hdi, hdo⟩ := Prod.mk.inj hds
  obtain ⟨hai, hao⟩ := Prod.mk.inj has
  have hne : t.acceptor.conv.shaken.state ≠ .cInit :=
    fun h0 => ConvState.noConfusion (ha.symm.trans h0)
  exact ⟨(h.dialid hne).symm, h.acceptid hd, hdi.trans hao.symm, hai.trans hdo.symm⟩

end

/-! ### A lost acknowledgement -/

/-- A new conversation with an open channel. -/
def waiting : Conv := { cloned "u" {} with chan := true }

theorem ready_waiting : Ready waiting waiting := by
  constructor <;> decide

end PlanNine.Sdp
