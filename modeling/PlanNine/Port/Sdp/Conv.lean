import PlanNine.Port.Sdp.Alg

/-!
# The state machine of a conversation

The routines of `devsdp.c` that send and receive the packets of one conversation and move it
between its states. They work under the lock of the conversation, so each call is one step.

`convsetstate` and `convwriteblock` call each other in the source: a failed write closes the
conversation. Closing sends nothing, so `convclose`, the case `CClosed` of `convsetstate`, comes
first and the others use it.

## Main definitions

* `convderef`, `convclose`, `convsetstate`: the reference count and the state.
* `convwriteblock`, `convoput`, `convoconnect`: output.
* `conviput`, `conviconnect`, `convicontrol`, `convicomp`: input.
* `convtimer`, `readcontrol`, `writecontrol`, `writedata`: the timer and the calls of readers and
  writers.
-/

namespace PlanNine.Sdp

open Thw Kern

variable (L : Libsec) (env : Env)

/-! ### Packet types -/

def TConnect : ℕ := 0
def TControl : ℕ := 1
def TData : ℕ := 2
def TCompData : ℕ := 3

def ControlMesg : ℕ := 0
def ControlAck : ℕ := 1

def ConOpenRequest : ℕ := 0
def ConOpenAck : ℕ := 1
def ConOpenAckAck : ℕ := 2
def ConClose : ℕ := 3
def ConCloseAck : ℕ := 4
def ConReset : ℕ := 5

/-! ### References and states -/

/-- The conversation after its last reference is gone. -/
def cleared (c : Conv) : Conv :=
  { c with
    state := .cFree, chan := false, channame := none, cipher := none, auth := none, comp := none
    owner := "network", perm := 0o660, dialid := 0, acceptid := 0, timeout := 0, retries := 0
    drop := 0, inp := {}, out := {}, lstats := {}, rstats := {} }

def dropRef (c : Conv) : Conv := { c with ref := c.ref - 1 }

def convderef : ConvM Unit := do
  setConv dropRef
  let c ← getConv
  if 0 < c.ref then return
  assert (c.ref = 0) .convderef
  assert (c.dataopen = 0) .convderef
  assert (c.controlopen = 0) .convderef
  setConv cleared

/-- `convsetstate(c, CClosed)`. -/
def convclose : ConvM Unit := do
  let c ← getConv
  if c.state ≠ .cClosed then convderef
  setConv fun c => { c with state := .cClosed }

def convwriteblock (b : List UInt8) : ConvM Unit := do
  let w ← get
  modify fun w => { w with nwrite := w.nwrite + 1 }
  if w.conv.drop ≠ 0 ∧ env.dropped w.nwrite then return
  assert w.conv.chan .nilchan
  if env.fails w.nwrite then
    convclose
    error "write error"
  modify fun w => { w with sent := w.sent ++ [b] }

/-- A connection packet. -/
def connectPacket (op dialid acceptid : ℕ) : List UInt8 :=
  uchar (TConnect <<< 4 ||| op) :: (hnputl dialid ++ hnputl acceptid)

/-- `c->lstats.outPackets++`. -/
def countOut (c : Conv) : Conv :=
  { c with lstats := { c.lstats with outPackets := incr c.lstats.outPackets } }

theorem out_map_countOut (w : World) : (w.map countOut).conv.out = w.conv.out := rfl

def convoconnect (op dialid acceptid : ℕ) : ConvM Unit := do
  setConv countOut
  let c ← getConv
  assert c.chan .convoconnect
  waserror (convwriteblock env (connectPacket op dialid acceptid)) fun _ => pure ()

def convretryinit : ConvM Unit :=
  setConv fun c => { c with retries := 0, timeout := env.sec + 2 }

/-- `hnputl(secret, a); hnputl(secret+4, b)`. -/
def putSecret (ow : OneWay) (a b : ℕ) : OneWay :=
  { ow with secret := hnputl a ++ hnputl b ++ ow.secret.drop 8 }

/-- `setalg(c, name, authalg, &c->auth)` for a name of the table. -/
def setauth (a : Authalg) (c : Conv) : Conv := a.init L { c with auth := some a }

def setcipher (a : Cipheralg) (c : Conv) : Conv := a.init L env.ivec { c with cipher := some a }

def thwackcompinit : ConvM Unit := do
  setConv compfree
  if env.nomem 0 then error "no memory"
  setConv fun c => { c with inp := { c.inp with compstate := some (.unthwack unthwackinit) } }
  if env.nomem 1 then error "no memory"
  setConv fun c => { c with
    out := { c.out with compstate := some (.thwack thwackinit), comp := some .thwackcomp }
    inp := { c.inp with comp := some .thwackuncomp } }

def setcomp (a : Compalg) : ConvM Unit := do
  setConv fun c => { c with comp := some a }
  match a with
  | .null => setConv compfree
  | .thwack => thwackcompinit env

def convsetstate (state : ConvState) : ConvM Unit := do
  let c ← getConv
  match state with
  | .cFree | .cInit => panic .setstate
  | .cDial =>
      assert (c.state = .cInit) .convsetstate
      setConv fun c => { c with dialid := env.rand }
      convretryinit env
      convoconnect env ConOpenRequest env.rand 0
      setConv fun c => { c with state := .cDial }
  | .cAccept =>
      assert (c.state = .cInit) .convsetstate
      setConv fun c => { c with acceptid := env.rand }
      convretryinit env
      convoconnect env ConOpenAck c.dialid env.rand
      setConv fun c => { c with state := .cAccept }
  | .cOpen =>
      assert (c.state = .cDial ∨ c.state = .cAccept) .convsetstate
      setConv fun c => { c with lastrecv := env.sec }
      if c.state = .cDial then
        convretryinit env
        convoconnect env ConOpenAckAck c.dialid c.acceptid
        setConv fun c => { c with
          inp := putSecret c.inp c.acceptid c.dialid, out := putSecret c.out c.dialid c.acceptid }
      else
        setConv fun c => { c with
          inp := putSecret c.inp c.dialid c.acceptid, out := putSecret c.out c.acceptid c.dialid }
      setConv (setauth L .hmac_md5_96)
      setConv fun c => { c with state := .cOpen }
  | .cLocalClose =>
      assert (c.state = .cAccept ∨ c.state = .cOpen) .convsetstate
      convretryinit env
      convoconnect env ConClose c.dialid c.acceptid
      setConv fun c => { c with state := .cLocalClose }
  | .cRemoteClose => setConv fun c => { c with state := .cRemoteClose }
  | .cClosed => convclose

/-! ### Output -/

/-- The padding of a payload of `n` bytes: zeros and the number of bytes padded. -/
def padding (ow : OneWay) (n : ℕ) : List UInt8 :=
  if 1 < ow.cipherblklen then
    let pad := ow.cipherblklen - (n + ow.cipherivlen) % ow.cipherblklen
    List.replicate (pad - 1) 0 ++ [uchar pad]
  else []

/-- The three bytes of a sequence number. -/
def seqBytes (seq : ℕ) : List UInt8 := [uchar (seq >>> 16), uchar (seq >>> 8), uchar seq]

/-- Move the sequence number of a direction on by one. -/
def OneWay.nextSeq (ow : OneWay) : OneWay :=
  if ow.seq + 1 = SeqMax then { ow with seq := 0, seqwrap := incr ow.seqwrap }
  else { ow with seq := incr ow.seq }

/-- `(*c->out.cipher)(&c->out, p, n)`, when there is a cipher. -/
def encipher (ow : OneWay) (body : List UInt8) : Option (OneWay × List UInt8) :=
  match ow.cipher with
  | none => some (ow, body)
  | some f => (f.run L ow body body.length).map fun (_, ow, body) => (ow, body)

/-- The packet that `convoput` writes, and the direction after it; `none` when an algorithm has no
state. The room for the initial vector is not cleared in the source; `iv` stands for it. -/
def encode (ow : OneWay) (type subtype : ℕ) (b iv : List UInt8) : Option (OneWay × List UInt8) := do
  let ow := ow.nextSeq
  let body := iv ++ b ++ padding ow b.length
  let hdr := uchar (type <<< 4 ||| subtype) :: seqBytes ow.seq
  let (ow, body) ← encipher L ow body
  let pkt := hdr ++ body
  match ow.auth with
  | none => some (ow, pkt)
  | some f =>
      let (_, pkt) ← f.run L ow (pkt ++ List.replicate ow.authlen 0)
      some (ow, pkt)

def convoput (type subtype : ℕ) (b : List UInt8) : ConvM Unit := do
  modify fun w => { w with puts := w.puts ++ [(type, subtype, b)] }
  setConv countOut
  let c ← getConv
  match encode L c.out type subtype b (List.replicate c.out.cipherivlen 0) with
  | none => panic .nilalg
  | some (ow, pkt) =>
      setConv fun c => { c with out := ow }
      convwriteblock env pkt

/-- The words of an acknowledgement, in the order of `AckPkt`. -/
def ackWords (cseq : ℕ) (s : Stats) : List ℕ :=
  [cseq, s.outPackets, s.outDataPackets, s.outDataBytes, s.outCompDataBytes,
    s.outCompStats.StatBytes, s.outCompStats.StatOutBytes, s.outCompStats.StatLits,
    s.outCompStats.StatMatches, s.outCompStats.StatOffBits, s.outCompStats.StatLenBits,
    s.outCompStats.StatDelay, s.outCompStats.StatHist, s.inPackets, s.inDataPackets,
    s.inDataBytes, s.inCompDataBytes, s.inMissing, s.inDup, s.inReorder, s.inBadComp,
    s.inBadAuth, s.inBadSeq, s.inBadOther]

/-- `sizeof(AckPkt)`. -/
def AckPktSize : ℕ := 96

/-- The statistics carried by an acknowledgement. -/
def ackStats (s : Stats) (p : List UInt8) : Stats :=
  let w (i : ℕ) := nhgetl (p.drop (4 * i))
  { s with
    outPackets := w 1, outDataPackets := w 2, outDataBytes := w 3, outCompDataBytes := w 4
    outCompStats :=
      { StatBytes := w 5, StatOutBytes := w 6, StatLits := w 7, StatMatches := w 8
        StatOffBits := w 9, StatLenBits := w 10, StatDelay := w 11, StatHist := w 12 }
    inPackets := w 13, inDataPackets := w 14, inDataBytes := w 15, inCompDataBytes := w 16
    inMissing := w 17, inDup := w 18, inReorder := w 19, inBadComp := w 20, inBadAuth := w 21
    inBadSeq := w 22, inBadOther := w 23 }

def convack : ConvM Unit := do
  let c ← getConv
  convoput L env TControl ControlAck ((ackWords c.inp.controlseq c.lstats).flatMap hnputl)

/-! ### Input -/

/-- Reset to the sender of an invalid connection message. -/
def conreset (dialid acceptid : ℕ) : ConvM Unit := do
  convoconnect env ConReset dialid acceptid
  convclose

/-- Whether a connection packet names another conversation. -/
def wrongIds (c : Conv) (subtype dialid acceptid : ℕ) : Bool :=
  match c.state with
  | .cDial => dialid ≠ c.dialid
  | .cAccept | .cOpen | .cLocalClose | .cRemoteClose =>
      dialid ≠ c.dialid ∨ (subtype ≠ ConOpenRequest ∧ acceptid ≠ c.acceptid)
  | .cClosed => true
  | .cFree | .cInit => false

/-- The second switch of `conviconnect`: a message with the right ids, in the state `s`. -/
def conviconnectIds (s : ConvState) (subtype dialid acceptid : ℕ) : ConvM Unit := do
  if subtype = ConOpenRequest then
    match s with
    | .cInit =>
        setConv fun c => { c with dialid := dialid }
        convsetstate L env .cAccept
    | .cAccept | .cOpen => return
    | _ => conreset env dialid acceptid
  else if subtype = ConOpenAck then
    match s with
    | .cDial =>
        setConv fun c => { c with acceptid := acceptid }
        convsetstate L env .cOpen
    -- the ids change places here
    | .cOpen => convoconnect env ConOpenAckAck acceptid dialid
    | _ => conreset env dialid acceptid
  else if subtype = ConOpenAckAck then
    match s with
    | .cAccept => convsetstate L env .cOpen
    | .cOpen | .cLocalClose | .cRemoteClose => return
    | _ => conreset env dialid acceptid
  else if subtype = ConClose then
    match s with
    | .cOpen =>
        convoconnect env ConCloseAck dialid acceptid
        convsetstate L env .cRemoteClose
    | .cRemoteClose => convoconnect env ConCloseAck dialid acceptid
    | _ => conreset env dialid acceptid
  else if subtype = ConCloseAck then
    match s with
    | .cLocalClose => convclose
    | _ => conreset env dialid acceptid
  else conreset env dialid acceptid

def conviconnect (subtype : ℕ) (b : Block) : ConvM Unit := do
  if b.blen ≠ 8 then return
  let dialid := nhgetl b.data
  let acceptid := nhgetl (b.data.drop 4)
  if subtype = ConReset then convclose
  else
    let c ← getConv
    if c.state = .cFree then panic .conviconnect
    if wrongIds c subtype dialid acceptid then conreset env dialid acceptid
    else conviconnectIds L env c.state subtype dialid acceptid

/-- Leave a control message for `readcontrol`. -/
def handControl (p : List UInt8) : ConvM Unit := do
  setConv fun c => { c with inp := { c.inp with controlpkt := some p } }
  modify fun w => { w with handed := w.handed ++ [p] }

def convicontrol (subtype : ℕ) (b : Block) : ConvM Unit := do
  if b.blen < 4 then return
  let cseq := nhgetl b.data
  let c ← getConv
  if subtype = ControlMesg then
    if cseq = c.inp.controlseq then
      if c.inp.controlpkt = none then convack L env
    else if cseq ≠ incr c.inp.controlseq then return
    else
      setConv fun c => { c with inp := { c.inp with controlseq := cseq } }
      let b := { b with rp := b.rp + 4 }
      if b.blen = 0 then convack L env
      else handControl b.data
  else if subtype = ControlAck then
    if cseq ≠ c.out.controlseq then return
    else if b.blen < AckPktSize then return
    else
      setConv fun c => { c with
        rstats := ackStats c.rstats b.data
        out := { c.out with controlpkt := none }
        timeout := c.lastrecv + KeepAlive }

def convicomp (subtype seq : ℕ) (b : Block) : ConvM (Option Block) := do
  let c ← getConv
  match c.inp.comp with
  | none => return none
  | some _ =>
      match thwackuncomp c subtype seq b with
      | none => panic .nilalg
      | some (c, b) =>
          setConv fun _ => c
          return b

/-- The wrap count and the difference that `conviput` guesses for a sequence number. -/
def guess (ow : OneWay) (seq : ℕ) : ℕ × ℤ :=
  let seqdiff := long (ulong ((seq : ℤ) - ow.seq))
  if seqdiff < -((SeqMax * 3 / 4 : ℕ) : ℤ) then (incr ow.seqwrap, seqdiff + SeqMax)
  else if ((SeqMax * 3 / 4 : ℕ) : ℤ) < seqdiff then
    (ulong ((ow.seqwrap : ℤ) - 1), seqdiff - SeqMax)
  else (ow.seqwrap, seqdiff)

/-- Whether the window turns a packet away, and for which reason. -/
inductive SeqCheck where
  | old | dup | reorder | new
  deriving DecidableEq, Repr

def seqCheck (ow : OneWay) (seqdiff : ℤ) : SeqCheck :=
  if seqdiff ≤ 0 then
    if seqdiff ≤ -(SeqWindow : ℤ) then .old
    else if ow.window.testBit (-seqdiff).toNat then .dup
    else .reorder
  else .new

/-- The loop that shifts the window: the packets missed, the window and the rest of the
difference. -/
def shiftWindow : ℕ → ℕ → ℕ → ℕ × ℕ × ℕ
  | 0, window, missing => (missing, window, 0)
  | seqdiff + 1, window, missing =>
      if window = 0 then (missing, window, seqdiff + 1)
      else
        shiftWindow seqdiff ((window <<< 1) % 4294967296)
          (if window.testBit (SeqWindow - 1) then missing else incr missing)

/-- The direction after a packet found good, and the packets found missing. -/
def accept (ow : OneWay) (missing seq seqwrap : ℕ) (seqdiff : ℤ) : OneWay × ℕ :=
  if 0 < seqdiff then
    let (missing, window, rest) := shiftWindow seqdiff.toNat ow.window missing
    ({ ow with seq := seq, seqwrap := seqwrap, window := window ||| 1 },
      (missing + rest) % 4294967296)
  else ({ ow with window := ow.window ||| 1 <<< (-seqdiff).toNat }, missing)

/-- Undo the authenticator: the flag tells whether the packet is genuine; `none` when the state is
missing. -/
def undoAuth (ow : OneWay) (b : Block) : Option (Bool × Block) :=
  match ow.auth with
  | none => some (true, b)
  | some f => (f.run L ow (b.buf.take b.wp)).map fun (ok, t) =>
      (ok, { b with buf := t ++ b.buf.drop b.wp, wp := b.wp - (if ok then ow.authlen else 0) })

/-- Undo the cipher and take off the padding. -/
def undoCipher (ow : OneWay) (b : Block) : Option (Bool × OneWay × Block) :=
  match ow.cipher with
  | none => some (true, ow, b)
  | some f =>
      (f.run L ow b.data b.blen).map fun (ok, ow, p) =>
        if ok = false then (false, ow, b)
        else
          let b : Block := { b.write b.rp p with rp := b.rp + ow.cipherivlen }
          if 1 < ow.cipherblklen then
            let pad : ℕ := (b.buf.getD (b.wp - 1) 0).toNat
            if b.blen < pad then (false, ow, b) else (true, ow, { b with wp := b.wp - pad })
          else (true, ow, b)

/-- Count a packet in the statistics of the conversation. -/
def count (f : Stats → Stats) : ConvM Unit := setConv fun c => { c with lstats := f c.lstats }

/-- What becomes of a good packet: the block handed to the reader, if there is one. -/
def conviputGood (type subtype seq : ℕ) (control : Bool) (b : Block) : ConvM (Option Block) := do
  if type = TControl then
    convicontrol L env subtype b
    return none
  else if type = TData then
    count fun s => { s with
      inDataPackets := incr s.inDataPackets
      inDataBytes := ulong (s.inDataBytes + b.blen) }
    if control then
      count fun s => { s with inBadOther := incr s.inBadOther }
      return none
    return some b
  else if type = TCompData then
    count fun s => { s with
      inDataPackets := incr s.inDataPackets
      inCompDataBytes := ulong (s.inCompDataBytes + b.blen) }
    match ← convicomp subtype seq b with
    | none =>
        count fun s => { s with inBadComp := incr s.inBadComp }
        return none
    | some b =>
        count fun s => { s with inDataBytes := ulong (s.inDataBytes + b.blen) }
        if control then
          count fun s => { s with inBadOther := incr s.inBadOther }
          return none
        return some b
  else
    count fun s => { s with inBadOther := incr s.inBadOther }
    return none

/-- The checks of the authenticator and the cipher of a packet that the window lets through, the
move of the window, and the rest. -/
def conviputAuth (type subtype seq seqwrap : ℕ) (seqdiff : ℤ) (control : Bool) (b : Block) :
    ConvM (Option Block) := do
  let c ← getConv
  match undoAuth L c.inp b with
  | none => panic .nilalg
  | some (false, _) =>
      count fun s => { s with inBadAuth := incr s.inBadAuth }
      return none
  | some (true, b) =>
    match undoCipher L c.inp b with
    | none => panic .nilalg
    | some (false, ow, _) =>
        setConv fun c => { c with inp := ow }
        count fun s => { s with inBadOther := incr s.inBadOther }
        return none
    | some (true, ow, b) =>
        setConv fun c =>
          let (ow, missing) := accept ow c.lstats.inMissing seq seqwrap seqdiff
          { c with
            inp := ow, lstats := { c.lstats with inMissing := missing }, lastrecv := env.sec }
        conviputGood L env type subtype seq control b

/-- The check of the sequence number, and the rest. -/
def conviputSeq (type subtype : ℕ) (control : Bool) (b : Block) : ConvM (Option Block) := do
  let seq := b.byte 0 <<< 16 + b.byte 1 <<< 8 + b.byte 2
  let b := { b with rp := b.rp + 3 }
  let c ← getConv
  let (seqwrap, seqdiff) := guess c.inp seq
  match seqCheck c.inp seqdiff with
  | .old =>
      count fun s => { s with inBadSeq := incr s.inBadSeq }
      return none
  | .dup =>
      count fun s => { s with inDup := incr s.inDup }
      return none
  | .reorder =>
      count fun s => { s with inReorder := incr s.inReorder }
      conviputAuth L env type subtype seq seqwrap seqdiff control b
  | .new => conviputAuth L env type subtype seq seqwrap seqdiff control b

def conviput (pkt : List UInt8) (control : Bool) : ConvM (Option Block) := do
  let b := Block.ofList pkt
  count fun s => { s with inPackets := incr s.inPackets }
  if b.blen < 4 then
    count fun s => { s with inBadOther := incr s.inBadOther }
    return none
  let type := b.byte 0 >>> 4
  let subtype := b.byte 0 &&& 0xf
  let b := { b with rp := b.rp + 1 }
  if type = TConnect then
    conviconnect L env subtype b
    return none
  let c ← getConv
  match c.state with
  | .cInit | .cDial =>
      count fun s => { s with inBadOther := incr s.inBadOther }
      conreset env c.dialid c.acceptid
      conviputSeq L env type subtype control b
  | .cAccept | .cRemoteClose | .cLocalClose =>
      count fun s => { s with inBadOther := incr s.inBadOther }
      return none
  | .cOpen | .cClosed | .cFree => conviputSeq L env type subtype control b

/-! ### The timer, readers and writers -/

/-- Whether another packet may be sent; closes the conversation when the retries are used up. -/
def convretry (reset : Bool) : ConvM Bool := do
  setConv fun c => { c with retries := c.retries + 1 }
  let c ← getConv
  if MaxRetries < c.retries then
    if reset then convoconnect env ConReset c.dialid c.acceptid
    convclose
    return false
  setConv fun c => { c with timeout := env.sec + (c.retries + 1) }
  return true

def convtimer : ConvM Unit := do
  let c ← getConv
  if env.sec < c.timeout then return
  match c.state with
  | .cFree | .cInit | .cRemoteClose | .cClosed => return
  | .cDial => if ← convretry env true then convoconnect env ConOpenRequest c.dialid 0
  | .cAccept => if ← convretry env true then convoconnect env ConOpenAck c.dialid c.acceptid
  | .cOpen =>
      match c.out.controlpkt with
      | some b => if ← convretry env true then convoput L env TControl ControlMesg b
      | none =>
          let timeout := c.lastrecv + KeepAlive
          setConv fun c => { c with timeout := timeout }
          if env.sec < timeout then return
          if env.sec < timeout + KeepAlive ∧ env.keepwait then return
          let cseq := incr c.out.controlseq
          setConv fun c => { c with
            out := { c.out with controlseq := cseq, controlpkt := some (hnputl cseq) } }
          convretryinit env
          waserror (convoput L env TControl ControlMesg (hnputl cseq)) fun _ => pure ()
  | .cLocalClose => if ← convretry env false then convoconnect env ConClose c.dialid c.acceptid

/-- `readcontrol` once it need not wait: the message, or `none` at the end. The flag of the result
tells whether it must wait. -/
def readcontrol : ConvM (Option (Option (List UInt8))) := do
  let c ← getConv
  if c.chan = false ∨ c.state = .cClosed then error "conversation closed"
  match c.inp.controlpkt with
  | none => return if c.state = .cRemoteClose then some none else none
  | some _ =>
      convack L env
      let c ← getConv
      setConv fun c => { c with inp := { c.inp with controlpkt := none } }
      return some c.inp.controlpkt

/-- One round of `writewait`: whether the writer need not wait. -/
def writewait : ConvM Bool := do
  let c ← getConv
  if c.state = .cFree ∨ c.state = .cInit ∨ c.state = .cClosed ∨ c.state = .cRemoteClose then
    error "conversation closed"
  return c.state = .cOpen ∧ c.out.controlpkt = none

/-- `writecontrol` up to its second wait; the result tells whether it sent the message. -/
def writecontrol (p : List UInt8) : ConvM Bool := do
  if ← writewait then
    let c ← getConv
    let cseq := incr c.out.controlseq
    let b := hnputl cseq ++ p
    setConv fun c => { c with out := { c.out with controlseq := cseq, controlpkt := some b } }
    convretryinit env
    convoput L env TControl ControlMesg b
    return true
  return false

def writedata (b : List UInt8) : ConvM ℕ := do
  let c ← getConv
  if c.state ≠ .cOpen then error "conversation not open"
  count fun s => { s with
    outDataPackets := incr s.outDataPackets
    outDataBytes := ulong (s.outDataBytes + b.length) }
  match c.out.comp with
  | none => convoput L env TData 0 b
  | some _ =>
      let c ← getConv
      match thwackcomp c ((c.out.seq + 1) % SeqMax) b with
      | none => panic .nilalg
      | some (c, subtype, bb) =>
          setConv fun _ => c
          count fun s => { s with
            outCompDataBytes := ulong (s.outCompDataBytes + bb.length) }
          convoput L env TCompData subtype bb
  return b.length

end PlanNine.Sdp
