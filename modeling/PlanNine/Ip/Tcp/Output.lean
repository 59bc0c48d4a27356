import PlanNine.Lib.Run
import PlanNine.Lib.Ulong

/-!
# What a TCP connection sends

The sending half of a conversation of `tcp.c`: `tcpoutput` with all it reads of the control block,
`update`, which takes the acknowledgement and the window of a segment that came in, and the
routines that call `tcpoutput`. A segment sent is kept with the control block it was made from.

One step is what runs under the lock of the conversation. The loop of `tcpoutput` gives the lock up
after every fourth segment, so a pass of that loop is a step; a segment whose `update` waits for
the `tcpoutput` of its fast retransmission is held, and taken up again by another step. What the
receiving half of `tcpiput` does to the fields read here is the step `turn`.

## Main definitions

* `Tcpctl`, `Conv`: the control block, and the conversation with its queues.
* `tcpoutput`, `update`, `tcprxmit`, `exec`: the routines and the steps.
* `Sent.InWindow`: a segment keeps to the windows.
* `Clear`: a step finds no more in flight than the windows allow.

## Main results

* `space_le`: a segment occupies no more than was found usable.
* `inWindow_tcpoutput`: a pass keeps the segments sent within the windows just when it is clear.
* `windows_iff`: all segments of a run keep to the windows just when its steps are clear.
-/

namespace PlanNine.TcpSend

/-! ### The conversation -/

inductive Tcpstate
  | closed | listen | syn_sent | syn_received | established
  | finwait1 | finwait2 | close_wait | closing | last_ack | time_wait
  deriving DecidableEq, Repr

/-- The states past `Syn_received`. -/
def Tcpstate.Past : Tcpstate → Prop
  | .closed | .listen | .syn_sent | .syn_received => False
  | _ => True

instance (x : Tcpstate) : Decidable x.Past := by
  cases x <;> simp only [Tcpstate.Past] <;> infer_instance

/-- The control information of a packet, with the data it carries. -/
structure Tcp where
  seq : ℕ := 0
  ack : ℕ := 0
  isAck : Bool := false
  syn : Bool := false
  fin : Bool := false
  psh : Bool := false
  ws : ℕ := 0
  wnd : ℕ := 0
  mss : ℕ := 0
  data : List UInt8 := []
  deriving DecidableEq, Repr

/-- The numbers of the sequence that a packet occupies. -/
def Tcp.space (seg : Tcp) : ℕ :=
  seg.data.length + (if seg.syn then 1 else 0) + (if seg.fin then 1 else 0)

/-- The fields of the sending side. -/
structure Snd where
  una : ℕ := 0
  nxt : ℕ := 0
  ptr : ℕ := 0
  wnd : ℕ := 0
  urg : ℕ := 0
  wl2 : ℕ := 0
  dupacks : ℕ := 0
  recovery : Bool := false
  rxt : ℕ := 0
  deriving DecidableEq, Repr

/-- The fields of the receiving side. -/
structure Rcv where
  nxt : ℕ := 0
  wnd : ℕ := 0
  blocked : Bool := false
  una : ℕ := 0
  deriving DecidableEq, Repr

/-- The control block. Of the flags, `synack`, `force` and `retran` are read here. -/
structure Tcpctl where
  state : Tcpstate := .closed
  snd : Snd := {}
  rcv : Rcv := {}
  iss : ℕ := 0
  irs : ℕ := 0
  cwind : ℕ := 0
  scale : ℕ := 0
  ssthresh : ℕ := 65535
  resent : ℤ := 0
  mss : ℕ := 0
  window : ℕ := 65535
  synack : Bool := false
  force : Bool := false
  retran : Bool := false
  flgcnt : ℤ := 0
  deriving DecidableEq, Repr

/-- A segment sent, and the control block when it was made. -/
structure Sent where
  seg : Tcp
  tcb : Tcpctl
  deriving DecidableEq, Repr

/-- A conversation: the bytes of the write queue, the number of bytes of the read queue, the
segments whose `update` waits, and what was sent. -/
structure Conv where
  tcb : Tcpctl
  wq : List UInt8 := []
  rq : ℕ := 0
  held : List Tcp := []
  sent : List Sent := []
  deriving DecidableEq, Repr

/-- `seq_lt` and `seq_gt`. -/
def seq_lt (x y : ℕ) : Bool := long (ulong (x - y)) < 0

def seq_gt (x y : ℕ) : Bool := 0 < long (ulong (x - y))

def seq_ge (x y : ℕ) : Bool := 0 ≤ long (ulong (x - y))

def TCPREXMTTHRESH : ℕ := 3

/-- `localclose`, whose change of the state closes the queues. -/
def localclose (c : Conv) : Conv :=
  { c with tcb := { c.tcb with state := .closed }, wq := [], rq := 0 }

def tcprcvwin (t : Tcpctl) (rq : ℕ) : Tcpctl :=
  { t with rcv := { t.rcv with
      wnd := t.window - rq
      blocked := t.rcv.blocked || t.window - rq == 0 } }

/-! ### Output -/

/-- An ack is forced when a window has opened up. -/
def opened (t : Tcpctl) : Tcpctl :=
  if t.rcv.blocked && 0 < t.rcv.wnd then
    { t with rcv := { t.rcv with blocked := false }, force := true }
  else t

/-- What the queue and the flags still hold, sent or not. -/
def sndcnt (c : Conv) (t : Tcpctl) : ℤ := c.wq.length + t.flgcnt

/-- The bytes in flight. -/
def inFlight (t : Tcpctl) : ℕ := ulong (t.snd.ptr - t.snd.una)

/-- The smaller of the congestion window and the offered one. -/
def limit (t : Tcpctl) : ℕ := min t.cwind t.snd.wnd

/-- The usable window: a probe of one byte into a closed window, and else an unsigned
subtraction. -/
def usable (t : Tcpctl) : ℕ :=
  if t.snd.wnd = 0 then 1 else ulong (limit t - inFlight t)

/-- The length of the next segment in the numbers of the sequence. -/
def ssize (c : Conv) (t : Tcpctl) : ℕ :=
  min (min (ulong (sndcnt c t - inFlight t)) (usable t)) t.mss

/-- The loop is left: the SYN is not acked, the window is closed, or there is nothing to send. -/
def quits (c : Conv) (t : Tcpctl) : Bool :=
  (t.snd.ptr != t.iss && !t.synack) ||
  (t.snd.wnd == 0 && inFlight t != 0 && !t.force) ||
  (ssize c t == 0 && !t.force)

/-- Does the segment carry the SYN? -/
def opening (t : Tcpctl) : Bool :=
  (t.state == .syn_sent || t.state == .syn_received) && t.snd.ptr == t.iss

/-- The length of the data asked of the queue. -/
def dsize (c : Conv) (t : Tcpctl) : ℕ :=
  if opening t then
    if t.state = .syn_sent then ulong (ssize c t - 1) else 0
  else ssize c t

/-- The advance of `snd.ptr`: a SYN ACK carries no data. -/
def advance (c : Conv) (t : Tcpctl) : ℕ :=
  if opening t && t.state == .syn_received then 1 else ssize c t

/-- The segment that is made. Where the queue is short of data, the FIN takes the last number. -/
def segment (c : Conv) (t : Tcpctl) : Tcp :=
  let data := (c.wq.drop (inFlight t)).take (dsize c t)
  let fin := dsize c t != 0 && data.length != dsize c t
  { seq := t.snd.ptr
    ack := t.rcv.nxt
    isAck := t.state != .syn_sent
    syn := opening t
    fin := fin
    psh := ulong (inFlight t + (dsize c t - if fin then 1 else 0 : ℤ)) == ulong (sndcnt c t)
    ws := if opening t then t.scale else 0
    wnd := t.rcv.wnd
    mss := if opening t then t.mss else 0
    data := data }

/-- What is sent again is counted, and the send pointer is moved. -/
def advanced (c : Conv) (t : Tcpctl) : Tcpctl :=
  let ptr := ulong (t.snd.ptr + advance c t)
  { t with
    resent := if seq_lt t.snd.ptr t.snd.nxt then
        t.resent + min (ulong (t.snd.nxt - t.snd.ptr)) (advance c t)
      else t.resent
    snd := { t.snd with ptr := ptr, nxt := if seq_gt ptr t.snd.nxt then ptr else t.snd.nxt } }

/-- What a pass finds outside: memory for the header, and a route. -/
structure Outside where
  mem : Bool := true
  route : Bool := true
  deriving DecidableEq, Repr

/-- The control block that a segment is made from. -/
def readied (c : Conv) (t : Tcpctl) : Tcpctl :=
  let t := tcprcvwin { t with force := false } c.rq
  { t with rcv := { t.rcv with una := 0 } }

/-- The part of a pass that makes a segment and sends it. -/
def transmit (c : Conv) (t : Tcpctl) (out : Outside) : Conv :=
  let t := readied c t
  let c' := { c with tcb := advanced c t }
  if out.mem then
    let c' := { c' with sent := c'.sent ++ [⟨segment c t, t⟩] }
    if out.route then c' else localclose c'
  else c'

/-- The states in which `tcpoutput` returns at once. -/
def mute : Tcpstate → Bool
  | .listen | .closed | .finwait2 => true
  | _ => false

/-- One pass of the loop of `tcpoutput`. -/
def tcpoutput (c : Conv) (out : Outside) : Conv :=
  if mute c.tcb.state then c
  else
    let t := opened c.tcb
    if quits c t then { c with tcb := t } else transmit c t out

/-! ### Input -/

/-- `tcprxmit`, up to its call of `tcpoutput`. -/
def tcprxmit (t : Tcpctl) : Tcpctl :=
  { t with
    retran := true
    force := true
    snd := { t.snd with ptr := t.snd.una }
    ssthresh := t.mss
    cwind := t.mss }

/-- The window that a segment offers is taken if it is newer, or as new and larger. -/
def offered (t : Tcpctl) (seg : Tcp) : Tcpctl :=
  if seq_gt seg.ack t.snd.wl2 || (t.snd.wl2 == seg.ack && t.snd.wnd < seg.wnd) then
    { t with snd := { t.snd with wnd := seg.wnd, wl2 := seg.ack } }
  else t

/-- The growth of the congestion window. -/
def grown (t : Tcpctl) (acked : ℕ) : Tcpctl :=
  if t.cwind < t.snd.wnd && !t.snd.recovery then
    let expand := if t.cwind < t.ssthresh then min t.mss acked else t.mss * t.mss / t.cwind
    let expand := if ulong (t.cwind + expand) < t.cwind then t.snd.wnd - t.cwind else expand
    let expand := if t.snd.wnd < ulong (t.cwind + expand) then t.snd.wnd - t.cwind else expand
    { t with cwind := ulong (t.cwind + expand) }
  else t

/-- The end of `update`: what was acked leaves the queue. -/
def acknowledged (c : Conv) (seg : Tcp) (acked : ℕ) : Conv :=
  let t := c.tcb
  let ptr := if seq_lt t.snd.ptr seg.ack then seg.ack else t.snd.ptr
  let urg := if seq_gt seg.ack t.snd.urg then seg.ack else t.snd.urg
  { c with
    wq := c.wq.drop acked
    tcb := { t with
      flgcnt := if c.wq.length < acked then t.flgcnt - 1 else t.flgcnt
      snd := { t.snd with una := seg.ack, urg := urg, ptr := ptr }
      retran := false } }

/-- `update`, from the window on. -/
def updateAcked (c : Conv) (seg : Tcp) : Conv :=
  let t := offered c.tcb seg
  if !seq_gt seg.ack t.snd.una then { c with tcb := t }
  else
    let t := if !t.snd.recovery || seq_ge seg.ack t.snd.rxt then
        { t with snd := { t.snd with dupacks := 0, recovery := false } }
      else t
    let acked := ulong (seg.ack - t.snd.una)
    if !t.synack then
      acknowledged { c with tcb := { t with synack := true, flgcnt := t.flgcnt - 1 } } seg
        (acked - 1)
    else acknowledged { c with tcb := grown t acked } seg acked

/-- A pure ack that repeats the last one and its window. -/
def duplicate (t : Tcpctl) (seg : Tcp) : Bool :=
  seg.ack == t.snd.una && t.snd.una != t.snd.nxt && seg.data.length == 0 && seg.wnd == t.snd.wnd

/-- `update`. The third duplicate ack sends again from `snd.una`, and the rest waits until that is
done. -/
def update (c : Conv) (seg : Tcp) : Conv :=
  let t := c.tcb
  if seq_gt seg.ack t.snd.nxt then { c with tcb := { t with force := true } }
  else if duplicate t seg then
    let t := { t with snd := { t.snd with dupacks := t.snd.dupacks + 1 } }
    if t.snd.dupacks = TCPREXMTTHRESH then
      { c with
        tcb := tcprxmit { t with snd := { t.snd with recovery := true, rxt := t.snd.nxt } }
        held := c.held ++ [seg] }
    else updateAcked { c with tcb := t } seg
  else updateAcked c seg

/-- `procsyn`. -/
def procsyn (t : Tcpctl) (seg : Tcp) : Tcpctl :=
  let mss := if seg.mss ≠ 0 ∧ seg.mss < t.mss then seg.mss else t.mss
  { t with
    force := true
    rcv := { t.rcv with nxt := ulong (seg.seq + 1) }
    irs := seg.seq
    mss := mss
    snd := { t.snd with wnd := seg.wnd }
    cwind := mss }

/-- `tcptimeout`, up to the call of `tcpoutput`. -/
def tcptimeout (c : Conv) (backedoff : Bool) : Conv :=
  match c.tcb.state with
  | .closed => c
  | .time_wait => localclose c
  | _ =>
    if backedoff then localclose c else { c with tcb := tcprxmit c.tcb }

/-- The end of `tcptimeout`. -/
def timedOut (c : Conv) : Conv :=
  { c with tcb := { c.tcb with snd := { c.tcb.snd with dupacks := 0 } } }

/-- `tcpclose`, up to the call of `tcpoutput`. -/
def tcpclose (c : Conv) : Conv :=
  let t := c.tcb
  let c := { c with rq := 0 }
  match t.state with
  | .listen | .closed | .syn_sent => localclose c
  | .syn_received | .established =>
    { c with tcb := { t with
        flgcnt := t.flgcnt + 1
        snd := { t.snd with nxt := ulong (t.snd.nxt + 1) }
        state := .finwait1 } }
  | .close_wait =>
    { c with tcb := { t with
        flgcnt := t.flgcnt + 1
        snd := { t.snd with nxt := ulong (t.snd.nxt + 1) }
        state := .last_ack } }
  | _ => c

/-- `tcpkick`, up to the call of `tcpoutput`. -/
def tcpkick (c : Conv) : Conv :=
  match c.tcb.state with
  | .syn_sent | .syn_received | .established | .close_wait =>
    { c with tcb := tcprcvwin c.tcb c.rq }
  | _ => localclose c

/-- `tcpacktimer`, up to the call of `tcpoutput`. -/
def tcpacktimer (c : Conv) : Conv :=
  if c.tcb.state = .closed then c
  else { c with tcb := tcprcvwin { c.tcb with force := true } c.rq }

/-- `tcpsndsyn`: the control block of an outgoing call. -/
def tcpsndsyn (t : Tcpctl) (iss mss scale : ℕ) : Tcpctl :=
  { t with
    iss := iss
    snd := { t.snd with wl2 := iss, una := iss, ptr := iss, nxt := iss }
    flgcnt := t.flgcnt + 1
    force := true
    mss := mss
    scale := scale }

/-- `tcpincoming`: the control block of a call out of limbo, from that of the listener. -/
def tcpincoming (t : Tcpctl) (iss irs mss : ℕ) (seg : Tcp) : Tcpctl :=
  let mss := if mss ≠ 0 ∧ mss < t.mss then mss else t.mss
  { t with
    irs := irs
    rcv := { t.rcv with nxt := ulong (irs + 1) }
    iss := iss
    snd := { t.snd with
      wl2 := iss
      una := ulong (iss + 1)
      ptr := ulong (iss + 1)
      nxt := ulong (iss + 1)
      wnd := seg.wnd }
    flgcnt := 0
    synack := true
    mss := mss
    cwind := mss
    state := .established }

/-- What the rest of `tcpiput` leaves in the fields that are read here. -/
structure Turn where
  state : Tcpstate
  nxt : ℕ
  una : ℕ
  window : ℕ
  rq : ℕ
  force : Bool
  deriving DecidableEq, Repr

def turn (c : Conv) (x : Turn) : Conv :=
  { c with
    tcb := tcprcvwin { c.tcb with
      state := x.state
      rcv := { c.tcb.rcv with nxt := x.nxt, una := x.una }
      window := x.window
      force := c.tcb.force || x.force } x.rq
    rq := x.rq }

/-! ### Steps -/

/-- The steps: a write and a read of the user, the calls, and the passes of `tcpoutput`. -/
inductive Op
  | write (data : List UInt8)
  | read (n : ℕ)
  | kick
  | output (out : Outside)
  | syn (seg : Tcp)
  | update (seg : Tcp)
  | resume (i : ℕ)
  | timeout (backedoff : Bool)
  | timedOut
  | acktimer
  | close
  | turn (x : Turn)
  deriving DecidableEq, Repr

/-- A step of the conversation. A segment can be taken up again only if it is held. -/
def exec (c : Conv) : Op → Option Conv
  | .write data => some { c with wq := c.wq ++ data }
  | .read n => some { c with rq := c.rq - n }
  | .kick => some (tcpkick c)
  | .output out => some (tcpoutput c out)
  | .syn seg => some { c with tcb := procsyn c.tcb seg }
  | .update seg => some (update c seg)
  | .resume i => c.held[i]?.map fun seg => updateAcked { c with held := c.held.eraseIdx i } seg
  | .timeout backedoff => some (tcptimeout c backedoff)
  | .timedOut => some (timedOut c)
  | .acktimer => some (tcpacktimer c)
  | .close => some (tcpclose c)
  | .turn x => some (turn c x)

/-- A conversation that has sent nothing yet. -/
def begun (t : Tcpctl) (wq : List UInt8) (rq : ℕ) : Conv := { tcb := t, wq := wq, rq := rq }

/-! ### A segment against the windows -/

/-- A segment past `Syn_received` that occupies sequence numbers, with both windows open, ends
within the smaller of them. -/
def Sent.InWindow (e : Sent) : Prop :=
  e.tcb.state.Past → 0 < e.tcb.snd.wnd → 0 < e.tcb.cwind → 0 < e.seg.space →
    ulong (e.seg.seq - e.tcb.snd.una) + e.seg.space ≤ min e.tcb.cwind e.tcb.snd.wnd

instance (e : Sent) : Decidable e.InWindow :=
  inferInstanceAs (Decidable (_ → _ → _ → _ → _))

/-- A pass that has memory for its segment, in a state past `Syn_received` with the SYN acked and
both windows open, finds no more in flight than the windows allow, or has nothing left to send. -/
def Clear (c : Conv) : Op → Prop
  | .output out =>
    out.mem = true → c.tcb.state.Past → c.tcb.state ≠ .finwait2 →
      (c.tcb.synack = true ∨ c.tcb.snd.ptr = c.tcb.iss) →
      0 < c.tcb.snd.wnd → 0 < c.tcb.cwind → 0 < c.tcb.mss →
      ulong (sndcnt c c.tcb - inFlight c.tcb) ≠ 0 → inFlight c.tcb ≤ limit c.tcb
  | _ => True

section Segment

variable {c : Conv} {t : Tcpctl}

theorem opening_of_past (h : t.state.Past) : opening t = false := by
  unfold opening
  cases ht : t.state <;> simp_all [Tcpstate.Past]

theorem space_segment (h : opening t = false) :
    (segment c t).space = min (ssize c t) (c.wq.length - inFlight t) +
      if ssize c t ≠ 0 ∧ min (ssize c t) (c.wq.length - inFlight t) ≠ ssize c t then 1 else 0 := by
  have hd : dsize c t = ssize c t := by simp [dsize, h]
  simp only [Tcp.space, segment, h, hd, List.length_take, List.length_drop, Bool.and_eq_true,
    bne_iff_ne]
  rw [if_neg Bool.false_ne_true, Nat.add_zero]

/-- A segment other than the first one occupies no more than was found usable. -/
theorem space_le (h : opening t = false) : (segment c t).space ≤ ssize c t := by
  rw [space_segment h]
  split_ifs <;> omega

/-- What was found usable is used for data or for the FIN. -/
theorem space_pos (h : opening t = false) (hs : ssize c t ≠ 0) : 0 < (segment c t).space := by
  rw [space_segment h]
  split_ifs <;> omega

/-- With no more in flight than the windows allow, the usable window is what is left of them. -/
theorem usable_le (hw : 0 < t.snd.wnd) (h : inFlight t ≤ limit t) :
    inFlight t + usable t ≤ limit t := by
  rw [usable, if_neg hw.ne', ulong]
  omega

/-- With more in flight, the unsigned subtraction wraps around. -/
theorem usable_ne_zero (hw : 0 < t.snd.wnd) (h : limit t < inFlight t) : usable t ≠ 0 := by
  have hlt : inFlight t < 4294967296 := ulong_lt _
  rw [usable, if_neg hw.ne', ulong]
  omega

theorem segment_fits (h : t.state.Past) (hw : 0 < t.snd.wnd) (hle : inFlight t ≤ limit t) :
    inFlight t + (segment c t).space ≤ limit t := by
  have hs : (segment c t).space ≤ ssize c t := space_le (opening_of_past h)
  have hu : ssize c t ≤ usable t := (min_le_left _ _).trans (min_le_right _ _)
  have := usable_le hw hle
  omega

/-- A segment keeps to the windows just when there is no more in flight than they allow, or nothing
usable is found. -/
theorem inWindow_segment : Sent.InWindow ⟨segment c t, t⟩ ↔
    (t.state.Past → 0 < t.snd.wnd → 0 < t.cwind → ssize c t ≠ 0 → inFlight t ≤ limit t) := by
  refine forall₃_congr fun hp hw hc => ?_
  change (0 < (segment c t).space → inFlight t + (segment c t).space ≤ limit t) ↔ _
  constructor
  · intro h hs
    have := h (space_pos (opening_of_past hp) hs)
    omega
  · intro h hpos
    have hle : (segment c t).space ≤ ssize c t := space_le (opening_of_past hp)
    exact segment_fits hp hw (h (by omega))

end Segment

/-! ### What sends nothing -/

section Silent

variable (c : Conv)

theorem sent_updateAcked (seg : Tcp) : (updateAcked c seg).sent = c.sent := by
  unfold updateAcked
  dsimp only
  split_ifs <;> rfl

theorem sent_update (seg : Tcp) : (update c seg).sent = c.sent := by
  unfold update
  dsimp only
  split_ifs
  · rfl
  · rfl
  · exact sent_updateAcked _ _
  · exact sent_updateAcked _ _

theorem sent_tcpkick : (tcpkick c).sent = c.sent := by
  unfold tcpkick
  split <;> rfl

theorem sent_tcptimeout (backedoff : Bool) : (tcptimeout c backedoff).sent = c.sent := by
  unfold tcptimeout
  split
  · rfl
  · rfl
  · split <;> rfl

theorem sent_tcpacktimer : (tcpacktimer c).sent = c.sent := by
  unfold tcpacktimer
  split <;> rfl

theorem sent_tcpclose : (tcpclose c).sent = c.sent := by
  unfold tcpclose
  dsimp only
  split <;> rfl

end Silent

/-! ### One pass -/

section Pass

variable (c : Conv) (t : Tcpctl) (out : Outside)

@[simp] theorem opened_state : (opened t).state = t.state := by
  unfold opened
  split <;> rfl

@[simp] theorem opened_snd : (opened t).snd = t.snd := by
  unfold opened
  split <;> rfl

@[simp] theorem opened_iss : (opened t).iss = t.iss := by
  unfold opened
  split <;> rfl

@[simp] theorem opened_cwind : (opened t).cwind = t.cwind := by
  unfold opened
  split <;> rfl

@[simp] theorem opened_mss : (opened t).mss = t.mss := by
  unfold opened
  split <;> rfl

@[simp] theorem opened_synack : (opened t).synack = t.synack := by
  unfold opened
  split <;> rfl

@[simp] theorem opened_flgcnt : (opened t).flgcnt = t.flgcnt := by
  unfold opened
  split <;> rfl

@[simp] theorem inFlight_opened : inFlight (opened t) = inFlight t := by simp [inFlight]

@[simp] theorem limit_opened : limit (opened t) = limit t := by simp [limit]

@[simp] theorem ssize_opened : ssize c (opened t) = ssize c t := by
  simp [ssize, sndcnt, usable]

/-- The pass makes a segment. -/
def Makes : Prop := mute c.tcb.state = false ∧ quits c (opened c.tcb) = false

instance : Decidable (Makes c) := inferInstanceAs (Decidable (_ ∧ _))

theorem sent_transmit : (transmit c t out).sent =
    if out.mem then c.sent ++ [⟨segment c (readied c t), readied c t⟩] else c.sent := by
  unfold transmit
  dsimp only
  split_ifs <;> rfl

theorem sent_tcpoutput : (tcpoutput c out).sent =
    if Makes c then (transmit c (opened c.tcb) out).sent else c.sent := by
  by_cases hm : mute c.tcb.state = true
  · simp [tcpoutput, Makes, hm]
  · by_cases hq : quits c (opened c.tcb) = true <;> simp [tcpoutput, Makes, hm, hq]

variable {c}

/-- Something to send past `Syn_received`, with the windows open and more in flight than they
allow, is sent. -/
theorem makes_of_overrun (hpast : c.tcb.state.Past) (hmute : c.tcb.state ≠ .finwait2)
    (hsyn : c.tcb.synack = true ∨ c.tcb.snd.ptr = c.tcb.iss) (hw : 0 < c.tcb.snd.wnd)
    (hs : ssize c c.tcb ≠ 0) : Makes c := by
  constructor
  · cases h : c.tcb.state <;> simp_all [Tcpstate.Past, mute]
  · have hne : (c.tcb.snd.wnd == 0) = false := by simpa using hw.ne'
    have hgate : (c.tcb.snd.ptr != c.tcb.iss && !c.tcb.synack) = false := by
      rcases hsyn with h | h <;> simp [h]
    simp [quits, hgate, hne, hs]

theorem synack_of_makes (h : Makes c) : c.tcb.synack = true ∨ c.tcb.snd.ptr = c.tcb.iss := by
  have hq := h.2
  simp only [quits, opened_snd, opened_iss, opened_synack, Bool.or_eq_false_iff] at hq
  have hgate := hq.1.1
  cases hsyn : c.tcb.synack with
  | true => exact Or.inl rfl
  | false => exact Or.inr (by simpa [hsyn] using hgate)

/-- What is left to send is usable, unless no more is in flight than the windows allow. -/
theorem ssize_ne_zero (hw : 0 < c.tcb.snd.wnd) (hlim : limit c.tcb < inFlight c.tcb) :
    ssize c c.tcb ≠ 0 ↔ 0 < c.tcb.mss ∧ ulong (sndcnt c c.tcb - inFlight c.tcb) ≠ 0 := by
  have hu := usable_ne_zero hw hlim
  unfold ssize
  omega

/-- A pass keeps all segments within the windows just when it is clear. -/
theorem inWindow_tcpoutput (hc : ∀ e ∈ c.sent, e.InWindow) :
    (∀ e ∈ (tcpoutput c out).sent, e.InWindow) ↔ Clear c (.output out) := by
  have hnew : Sent.InWindow ⟨segment c (readied c (opened c.tcb)), readied c (opened c.tcb)⟩ ↔
      (c.tcb.state.Past → 0 < c.tcb.snd.wnd → 0 < c.tcb.cwind → ssize c c.tcb ≠ 0 →
        inFlight c.tcb ≤ limit c.tcb) := by
    rw [inWindow_segment, ← opened_state c.tcb, ← opened_snd c.tcb, ← opened_cwind c.tcb,
      ← ssize_opened c c.tcb, ← inFlight_opened c.tcb, ← limit_opened c.tcb]
    exact Iff.rfl
  rw [sent_tcpoutput, sent_transmit]
  constructor
  · intro h hmem hpast hmute hsyn hw hcw hmss hleft
    by_contra hlim
    have hs : ssize c c.tcb ≠ 0 := (ssize_ne_zero hw (not_le.mp hlim)).mpr ⟨hmss, hleft⟩
    rw [if_pos (makes_of_overrun hpast hmute hsyn hw hs), if_pos hmem] at h
    exact hlim (hnew.mp (h _ (by simp)) hpast hw hcw hs)
  · intro h
    split_ifs with hmakes hmem
    · intro e he
      rcases List.mem_append.mp he with he | he
      · exact hc e he
      · rw [List.mem_singleton.mp he, hnew]
        intro hpast hw hcw hs
        by_contra hlim
        obtain ⟨hmss, hleft⟩ := (ssize_ne_zero hw (not_le.mp hlim)).mp hs
        have hmute : c.tcb.state ≠ .finwait2 := by
          intro hst
          have := hmakes.1
          rw [hst] at this
          cases this
        exact hlim (h hmem hpast hmute (synack_of_makes hmakes) hw hcw hmss hleft)
    · exact hc
    · exact hc

end Pass

/-! ### Runs -/

/-- Only a pass of `tcpoutput` sends. -/
theorem sent_exec {c c' : Conv} {op : Op} (h : exec c op = some c')
    (hop : ∀ out, op ≠ .output out) : c'.sent = c.sent := by
  cases op with
  | output out => exact absurd rfl (hop out)
  | resume i =>
    obtain ⟨seg, -, rfl⟩ := Option.map_eq_some_iff.mp h
    exact sent_updateAcked _ _
  | kick =>
    cases h
    exact sent_tcpkick c
  | update seg =>
    cases h
    exact sent_update c seg
  | timeout b =>
    cases h
    exact sent_tcptimeout c b
  | acktimer =>
    cases h
    exact sent_tcpacktimer c
  | close =>
    cases h
    exact sent_tcpclose c
  | write data => cases h; rfl
  | read n => cases h; rfl
  | syn seg => cases h; rfl
  | timedOut => cases h; rfl
  | turn x => cases h; rfl

/-- Every segment that a connection sends past `Syn_received` with both windows open ends within
the smaller window, just when no pass that has memory and something to send finds more in flight
than that window. -/
theorem windows_iff (t : Tcpctl) (wq : List UInt8) (rq : ℕ) (ops : List Op) :
    (∀ c ∈ Run.states exec (begun t wq rq) ops, ∀ e ∈ c.sent, e.InWindow) ↔
      Run.Meets exec Clear (begun t wq rq) ops := by
  refine Run.forall_states_iff (fun _ => True) trivial (by simp [begun])
    (fun _ _ _ _ _ _ _ => trivial) (fun c op c' _ hc h => ?_) ops
  by_cases hop : ∃ out, op = .output out
  · obtain ⟨out, rfl⟩ := hop
    cases h
    exact inWindow_tcpoutput out hc
  · have hsent := sent_exec h fun out ho => hop ⟨out, ho⟩
    rw [hsent]
    refine iff_of_true hc ?_
    cases op with
    | output out => exact absurd ⟨out, rfl⟩ hop
    | _ => trivial

/-- A call taken with segments of 100 bytes and a window of 1000. -/
def accepted : Tcpctl :=
  tcpincoming { mss := 1460, window := 65535, rcv := { wnd := 65535 }, state := .listen }
    1000 5000 100 { wnd := 1000 }

/-- The first two acks open the congestion window, and the second one shrinks the offered window to
50 bytes while 100 are in flight. -/
def shrunk : List Op :=
  [.write (List.replicate 1000 0), .kick, .output {}, .update { ack := 1101, wnd := 1000 },
    .output {}, .output {}, .update { ack := 1201, wnd := 50 }, .output {}]

/-- The segment after the window has shrunk ends beyond it. -/
theorem not_windows_shrunk :
    ¬ ∀ (t : Tcpctl) (wq : List UInt8) (rq : ℕ) (ops : List Op),
      ∀ c ∈ Run.states exec (begun t wq rq) ops, ∀ e ∈ c.sent, e.InWindow := by
  intro h
  have hrun : ((Run.states exec (begun accepted [] 0) shrunk).any fun c =>
      c.sent.any fun e => !decide e.InWindow) = true := by
    decide +kernel
  obtain ⟨c, hc, he⟩ := List.any_eq_true.mp hrun
  obtain ⟨e, he, hout⟩ := List.any_eq_true.mp he
  simp only [Bool.not_eq_true', decide_eq_false_iff_not] at hout
  exact hout (h accepted [] 0 shrunk c hc e he)

end PlanNine.TcpSend
