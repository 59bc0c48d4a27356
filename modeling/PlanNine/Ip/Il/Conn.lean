import Mathlib.Data.List.Basic
import Mathlib.Logic.Function.Basic
import Mathlib.Tactic

/-!
# Connections of the internet link protocol

Two ends of a connection and the packets that they have sent. A packet is the header fields of IL
with the bytes behind them, and may arrive never, late or several times. The routines of the
protocol are functions on one end, with the packets that they hand to IP, and each call runs as
one step.

What the time decides is an input: whether `later` holds where the code asks. The times and the
measures that only they use are left out, and so are the checksum, the ports and the counters.

## Main definitions

* `Packet`, `Ilcb`, `Conv`: a packet, the control block and one end with what went through it.
* `ilkick`, `ilackto`, `ilpullup`, `iloutoforder`, `ilprocess`, `iliput`, `ilackproc`: the routines.
* `Event`, `step`: what happens to a pair of ends.
-/

namespace PlanNine.Il

def Nqt : ℕ := 8
def IL_IPSIZE : ℕ := 20
def IL_HDRSIZE : ℕ := 18
def MaxRexmit : ℕ := 16
def Defaultwin : ℕ := 20

/-- Connection state. -/
inductive ConnState
  | ilclosed
  | ilsyncer
  | ilsyncee
  | ilestablished
  | illistening
  | ilclosing
  deriving DecidableEq, Repr

/-- Packet types. -/
inductive Iltype
  | ilsync
  | ildata
  | ildataquery
  | ilack
  | ilquery
  | ilstate
  | ilclose
  deriving DecidableEq, Repr

abbrev Msg := List UInt8

/-- The fields of the header, and the bytes behind it. -/
structure Packet where
  iltype : Iltype
  ilspec : ℕ
  ilid : ℕ
  ilack : ℕ
  illen : ℕ
  data : Msg
  deriving DecidableEq, Repr

/-- The control block; the queues are lists of packets. -/
structure Ilcb where
  state : ConnState := .ilclosed
  unacked : List Packet := []
  outoforder : List Packet := []
  next : ℕ := 0
  recvd : ℕ := 0
  acksent : ℕ := 0
  start : ℕ := 0
  rstart : ℕ := 0
  window : ℕ := 0
  rexmit : ℕ := 0
  qt : ℕ → ℕ := fun _ => 0
  qtx : ℕ := 0

/-- One end: the control block and the queue to the reader; further all that the user wrote, the
messages that `ilackto` has freed and the packets that went out. -/
structure Conv extends Ilcb where
  rq : List Msg := []
  wrote : List Msg := []
  acked : List Msg := []
  sent : List Packet := []

/-! ### Sending -/

/-- The control block of a connection with the random start `start`. -/
def ilcbinit (start : ℕ) : Ilcb :=
  { start := start, next := start + 1, recvd := 0, window := Defaultwin, qtx := 1 }

def ilsendctl (c : Conv) (type : Iltype) (id ack ilspec : ℕ) : Conv :=
  { c with acksent := ack, sent := c.sent ++ [⟨type, ilspec, id, ack, IL_HDRSIZE, []⟩] }

/-- A packet that belongs to no conversation is answered with its ids swapped. -/
def ilreject (c : Conv) (inih : Packet) : Conv :=
  { c with sent := c.sent ++ [⟨.ilclose, 0, inih.ilack, inih.ilid, IL_HDRSIZE, []⟩] }

def ilackq (c : Conv) (bp : Packet) : Conv := { c with unacked := c.unacked ++ [bp] }

/-- The user has written the message `m`. -/
def ilkick (c : Conv) (m : Msg) : Conv :=
  let c := { c with wrote := c.wrote ++ [m] }
  match c.state with
  | .ilclosed | .illistening | .ilclosing => c
  | _ =>
    let bp : Packet := ⟨.ildata, 0, c.next, c.recvd, (m.length + IL_HDRSIZE) % 65536, m⟩
    let c := ilackq { c with next := (c.next + 1) % 4294967296, acksent := c.recvd } bp
    { c with sent := c.sent ++ [bp] }

def ilbackoff (c : Conv) : Conv := { c with rexmit := c.rexmit + 1 }

def ilnextqt (c : Conv) : Conv × ℕ :=
  let x := if Nqt < c.qtx + 1 then 1 else c.qtx + 1
  -- the highest id that has been transmitted
  let last := c.next - 1
  ({ c with qtx := x, qt := Function.update (Function.update c.qt x last) 0 last }, x)

/-- Send the first message again that is not acknowledged. -/
def ilrexmit (c : Conv) : Conv :=
  match c.unacked with
  | [] => c
  | nb :: _ =>
    let (c, x) := ilnextqt c
    let c := { c with
      sent := c.sent ++ [{ nb with iltype := .ildataquery, ilack := c.recvd, ilspec := x }] }
    ilbackoff c

/-- Ask the other end what it has received. -/
def query (c : Conv) : Conv :=
  let (c, x) := ilnextqt c
  ilsendctl c .ilquery c.next c.recvd x

/-! ### Closing -/

def illocalclose (c : Conv) : Conv := { c with state := .ilclosed }

def ilhangup (c : Conv) : Conv := illocalclose c

def ilfreeq (c : Conv) : Conv := { c with unacked := [], outoforder := [] }

/-- The user closes the conversation. -/
def ilclose (c : Conv) : Conv :=
  ilfreeq <| match c.state with
    | .ilsyncer | .ilsyncee | .ilestablished =>
      ilsendctl { c with state := .ilclosing } .ilclose c.next c.recvd 0
    | .illistening => illocalclose c
    | .ilclosing | .ilclosed => c

/-! ### Receiving -/

/-- Free the messages up to the one that `ackto` acknowledges. -/
def ilackto (c : Conv) (ackto : ℕ) : Conv :=
  let freed := c.unacked.takeWhile fun h => h.ilid ≤ ackto
  { c with
    unacked := c.unacked.dropWhile fun h => h.ilid ≤ ackto
    acked := c.acked ++ freed.map Packet.data
    rexmit := if freed = [] then c.rexmit else 0 }

/-- The loop of `ilpullup`, over the queue of what came out of order: what is left, the last id
received and the queue to the reader. -/
def pullupLoop : List Packet → ℕ → List Msg → List Packet × ℕ × List Msg
  | [], recvd, rq => ([], recvd, rq)
  | bp :: outoforder, recvd, rq =>
    if bp.ilid ≤ recvd then pullupLoop outoforder recvd rq
    else if bp.ilid ≠ (recvd + 1) % 4294967296 then (bp :: outoforder, recvd, rq)
    else pullupLoop outoforder bp.ilid (rq ++ [bp.data.take (bp.illen - IL_HDRSIZE)])

def ilpullup (c : Conv) : Conv :=
  if c.state ≠ .ilestablished then c
  else
    let r := pullupLoop c.outoforder c.recvd c.rq
    { c with outoforder := r.1, recvd := r.2.1, rq := r.2.2 }

/-- Sort a packet onto the queue, unless its id is there. -/
def sortIn (bp : Packet) : List Packet → List Packet
  | [] => [bp]
  | f :: l =>
    if bp.ilid ≤ f.ilid then
      if bp.ilid = f.ilid then f :: l else bp :: f :: l
    else f :: sortIn bp l

def iloutoforder (c : Conv) (bp : Packet) : Conv :=
  if bp.ilid ≤ c.recvd ∨ (c.recvd + c.window) % 4294967296 < bp.ilid then c
  else { c with outoforder := sortIn bp c.outoforder }

/-- The case `Ilestablished` of `_ilprocess`. -/
def established (c : Conv) (h : Packet) : Conv :=
  match h.iltype with
  | .ilsync =>
    if h.ilid ≠ c.rstart then ilhangup c else ilsendctl c .ilack c.next c.rstart 0
  | .ildata => ilpullup (iloutoforder (ilackto c h.ilack) h)
  | .ildataquery =>
    let c := ilpullup (iloutoforder (ilackto c h.ilack) h)
    ilsendctl c .ilstate c.next c.recvd h.ilspec
  | .ilack => ilackto c h.ilack
  | .ilquery =>
    let c := ilackto c h.ilack
    ilsendctl c .ilstate c.next c.recvd h.ilspec
  | .ilstate =>
    let c := ilackto c h.ilack
    let ilspec := if Nqt < h.ilspec then 0 else h.ilspec
    if h.ilack < c.qt ilspec then ilrexmit c else c
  | .ilclose =>
    if h.ilack < c.start ∨ c.next < h.ilack then c
    else
      let c := ilsendctl { c with recvd := h.ilid } .ilclose c.next h.ilid 0
      ilfreeq { c with state := .ilclosing }

/-- `_ilprocess`. -/
def ilprocess (c : Conv) (h : Packet) : Conv :=
  match c.state with
  | .ilclosed | .illistening => c
  | .ilsyncer =>
    match h.iltype with
    | .ilsync =>
      if h.ilack ≠ c.start then ilhangup c
      else
        let c := ilsendctl { c with recvd := h.ilid, rstart := h.ilid } .ilack c.next h.ilid 0
        ilpullup { c with state := .ilestablished, rexmit := 0 }
    | .ilclose => if h.ilack = c.start then ilhangup c else c
    | _ => c
  | .ilsyncee =>
    match h.iltype with
    | .ilsync =>
      if h.ilid ≠ c.rstart ∨ h.ilack ≠ 0 then illocalclose c
      else ilsendctl { c with recvd := h.ilid } .ilsync c.start h.ilid 0
    | .ilack =>
      if h.ilack = c.start then ilpullup { c with state := .ilestablished, rexmit := 0 } else c
    | .ildata =>
      if h.ilack = c.start then established { c with state := .ilestablished, rexmit := 0 } h
      else c
    | .ilclose => if h.ilack = c.start then ilhangup c else c
    | _ => c
  | .ilestablished => established c h
  | .ilclosing =>
    match h.iltype with
    | .ilclose =>
      let c := ilsendctl { c with recvd := h.ilid } .ilclose c.next h.ilid 0
      if h.ilack = c.next then ilhangup c else c
    | _ => c

/-- A packet arrives. An end that is to be made by the first call is `illistening` before it, and
`start` is its random number. -/
def iliput (c : Conv) (start : ℕ) (h : Packet) : Conv :=
  if IL_HDRSIZE + h.data.length < h.illen then c
  else
    match c.state with
    | .ilclosed => if h.iltype = .ilsync then ilreject c h else c
    | .illistening =>
      if h.iltype ≠ .ilsync then ilreject c h
      else
        ilprocess
          { ilcbinit start with state := .ilsyncee, rstart := h.ilid, sent := c.sent } h
    | _ => ilprocess c h

/-! ### Time -/

/-- Whether `later` holds for the times of a control block. -/
structure Timeouts where
  timeout : Bool
  acktime : Bool
  querytime : Bool
  deathtime : Bool

/-- What `ilackproc` does to one conversation when it wakes up. -/
def ilackproc (c : Conv) (t : Timeouts) : Conv :=
  match c.state with
  | .ilclosed | .illistening => c
  | .ilclosing =>
    if t.timeout then
      if MaxRexmit < c.rexmit then ilhangup c
      else ilbackoff (ilsendctl c .ilclose c.next c.recvd 0)
    else c
  | .ilsyncee | .ilsyncer =>
    if t.timeout then
      if MaxRexmit < c.rexmit then ilhangup c
      else ilbackoff (ilsendctl c .ilsync c.start c.recvd 0)
    else c
  | .ilestablished =>
    let c := if c.recvd ≠ c.acksent ∧ t.acktime then ilsendctl c .ilack c.next c.recvd 0 else c
    if t.querytime ∧ t.deathtime then ilhangup c
    else
      let c := if t.querytime then query c else c
      if c.unacked ≠ [] ∧ t.timeout then
        if MaxRexmit < c.rexmit then ilhangup c else ilbackoff (query c)
      else c

/-- `ilstart` for a connection, with the quick timeout or without it. -/
def ilstart (start : ℕ) (fasttimeout : Bool) : Conv :=
  let c : Conv := { ilcbinit start with rexmit := if fasttimeout then MaxRexmit - 4 else 0 }
  ilsendctl { c with state := .ilsyncer } .ilsync c.start c.recvd 0

/-! ### Two ends -/

inductive Side
  | a
  | b
  deriving DecidableEq, Repr

def Side.peer : Side → Side
  | .a => .b
  | .b => .a

abbrev System := Side → Conv

/-- What happens: the user writes or closes, a packet of the other side arrives, finds a listener
instead of the conversation, time passes, or an error comes back from the network. -/
inductive Event
  | write (x : Side) (m : Msg)
  | close (x : Side)
  | arrive (x : Side) (start : ℕ) (p : Packet)
  | listener (x : Side) (p : Packet)
  | ilackproc (x : Side) (t : Timeouts)
  | iladvise (x : Side)

/-- The random number of `ilcbinit` is below `0x1000000`. -/
def step (s : System) : Event → Option System
  | .write x m =>
    if (s x).state ≠ .illistening then some (Function.update s x (ilkick (s x) m)) else none
  | .close x =>
    if (s x).state ≠ .illistening then some (Function.update s x (ilclose (s x))) else none
  | .arrive x start p =>
    if p ∈ (s x.peer).sent ∧ start < 0x1000000 then
      some (Function.update s x (iliput (s x) start p))
    else none
  | .listener x p =>
    if p ∈ (s x.peer).sent ∧ ((s x).state = .ilclosed ∨ (s x).state = .illistening) then
      some (Function.update s x (ilreject (s x) p))
    else none
  | .ilackproc x t => some (Function.update s x (ilackproc (s x) t))
  | .iladvise x =>
    if (s x).state = .ilsyncer then some (Function.update s x (ilhangup (s x))) else none

/-- The ends at the start: one that connects, and one that is to be made by a call. -/
inductive Started : Conv → Prop
  | connect (start : ℕ) (fasttimeout : Bool) (h : start < 0x1000000) :
      Started (ilstart start fasttimeout)
  | listen : Started { ilcbinit 0 with state := .illistening }

/-- The user writes fewer than `2 ^ 31` messages, each of at most 65000 bytes. -/
def Modest (s : System) : Event → Prop
  | .write x m => m.length ≤ 65000 ∧ (s x).wrote.length + 1 < 2147483648
  | _ => True

end PlanNine.Il
