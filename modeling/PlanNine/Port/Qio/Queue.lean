import PlanNine.Port.Qio.Block

/-!
# Queues

The queues of `qio.c`. Each definition is what a routine does between `ilock` and `iunlock`: the
queue after it, what it returns, and whether it goes on to wake the process at the other end. The
routines that sleep in between, `qread`, `qbread` and `qbwrite`, come as one definition for each
such stretch.

The function `kick` of a queue is outside this file, and `bypass` replaces the queue altogether;
they are left out.

## Main definitions

* `Queue`: the fields of the source, with the string of blocks from `bfirst` on.
* `Queue.link`: append a string of blocks behind the block that `blast` points to.
* `qget`, `qdiscard`, `qconsume`, `qpass`, `qpassnolim`, `qproduce`, `qiwrite`, `qaddlist`,
  `qremove`, `qputback`, `pullupqueue`, `qflush`, `qclose`, `qhangup`: the operations.
* `qwait`, `qbreadTake`, `qreadTake`, `qreadDone`, `qbwritePut`: the stretches of the others.
-/

namespace PlanNine.Qio

structure Queue where
  /-- the blocks from `bfirst` on -/
  bfirst : List Block := []
  /-- the address in `blast` -/
  blast : ℕ := 0
  /-- bytes allocated to queue -/
  len : ℤ := 0
  /-- data bytes in queue -/
  dlen : ℤ := 0
  /-- max bytes in queue -/
  limit : ℕ
  qstarve : Bool := true
  qmsg : Bool := false
  qclosed : Bool := false
  qflow : Bool := false
  qcoalesce : Bool := false
  /-- true if writes return immediately when q full -/
  noblock : Bool := false
  /-- number of eofs read by user -/
  eof : ℕ := 0
  err : String := ""

/-- `Ehungup`. -/
def Ehungup : String := "i/o on hungup channel"

/-! ### Appending -/

/-- `p->next = bs`, for the block of the string that `p` points to. -/
def setNext (p : ℕ) (bs : List Block) : List Block → List Block
  | [] => []
  | b :: next => if b.addr = p then b :: bs else b :: setNext p bs next

/-- The address of the last block of a string. -/
def lastAddr (b : Block) (bs : List Block) : ℕ := ((b :: bs).getLast (List.cons_ne_nil b bs)).addr

namespace Queue

/-- `if(q->bfirst) q->blast->next = bs; else q->bfirst = bs;`. -/
def link (q : Queue) (bs : List Block) : Queue :=
  match q.bfirst with
  | [] => { q with bfirst := bs }
  | _ :: _ => { q with bfirst := setNext q.blast bs q.bfirst }

/-- Append a string of blocks and count it. -/
def append (q : Queue) (b : Block) (bs : List Block) : Queue :=
  { q.link (b :: bs) with
    blast := lastAddr b bs
    len := q.len + blockalloclen (b :: bs)
    dlen := q.dlen + blocklen (b :: bs) }

/-- `if(q->state & Qstarve){ q->state &= ~Qstarve; dowakeup = 1; }`. -/
def feed (q : Queue) : Queue × Bool := ({ q with qstarve := false }, q.qstarve)

/-- Restart a flow controlled writer when `cond` holds. -/
def restart (q : Queue) (cond : Bool) : Queue × Bool :=
  ({ q with qflow := q.qflow && !cond }, q.qflow && cond)

/-- `if(q->len >= n) q->state |= Qflow;`. -/
def flowAt (q : Queue) (n : ℕ) : Queue := { q with qflow := q.qflow || decide ((n : ℤ) ≤ q.len) }

/-- `q->len < q->limit/2`. -/
def low (q : Queue) : Bool := q.len < (q.limit / 2 : ℕ)

/-- Take the first block, `b`, off a queue that goes on with `bs`. -/
def pop (q : Queue) (b : Block) (bs : List Block) : Queue :=
  { q with bfirst := bs, len := q.len - b.BALLOC, dlen := q.dlen - b.BLEN }

end Queue

open Queue

/-! ### Operations -/

def qaddlist (q : Queue) (b : Block) (bs : List Block) : Queue := q.append b bs

def qremove (q : Queue) : Option Block × Queue :=
  match q.bfirst with
  | [] => (none, q)
  | b :: bs => (some b, q.pop b bs)

def qputback (q : Queue) (b : Block) : Queue :=
  { q with
    bfirst := b :: q.bfirst
    blast := if q.bfirst = [] then b.addr else q.blast
    len := q.len + b.BALLOC
    dlen := q.dlen + b.BLEN }

/-- The block returned, the queue, and whether to wake the writer. -/
def qget (q : Queue) : Option Block × Queue × Bool :=
  match q.bfirst with
  | [] => (none, { q with qstarve := true }, false)
  | b :: bs =>
      let q := q.pop b bs
      (some b, q.restart q.low)

/-- The loop of `qdiscard` over the blocks from `bfirst` on, with `sofar` bytes thrown away. -/
def qdiscardLoop (len : ℕ) : List Block → ℕ → Queue → ℕ × Queue
  | [], sofar, q => (sofar, q)
  | b :: bs, sofar, q =>
      if sofar < len then
        if b.BLEN ≤ len - sofar then qdiscardLoop len bs (sofar + b.BLEN) (q.pop b bs)
        else
          let n := len - sofar
          (sofar + n, { q with bfirst := b.skip n :: bs, dlen := q.dlen - n })
      else (sofar, q)

def qdiscard (q : Queue) (len : ℕ) : ℕ × Queue × Bool :=
  let (sofar, q) := qdiscardLoop len q.bfirst 0 q
  (sofar, q.restart (q.len < q.limit))

/-- The rest of `qconsume` for a block `b` with data: at most `len` bytes of it. -/
def qconsumeFrom (q : Queue) (b : Block) (bs : List Block) (len : ℕ) :
    List UInt8 × Queue × Bool :=
  let n := b.BLEN
  let len := if n < len then n else len
  let p := b.data.take len
  let b := b.skip len
  let q := { q with bfirst := b :: bs, dlen := q.dlen - len }
  let q := if q.qmsg ∨ len = n then q.pop b bs else q
  (p, q.restart q.low)

/-- The loop of `qconsume` over the blocks from `bfirst` on; `none` when there are no data. -/
def qconsumeLoop (len : ℕ) : List Block → Queue → Option (List UInt8) × Queue × Bool
  | [], q => (none, { q with qstarve := true }, false)
  | b :: bs, q =>
      if 0 < b.BLEN then
        let (p, r) := qconsumeFrom q b bs len
        (some p, r)
      else qconsumeLoop len bs { q with bfirst := bs, len := q.len - b.BALLOC }

def qconsume (q : Queue) (len : ℕ) : Option (List UInt8) × Queue × Bool :=
  qconsumeLoop len q.bfirst q

/-- What becomes of a string of blocks passed to a queue. -/
inductive Pass where
  /-- freed, and `-1` returned -/
  | full
  /-- freed -/
  | closed
  /-- queued, with the bytes allocated for it -/
  | queued (len : ℕ)
  deriving DecidableEq, Repr

/-- `qpassnolim(q, b)` for the string `b :: bs`; the flag tells whether to wake the reader. -/
def qpassnolim (q : Queue) (b : Block) (bs : List Block) : Pass × Queue × Bool :=
  if q.qclosed then (.closed, q, false)
  else (.queued (blockalloclen (b :: bs)), ((q.append b bs).flowAt (q.limit / 2)).feed)

/-- `qpass(q, b)`, which takes nothing when the queue is full. -/
def qpass (q : Queue) (b : Block) (bs : List Block) : Pass × Queue × Bool :=
  if (q.limit : ℤ) ≤ q.len then (.full, q, false) else qpassnolim q b bs

/-- `qproduce(q, vp, len)`; `none` for `iallocb` when there is no memory. -/
def qproduce (q : Queue) (m : Option Mem) (p : List UInt8) : ℤ × Queue × Bool :=
  if (q.limit : ℤ) ≤ q.len then (-1, { q with qflow := true }, false)
  else
    match m with
    | none => (0, q, false)
    | some m =>
        let (q, wake) := (q.append ((allocb m p.length).put p) []).feed
        (p.length, q.flowAt q.limit, wake)

/-- One round of the loop of `qiwrite`, with the next `Maxatomic` bytes of `p` at most. -/
def qiwriteChunk (q : Queue) (m : Mem) (p : List UInt8) : Queue × Bool :=
  (q.append ((allocb m (p.take Maxatomic).length).put (p.take Maxatomic)) []).feed

def qclose (q : Queue) : Queue :=
  { q with
    qclosed := true, qflow := false, qstarve := false, err := Ehungup, bfirst := [], len := 0
    dlen := 0, noblock := false }

def qhangup (q : Queue) (msg : String) : Queue :=
  { q with qclosed := true, err := if msg = "" then Ehungup else msg }

def qflush (q : Queue) : Queue := { q with bfirst := [], len := 0, dlen := 0 }

/-- `pullupqueue(q, n)`; `none` when the queue is empty, whose first block it looks at. -/
def pullupqueue (q : Queue) (m : Mem) (n : ℕ) : Option Queue :=
  match q.bfirst with
  | [] => none
  | b :: bs =>
      if n ≤ b.BLEN then some q
      else
        match pullupblock m b bs n with
        | [] => some { q with bfirst := [], blast := 0 }
        | b :: bs => some { q with bfirst := b :: bs, blast := lastAddr b bs }

/-! ### Reading -/

/-- How a round of `qwait` ends. -/
inductive Wait where
  /-- there is a block -/
  | data
  /-- the queue is closed -/
  | eof
  /-- multiple reads on a closed queue -/
  | err
  /-- nothing there; the caller sleeps on `rr` -/
  | sleep
  deriving DecidableEq, Repr

/-- One round of the loop of `qwait`. -/
def qwait (q : Queue) : Wait × Queue :=
  match q.bfirst with
  | _ :: _ => (.data, q)
  | [] =>
      if q.qclosed then
        let q := { q with eof := q.eof + 1 }
        if 3 < q.eof ∨ q.err ≠ "" ∧ q.err ≠ Ehungup then (.err, q) else (.eof, q)
      else (.sleep, { q with qstarve := true })

/-- `notempty(q)`. -/
def notempty (q : Queue) : Bool := q.qclosed || !q.bfirst.isEmpty

/-- `qwakeup_iunlock(q)`. -/
def qwakeup (q : Queue) : Queue × Bool := q.restart q.low

/-- The rest of `qbread` for the first block `b`: the block returned, and the queue with what is
too much of it. -/
def qbreadTake (q : Queue) (m : Mem) (b : Block) (bs : List Block) (len : ℕ) :
    Block × Queue × Bool :=
  let q := q.pop b bs
  if len < b.BLEN then
    let q := if q.qmsg then q else
      qputback q ((allocb m (b.BLEN - len)).put (b.data.drop len))
    (b.cut len, qwakeup q)
  else (b, qwakeup q)

/-- `again:` in `qread`: when coalescing, 0 length blocks just go away. -/
def qreadWait : List Block → Queue → Wait × Queue
  | [], q => qwait q
  | b :: bs, q => if q.qcoalesce ∧ b.BLEN = 0 then qreadWait bs (q.pop b bs) else (.data, q)

/-- The loop of `qread` that takes the following blocks as long as they completely fit. -/
def grab (len : ℕ) : List Block → ℕ → Queue → List Block × Queue
  | [], _, q => ([], q)
  | b :: bs, n, q =>
      if len < n + b.BLEN then ([], q)
      else
        let (first, q) := grab len bs (n + b.BLEN) (q.pop b bs)
        (b :: first, q)

/-- The blocks that `qread` takes off a queue that starts with `b`. -/
def qreadTake (q : Queue) (b : Block) (bs : List Block) (len : ℕ) : List Block × Queue :=
  let q := q.pop b bs
  if q.qcoalesce then
    let (first, q) := grab len bs b.BLEN q
    (b :: first, q)
  else ([b], q)

/-- The end of `qread`: take care of any left over partial block, and restart the producer. -/
def qreadDone (q : Queue) (rest : List Block) : Queue × Bool :=
  match rest with
  | [] => qwakeup q
  | b :: _ => qwakeup (if q.qmsg then q else qputback q b)

/-! ### Writing -/

/-- `qnotfull(q)`. -/
def qnotfull (q : Queue) : Bool := q.len < q.limit || q.qclosed

/-- How the first stretch of `qbwrite` ends. -/
inductive Put where
  /-- `error(q->err)`: the queue is closed -/
  | closed
  /-- not queued over the limit of a nonblocking queue -/
  | dropped
  | queued
  deriving DecidableEq, Repr

/-- `qbwrite` up to its loop, which waits while the queue is full. -/
def qbwritePut (q : Queue) (b : Block) : Put × Queue × Bool :=
  if q.qclosed then (.closed, q, false)
  else if (q.limit : ℤ) ≤ q.len ∧ q.noblock then (.dropped, q, false)
  else (.queued, (q.append b []).feed)

/-- The blocks that `qwrite` hands to `qbwrite`, one after the other: each holds at most
`Maxatomic` bytes, and on a message queue there is one only. -/
def qwriteBlocks (qmsg : Bool) (ms : ℕ → Mem) (p : List UInt8) : List Block :=
  if qmsg then (mem2bl ms p).take 1 else mem2bl ms p

end PlanNine.Qio
