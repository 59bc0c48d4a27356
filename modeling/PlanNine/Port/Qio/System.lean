import PlanNine.Lib.Run
import PlanNine.Port.Qio.Queue

/-!
# Processes on a queue

Any number of processes read, write and work on a queue. The lock `rlock` lets one of them read at
a time and `wlock` one of them write, so a state holds where the holder of each is. Each step is
one stretch under `ilock`, or one `sleep` or `wakeup`. A wakeup is on its way from the end of the
stretch that asks for it; the process that issues it may go on meanwhile, so these are at least the
interleavings of the source.

The state keeps two records that the source does not have: the bytes of each block as it entered
the queue, and the bytes that each read returned.

## Main definitions

* `Rd`, `Wr`: where the reader and the writer are.
* `Op`: the operations that take one stretch.
* `Sys`, `Event`, `Step`: the states and the steps.
-/

namespace PlanNine.Qio

/-- The two calls that read a queue, with their lengths. -/
inductive Call where
  | qread (len : ℕ)
  | qbread (len : ℕ)
  deriving DecidableEq, Repr

/-- Where the holder of `rlock` is. -/
inductive Rd where
  | idle
  /-- at the top of the loop of `qwait`, about to take the lock -/
  | enter (c : Call)
  /-- in `qwait`, after `iunlock` and before `sleep` -/
  | tosleep (c : Call)
  | asleep (c : Call)
  /-- in `qread`, copying the blocks `first` outside of the lock -/
  | copying (len : ℕ) (first : List Block)
  deriving DecidableEq, Repr

/-- Where the holder of `wlock` is. -/
inductive Wr where
  | idle
  /-- at the test of the loop of `qbwrite` -/
  | test
  /-- about to set `Qflow` -/
  | flow
  /-- after `Qflow` is set and before `sleep` -/
  | tosleep
  | asleep
  deriving DecidableEq, Repr

/-- The operations that take one stretch. -/
inductive Op where
  | qiwrite (m : Mem) (p : List UInt8)
  | qproduce (m : Option Mem) (p : List UInt8)
  | qpass (b : Block) (bs : List Block)
  | qpassnolim (b : Block) (bs : List Block)
  | qaddlist (b : Block) (bs : List Block)
  | qget
  | qremove
  | qputback (b : Block)
  | qdiscard (len : ℕ)
  | qconsume (len : ℕ)
  | pullupqueue (m : Mem) (n : ℕ)
  | qflush
  | qclose
  | qhangup (msg : String)

structure Sys where
  q : Queue
  rd : Rd := .idle
  wr : Wr := .idle
  /-- the calls of `wakeup(&q->rr)` on their way -/
  rwake : ℕ := 0
  /-- the calls of `wakeup(&q->wr)` on their way -/
  wwake : ℕ := 0
  /-- the bytes of the blocks that entered the queue -/
  written : List (List UInt8) := []
  /-- the bytes that the reads returned -/
  returned : List (List UInt8) := []

namespace Sys

/-- The queue after a stretch, and whether the reader or the writer is to be woken. -/
def put (s : Sys) (q : Queue) (rd wr : Bool) : Sys :=
  { s with q := q, rwake := s.rwake + rd.toNat, wwake := s.wwake + wr.toNat }

/-- Record the blocks that entered the queue. -/
def enter (s : Sys) (bs : List Block) : Sys :=
  { s with written := s.written ++ bs.map Block.data }

/-- Record the blocks passed, if they entered the queue. -/
def pass (s : Sys) (r : Pass × Queue × Bool) (bs : List Block) : Sys :=
  match r.1 with
  | .queued _ => (s.put r.2.1 r.2.2 false).enter bs
  | _ => s.put r.2.1 r.2.2 false

/-- An operation that takes one stretch. -/
def op (s : Sys) : Op → Option Sys
  | .qiwrite m p =>
      let (q, wake) := qiwriteChunk s.q m p
      some { s.put q wake false with written := s.written ++ [p.take Maxatomic] }
  | .qproduce m p =>
      let (_, q, wake) := Qio.qproduce s.q m p
      some { s.put q wake false with
        written := if (s.q.limit : ℤ) ≤ s.q.len ∨ m.isNone then s.written else s.written ++ [p] }
  | .qpass b bs => some (s.pass (Qio.qpass s.q b bs) (b :: bs))
  | .qpassnolim b bs => some (s.pass (Qio.qpassnolim s.q b bs) (b :: bs))
  | .qaddlist b bs => some ((s.put (Qio.qaddlist s.q b bs) false false).enter (b :: bs))
  | .qget => some (s.put (Qio.qget s.q).2.1 false (Qio.qget s.q).2.2)
  | .qremove => some (s.put (Qio.qremove s.q).2 false false)
  | .qputback b => some (s.put (Qio.qputback s.q b) false false)
  | .qdiscard len => some (s.put (Qio.qdiscard s.q len).2.1 false (Qio.qdiscard s.q len).2.2)
  | .qconsume len => some (s.put (Qio.qconsume s.q len).2.1 false (Qio.qconsume s.q len).2.2)
  | .pullupqueue m n => (Qio.pullupqueue s.q m n).map fun q => s.put q false false
  | .qflush => some (s.put (Qio.qflush s.q) false true)
  | .qclose => some (s.put (Qio.qclose s.q) true true)
  | .qhangup msg => some (s.put (Qio.qhangup s.q msg) true true)

/-- The wait at the start of a read. -/
def wait (q : Queue) : Call → Wait × Queue
  | .qread _ => qreadWait q.bfirst q
  | .qbread _ => qwait q

/-- What a read does with a queue `q` that starts with `b`. -/
def take (s : Sys) (m : Mem) (q : Queue) (b : Block) (bs : List Block) : Call → Sys
  | .qread len =>
      let r := qreadTake q b bs len
      { s with q := r.2, rd := .copying len r.1 }
  | .qbread len =>
      let r := qbreadTake q m b bs len
      { s.put r.2.1 false r.2.2 with rd := .idle, returned := s.returned ++ [r.1.data] }

/-- The next stretch of the reader. -/
def readStep (s : Sys) (m : Mem) : Option Sys :=
  match s.rd with
  | .idle | .asleep _ => none
  | .enter c =>
      match wait s.q c with
      | (.sleep, q) => some { s with q := q, rd := .tosleep c }
      | (.eof, q) | (.err, q) => some { s with q := q, rd := .idle }
      | (.data, q) =>
          match q.bfirst with
          | [] => none
          | b :: bs => some (s.take m q b bs c)
  | .tosleep c => some { s with rd := if notempty s.q then .enter c else .asleep c }
  | .copying len first =>
      let r := qreadDone s.q (bl2mem first len).2
      some { s.put r.1 false r.2 with
        rd := .idle, returned := s.returned ++ [(bl2mem first len).1] }

/-- A call of `qbwrite`, up to its loop. -/
def write (s : Sys) (b : Block) : Option Sys :=
  match s.wr with
  | .idle =>
      match qbwritePut s.q b with
      | (.queued, q, wake) => some { (s.put q wake false).enter [b] with wr := .test }
      | (_, q, wake) => some (s.put q wake false)
  | _ => none

/-- The next stretch of the writer. -/
def writeStep (s : Sys) : Option Sys :=
  match s.wr with
  | .idle | .asleep => none
  | .test => some { s with wr := if s.q.noblock || qnotfull s.q then .idle else .flow }
  | .flow => some { s with q := { s.q with qflow := true }, wr := .tosleep }
  | .tosleep => some { s with wr := if qnotfull s.q then .test else .asleep }

/-- `wakeup(&q->rr)`. -/
def wakeRr (s : Sys) : Sys :=
  { s with
    rwake := s.rwake - 1
    rd := match s.rd with
      | .asleep c => .enter c
      | rd => rd }

/-- `wakeup(&q->wr)`. -/
def wakeWr (s : Sys) : Sys :=
  { s with
    wwake := s.wwake - 1
    wr := match s.wr with
      | .asleep => .test
      | wr => wr }

end Sys

/-- What happens next. -/
inductive Event where
  /-- a process takes `rlock` and reads -/
  | read (c : Call)
  | readStep (m : Mem)
  /-- a note for the reader while it sleeps -/
  | readIntr
  /-- a process takes `wlock` and writes -/
  | write (b : Block)
  | writeStep
  /-- a note for the writer while it sleeps -/
  | writeIntr
  | wakeRr
  | wakeWr
  | op (o : Op)

/-- One step; `none` when it cannot be taken. -/
def Sys.step (s : Sys) : Event → Option Sys
  | .read c => if s.rd = .idle then some { s with rd := .enter c } else none
  | .readStep m => s.readStep m
  | .readIntr =>
      match s.rd with
      | .tosleep _ | .asleep _ => some { s with rd := .idle }
      | _ => none
  | .write b => s.write b
  | .writeStep => s.writeStep
  | .writeIntr =>
      match s.wr with
      | .tosleep | .asleep => some { s with wr := .idle }
      | _ => none
  | .wakeRr => if 0 < s.rwake then some s.wakeRr else none
  | .wakeWr => if 0 < s.wwake then some s.wakeWr else none
  | .op o => s.op o

/-- The addresses of the blocks that an event brings along. -/
def Event.addrs : Event → List ℕ
  | .readStep m => [m.addr]
  | .write b => [b.addr]
  | .op (.qiwrite m _) | .op (.qproduce (some m) _) | .op (.pullupqueue m _) => [m.addr]
  | .op (.qpass b bs) | .op (.qpassnolim b bs) | .op (.qaddlist b bs) => (b :: bs).map Block.addr
  | .op (.qputback b) => [b.addr]
  | _ => []

/-- The blocks that the reader holds. -/
def Rd.held : Rd → List Block
  | .copying _ first => first
  | _ => []

/-- The addresses of the blocks in the queue and with the reader. -/
def Sys.addrs (s : Sys) : List ℕ := (s.q.bfirst ++ s.rd.held).map Block.addr

/-- A step with blocks that belong to its caller: they are not in the queue, nor with the reader. -/
def Step (s : Sys) (e : Event) (s' : Sys) : Prop :=
  (e.addrs ++ s.addrs).Nodup ∧ s.step e = some s'

/-- A queue as `qopen` makes it. -/
structure Opened (q : Queue) : Prop where
  bfirst : q.bfirst = []
  len : q.len = 0
  dlen : q.dlen = 0
  qstarve : q.qstarve = true
  qflow : q.qflow = false
  qclosed : q.qclosed = false

end PlanNine.Qio
