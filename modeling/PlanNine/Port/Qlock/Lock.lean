import PlanNine.Lib.Fifo

/-!
# Queueing locks and read-write locks

The locks of `qlock.c`. A process that finds a lock taken puts itself at the end of a queue and
stops; the process that lets the lock go hands it to the first one in the queue, or to all readers
in front. What is done under the spin lock of a lock is one step. A process that is handed a lock is
made ready in a step of its own, but for readers, which are made ready under the spin lock.

There are any number of locks of both kinds; all their queues go through one pointer of each
process, so that a process is in one of them at the most. Processes are numbered below the size of
the table of processes, which also bounds how many readers wait. Who holds a lock, and the order in
which processes asked for it and were given it, are recorded.

## Main definitions

* `QLock`, `RWlock`, `State`: the locks and the processes.
* `qlock`, `canqlock`, `qunlock`, `rlock`, `canrlock`, `runlock`, `wlock`, `wunlock`: the routines.
* `exec`: the steps; there is none from a panic.
* `Able`: a process that runs unlocks what it holds.
-/

namespace PlanNine.Qlock

/-- The states of a process; one that is in no queue is `Running` here, whatever else it does. -/
inductive Status where
  | Running | Queueing | QueueingR | QueueingW
  deriving DecidableEq

/-- The queue of a lock. -/
inductive Wait where
  | q (i : ℕ)
  | rw (i : ℕ)
  deriving DecidableEq

structure QLock where
  locked : Bool := false
  /-- The processes that hold the lock. -/
  holding : List ℕ := []
  /-- The processes that asked for the lock. -/
  arrived : List ℕ := []
  /-- The processes that were given the lock. -/
  granted : List ℕ := []

structure RWlock where
  readers : ℤ := 0
  writer : Bool := false
  /-- The processes that hold the lock for reading. -/
  reading : List ℕ := []
  /-- The processes that hold the lock for writing. -/
  writing : List ℕ := []
  arrived : List ℕ := []
  granted : List ℕ := []

structure State where
  fifo : Fifo Wait := .empty
  ql : ℕ → QLock := fun _ => {}
  rw : ℕ → RWlock := fun _ => {}
  state : ℕ → Status := fun _ => .Running
  /-- The processes that were handed a lock and are to be made ready. -/
  handed : List ℕ := []

/-! ### Records -/

namespace QLock

variable (w : QLock)

def asked (p : ℕ) : QLock := { w with arrived := w.arrived ++ [p] }

/-- A process is given the lock. -/
def given (p : ℕ) : QLock := { w with granted := w.granted ++ [p], holding := p :: w.holding }

def left (p : ℕ) : QLock := { w with holding := w.holding.erase p }

end QLock

namespace RWlock

variable (w : RWlock)

def asked (p : ℕ) : RWlock := { w with arrived := w.arrived ++ [p] }

/-- A process is given the lock for reading. -/
def givenR (p : ℕ) : RWlock := { w with granted := w.granted ++ [p], reading := p :: w.reading }

/-- A process is given the lock for writing. -/
def givenW (p : ℕ) : RWlock := { w with granted := w.granted ++ [p], writing := p :: w.writing }

def leftR (p : ℕ) : RWlock := { w with reading := w.reading.erase p }

def leftW (p : ℕ) : RWlock := { w with writing := w.writing.erase p }

end RWlock

/-! ### Routines -/

variable (t : State)

namespace State

def setQ (i : ℕ) (w : QLock) : State := { t with ql := Function.update t.ql i w }

def setRW (i : ℕ) (w : RWlock) : State := { t with rw := Function.update t.rw i w }

/-- A process puts itself at the end of a queue, and stops. -/
def queue (l : Wait) (p : ℕ) (s : Status) : State :=
  { t with fifo := t.fifo.put l p, state := Function.update t.state p s }

/-- The first process of a queue is taken off, to be made ready. -/
def hand (l : Wait) (p : ℕ) : State :=
  { t with fifo := (t.fifo.pop l p).settle l, handed := p :: t.handed }

/-- The first reader of a queue is taken off, and made ready. -/
def wake (i p : ℕ) : State :=
  { t.setRW i { (t.rw i).givenR p with readers := (t.rw i).readers + 1 } with
    fifo := t.fifo.pop (.rw i) p
    state := Function.update t.state p .Running }

end State

def qlock (i p : ℕ) : State :=
  let w := (t.ql i).asked p
  if w.locked = false then t.setQ i { w.given p with locked := true }
  else (t.setQ i w).queue (.q i) p .Queueing

/-- The spin lock may be taken. -/
def canqlock (can : Bool) (i p : ℕ) : State :=
  let w := t.ql i
  if ¬ can then t
  else if w.locked then t
  else t.setQ i { (w.asked p).given p with locked := true }

def qunlock (i p : ℕ) : State :=
  let w := (t.ql i).left p
  match t.fifo.head (.q i) with
  | some p => (t.setQ i (w.given p)).hand (.q i) p
  | none => t.setQ i { w with locked := false }

def rlock (i p : ℕ) : State :=
  let w := (t.rw i).asked p
  if w.writer = false ∧ t.fifo.head (.rw i) = none then
    t.setRW i { w.givenR p with readers := w.readers + 1 }
  else (t.setRW i w).queue (.rw i) p .QueueingR

/-- There is no result from a panic. -/
def runlock (i p : ℕ) : Option State :=
  let w := (t.rw i).leftR p
  let w := { w with readers := w.readers - 1 }
  match t.fifo.head (.rw i) with
  | none => some (t.setRW i w)
  | some p =>
    if 0 < w.readers then some (t.setRW i w)
    else if t.state p ≠ .QueueingW then none
    else some ((t.setRW i { w.givenW p with writer := true }).hand (.rw i) p)

def wlock (i p : ℕ) : State :=
  let w := (t.rw i).asked p
  if w.readers = 0 ∧ w.writer = false then t.setRW i { w.givenW p with writer := true }
  else (t.setRW i w).queue (.rw i) p .QueueingW

/-- Take the readers in front off a queue, and make them ready. -/
def wakeReaders (i : ℕ) : ℕ → State → Option State
  | 0, _ => none
  | fuel + 1, t =>
    match t.fifo.head (.rw i) with
    | none => some t
    | some p =>
      if t.state p = .QueueingR then
        wakeReaders i fuel (t.wake i p)
      else some t

def wunlock (nproc i p : ℕ) : Option State :=
  let w := (t.rw i).leftW p
  match t.fifo.head (.rw i) with
  | none => some (t.setRW i { w with writer := false })
  | some p =>
    if t.state p = .QueueingW then some ((t.setRW i (w.givenW p)).hand (.rw i) p)
    else if t.state p ≠ .QueueingR then none
    else (wakeReaders i (nproc + 1) (t.setRW i w)).map fun t =>
      { t.setRW i { t.rw i with writer := false } with fifo := t.fifo.settle (.rw i) }

def canrlock (i p : ℕ) : State :=
  let w := t.rw i
  if w.writer = false ∧ t.fifo.head (.rw i) = none then
    t.setRW i { (w.asked p).givenR p with readers := w.readers + 1 }
  else t

/-- A process that was handed a lock is made ready. -/
def ready (p : ℕ) : State :=
  { t with state := Function.update t.state p .Running, handed := t.handed.erase p }

/-! ### Steps -/

inductive Op where
  | qlock (i p : ℕ)
  | canqlock (can : Bool) (i p : ℕ)
  | qunlock (i p : ℕ)
  | rlock (i p : ℕ)
  | canrlock (i p : ℕ)
  | runlock (i p : ℕ)
  | wlock (i p : ℕ)
  | wunlock (i p : ℕ)
  | ready (p : ℕ)

def exec (nproc : ℕ) (t : State) : Op → Option State
  | .qlock i p => some (qlock t i p)
  | .canqlock can i p => some (canqlock t can i p)
  | .qunlock i p => some (qunlock t i p)
  | .rlock i p => some (rlock t i p)
  | .canrlock i p => some (canrlock t i p)
  | .runlock i p => runlock t i p
  | .wlock i p => some (wlock t i p)
  | .wunlock i p => wunlock t nproc i p
  | .ready p => some (ready t p)

/-- A process runs that is in the table of processes. -/
def State.Runs (nproc : ℕ) (p : ℕ) : Prop := p < nproc ∧ t.state p = .Running

/-- What can be done: a process that runs asks for a lock or lets one go that it holds, and one that
was handed a lock is made ready. -/
def Able (nproc : ℕ) (t : State) : Op → Prop
  | .qlock _ p | .canqlock _ _ p | .rlock _ p | .canrlock _ p | .wlock _ p => t.Runs nproc p
  | .qunlock i p => t.Runs nproc p ∧ p ∈ (t.ql i).holding
  | .runlock i p => t.Runs nproc p ∧ p ∈ (t.rw i).reading
  | .wunlock i p => t.Runs nproc p ∧ p ∈ (t.rw i).writing
  | .ready p => p ∈ t.handed

instance (nproc : ℕ) (t : State) (op : Op) : Decidable (Able nproc t op) := by
  cases op <;> unfold Able State.Runs <;> infer_instance

def step (nproc : ℕ) (t : State) (op : Op) (t' : State) : Prop := exec nproc t op = some t'

end PlanNine.Qlock
