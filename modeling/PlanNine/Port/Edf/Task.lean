import Mathlib.Tactic

/-!
# Tasks of the real-time scheduler

The data of `edf.h` that the scheduler and the schedulability test share. A task is known by its
number `taskno`. Ticks are natural numbers.

## Main definitions

* `Edfstate`: the states of a task, in the order of the source.
* `CSN`: the use of a resource by a task.
* `Task`: a task.
-/

namespace PlanNine.Edf

inductive Edfstate
  | unused
  | expelled
  | admitted
  | idle
  | awaitrelease
  | released
  | running
  | extra
  | preempted
  | blocked
  | deadline
  deriving DecidableEq, Repr

/-- The value of a state, for comparisons. -/
def Edfstate.toNat : Edfstate → ℕ
  | unused => 0
  | expelled => 1
  | admitted => 2
  | idle => 3
  | awaitrelease => 4
  | released => 5
  | running => 6
  | extra => 7
  | preempted => 8
  | blocked => 9
  | deadline => 10

/-- The use of the resource `i` by a task: its cost, whether it only reads, and the deadline that
`testdelta` gives it. -/
structure CSN where
  i : ℕ
  C : ℕ
  R : Bool
  testDelta : ℕ
  deriving DecidableEq, Repr

/-- A task: the deadline, the period and the cost that were asked for, the slice that is left, the
release, the deadline and the next period, the state, when it was scheduled last, the runnable
member processes and all of them, the resources and the flag `Useblocking`. -/
structure Task where
  taskno : ℕ
  D : ℕ := 0
  T : ℕ := 0
  C : ℕ := 0
  S : ℕ := 0
  r : ℕ := 0
  d : ℕ := 0
  t : ℕ := 0
  state : Edfstate := .expelled
  scheduled : ℕ := 0
  runq : List ℕ := []
  procs : List ℕ := []
  csns : List CSN := []
  useblocking : Bool := false
  deriving DecidableEq, Repr

/-- Whether the schedulability test for `thetask` looks at the task. -/
def Task.tested (t : Task) (thetask : ℕ) : Bool :=
  ¬ (t.state.toNat ≤ Edfstate.expelled.toNat ∧ t.taskno ≠ thetask)

end PlanNine.Edf
