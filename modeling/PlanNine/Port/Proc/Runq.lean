import Mathlib.Algebra.BigOperators.Fin
import PlanNine.Lib.Fifo
import PlanNine.Lib.Run
import PlanNine.Lib.Ulong

/-!
# The run queues

`ready`, `dequeueproc`, `rebalance` and `procpriority` of `proc.c`. There is a queue of processes
for each priority. Beside the pointers there are how many processes a queue has, how many there are
in all, and a word with a bit for each queue that is not empty. A process takes a new priority when
it is put on a queue; its base priority may be changed while it is on one.

A process is known by a number. Real-time processes, which are kept elsewhere, are left out. Whether
`runq` can be locked, the machine and its ticks are inputs, and so is what the rest of the kernel
makes of a process between calls. When each process arrived on its queue is recorded.

## Main definitions

* `Proc`, `Sched`: a process, and the queues with their summaries.
* `ready`, `dequeueproc`, `rebalance`, `procpriority`: the routines.
* `Sys`, `exec`: calls of the routines.
* `Summarised`: the summaries are right, the queues are in the order of arrival, and the priorities
  in their bounds.

## Main results

* `summarised_of_run`: this holds in every state reached, and every call returns.
-/

namespace PlanNine.Runq

open Links

def HZ : ℕ := 100

/-- The number of priorities. -/
def Nrq : ℕ := 20

def Q : ℕ := HZ / 20 * 4

def DQ : ℕ := (HZ - Q) / 40 * 2

/-- The ticks that a process of a priority may run. -/
def quanta (pri : ℕ) : ℕ := Q + (Nrq - 1 - pri) * DQ

inductive State
  | Dead
  | Moribund
  | Ready
  | Scheding
  | Running
  | Queueing
  | QueueingR
  | QueueingW
  | Wakeme
  | Broken
  | Stopped
  | Rendezvous
  deriving DecidableEq, Repr

structure Proc where
  priority : ℕ
  basepri : ℕ
  fixedpri : Bool
  /-- What is left of the ticks. -/
  quanta : ℤ
  state : State
  readytime : ℕ
  /-- The state of the process is not saved yet. -/
  mach : Bool
  /-- The machine that the process ran on last. -/
  mp : ℕ
  deriving DecidableEq, Repr

/-- The process table, and the queues of `runq` with their summaries. -/
structure Sched where
  nproc : ℕ
  proc : ℕ → Proc
  runq : Fifo ℕ
  n : ℕ → ℤ
  nrdy : ℤ
  runvec : BitVec 32

/-- The priority that a process takes, and the ticks. -/
def Proc.reprioritize (p : Proc) : Proc :=
  if p.fixedpri then { p with priority := p.basepri, quanta := HZ }
  else if p.state = .Running then
    if p.quanta ≤ 0 then
      let pri := if 0 < p.priority then p.priority - 1 else p.priority
      { p with priority := pri, quanta := Runq.quanta pri }
    else p
  else
    let pri :=
      if (Runq.quanta p.priority / 2 : ℕ) < p.quanta then
        if p.basepri < p.priority + 1 then p.basepri else p.priority + 1
      else p.priority
    { p with priority := pri, quanta := Runq.quanta pri }

def ready (s : Sched) (ticks p : ℕ) : Sched :=
  let pr := (s.proc p).reprioritize
  let pri := pr.priority
  { s with
    proc := Function.update s.proc p { pr with readytime := ticks, state := .Ready }
    runq :=
      { links := (s.runq.links.set (.next p) none).set (Fifo.behind pri (s.runq.tail pri)) (some p)
        tail := Function.update s.runq.tail pri (some p) }
    n := Function.update s.n pri (s.n pri + 1)
    nrdy := s.nrdy + 1
    runvec := s.runvec ||| 1#32 <<< pri }

/-- Remove a process from a queue, if it is there and its state is saved; `locks` tells whether
`runq` can be locked. A queue that does not end has no result. -/
def dequeueproc (s : Sched) (locks : Bool) (rq : ℕ) (tp : Option ℕ) : Option (Option ℕ × Sched) :=
  if locks then
    (s.runq.links.walk (fun p => some p = tp) (s.nproc + 1) (.root rq)).map fun l =>
      match s.runq.links.get l with
      | none => (none, s)
      | some p =>
          if (s.proc p).mach then (none, s)
          else
            let runq := s.runq.unlink rq l p
            (some p, { s with
              runq := runq
              runvec := if runq.head rq = none then s.runvec &&& ~~~(1#32 <<< rq) else s.runvec
              n := Function.update s.n rq (s.n rq - 1)
              nrdy := s.nrdy - 1 })
  else some (none, s)

/-- One queue of `rebalance`, with the process that is made ready again. -/
def rebalanceAt (s : Sched) (machno ticks : ℕ) (locks : Bool) (rq : ℕ) :
    Option (Option ℕ × Sched) :=
  match s.runq.head rq with
  | none => some (none, s)
  | some p =>
      if (s.proc p).mp ≠ machno ∨ (s.proc p).priority = (s.proc p).basepri ∨
          ulong (ticks - (s.proc p).readytime) < quanta (s.proc p).priority / 4 then some (none, s)
      else
        (dequeueproc s locks rq (some p)).map fun
          | (none, s) => (none, s)
          | (some p, s) =>
              let pr := { s.proc p with quanta := (quanta (s.proc p).priority : ℤ) }
              (some p, ready { s with proc := Function.update s.proc p pr } ticks p)

def procpriority (p : Proc) (pri : ℤ) (fixed : Bool) : Proc :=
  let pri := if Nrq ≤ pri then Nrq - 1 else if pri < 0 then 0 else pri.toNat
  { p with
    basepri := pri
    priority := pri
    quanta := if fixed then 0xfffff else quanta pri
    fixedpri := fixed }

/-- The processes of a queue, as the pointers give them. -/
def Sched.queue (s : Sched) (rq : ℕ) : List ℕ := s.runq.links.follow (s.nproc + 1) (.root rq)

/-! ### Calls -/

/-- The queues, with when each process arrived. -/
structure Sys where
  sched : Sched
  arrival : ℕ → ℕ
  clock : ℕ

inductive Event
  | ready (ticks p : ℕ)
  | dequeueproc (locks : Bool) (rq : ℕ) (tp : Option ℕ)
  | rebalance (machno ticks : ℕ) (locks : ℕ → Bool)
  | procpriority (p : ℕ) (pri : ℤ) (fixed : Bool)
  | other (p : ℕ) (quanta : ℤ) (state : State) (mach : Bool) (mp : ℕ)

namespace Sys

/-- A process that is on no queue is made ready. -/
def Allows (s : Sys) : Event → Prop
  | .ready _ p => p < s.sched.nproc ∧ ∀ rq < Nrq, p ∉ s.sched.queue rq
  | .dequeueproc _ rq _ => rq < Nrq
  | _ => True

/-- A process has arrived. -/
def arrive (s : Sys) (sched : Sched) (p : ℕ) : Sys where
  sched := sched
  arrival := Function.update s.arrival p s.clock
  clock := s.clock + 1

/-- The queues from some number on. -/
def rebalance (s : Sys) (machno ticks : ℕ) (locks : ℕ → Bool) : List ℕ → Option Sys
  | [] => some s
  | rq :: rqs =>
      match rebalanceAt s.sched machno ticks (locks rq) rq with
      | none => none
      | some (none, sched) => rebalance { s with sched := sched } machno ticks locks rqs
      | some (some p, sched) => rebalance (s.arrive sched p) machno ticks locks rqs

def exec (s : Sys) : Event → Option Sys
  | .ready ticks p => some (s.arrive (Runq.ready s.sched ticks p) p)
  | .dequeueproc locks rq tp =>
      (Runq.dequeueproc s.sched locks rq tp).map fun r => { s with sched := r.2 }
  | .rebalance machno ticks locks => s.rebalance machno ticks locks (List.range Nrq)
  | .procpriority p pri fixed =>
      let pr := Runq.procpriority (s.sched.proc p) pri fixed
      some { s with sched := { s.sched with proc := Function.update s.sched.proc p pr } }
  | .other p quanta state mach mp =>
      let pr := { s.sched.proc p with quanta := quanta, state := state, mach := mach, mp := mp }
      some { s with sched := { s.sched with proc := Function.update s.sched.proc p pr } }

/-- The summaries are right, the queues hold each process once, in the order of arrival, and the
priorities are in their bounds. -/
structure Summarised (s : Sys) : Prop where
  ends : ∀ rq < Nrq, s.sched.runq.links.Chain (.root rq) (s.sched.queue rq)
  tail : ∀ rq < Nrq, s.sched.runq.tail rq = (s.sched.queue rq).getLast?
  n : ∀ rq < Nrq, s.sched.n rq = (s.sched.queue rq).length
  nrdy : s.sched.nrdy = ∑ rq ∈ Finset.range Nrq, s.sched.n rq
  runvec : ∀ rq < Nrq, s.sched.runvec.getLsbD rq = true ↔ s.sched.queue rq ≠ []
  once : ∀ rq < Nrq, (s.sched.queue rq).Nodup
  one : ∀ rq < Nrq, ∀ rq' < Nrq, ∀ p ∈ s.sched.queue rq, p ∈ s.sched.queue rq' → rq = rq'
  order : ∀ rq < Nrq, (s.sched.queue rq).Pairwise fun p p' => s.arrival p < s.arrival p'
  priority : ∀ p, (s.sched.proc p).priority ≤ min (s.sched.proc p).basepri (Nrq - 1)

end Sys

open Sys

variable {s t : Sys} {d d' : Sched} {q : ℕ → List ℕ} {rq p pri : ℕ} {tp : Option ℕ} {e : Event}
  {a : ℕ → ℕ} {clock ticks machno : ℕ} {locks : Bool} {xs ys : List ℕ} {v : BitVec 32}

/-! ### The queues -/

/-- The queues have the processes of some lists, and their summaries are right. -/
structure Good (d : Sched) (q : ℕ → List ℕ) : Prop where
  holds : d.runq.Holds q
  lt : ∀ rq, ∀ p ∈ q rq, p < d.nproc
  n : ∀ rq, d.n rq = (q rq).length
  empty : ∀ rq, Nrq ≤ rq → q rq = []
  nrdy : d.nrdy = ∑ rq ∈ Finset.range Nrq, d.n rq
  runvec : ∀ rq < Nrq, d.runvec.getLsbD rq = true ↔ q rq ≠ []
  priority : ∀ p, (d.proc p).priority ≤ (d.proc p).basepri ∧ (d.proc p).basepri < Nrq

theorem Good.length_le (h : Good d q) (rq : ℕ) : (q rq).length ≤ d.nproc :=
  length_le_of_nodup (h.holds.nodup rq) (h.lt rq)

theorem Good.queue_eq (h : Good d q) (rq : ℕ) : d.queue rq = q rq :=
  follow_eq (h.holds.chain rq) ((h.length_le rq).trans (Nat.le_succ _))

/-- The sum of the lengths when one of them changes. -/
theorem sum_update (n : ℕ → ℤ) (x : ℤ) (h : rq < Nrq) :
    ∑ i ∈ Finset.range Nrq, Function.update n rq x i =
      (∑ i ∈ Finset.range Nrq, n i) - n rq + x := by
  have hmem : rq ∈ Finset.range Nrq := Finset.mem_range.mpr h
  rw [← Finset.add_sum_erase _ _ hmem, ← Finset.add_sum_erase _ n hmem, Function.update_self]
  have hrest : ∑ i ∈ (Finset.range Nrq).erase rq, Function.update n rq x i =
      ∑ i ∈ (Finset.range Nrq).erase rq, n i :=
    Finset.sum_congr rfl fun i hi => Function.update_of_ne (Finset.ne_of_mem_erase hi) _ _
  rw [hrest]
  ring

theorem getLsbD_set (h : pri < 32) :
    (v ||| 1#32 <<< pri).getLsbD rq = (v.getLsbD rq || decide (rq = pri)) := by
  rw [BitVec.getLsbD_or, BitVec.getLsbD_shiftLeft]
  congr 1
  by_cases heq : rq = pri
  · subst heq
    simp [h]
  · simp only [heq, decide_false]
    by_cases hlt : rq < pri
    · simp [hlt]
    · have hne : rq - pri ≠ 0 := by omega
      simp [hne]

theorem getLsbD_clear (h : rq < 32) (hpri : pri < 32) :
    (v &&& ~~~(1#32 <<< pri)).getLsbD rq = (v.getLsbD rq && !decide (rq = pri)) := by
  have hset : (0#32 ||| 1#32 <<< pri).getLsbD rq = ((0#32).getLsbD rq || decide (rq = pri)) :=
    getLsbD_set hpri
  rw [BitVec.zero_or, BitVec.getLsbD_zero, Bool.false_or] at hset
  rw [BitVec.getLsbD_and, BitVec.getLsbD_not, hset, decide_eq_true h, Bool.true_and]

/-- Changes of a process that keep its priority in its bounds change no queue. -/
theorem Good.set_proc (h : Good d q) {pr : Proc}
    (hpr : pr.priority ≤ pr.basepri ∧ pr.basepri < Nrq) :
    Good { d with proc := Function.update d.proc p pr } q := by
  refine ⟨h.holds, h.lt, h.n, h.empty, h.nrdy, h.runvec, fun r => ?_⟩
  dsimp only
  by_cases hr : r = p
  · subst hr
    rwa [Function.update_self]
  · rw [Function.update_of_ne hr]
    exact h.priority r

theorem reprioritize_bounds {pr : Proc} (h : pr.priority ≤ pr.basepri ∧ pr.basepri < Nrq) :
    pr.reprioritize.priority ≤ pr.reprioritize.basepri ∧ pr.reprioritize.basepri < Nrq := by
  unfold Proc.reprioritize
  split_ifs
  all_goals first | exact h | (dsimp only; omega)

theorem procpriority_bounds (pr : Proc) (x : ℤ) (fixed : Bool) :
    (procpriority pr x fixed).priority ≤ (procpriority pr x fixed).basepri ∧
      (procpriority pr x fixed).basepri < Nrq := by
  have hNrq : Nrq = 20 := rfl
  unfold procpriority
  dsimp only
  split_ifs <;> omega

/-- A process that is on no queue comes behind the others of its priority. -/
theorem Good.ready (h : Good d q) (hlt : p < d.nproc) (hp : ∀ rq, p ∉ q rq) :
    Good (ready d ticks p) (Function.update q (d.proc p).reprioritize.priority
      (q (d.proc p).reprioritize.priority ++ [p])) := by
  have hb := reprioritize_bounds (h.priority p)
  unfold Runq.ready
  dsimp only
  set pr := (d.proc p).reprioritize
  have hpri : pr.priority < Nrq := hb.1.trans_lt hb.2
  have hlink : Fifo.behind pr.priority (d.runq.tail pr.priority) ≠ .next p := by
    have hne : Link.next p ≠ lastLink (.root pr.priority) (q pr.priority) :=
      ne_lastLink (Rows.root_ne _ _).symm fun r hr heq => hp _ (Link.next.inj heq ▸ hr)
    rw [h.holds.tail, Fifo.behind_getLast?]
    exact hne.symm
  refine ⟨?_, fun rq r hr => ?_, fun rq => ?_, fun rq hrq => ?_, ?_, fun rq hrq => ?_, fun r => ?_⟩
  · rw [set_comm hlink.symm]
    exact h.holds.put pr.priority hp
  · by_cases hrq : rq = pr.priority
    · rw [hrq, Function.update_self] at hr
      obtain hr | hr := List.mem_append.mp hr
      · exact h.lt _ r hr
      · exact (List.mem_singleton.mp hr) ▸ hlt
    · rw [Function.update_of_ne hrq] at hr
      exact h.lt rq r hr
  · dsimp only
    by_cases hrq : rq = pr.priority
    · subst hrq
      rw [Function.update_self, Function.update_self, h.n, List.length_append,
        List.length_singleton]
      rfl
    · rw [Function.update_of_ne hrq, Function.update_of_ne hrq]
      exact h.n rq
  · rw [Function.update_of_ne (by omega)]
    exact h.empty rq hrq
  · dsimp only
    rw [sum_update _ _ hpri, ← h.nrdy]
    ring
  · have hrq32 : pr.priority < 32 := hpri.trans (by decide)
    dsimp only
    rw [getLsbD_set hrq32]
    by_cases heq : rq = pr.priority
    · subst heq
      simp
    · rw [Function.update_of_ne heq, decide_eq_false heq, Bool.or_false]
      exact h.runvec rq hrq
  · dsimp only
    by_cases hr : r = p
    · subst hr
      rw [Function.update_self]
      exact hb
    · rw [Function.update_of_ne hr]
      exact h.priority r

/-- The first elements of a chain up to one of them. -/
theorem takeWhile_append_cons (hnodup : (xs ++ p :: ys).Nodup) :
    (xs ++ p :: ys).takeWhile (fun r => !decide (some r = some p)) = xs := by
  have hxs : ∀ r ∈ xs, (!decide (some r = some p)) = true := by
    intro r hr
    have hne : r ≠ p := fun heq =>
      (List.nodup_append.mp hnodup).2.2 r hr p List.mem_cons_self heq
    simpa using hne
  rw [List.takeWhile_append_of_pos hxs, List.takeWhile_cons_of_neg (by simp), List.append_nil]

/-- Nothing is taken off, or the process that was looked for. -/
theorem Good.dequeueproc (h : Good d q) (locks : Bool) (hrq : rq < Nrq) (tp : Option ℕ) :
    ∃ r, dequeueproc d locks rq tp = some r ∧ (r = (none, d) ∨
      ∃ p xs ys d', tp = some p ∧ q rq = xs ++ p :: ys ∧ r = (some p, d') ∧
        d'.proc = d.proc ∧ d'.nproc = d.nproc ∧ Good d' (Function.update q rq (xs ++ ys))) := by
  unfold Runq.dequeueproc
  cases locks with
  | false => exact ⟨_, rfl, .inl rfl⟩
  | true =>
    have hchain := h.holds.chain rq
    have hlen : (q rq).length < d.nproc + 1 := Nat.lt_succ_of_le (h.length_le rq)
    rw [if_pos rfl, walk_eq hchain _ hlen, Option.map_some]
    refine ⟨_, rfl, ?_⟩
    by_cases hin : ∃ p, tp = some p ∧ p ∈ q rq
    · obtain ⟨p, rfl, hp⟩ := hin
      obtain ⟨xs, ys, hq⟩ := List.append_of_mem hp
      have hnodup := h.holds.nodup rq
      rw [hq] at hchain hnodup
      have hget : d.runq.links.get (lastLink (.root rq) xs) = some p := hchain.drop.1
      rw [hq, takeWhile_append_cons hnodup, hget]
      dsimp only
      by_cases hmach : (d.proc p).mach = true
      · rw [if_pos hmach]
        exact .inl rfl
      rw [if_neg hmach]
      refine .inr ⟨p, xs, ys, _, rfl, rfl, rfl, rfl, rfl, ?_⟩
      have hholds := h.holds.unlink hq
      have hhead := hholds.head rq
      rw [Function.update_self] at hhead
      refine ⟨hholds, fun rq' r hr => ?_, fun rq' => ?_, fun rq' hrq' => ?_, ?_, fun rq' hrq' => ?_,
        h.priority⟩
      · by_cases heq : rq' = rq
        · rw [heq, Function.update_self] at hr
          refine h.lt rq r ?_
          rw [hq]
          obtain hr | hr := List.mem_append.mp hr
          · exact List.mem_append_left _ hr
          · exact List.mem_append_right _ (List.mem_cons_of_mem _ hr)
        · rw [Function.update_of_ne heq] at hr
          exact h.lt rq' r hr
      · dsimp only
        by_cases heq : rq' = rq
        · subst heq
          rw [Function.update_self, Function.update_self, h.n, hq]
          simp only [List.length_append, List.length_cons]
          omega
        · rw [Function.update_of_ne heq, Function.update_of_ne heq]
          exact h.n rq'
      · rw [Function.update_of_ne (by omega)]
        exact h.empty rq' hrq'
      · dsimp only
        rw [sum_update _ _ hrq, ← h.nrdy]
        ring
      · have h32 : rq' < 32 := hrq'.trans (by decide)
        dsimp only
        rw [hhead]
        by_cases heq : rq' = rq
        · subst heq
          rw [Function.update_self]
          have hold : d.runvec.getLsbD rq' = true := by
            rw [h.runvec rq' hrq', hq]
            simp
          by_cases hnil : xs ++ ys = []
          · rw [hnil, List.head?_nil, if_pos rfl, getLsbD_clear h32 h32, decide_eq_true rfl]
            simp
          · rw [if_neg (by rwa [List.head?_eq_none_iff])]
            exact iff_of_true hold hnil
        · rw [Function.update_of_ne heq]
          split_ifs
          · rw [getLsbD_clear h32 (hrq.trans (by decide)), decide_eq_false heq, Bool.not_false,
              Bool.and_true]
            exact h.runvec rq' hrq'
          · exact h.runvec rq' hrq'
    · have hall : (q rq).takeWhile (fun r => !decide (some r = tp)) = q rq := by
        rw [List.takeWhile_eq_self_iff]
        intro r hr
        have hne : some r ≠ tp := fun heq => hin ⟨r, heq.symm, hr⟩
        simpa using hne
      have hend : d.runq.links.get (lastLink (.root rq) (q rq)) = none := by
        have hfull : d.runq.links.Chain (.root rq) (q rq ++ []) := by rwa [List.append_nil]
        exact hfull.drop
      rw [hall, hend]
      exact .inl rfl

/-- The first process of a queue is on no queue when it is taken from it. -/
theorem Good.out_of_head (h : Good d q) (hq : q rq = p :: ys) (rq' : ℕ) :
    p ∉ Function.update q rq ys rq' := by
  intro hp
  by_cases heq : rq' = rq
  · subst heq
    rw [Function.update_self] at hp
    have hnodup := h.holds.nodup rq'
    rw [hq] at hnodup
    exact (List.nodup_cons.mp hnodup).1 hp
  · rw [Function.update_of_ne heq] at hp
    exact heq (h.holds.disjoint rq' rq p hp (hq ▸ List.mem_cons_self))

/-- The first process of a queue comes behind others, or the queue is left as it is. -/
theorem Good.rebalanceAt (h : Good d q) (machno ticks : ℕ) (locks : Bool) (hrq : rq < Nrq) :
    ∃ r, rebalanceAt d machno ticks locks rq = some r ∧ (r = (none, d) ∨
      ∃ p ys d' pri, q rq = p :: ys ∧ r = (some p, d') ∧ d'.nproc = d.nproc ∧
        Good d' (Function.update (Function.update q rq ys) pri
          (Function.update q rq ys pri ++ [p]))) := by
  unfold Runq.rebalanceAt
  rw [h.holds.head]
  cases hq : q rq with
  | nil => exact ⟨_, rfl, .inl rfl⟩
  | cons p ys =>
    dsimp only [List.head?_cons]
    split_ifs
    · exact ⟨_, rfl, .inl rfl⟩
    obtain ⟨r, hr, rfl | ⟨p', xs, ys', d', hp, hq', rfl, hproc, hnproc, hgood⟩⟩ :=
      h.dequeueproc locks hrq (some p)
    · rw [hr]
      exact ⟨_, rfl, .inl rfl⟩
    · obtain rfl := Option.some.inj hp
      have hnodup := h.holds.nodup rq
      rw [hq] at hq' hnodup
      have hxs : xs = [] := by
        cases xs with
        | nil => rfl
        | cons x xs =>
          obtain ⟨rfl, rfl⟩ := List.cons.inj hq'
          exact absurd (List.mem_append_right _ List.mem_cons_self) (List.nodup_cons.mp hnodup).1
      subst hxs
      obtain rfl := (List.cons.inj hq').2
      rw [hr]
      rw [List.nil_append] at hgood
      have hlt : p < d'.nproc := hnproc ▸ h.lt rq p (hq ▸ List.mem_cons_self)
      let pr := { d'.proc p with quanta := (quanta (d'.proc p).priority : ℤ) }
      have hset : Good { d' with proc := Function.update d'.proc p pr } (Function.update q rq ys) :=
        hgood.set_proc (hgood.priority p)
      exact ⟨_, rfl, .inr ⟨p, ys, _, _, rfl, rfl, hnproc, hset.ready hlt (h.out_of_head hq)⟩⟩

/-! ### The order of arrival -/

/-- The queues are in the order of arrival, and nothing has arrived later than now. -/
def Ordered (a : ℕ → ℕ) (clock : ℕ) (q : ℕ → List ℕ) : Prop :=
  ∀ rq, (q rq).Pairwise (fun p p' => a p < a p') ∧ ∀ p ∈ q rq, a p < clock

theorem Ordered.sublist (h : Ordered a clock q) (hys : ys.Sublist (q rq)) :
    Ordered a clock (Function.update q rq ys) := by
  intro rq'
  by_cases heq : rq' = rq
  · subst heq
    rw [Function.update_self]
    exact ⟨(h rq').1.sublist hys, fun p hp => (h rq').2 p (hys.subset hp)⟩
  · rw [Function.update_of_ne heq]
    exact h rq'

/-- One that arrives now comes behind all others. -/
theorem Ordered.arrive (h : Ordered a clock q) (hp : ∀ rq, p ∉ q rq) (pri : ℕ) :
    Ordered (Function.update a p clock) (clock + 1) (Function.update q pri (q pri ++ [p])) := by
  have hold : ∀ rq, (q rq).Pairwise (fun r r' => Function.update a p clock r <
      Function.update a p clock r') ∧ ∀ r ∈ q rq, Function.update a p clock r < clock := by
    intro rq
    have hne : ∀ r ∈ q rq, Function.update a p clock r = a r := fun r hr =>
      Function.update_of_ne (ne_of_mem_of_not_mem hr (hp rq)) _ _
    refine ⟨(h rq).1.imp_of_mem fun hr hr' hlt => ?_, fun r hr => ?_⟩
    · rwa [hne _ hr, hne _ hr']
    · rw [hne r hr]
      exact (h rq).2 r hr
  intro rq
  by_cases heq : rq = pri
  · subst heq
    rw [Function.update_self]
    refine ⟨List.pairwise_append.mpr ⟨(hold rq).1, List.pairwise_singleton _ _, ?_⟩, ?_⟩
    · intro r hr r' hr'
      rw [List.mem_singleton.mp hr', Function.update_self]
      exact (hold rq).2 r hr
    · intro r hr
      obtain hr | hr := List.mem_append.mp hr
      · exact ((hold rq).2 r hr).trans (Nat.lt_succ_self _)
      · rw [List.mem_singleton.mp hr, Function.update_self]
        exact Nat.lt_succ_self _
  · rw [Function.update_of_ne heq]
    exact ⟨(hold rq).1, fun r hr => ((hold rq).2 r hr).trans (Nat.lt_succ_self _)⟩

/-! ### Calls -/

/-- What every call keeps. -/
structure Inv (s : Sys) (q : ℕ → List ℕ) : Prop where
  good : Good s.sched q
  ordered : Ordered s.arrival s.clock q

theorem Inv.summarised (h : Inv s q) : s.Summarised := by
  have hg := h.good
  refine ⟨fun rq _ => ?_, fun rq _ => ?_, fun rq _ => ?_, hg.nrdy, fun rq hrq => ?_, fun rq _ => ?_,
    fun rq _ rq' _ p hp hp' => ?_, fun rq _ => ?_, fun p => ?_⟩
  · rw [hg.queue_eq]
    exact hg.holds.chain rq
  · rw [hg.queue_eq]
    exact hg.holds.tail rq
  · rw [hg.queue_eq]
    exact hg.n rq
  · rw [hg.queue_eq]
    exact hg.runvec rq hrq
  · rw [hg.queue_eq]
    exact hg.holds.nodup rq
  · rw [hg.queue_eq] at hp hp'
    exact hg.holds.disjoint rq rq' p hp hp'
  · rw [hg.queue_eq]
    exact (h.ordered rq).1
  · have hp := hg.priority p
    omega

theorem Inv.rebalance (h : Inv s q) (machno ticks : ℕ) (locks : ℕ → Bool) {rqs : List ℕ}
    (hrqs : ∀ rq ∈ rqs, rq < Nrq) :
    ∃ t q', s.rebalance machno ticks locks rqs = some t ∧ Inv t q' := by
  induction rqs generalizing s q with
  | nil => exact ⟨s, q, rfl, h⟩
  | cons rq rqs ih =>
    have hrest := fun rq' hr => hrqs rq' (List.mem_cons_of_mem _ hr)
    unfold Sys.rebalance
    obtain ⟨r, hr, rfl | ⟨p, ys, d', pri, hq, rfl, -, hgood⟩⟩ :=
      h.good.rebalanceAt machno ticks (locks rq) (hrqs rq List.mem_cons_self)
    · rw [hr]
      exact ih h hrest
    · rw [hr]
      have hsub : ys.Sublist (q rq) := by
        rw [hq]
        exact List.sublist_cons_self _ _
      exact ih ⟨hgood, (h.ordered.sublist hsub).arrive (h.good.out_of_head hq) pri⟩ hrest

/-- Every call that may be made returns, and keeps the invariant. -/
theorem Inv.exec (h : Inv s q) (he : s.Allows e) : ∃ t q', s.exec e = some t ∧ Inv t q' := by
  cases e with
  | ready ticks p =>
    obtain ⟨hlt, hout⟩ := he
    have hp : ∀ rq, p ∉ q rq := by
      intro rq hp
      obtain hrq | hrq := lt_or_ge rq Nrq
      · exact hout rq hrq (by rwa [h.good.queue_eq])
      · rw [h.good.empty rq hrq] at hp
        cases hp
    exact ⟨_, _, rfl, h.good.ready hlt hp, h.ordered.arrive hp _⟩
  | dequeueproc locks rq tp =>
    rw [Sys.exec]
    obtain ⟨r, hr, rfl | ⟨p, xs, ys, d', -, hq, rfl, -, -, hgood⟩⟩ :=
      h.good.dequeueproc locks he tp
    · rw [hr]
      exact ⟨_, q, rfl, h⟩
    · rw [hr]
      have hsub : (xs ++ ys).Sublist (q rq) := by
        rw [hq]
        exact (List.Sublist.refl _).append (List.sublist_cons_self _ _)
      exact ⟨_, _, rfl, hgood, h.ordered.sublist hsub⟩
  | rebalance machno ticks locks =>
    exact h.rebalance machno ticks locks fun rq hrq => List.mem_range.mp hrq
  | procpriority p x fixed =>
    exact ⟨_, q, rfl, h.good.set_proc (procpriority_bounds _ x fixed), h.ordered⟩
  | other p quanta state mach mp =>
    have hbounds := h.good.priority p
    exact ⟨_, q, rfl, h.good.set_proc hbounds, h.ordered⟩

/-! ### Runs -/

/-- The empty queues of a table of processes. -/
def start (nproc : ℕ) (proc : ℕ → Proc) : Sys where
  sched := { nproc, proc, runq := .empty, n := fun _ => 0, nrdy := 0, runvec := 0 }
  arrival := fun _ => 0
  clock := 0

theorem inv_start {nproc : ℕ} {proc : ℕ → Proc}
    (h : ∀ p, (proc p).priority ≤ (proc p).basepri ∧ (proc p).basepri < Nrq) :
    Inv (start nproc proc) fun _ => [] := by
  refine ⟨⟨Fifo.holds_empty, nofun, fun _ => rfl, fun _ _ => rfl, ?_, fun rq _ => ?_, h⟩,
    fun _ => ⟨.nil, nofun⟩⟩
  · exact (Finset.sum_eq_zero fun _ _ => rfl).symm
  · simp [start]

/-- From empty queues, the summaries are right in every state that calls lead to, and the next call
returns. -/
theorem summarised_of_run {nproc : ℕ} {proc : ℕ → Proc}
    (h : ∀ p, (proc p).priority ≤ (proc p).basepri ∧ (proc p).basepri < Nrq)
    (hrun : Run (fun s e t => s.exec e = some t) Sys.Allows (start nproc proc) t) :
    t.Summarised ∧ ∀ e, t.Allows e → (t.exec e).isSome = true := by
  obtain ⟨q, hq⟩ : ∃ q, Inv t q := by
    refine @Run.invariant _ _ _ _ _ _ (fun t => ∃ q, Inv t q) ⟨_, inv_start h⟩ ?_ hrun
    rintro s e u ⟨q, hq⟩ he hexec
    obtain ⟨t, q', ht, hq'⟩ := hq.exec he
    obtain rfl := Option.some.inj (hexec.symm.trans ht)
    exact ⟨q', hq'⟩
  refine ⟨hq.summarised, fun e he => ?_⟩
  obtain ⟨u, q', hu, -⟩ := hq.exec he
  rw [hu]
  rfl

/-- Two processes, of which one is put on a queue. -/
theorem summarised_of_ready :
    ∃ t, (start 2 fun _ => ⟨10, 10, false, 0, .Running, 0, false, 0⟩).exec (.ready 7 1) = some t ∧
      t.Summarised ∧ t.sched.queue 9 = [1] ∧ ∀ e, t.Allows e → (t.exec e).isSome = true := by
  have hrun : Run (fun s e t => s.exec e = some t) Sys.Allows
      (start 2 fun _ => ⟨10, 10, false, 0, .Running, 0, false, 0⟩) _ :=
    .snoc (e := .ready 7 1) .nil ⟨by decide, by decide⟩ rfl
  have h := summarised_of_run (fun _ => by decide) hrun
  exact ⟨_, rfl, h.1, by decide, h.2⟩

end PlanNine.Runq
