import PlanNine.Lib.Demand
import PlanNine.Port.Edf.Task

/-!
# The schedulability test

Before a task is admitted, `edftestschedulability` plays the schedule of all tasks from a common
release on: a queue holds the next deadline or release of every task, in the order of time. It
answers that the tasks are schedulable when a release comes at a time by which everything
released before is done, and gives up after `Maxsteps` events.

The sums are natural numbers: none of them reaches 2^64.

## Main definitions

* `testenq`, `blockcost`, `edftestschedulability`, `edfadmit`: the functions of the source.
* `Task.demand`: the processor demand of a task.
* `Task.Plain`: the times of a task are in order, and it shares no resources.
* `Played`: what the test knows at a time of the schedule.

## Main results

* `played_testStep`: what one event keeps.
* `idle_of_testLoop`: the test ends at an idle time, with every demand before met.
* `demand_le_of_schedulable`: a set of tasks that passes the test meets its demand at all times.
-/

namespace PlanNine.Edf

def Maxtasks : ℕ := 20

def Maxsteps : ℕ := Maxtasks * 2 * 100

/-- The type of an event; a deadline comes before a release at the same time. -/
inductive Testtype
  | deadline
  | release
  deriving DecidableEq, Repr

/-- A task with its next event. -/
structure Test where
  task : Task
  testtime : ℕ
  testtype : Testtype
  deriving DecidableEq, Repr

/-- The order in the queue of events. -/
def Test.before (t tt : Test) : Bool :=
  t.testtime < tt.testtime ∨
    t.testtime = tt.testtime ∧ t.testtype = .deadline ∧ tt.testtype = .release

def testenq (t : Test) : List Test → List Test
  | [] => [t]
  | tt :: q => if t.before tt then t :: tt :: q else tt :: testenq t q

/-- The cost of waiting for a resource of `task` that another task holds. -/
def blockcost (tasks : List Task) (thetask : ℕ) (ticks : ℕ) (task : Task) : ℕ :=
  task.csns.foldl (fun Cb c =>
    let uses := (tasks.filter fun t => t.tested thetask).flatMap fun t =>
      (t.csns.filter fun lc => lc.i = c.i).map fun lc => (t, lc)
    let Cbt := uses.foldl (fun Cbt u =>
      if u.2.testDelta ≤ ticks ∧ ticks < u.1.D ∧ Cbt < u.2.C then u.2.C else Cbt) Cb
    if uses.any fun u => !u.2.R then Cbt else Cb) 0

/-- The events to come, the cost `H` of the deadlines so far and the cost `G` of the releases. -/
structure Sched where
  q : List Test
  H : ℕ
  G : ℕ

/-- What the test answers: an error or nil, or it follows a nil pointer. -/
inductive Answer
  | ret (err : Option String)
  | fault
  deriving DecidableEq, Repr

/-- One event of the schedule. -/
def testStep (tasks : List Task) (thetask : ℕ) (s : Sched) : Answer ⊕ Sched :=
  match s.q with
  | [] => .inl .fault
  | t :: q =>
      let ticks := t.testtime
      match t.testtype with
      | .deadline =>
          let H := s.H + t.task.C
          let Cb := blockcost tasks thetask ticks t.task
          if ticks < H + Cb then .inl (.ret (some "not schedulable"))
          else .inr ⟨testenq ⟨t.task, ticks + (t.task.T - t.task.D), .release⟩ q, H, s.G⟩
      | .release =>
          if ticks ≠ 0 ∧ s.G ≤ ticks then .inl (.ret none)
          else .inr ⟨testenq ⟨t.task, ticks + t.task.D, .deadline⟩ q, s.H, s.G + t.task.C⟩

def testLoop (tasks : List Task) (thetask : ℕ) : ℕ → Sched → Answer
  | 0, _ => .ret (some "probably not schedulable")
  | steps + 1, s =>
      match testStep tasks thetask s with
      | .inl a => a
      | .inr s => testLoop tasks thetask steps s

def edftestschedulability (tasks : List Task) (thetask : ℕ) : Answer :=
  let q := (tasks.filter fun t => t.tested thetask).foldl
    (fun q t => testenq ⟨t, 0, .release⟩ q) []
  testLoop tasks thetask Maxsteps ⟨q, 0, 0⟩

/-- The checks of `edfadmit` before the test; a deadline that was not set is the period. -/
def admitChecks (t : Task) : Except String Task :=
  if t.state ≠ .expelled then .error "task state"
  else if t.T = 0 then .error "T not set"
  else if t.C = 0 then .error "C not set"
  else if t.T < t.D then .error "D > T"
  else
    let t := if t.D = 0 then { t with D := t.T } else t
    if t.D < t.C then .error "C > D" else .ok t

/-- The processor demand of a task up to a time. -/
def Task.demand (t : Task) (time : ℕ) : ℤ := max 0 (((time : ℤ) - t.D) / t.T + 1) * t.C

/-- The times of a task are in order, and it shares no resources. -/
structure Task.Plain (t : Task) : Prop where
  pos : 0 < t.C
  cost_le : t.C ≤ t.D
  deadline_le : t.D ≤ t.T
  csns : t.csns = []

/-- A candidate that reaches the test has its times in order. -/
theorem plain_of_admitChecks {t t' : Task} (hcsns : t.csns = [])
    (h : admitChecks t = .ok t') : t'.Plain := by
  unfold admitChecks at h
  dsimp only at h
  split_ifs at h with hstate hT hC hDT hD hCD hCD
  all_goals
    obtain rfl := Except.ok.inj h
    refine ⟨Nat.pos_of_ne_zero hC, not_lt.mp hCD, ?_, hcsns⟩
  · exact le_rfl
  · exact not_lt.mp hDT

/-! ### The queue of events -/

section

variable {e e' : Test} {q : List Test}

theorem perm_testenq : (testenq e q).Perm (e :: q) := by
  induction q with
  | nil => exact .refl _
  | cons tt q ih =>
    unfold testenq
    split_ifs
    · exact .refl _
    · exact (ih.cons tt).trans (.swap e tt q)

theorem mem_testenq : e' ∈ testenq e q ↔ e' = e ∨ e' ∈ q :=
  perm_testenq.mem_iff.trans List.mem_cons

/-- The queue is in the order of the events. -/
def Sorted (q : List Test) : Prop := q.Pairwise fun a b => b.before a = false

theorem before_iff : e.before e' = true ↔ e.testtime < e'.testtime ∨
    e.testtime = e'.testtime ∧ e.testtype = .deadline ∧ e'.testtype = .release :=
  decide_eq_true_iff

theorem before_eq_false : e.before e' = false ↔ e'.testtime ≤ e.testtime ∧
    (e.testtime = e'.testtime → e.testtype = .deadline → e'.testtype = .deadline) := by
  rw [← Bool.not_eq_true, before_iff]
  rcases e'.testtype <;> simp

theorem sorted_testenq (h : Sorted q) : Sorted (testenq e q) := by
  induction q with
  | nil => exact List.pairwise_singleton _ _
  | cons tt q ih =>
    obtain ⟨htt, hq⟩ := List.pairwise_cons.mp h
    unfold testenq
    split_ifs with hbefore
    · rw [before_iff] at hbefore
      refine List.pairwise_cons.mpr ⟨fun e' he' => ?_, h⟩
      have hle : tt.testtime ≤ e'.testtime ∧ (e'.testtime = tt.testtime →
          e'.testtype = .deadline → tt.testtype = .deadline) := by
        rcases List.mem_cons.mp he' with rfl | he'
        · exact ⟨le_rfl, fun _ h => h⟩
        · exact before_eq_false.mp (htt e' he')
      rw [before_eq_false]
      rcases hbefore with hlt | ⟨heq, hdead, hrel⟩
      · exact ⟨hlt.le.trans hle.1, fun heq => absurd heq (hlt.trans_le hle.1).ne'⟩
      · exact ⟨heq ▸ hle.1, fun _ _ => hdead⟩
    · refine List.pairwise_cons.mpr ⟨fun e' he' => ?_, ih hq⟩
      rcases mem_testenq.mp he' with rfl | he'
      · exact Bool.eq_false_iff.mpr hbefore
      · exact htt e' he'

end

/-! ### The schedule -/

/-- The task as a periodic task. -/
def Task.periodic (t : Task) : Demand.Periodic := ⟨t.C, t.D, t.T⟩

namespace Test

/-- The jobs of the task whose deadlines have been played. -/
def done (e : Test) : ℕ :=
  match e.testtype with
  | .deadline => (e.testtime - e.task.D) / e.task.T
  | .release => e.testtime / e.task.T

/-- The jobs of the task whose releases have been played. -/
def begun (e : Test) : ℕ :=
  match e.testtype with
  | .deadline => e.done + 1
  | .release => e.done

/-- The time of the next event is the one of a job. -/
def Aligned (e : Test) : Prop :=
  match e.testtype with
  | .deadline => e.testtime = e.done * e.task.T + e.task.D
  | .release => e.testtime = e.done * e.task.T

variable {e : Test} {t : ℕ}

/-- Before its next event no other job of the task is due. -/
theorem due_le_done (hp : e.task.Plain) (h : e.Aligned)
    (ht : t < e.testtime ∨ t = e.testtime ∧ e.testtype = .release) :
    e.task.periodic.due t ≤ e.done := by
  have hpos := hp.pos.trans_le hp.cost_le
  refine Demand.Periodic.due_le (hpos.trans_le hp.deadline_le) ?_
  unfold Aligned at h
  simp only [Task.periodic]
  cases htype : e.testtype <;> simp only [htype, reduceCtorEq, and_false, or_false] at h ht <;>
    omega

/-- The jobs released before the time of the next event have begun. -/
theorem released_le_begun (hp : e.task.Plain) (h : e.Aligned) (ht : t ≤ e.testtime) :
    e.task.periodic.released t ≤ e.begun := by
  have hpos := hp.pos.trans_le hp.cost_le
  have hle := hp.deadline_le
  refine Demand.Periodic.released_le (hpos.trans_le hle) ?_
  unfold Aligned at h
  unfold begun
  simp only [Task.periodic]
  cases htype : e.testtype <;> simp only [htype] at h ⊢
  · rw [add_mul]
    omega
  · omega

end Test

/-- The test has played the schedule of `ts` up to the time `now`. -/
structure Played (ts : List Task) (now : ℕ) (s : Sched) : Prop where
  tasks : (s.q.map Test.task).Perm ts
  sorted : Sorted s.q
  aligned : ∀ e ∈ s.q, e.Aligned
  done : s.H = (s.q.map fun e => e.done * e.task.C).sum
  begun : s.G = (s.q.map fun e => e.begun * e.task.C).sum
  done_le : s.H ≤ now
  now_le : ∀ e ∈ s.q, now ≤ e.testtime
  met : ∀ t < now, Demand.demand (ts.map Task.periodic) t ≤ t

namespace Played

variable {ts tasks : List Task} {thetask now : ℕ} {s s' : Sched}

theorem plain (h : Played ts now s) (hp : ∀ t ∈ ts, t.Plain) {e : Test} (he : e ∈ s.q) :
    e.task.Plain := hp _ (h.tasks.mem_iff.mp (List.mem_map_of_mem he))

theorem demand_eq (h : Played ts now s) (t : ℕ) : Demand.demand (ts.map Task.periodic) t =
    (s.q.map fun e => e.task.periodic.due t * e.task.C).sum := by
  have hperm := (h.tasks.map Task.periodic).map fun p => p.due t * p.cost
  rw [Demand.demand, ← hperm.sum_eq, List.map_map, List.map_map]
  rfl

theorem work_eq (h : Played ts now s) (t : ℕ) : Demand.work (ts.map Task.periodic) t =
    (s.q.map fun e => e.task.periodic.released t * e.task.C).sum := by
  have hperm := (h.tasks.map Task.periodic).map fun p => p.released t * p.cost
  rw [Demand.work, ← hperm.sum_eq, List.map_map, List.map_map]
  rfl

/-- As long as no further deadline has come the demand is the cost of those played. -/
theorem demand_le (h : Played ts now s) (hp : ∀ t ∈ ts, t.Plain) {t : ℕ}
    (ht : ∀ e ∈ s.q, t < e.testtime ∨ t = e.testtime ∧ e.testtype = .release) :
    Demand.demand (ts.map Task.periodic) t ≤ s.H := by
  rw [h.demand_eq, h.done]
  exact List.sum_le_sum fun e he => Nat.mul_le_mul_right _
    (Test.due_le_done (h.plain hp he) (h.aligned e he) (ht e he))

theorem work_le (h : Played ts now s) (hp : ∀ t ∈ ts, t.Plain) {t : ℕ}
    (ht : ∀ e ∈ s.q, t ≤ e.testtime) : Demand.work (ts.map Task.periodic) t ≤ s.G := by
  rw [h.work_eq, h.begun]
  exact List.sum_le_sum fun e he => Nat.mul_le_mul_right _
    (Test.released_le_begun (h.plain hp he) (h.aligned e he) (ht e he))

/-- The demand is met up to the time of the next event. -/
theorem met_until (h : Played ts now s) (hp : ∀ t ∈ ts, t.Plain) {t : ℕ}
    (ht : ∀ e ∈ s.q, t < e.testtime ∨ t = e.testtime ∧ e.testtype = .release) :
    Demand.demand (ts.map Task.periodic) t ≤ t := by
  rcases Nat.lt_or_ge t now with hlt | hge
  · exact h.met t hlt
  · exact (h.demand_le hp ht).trans (h.done_le.trans hge)

/-- No event comes before the first of the queue. -/
theorem first_le (h : Played ts now s) {e : Test} {q : List Test} (hq : s.q = e :: q) :
    ∀ e' ∈ s.q, e.testtime ≤ e'.testtime := by
  intro e' he'
  have hsorted := h.sorted
  rw [hq] at hsorted he'
  rcases List.mem_cons.mp he' with rfl | he'
  · exact le_rfl
  · exact (before_eq_false.mp ((List.pairwise_cons.mp hsorted).1 e' he')).1

/-- The next event of a task takes the place of the one played. -/
theorem next (h : Played ts now s) (hp : ∀ t ∈ ts, t.Plain) {e : Test} {q : List Test}
    (hq : s.q = e :: q) (e' : Test) (htask : e'.task = e.task) (haligned : e'.Aligned)
    (htime : e.testtime ≤ e'.testtime) {H G : ℕ} (hle : H ≤ e.testtime)
    (hH : s.H + e'.done * e.task.C = H + e.done * e.task.C)
    (hG : s.G + e'.begun * e.task.C = G + e.begun * e.task.C) :
    Played ts e.testtime ⟨testenq e' q, H, G⟩ := by
  have hfirst := h.first_le hq
  have hsorted := h.sorted
  have hdone := h.done
  have hbegun := h.begun
  have htasks := h.tasks
  rw [hq] at hsorted hdone hbegun htasks
  rw [List.map_cons, List.sum_cons] at hdone hbegun
  refine ⟨?_, sorted_testenq (List.pairwise_cons.mp hsorted).2, fun e'' he'' => ?_, ?_, ?_, hle,
    fun e'' he'' => ?_, fun t ht => ?_⟩
  · refine (perm_testenq.map _).trans ?_
    rw [List.map_cons, htask]
    exact htasks
  · rcases mem_testenq.mp he'' with rfl | he''
    · exact haligned
    · exact h.aligned e'' (hq ▸ List.mem_cons_of_mem _ he'')
  · dsimp only
    rw [(perm_testenq.map _).sum_eq, List.map_cons, List.sum_cons, htask]
    omega
  · dsimp only
    rw [(perm_testenq.map _).sum_eq, List.map_cons, List.sum_cons, htask]
    omega
  · rcases mem_testenq.mp he'' with rfl | he''
    · exact htime
    · exact hfirst e'' (hq ▸ List.mem_cons_of_mem _ he'')
  · exact h.met_until hp fun e'' he'' => .inl (ht.trans_le (hfirst e'' he''))

end Played

variable {ts tasks : List Task} {thetask now : ℕ} {s s' : Sched}

theorem blockcost_of_plain (thetask ticks : ℕ) {t : Task} (h : t.Plain) :
    blockcost tasks thetask ticks t = 0 := by
  rw [blockcost, h.csns, List.foldl_nil]

/-- One more event of the schedule. -/
theorem played_testStep (hp : ∀ t ∈ ts, t.Plain) (h : Played ts now s)
    (hstep : testStep tasks thetask s = .inr s') : ∃ now', Played ts now' s' := by
  unfold testStep at hstep
  cases hq : s.q with
  | nil => simp [hq] at hstep
  | cons e q =>
    have hmem : e ∈ s.q := hq ▸ List.mem_cons_self
    have hplain := h.plain hp hmem
    have haligned := h.aligned e hmem
    have hT : 0 < e.task.T := (hplain.pos.trans_le hplain.cost_le).trans_le hplain.deadline_le
    have hle := hplain.deadline_le
    refine ⟨e.testtime, ?_⟩
    cases htype : e.testtype with
    | deadline =>
      simp only [hq, htype, blockcost_of_plain thetask _ hplain, add_zero] at hstep
      split_ifs at hstep with hmiss
      obtain rfl := Sum.inr.inj hstep
      simp only [Test.Aligned, htype] at haligned
      -- the release is one period after the one of this deadline
      have htime : e.testtime + (e.task.T - e.task.D) = (e.done + 1) * e.task.T := by
        rw [add_mul]
        omega
      have hdone : Test.done ⟨e.task, e.testtime + (e.task.T - e.task.D), .release⟩ =
          e.done + 1 := by
        simp only [Test.done, htime]
        exact Nat.mul_div_cancel _ hT
      refine h.next hp hq ⟨e.task, e.testtime + (e.task.T - e.task.D), .release⟩ rfl ?_
        (Nat.le_add_right _ _) (not_lt.mp hmiss) ?_ ?_
      · simp only [Test.Aligned, hdone]
        exact htime
      · rw [hdone, add_mul]
        omega
      · simp only [Test.begun, hdone, htype]
    | release =>
      simp only [hq, htype] at hstep
      split_ifs at hstep with hidle
      obtain rfl := Sum.inr.inj hstep
      simp only [Test.Aligned, htype] at haligned
      have hdone : Test.done ⟨e.task, e.testtime + e.task.D, .deadline⟩ = e.done := by
        simp only [Test.done, htype, Nat.add_sub_cancel]
      refine h.next hp hq ⟨e.task, e.testtime + e.task.D, .deadline⟩ rfl ?_
        (Nat.le_add_right _ _) (h.done_le.trans (h.now_le e hmem)) ?_ ?_
      · simp only [Test.Aligned, hdone]
        omega
      · rw [hdone]
      · simp only [Test.begun, hdone, htype]
        rw [add_mul]
        omega

/-- The test ends at a time when everything released before is done. -/
theorem idle_of_testStep (hp : ∀ t ∈ ts, t.Plain) (h : Played ts now s)
    (hstep : testStep tasks thetask s = .inl (.ret none)) :
    ∃ l, 0 < l ∧ Demand.work (ts.map Task.periodic) l ≤ l ∧
      ∀ t ≤ l, Demand.demand (ts.map Task.periodic) t ≤ t := by
  unfold testStep at hstep
  cases hq : s.q with
  | nil => simp [hq] at hstep
  | cons e q =>
    have hfirst := h.first_le hq
    have hsorted := h.sorted
    rw [hq] at hsorted
    cases htype : e.testtype with
    | deadline =>
      simp only [hq, htype] at hstep
      split_ifs at hstep
      · simp at hstep
    | release =>
      simp only [hq, htype] at hstep
      split_ifs at hstep with hidle
      refine ⟨e.testtime, Nat.pos_of_ne_zero hidle.1, (h.work_le hp hfirst).trans hidle.2,
        fun t ht => h.met_until hp fun e' he' => ?_⟩
      rcases lt_or_eq_of_le (ht.trans (hfirst e' he')) with hlt | heq
      · exact .inl hlt
      -- a deadline at that time would have come before the release
      refine .inr ⟨heq, ?_⟩
      rw [hq] at he'
      rcases List.mem_cons.mp he' with rfl | he''
      · exact htype
      · have hlater := before_eq_false.mp ((List.pairwise_cons.mp hsorted).1 e' he'')
        have hsame : e'.testtime = e.testtime := le_antisymm (heq ▸ ht) hlater.1
        cases htype' : e'.testtype with
        | release => rfl
        | deadline =>
          have := hlater.2 hsame htype'
          rw [htype] at this
          contradiction

theorem idle_of_testLoop (hp : ∀ t ∈ ts, t.Plain) (steps : ℕ) (h : Played ts now s)
    (hret : testLoop tasks thetask steps s = .ret none) :
    ∃ l, 0 < l ∧ Demand.work (ts.map Task.periodic) l ≤ l ∧
      ∀ t ≤ l, Demand.demand (ts.map Task.periodic) t ≤ t := by
  induction steps generalizing s now with
  | zero => simp [testLoop] at hret
  | succ steps ih =>
    unfold testLoop at hret
    cases hstep : testStep tasks thetask s with
    | inl a =>
      rw [hstep] at hret
      exact idle_of_testStep hp h (hstep.trans (congrArg Sum.inl hret))
    | inr s' =>
      rw [hstep] at hret
      obtain ⟨now', h'⟩ := played_testStep hp h hstep
      exact ih h' hret

/-- The events at the start are the releases of all tasks. -/
theorem start_spec (ts : List Task) : ∀ q : List Test, Sorted q →
    (∀ e ∈ q, e.testtime = 0 ∧ e.testtype = .release) →
    Sorted (ts.foldl (fun q t => testenq ⟨t, 0, .release⟩ q) q) ∧
      (∀ e ∈ ts.foldl (fun q t => testenq ⟨t, 0, .release⟩ q) q,
        e.testtime = 0 ∧ e.testtype = .release) ∧
      ((ts.foldl (fun q t => testenq ⟨t, 0, .release⟩ q) q).map Test.task).Perm
        (ts ++ q.map Test.task) := by
  induction ts with
  | nil => exact fun q hsorted hq => ⟨hsorted, hq, .refl _⟩
  | cons t ts ih =>
    intro q hsorted hq
    obtain ⟨hsorted', hq', hperm⟩ := ih (testenq ⟨t, 0, .release⟩ q) (sorted_testenq hsorted)
      fun e he => by
        rcases mem_testenq.mp he with rfl | he
        · exact ⟨rfl, rfl⟩
        · exact hq e he
    refine ⟨hsorted', hq', hperm.trans ?_⟩
    have henq := (perm_testenq (e := ⟨t, 0, .release⟩) (q := q)).map Test.task
    exact (henq.append_left ts).trans List.perm_middle

theorem played_start (ts : List Task) :
    Played ts 0 ⟨ts.foldl (fun q t => testenq ⟨t, 0, .release⟩ q) [], 0, 0⟩ := by
  obtain ⟨hsorted, hq, hperm⟩ := start_spec ts [] .nil fun e he => absurd he List.not_mem_nil
  have hnone (e : Test) (he : e ∈ ts.foldl (fun q t => testenq ⟨t, 0, .release⟩ q) []) :
      e.done = 0 ∧ e.begun = 0 := by
    obtain ⟨htime, htype⟩ := hq e he
    simp [Test.begun, Test.done, htime, htype]
  rw [List.map_nil, List.append_nil] at hperm
  refine ⟨hperm, hsorted, fun e he => ?_, ?_, ?_, le_rfl, fun _ _ => Nat.zero_le _,
    fun t ht => absurd ht (Nat.not_lt_zero t)⟩
  · obtain ⟨htime, htype⟩ := hq e he
    simp [Test.Aligned, htype, htime, (hnone e he).1]
  · refine (List.sum_eq_zero fun n hn => ?_).symm
    obtain ⟨e, he, rfl⟩ := List.mem_map.mp hn
    rw [(hnone e he).1, zero_mul]
  · refine (List.sum_eq_zero fun n hn => ?_).symm
    obtain ⟨e, he, rfl⟩ := List.mem_map.mp hn
    rw [(hnone e he).2, zero_mul]

/-! ### What the test proves -/

theorem demand_eq_due {t : Task} (h : t.Plain) (time : ℕ) :
    t.demand time = (t.periodic.due time * t.C : ℕ) := by
  have hT : 0 < t.T := (h.pos.trans_le h.cost_le).trans_le h.deadline_le
  have hT' : (0 : ℤ) < t.T := Int.natCast_pos.mpr hT
  rw [Task.demand, Nat.cast_mul]
  congr 1
  by_cases htime : time < t.D
  · have hneg : ((time : ℤ) - t.D) / t.T < 0 := Int.ediv_neg_of_neg_of_pos (by omega) hT'
    have hdue : t.periodic.due time = 0 := if_pos htime
    rw [hdue, Nat.cast_zero, max_eq_left (by omega)]
  · have hcast : (time : ℤ) - t.D = ((time - t.D : ℕ) : ℤ) := by omega
    have hdue : t.periodic.due time = (time - t.D) / t.T + 1 := if_neg htime
    have hdiv : (0 : ℤ) ≤ ((time - t.D : ℕ) : ℤ) / t.T := Int.ediv_nonneg (by omega) hT'.le
    rw [hdue, hcast, max_eq_right (by omega), Nat.cast_add, Int.natCast_ediv]
    rfl

/-- A set of tasks that passes the test meets its processor demand at every time. -/
theorem demand_le_of_schedulable {tasks : List Task} {thetask : ℕ}
    (hp : ∀ t ∈ tasks, t.tested thetask = true → t.Plain)
    (hret : edftestschedulability tasks thetask = .ret none) (time : ℕ) :
    ((tasks.filter fun t => t.tested thetask).map fun t => t.demand time).sum ≤ time := by
  have hplain : ∀ t ∈ tasks.filter fun t => t.tested thetask, t.Plain := fun t ht =>
    hp t (List.mem_filter.mp ht).1 (List.mem_filter.mp ht).2
  obtain ⟨l, hpos, hwork, hmet⟩ := idle_of_testLoop hplain Maxsteps (played_start _) hret
  generalize (tasks.filter fun t => t.tested thetask) = ts at hplain hwork hmet
  have hperiod : ∀ p ∈ ts.map Task.periodic, 0 < p.period := fun p hmem => by
    obtain ⟨t, ht, rfl⟩ := List.mem_map.mp hmem
    have h := hplain t ht
    exact (h.pos.trans_le h.cost_le).trans_le h.deadline_le
  have hsum : (ts.map fun t => t.demand time).sum =
      (Demand.demand (ts.map Task.periodic) time : ℤ) := by
    rw [List.map_congr_left fun t ht => demand_eq_due (hplain t ht) time, Demand.demand,
      List.map_map, Nat.cast_list_sum, List.map_map]
    rfl
  rw [hsum]
  exact Int.ofNat_le.mpr (Demand.demand_le_of_idle hperiod hpos hwork hmet time)

/-- An admitted task and a candidate. -/
def twoTasks : List Task :=
  [{ taskno := 1, D := 4, T := 4, C := 1, state := .idle },
    { taskno := 2, D := 5, T := 6, C := 2, state := .expelled }]

theorem demand_le_twoTasks :
    ((twoTasks.filter fun t => t.tested 2).map fun t => t.demand 11).sum ≤ (11 : ℕ) := by
  refine demand_le_of_schedulable (fun t ht _ => ?_) (by decide) 11
  simp only [twoTasks, List.mem_cons, List.not_mem_nil, or_false] at ht
  rcases ht with rfl | rfl <;> exact ⟨by decide, by decide, by decide, rfl⟩

end PlanNine.Edf
