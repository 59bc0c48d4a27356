import PlanNine.Port.Qio.System

/-!
# Wakeups on a queue

A reader sleeps on an empty queue and a writer on a full one. The flags `Qstarve` and `Qflow` ask
the other end for a wakeup. Each is set under the lock before its owner goes to sleep, and the two
can be parted by an operation in between. This file says in which runs no wakeup is lost.

## Main definitions

* `Flows`: the events of readers and writers, and `qget`, `qdiscard`, `qpass`, `qhangup`, `qclose`.
* `Alert`: nobody goes to sleep with his flag cleared, and no read that throws away empty blocks
  leaves a writer asleep.
* `Sys.Quiet`, `Sys.Awake`: no step is in progress; nobody sleeps who should not.

## Main results

* `alert_step`: an alert step keeps the reader and the writer from being forgotten.
* `awake_of_run`: in every run of alert steps nobody is forgotten.
-/

namespace PlanNine.Qio

open Queue

/-- The events of one reader, one writer and the operations beside them. -/
def Flows : Event → Prop
  | .op .qget | .op (.qdiscard _) | .op (.qpass _ _) | .op (.qhangup _) | .op .qclose => True
  | .op _ => False
  | _ => True

/-- The reader goes to sleep on an empty queue only with `Qstarve` set or with a wakeup on its way,
and the writer on a full one only with `Qflow` set or with a wakeup on its way. A read that finds
empty blocks only, which it throws away without waking the writer, finds none asleep. -/
def Alert (s : Sys) : Event → Prop
  | .readStep _ =>
      match s.rd with
      | .tosleep _ => notempty s.q = true ∨ s.q.qstarve = true ∨ 0 < s.rwake
      | .enter (.qread _) =>
          s.q.qcoalesce = true → s.q.bfirst ≠ [] → (∀ b ∈ s.q.bfirst, b.BLEN = 0) →
            s.q.qclosed = false → s.wr = .asleep → 0 < s.wwake
      | _ => True
  | .writeStep => s.wr = .tosleep → qnotfull s.q = true ∨ s.q.qflow = true ∨ 0 < s.wwake
  | _ => True

/-- A reader asleep will be woken, or there is nothing to read and it has asked to be woken. -/
def Sys.ReaderKept (s : Sys) : Prop :=
  ∀ c, s.rd = .asleep c →
    0 < s.rwake ∨ s.q.qstarve = true ∧ s.q.bfirst = [] ∧ s.q.qclosed = false

/-- A writer asleep will be woken, or it has asked to be woken and the queue is not low, or a
reader is about to look. -/
def Sys.WriterKept (s : Sys) : Prop :=
  s.wr = .asleep →
    0 < s.wwake ∨ s.q.qflow = true ∧ s.q.qclosed = false ∧
      (s.q.low = false ∨ ∃ len first, s.rd = .copying len first)

/-- Neither the reader nor the writer is forgotten. -/
def Sys.Minded (s : Sys) : Prop := s.ReaderKept ∧ s.WriterKept

/-- No step is in progress. -/
structure Sys.Quiet (s : Sys) : Prop where
  rwake : s.rwake = 0
  wwake : s.wwake = 0
  rd : s.rd = .idle ∨ ∃ c, s.rd = .asleep c
  wr : s.wr = .idle ∨ s.wr = .asleep

/-- No reader sleeps while the queue is non-empty or closed, and no writer while it is closed or
low. -/
def Sys.Awake (s : Sys) : Prop :=
  (∀ c, s.rd = .asleep c → s.q.bfirst = [] ∧ s.q.qclosed = false) ∧
    (s.wr = .asleep → s.q.qclosed = false ∧ ((s.q.limit / 2 : ℕ) : ℤ) ≤ s.q.len)

variable {q : Queue} {b : Block} {bs : List Block} {s s' : Sys} {e : Event}

theorem low_eq_false_iff : q.low = false ↔ ((q.limit / 2 : ℕ) : ℤ) ≤ q.len := by
  simp [Queue.low]

/-! ### What the stretches do to the flags -/

/-- `restart` asks for a wakeup, or leaves `Qflow` as it was when the condition fails. -/
theorem restart_cases (q : Queue) (c : Bool) :
    (q.restart c).2 = true ∨ q.qflow = false ∨ (q.restart c).1.qflow = true ∧ c = false := by
  cases hf : q.qflow <;> cases hc : c <;> simp [Queue.restart, hf, hc]

theorem append_limit (q : Queue) (b : Block) (bs : List Block) :
    (q.append b bs).limit = q.limit ∧ (q.append b bs).qflow = q.qflow ∧
      (q.append b bs).qclosed = q.qclosed ∧ (q.append b bs).qstarve = q.qstarve := by
  simp only [Queue.append, Queue.link]
  split <;> exact ⟨rfl, rfl, rfl, rfl⟩

/-- Blocks added leave a queue that was not low. -/
theorem append_low (b : Block) (bs : List Block) (h : q.low = false) :
    (q.append b bs).low = false := by
  rw [low_eq_false_iff] at h ⊢
  rw [(append_limit q b bs).1]
  exact h.trans (Int.le_add_of_nonneg_right (Int.natCast_nonneg _))

theorem qdiscardLoop_flags (len : ℕ) : ∀ (bs : List Block) (sofar : ℕ) (q : Queue),
    (qdiscardLoop len bs sofar q).2.qflow = q.qflow ∧
      (qdiscardLoop len bs sofar q).2.qclosed = q.qclosed ∧
      (qdiscardLoop len bs sofar q).2.limit = q.limit := by
  intro bs
  induction bs with
  | nil => intro sofar q; exact ⟨rfl, rfl, rfl⟩
  | cons b bs ih =>
    intro sofar q
    rw [qdiscardLoop]
    split_ifs
    · exact ih _ (q.pop b bs)
    · exact ⟨rfl, rfl, rfl⟩
    · exact ⟨rfl, rfl, rfl⟩

theorem qreadWait_flags : ∀ (bs : List Block) (q : Queue),
    (qreadWait bs q).2.qflow = q.qflow ∧ (qreadWait bs q).2.qclosed = q.qclosed := by
  intro bs
  induction bs with
  | nil =>
    intro q
    rw [qreadWait, qwait]
    split
    · exact ⟨rfl, rfl⟩
    · dsimp only
      split_ifs <;> exact ⟨rfl, rfl⟩
  | cons b bs ih =>
    intro q
    rw [qreadWait]
    split_ifs
    · exact ih (q.pop b bs)
    · exact ⟨rfl, rfl⟩

/-- A read that sleeps found an open queue, which it left as it was or which held empty blocks
only. -/
theorem qreadWait_sleep : ∀ (bs : List Block) (q : Queue), q.bfirst = bs →
    (qreadWait bs q).1 = .sleep → q.qclosed = false ∧
      (bs = [] ∧ (qreadWait bs q).2 = { q with qstarve := true } ∨
        bs ≠ [] ∧ q.qcoalesce = true ∧ ∀ b ∈ bs, b.BLEN = 0) := by
  intro bs
  induction bs with
  | nil =>
    intro q hq hsleep
    rw [qreadWait, qwait, hq] at hsleep ⊢
    dsimp only at hsleep ⊢
    split_ifs at hsleep ⊢ with hc
    exact ⟨by simpa using hc, .inl ⟨rfl, rfl⟩⟩
  | cons b bs ih =>
    intro q hq hsleep
    rw [qreadWait] at hsleep
    split_ifs at hsleep with hc
    obtain ⟨hopen, hrest⟩ := ih (q.pop b bs) rfl hsleep
    refine ⟨hopen, .inr ⟨List.cons_ne_nil b bs, hc.1, fun x hx => ?_⟩⟩
    rcases List.mem_cons.mp hx with rfl | hx
    · exact hc.2
    · rcases hrest with ⟨rfl, -⟩ | ⟨-, -, hall⟩
      · exact absurd hx List.not_mem_nil
      · exact hall x hx

theorem qwait_sleep (h : (qwait q).1 = .sleep) :
    (qwait q).2 = { q with qstarve := true } := by
  unfold qwait at h ⊢
  split at h
  · simp at h
  · dsimp only at h ⊢
    split_ifs at h ⊢
    rfl

/-- A read that finds the queue at an end found it closed. -/
theorem wait_closed (q : Queue) (c : Call) :
    (Sys.wait q c).1 = .data ∨ (Sys.wait q c).1 = .sleep ∨ q.qclosed = true := by
  have hwait (q : Queue) : (qwait q).1 = .data ∨ (qwait q).1 = .sleep ∨ q.qclosed = true := by
    unfold qwait
    split
    · exact .inl rfl
    · dsimp only
      split_ifs with hc
      · exact .inr (.inr hc)
      · exact .inr (.inr hc)
      · exact .inr (.inl rfl)
  have hread : ∀ (bs : List Block) (q : Queue),
      (qreadWait bs q).1 = .data ∨ (qreadWait bs q).1 = .sleep ∨ q.qclosed = true := by
    intro bs
    induction bs with
    | nil => exact hwait
    | cons b bs ih =>
      intro q
      rw [qreadWait]
      split_ifs
      · exact ih (q.pop b bs)
      · exact .inl rfl
  cases c with
  | qread len => exact hread q.bfirst q
  | qbread len => exact hwait q

theorem wait_flags (q : Queue) (c : Call) :
    (Sys.wait q c).2.qflow = q.qflow ∧ (Sys.wait q c).2.qclosed = q.qclosed := by
  cases c with
  | qread len => exact qreadWait_flags q.bfirst q
  | qbread len =>
    simp only [Sys.wait, qwait]
    split
    · exact ⟨rfl, rfl⟩
    · split_ifs <;> exact ⟨rfl, rfl⟩

theorem qreadTake_flags (q : Queue) (b : Block) (bs : List Block) (len : ℕ) :
    (qreadTake q b bs len).2.qflow = q.qflow ∧ (qreadTake q b bs len).2.qclosed = q.qclosed := by
  have hgrab : ∀ (bs : List Block) (n : ℕ) (q : Queue),
      (grab len bs n q).2.qflow = q.qflow ∧ (grab len bs n q).2.qclosed = q.qclosed := by
    intro bs
    induction bs with
    | nil => intro n q; exact ⟨rfl, rfl⟩
    | cons b bs ih =>
      intro n q
      rw [grab]
      split_ifs
      · exact ⟨rfl, rfl⟩
      · exact ih _ (q.pop b bs)
  unfold qreadTake
  dsimp only
  split_ifs
  · exact hgrab bs b.BLEN (q.pop b bs)
  · exact ⟨rfl, rfl⟩

/-! ### The writer -/

theorem writerKept_of_same (h : s.WriterKept) (hwr : s'.wr = .asleep → s.wr = .asleep)
    (hw : s.wwake ≤ s'.wwake) (hflow : s.q.qflow = true → s'.q.qflow = true)
    (hclosed : s'.q.qclosed = s.q.qclosed) (hlow : s.q.low = false → s'.q.low = false)
    (hrd : ∀ len first, s.rd = .copying len first → s'.rd = s.rd) : s'.WriterKept := by
  intro hasleep
  rcases h (hwr hasleep) with hwake | ⟨hf, hc, hl⟩
  · exact .inl (hwake.trans_le hw)
  · refine .inr ⟨hflow hf, hclosed.trans hc, ?_⟩
    rcases hl with hl | ⟨len, first, hcopy⟩
    · exact .inl (hlow hl)
    · exact .inr ⟨len, first, (hrd len first hcopy).trans hcopy⟩

/-- A stretch that ends by restarting the writer does not forget it. -/
theorem writerKept_restart {c : Bool} (h : s.WriterKept) (hwr : s'.wr = s.wr)
    (hflow : q.qflow = s.q.qflow) (hclosed : q.qclosed = s.q.qclosed)
    (hlow : c = false → q.low = false) (hq : s'.q = (q.restart c).1)
    (hw : s'.wwake = s.wwake + (q.restart c).2.toNat) : s'.WriterKept := by
  intro hasleep
  rcases h (hwr ▸ hasleep) with hwake | ⟨hf, hc, -⟩
  · exact .inl (by omega)
  · rcases restart_cases q c with hwake | hnot | ⟨hf', hc'⟩
    · exact .inl (by rw [hw, hwake, Bool.toNat_true]; omega)
    · rw [hflow, hf] at hnot
      exact absurd hnot (by simp)
    · exact .inr ⟨by rw [hq]; exact hf', by rw [hq]; exact hclosed.trans hc,
        .inl (by rw [hq]; exact hlow hc')⟩

theorem writerKept_take {m : Mem} {r : Queue} (h : s.WriterKept) (c : Call)
    (hflow : r.qflow = s.q.qflow) (hclosed : r.qclosed = s.q.qclosed) :
    (s.take m r b bs c).WriterKept := by
  cases c with
  | qread len =>
    obtain ⟨hf, hc⟩ := qreadTake_flags r b bs len
    intro hasleep
    rcases h hasleep with hwake | ⟨hf', hc', -⟩
    · exact .inl hwake
    · exact .inr ⟨(hf.trans hflow).trans hf', (hc.trans hclosed).trans hc', .inr ⟨_, _, rfl⟩⟩
  | qbread len =>
    have hend (q : Queue) (nb : Block) (hf : q.qflow = s.q.qflow) (hc : q.qclosed = s.q.qclosed) :
        Sys.WriterKept { s.put (qwakeup q).1 false (qwakeup q).2 with
          rd := .idle, returned := s.returned ++ [nb.data] } :=
      writerKept_restart h rfl hf hc id rfl rfl
    simp only [Sys.take, qbreadTake]
    split_ifs
    · exact hend _ _ hflow hclosed
    · exact hend _ _ hflow hclosed
    · exact hend _ _ hflow hclosed

theorem writerKept_readStep {m : Mem} (h : s.WriterKept) (halert : Alert s (.readStep m))
    (hstep : s.readStep m = some s') : s'.WriterKept := by
  unfold Sys.readStep at hstep
  split at hstep
  · simp at hstep
  · simp at hstep
  · rename_i c hrd
    obtain ⟨hflow, hclosed⟩ := wait_flags s.q c
    have hend := wait_closed s.q c
    have hstop (hc : s.q.qclosed = true) {rd : Rd} :
        Sys.WriterKept { s with q := (Sys.wait s.q c).2, rd := rd } := by
      intro hasleep
      rcases h hasleep with hwake | ⟨-, hopen, -⟩
      · exact .inl hwake
      · rw [hc] at hopen
        exact absurd hopen (by simp)
    have hsleep (hw : (Sys.wait s.q c).1 = .sleep) :
        Sys.WriterKept { s with q := (Sys.wait s.q c).2, rd := .tosleep c } := by
      intro hasleep
      rcases h hasleep with hwake | ⟨hf, hc, hl⟩
      · exact .inl hwake
      have hlow : s.q.low = false := by
        rcases hl with hl | ⟨len, first, hcopy⟩
        · exact hl
        · rw [hrd] at hcopy
          exact absurd hcopy (by simp)
      have hsame (hq : (Sys.wait s.q c).2 = { s.q with qstarve := true }) :
          Sys.WriterKept { s with q := (Sys.wait s.q c).2, rd := .tosleep c } := fun _ =>
        .inr ⟨hflow.trans hf, hclosed.trans hc, .inl (by rw [hq]; exact hlow)⟩
      cases c with
      | qbread len => exact hsame (qwait_sleep hw) hasleep
      | qread len =>
        obtain ⟨hopen, ⟨-, hq⟩ | ⟨hne, hcoal, hall⟩⟩ := qreadWait_sleep s.q.bfirst s.q rfl hw
        · exact hsame hq hasleep
        · simp only [Alert, hrd] at halert
          exact .inl (halert hcoal hne hall hopen hasleep)
    generalize hw : Sys.wait s.q c = r at *
    obtain ⟨w, r⟩ := r
    cases w with
    | sleep => obtain rfl := Option.some.inj hstep; exact hsleep rfl
    | eof =>
      obtain rfl := Option.some.inj hstep
      exact hstop (hend.resolve_left (by simp) |>.resolve_left (by simp))
    | err =>
      obtain rfl := Option.some.inj hstep
      exact hstop (hend.resolve_left (by simp) |>.resolve_left (by simp))
    | data =>
      dsimp only at hstep
      split at hstep
      · simp at hstep
      · obtain rfl := Option.some.inj hstep
        exact writerKept_take h c hflow hclosed
  · rename_i c hrd
    obtain rfl := Option.some.inj hstep
    refine writerKept_of_same h id le_rfl id rfl id fun len first hcopy => ?_
    rw [hrd] at hcopy
    exact absurd hcopy (by simp)
  · rename_i len first hrd
    obtain rfl := Option.some.inj hstep
    have hdone (q : Queue) (hf : q.qflow = s.q.qflow) (hc : q.qclosed = s.q.qclosed) :
        Sys.WriterKept { s.put (qwakeup q).1 false (qwakeup q).2 with
          rd := .idle, returned := s.returned ++ [(bl2mem first len).1] } :=
      writerKept_restart h rfl hf hc id rfl rfl
    simp only [qreadDone]
    split
    · exact hdone s.q rfl rfl
    · split_ifs
      · exact hdone s.q rfl rfl
      · exact hdone _ rfl rfl

/-- A change that leaves the queue and the wakeups of the writer alone. -/
theorem writerKept_of_queue (h : s.WriterKept) (hwr : s'.wr = .asleep → s.wr = .asleep)
    (hw : s'.wwake = s.wwake) (hq : s'.q = s.q)
    (hrd : ∀ len first, s.rd = .copying len first → s'.rd = s.rd) : s'.WriterKept :=
  writerKept_of_same h hwr hw.ge (by rw [hq]; exact id) (by rw [hq]) (by rw [hq]; exact id) hrd

/-- Blocks that enter the queue leave the writer as it was. -/
theorem writerKept_append (b : Block) (bs : List Block) (h : s.WriterKept)
    (hflow : (q.append b bs).qflow = true → s'.q.qflow = true)
    (hs' : s'.q.qclosed = (q.append b bs).qclosed ∧ s'.q.len = (q.append b bs).len ∧
      s'.q.limit = (q.append b bs).limit) (hq : q = s.q) (hwr : s'.wr = .asleep → s.wr = .asleep)
    (hw : s'.wwake = s.wwake) (hrd : s'.rd = s.rd) : s'.WriterKept := by
  subst hq
  obtain ⟨hlimit, hf, hc, -⟩ := append_limit s.q b bs
  refine writerKept_of_same h hwr hw.ge (fun ht => hflow (hf.trans ht)) (hs'.1.trans hc)
    (fun hl => ?_) fun _ _ _ => hrd
  have := append_low b bs hl
  rw [low_eq_false_iff] at this ⊢
  rwa [hs'.2.1, hs'.2.2]

theorem writerKept_pass (h : s.WriterKept) (b : Block) (bs : List Block) :
    (s.pass (qpass s.q b bs) (b :: bs)).WriterKept := by
  unfold qpass qpassnolim
  split_ifs
  · exact writerKept_of_queue h id rfl rfl fun _ _ _ => rfl
  · exact writerKept_of_queue h id rfl rfl fun _ _ _ => rfl
  · refine writerKept_append b bs h (fun ht => ?_) ⟨rfl, rfl, rfl⟩ rfl id rfl rfl
    simp [Sys.pass, Sys.enter, Sys.put, Queue.feed, Queue.flowAt, ht]

theorem writerKept_write (h : s.WriterKept) (hstep : s.write b = some s') : s'.WriterKept := by
  unfold Sys.write at hstep
  split at hstep
  · unfold qbwritePut at hstep
    split_ifs at hstep
    · obtain rfl := Option.some.inj hstep
      exact writerKept_of_queue h id rfl rfl fun _ _ _ => rfl
    · obtain rfl := Option.some.inj hstep
      exact writerKept_of_queue h id rfl rfl fun _ _ _ => rfl
    · obtain rfl := Option.some.inj hstep
      exact fun hasleep => absurd hasleep (by simp)
  · simp at hstep

theorem writerKept_writeStep (h : s.WriterKept) (halert : Alert s .writeStep)
    (hstep : s.writeStep = some s') : s'.WriterKept := by
  unfold Sys.writeStep at hstep
  split at hstep
  · simp at hstep
  · simp at hstep
  · obtain rfl := Option.some.inj hstep
    intro hasleep
    dsimp only at hasleep
    split at hasleep <;> simp at hasleep
  · obtain rfl := Option.some.inj hstep
    exact fun hasleep => absurd hasleep (by simp)
  · rename_i hwr
    obtain rfl := Option.some.inj hstep
    intro hasleep
    dsimp only at hasleep
    split_ifs at hasleep with hfull
    rcases halert hwr with hfull' | hflow | hwake
    · exact absurd hfull' hfull
    · simp only [qnotfull, Bool.or_eq_true, decide_eq_true_eq, not_or] at hfull
      refine .inr ⟨hflow, by simpa using hfull.2, .inl (low_eq_false_iff.mpr ?_)⟩
      have := Nat.div_le_self s.q.limit 2
      dsimp only
      omega
    · exact .inl hwake

theorem writerKept_op {o : Op} (h : s.WriterKept) (hflows : Flows (.op o))
    (hstep : s.op o = some s') : s'.WriterKept := by
  cases o with
  | qget =>
    obtain rfl := Option.some.inj hstep
    simp only [qget]
    split
    · exact writerKept_of_same h id le_rfl id rfl id fun _ _ _ => rfl
    · rename_i b bs hq
      exact writerKept_restart (q := s.q.pop b bs) h rfl rfl rfl id rfl rfl
  | qdiscard len =>
    obtain rfl := Option.some.inj hstep
    obtain ⟨hf, hc, hl⟩ := qdiscardLoop_flags len s.q.bfirst 0 s.q
    refine writerKept_restart h rfl hf hc (fun hfull => ?_) rfl rfl
    rw [decide_eq_false_iff_not, not_lt] at hfull
    rw [low_eq_false_iff]
    have := Nat.div_le_self (qdiscardLoop len s.q.bfirst 0 s.q).2.limit 2
    omega
  | qpass b bs => obtain rfl := Option.some.inj hstep; exact writerKept_pass h b bs
  | qhangup msg =>
    obtain rfl := Option.some.inj hstep
    exact fun _ => .inl (Nat.succ_pos _)
  | qclose =>
    obtain rfl := Option.some.inj hstep
    exact fun _ => .inl (Nat.succ_pos _)
  | _ => exact hflows.elim

/-! ### The reader -/

theorem readerKept_of_free (hrd : ∀ c, s'.rd ≠ .asleep c) : s'.ReaderKept :=
  fun c hc => absurd hc (hrd c)

theorem readerKept_of_same (h : s.ReaderKept) (hrd : ∀ c, s'.rd = .asleep c → s.rd = .asleep c)
    (hw : s'.rwake = s.rwake) (hstarve : s.q.qstarve = true → s'.q.qstarve = true)
    (hfirst : s.q.bfirst = [] → s'.q.bfirst = []) (hclosed : s'.q.qclosed = s.q.qclosed) :
    s'.ReaderKept := by
  intro c hc
  rcases h c (hrd c hc) with hwake | ⟨hs, hf, ho⟩
  · exact .inl (hw ▸ hwake)
  · exact .inr ⟨hstarve hs, hfirst hf, hclosed.trans ho⟩

/-- Blocks that enter the queue wake a starved reader. -/
theorem readerKept_feed (h : s.ReaderKept) (hrd : s'.rd = s.rd)
    (hw : s'.rwake = s.rwake + s.q.qstarve.toNat) : s'.ReaderKept := by
  intro c hc
  rcases h c (hrd ▸ hc) with hwake | ⟨hs, -, -⟩
  · exact .inl (by omega)
  · exact .inl (by rw [hw, hs, Bool.toNat_true]; omega)

theorem readerKept_pass (h : s.ReaderKept) (b : Block) (bs : List Block) :
    (s.pass (qpass s.q b bs) (b :: bs)).ReaderKept := by
  unfold qpass qpassnolim
  split_ifs
  · exact readerKept_of_same h (fun _ => id) rfl id id rfl
  · exact readerKept_of_same h (fun _ => id) rfl id id rfl
  · refine readerKept_feed h rfl ?_
    rw [← (append_limit s.q b bs).2.2.2]
    rfl

theorem readerKept_write (h : s.ReaderKept) (hstep : s.write b = some s') : s'.ReaderKept := by
  unfold Sys.write at hstep
  split at hstep
  · unfold qbwritePut at hstep
    split_ifs at hstep
    · obtain rfl := Option.some.inj hstep
      exact readerKept_of_same h (fun _ => id) rfl id id rfl
    · obtain rfl := Option.some.inj hstep
      exact readerKept_of_same h (fun _ => id) rfl id id rfl
    · obtain rfl := Option.some.inj hstep
      refine readerKept_feed h rfl ?_
      rw [← (append_limit s.q b []).2.2.2]
      rfl
  · simp at hstep

theorem readerKept_readStep {m : Mem} (halert : Alert s (.readStep m))
    (hstep : s.readStep m = some s') : s'.ReaderKept := by
  unfold Sys.readStep at hstep
  split at hstep
  · simp at hstep
  · simp at hstep
  · rename_i c hrd
    split at hstep
    · obtain rfl := Option.some.inj hstep
      exact readerKept_of_free (by simp)
    · obtain rfl := Option.some.inj hstep
      exact readerKept_of_free (by simp)
    · obtain rfl := Option.some.inj hstep
      exact readerKept_of_free (by simp)
    · split at hstep
      · simp at hstep
      · obtain rfl := Option.some.inj hstep
        cases c <;> exact readerKept_of_free (by simp [Sys.take])
  · rename_i c hrd
    obtain rfl := Option.some.inj hstep
    intro d hd
    dsimp only at hd
    split_ifs at hd with hempty
    simp only [Alert, hrd] at halert
    simp only [notempty, Bool.or_eq_true, not_or, Bool.not_eq_true, Bool.not_eq_false',
      List.isEmpty_iff] at hempty
    rcases halert with hne | hstarve | hwake
    · simp [notempty, hempty] at hne
    · exact .inr ⟨hstarve, hempty.2, hempty.1⟩
    · exact .inl hwake
  · obtain rfl := Option.some.inj hstep
    exact readerKept_of_free (by simp)

theorem readerKept_op {o : Op} (h : s.ReaderKept) (hflows : Flows (.op o))
    (hstep : s.op o = some s') : s'.ReaderKept := by
  cases o with
  | qget =>
    obtain rfl := Option.some.inj hstep
    simp only [qget]
    split
    · exact readerKept_of_same h (fun _ => id) rfl (fun _ => rfl) id rfl
    · rename_i b bs hq
      refine readerKept_of_same h (fun _ => id) rfl id (fun hf => ?_) rfl
      rw [hq] at hf
      exact absurd hf (List.cons_ne_nil b bs)
  | qdiscard len =>
    obtain rfl := Option.some.inj hstep
    intro c hc
    rcases h c hc with hwake | ⟨hs, hf, ho⟩
    · exact .inl hwake
    · refine .inr ?_
      simp only [qdiscard, hf, qdiscardLoop]
      exact ⟨hs, hf, ho⟩
  | qpass b bs => obtain rfl := Option.some.inj hstep; exact readerKept_pass h b bs
  | qhangup msg =>
    obtain rfl := Option.some.inj hstep
    exact fun _ _ => .inl (Nat.succ_pos _)
  | qclose =>
    obtain rfl := Option.some.inj hstep
    exact fun _ _ => .inl (Nat.succ_pos _)
  | _ => exact hflows.elim

/-! ### Runs -/

/-- An alert step forgets neither the reader nor the writer. -/
theorem alert_step (h : s.Minded) (hflows : Flows e) (halert : Alert s e)
    (hstep : s.step e = some s') : s'.Minded := by
  obtain ⟨hr, hw⟩ := h
  cases e with
  | read c =>
    simp only [Sys.step] at hstep
    split_ifs at hstep with hrd
    obtain rfl := Option.some.inj hstep
    refine ⟨readerKept_of_free (by simp), writerKept_of_queue hw id rfl rfl fun _ _ hcopy => ?_⟩
    rw [hrd] at hcopy
    exact absurd hcopy (by simp)
  | readStep m => exact ⟨readerKept_readStep halert hstep, writerKept_readStep hw halert hstep⟩
  | readIntr =>
    have hfree (hcopy : ∀ len first, s.rd ≠ .copying len first) :
        Sys.ReaderKept { s with rd := .idle } ∧ Sys.WriterKept { s with rd := .idle } :=
      ⟨readerKept_of_free (by simp),
        writerKept_of_queue hw id rfl rfl fun len first h => absurd h (hcopy len first)⟩
    simp only [Sys.step] at hstep
    split at hstep
    · rename_i hrd
      obtain rfl := Option.some.inj hstep
      exact hfree (by simp [hrd])
    · rename_i hrd
      obtain rfl := Option.some.inj hstep
      exact hfree (by simp [hrd])
    · simp at hstep
  | write b => exact ⟨readerKept_write hr hstep, writerKept_write hw hstep⟩
  | writeStep =>
    refine ⟨?_, writerKept_writeStep hw halert hstep⟩
    simp only [Sys.step, Sys.writeStep] at hstep
    split at hstep
    · simp at hstep
    · simp at hstep
    all_goals
      obtain rfl := Option.some.inj hstep
      exact readerKept_of_same hr (fun _ => id) rfl id id rfl
  | writeIntr =>
    have hidle : Sys.ReaderKept { s with wr := .idle } ∧ Sys.WriterKept { s with wr := .idle } :=
      ⟨readerKept_of_same hr (fun _ => id) rfl id id rfl,
        fun hasleep => absurd hasleep (by simp)⟩
    simp only [Sys.step] at hstep
    split at hstep
    · obtain rfl := Option.some.inj hstep
      exact hidle
    · obtain rfl := Option.some.inj hstep
      exact hidle
    · simp at hstep
  | wakeRr =>
    simp only [Sys.step] at hstep
    split_ifs at hstep
    obtain rfl := Option.some.inj hstep
    refine ⟨readerKept_of_free fun c => ?_, writerKept_of_queue hw id rfl rfl fun _ _ hcopy => ?_⟩
    · cases hrd : s.rd <;> simp [Sys.wakeRr, hrd]
    · simp [Sys.wakeRr, hcopy]
  | wakeWr =>
    simp only [Sys.step] at hstep
    split_ifs at hstep
    obtain rfl := Option.some.inj hstep
    refine ⟨readerKept_of_same hr (fun _ => id) rfl id id rfl, fun hasleep => ?_⟩
    cases hwr : s.wr <;> simp [Sys.wakeWr, hwr] at hasleep
  | op o => exact ⟨readerKept_op hr hflows hstep, writerKept_op hw hflows hstep⟩

theorem awake_of_minded (h : s.Minded) (hquiet : s.Quiet) : s.Awake := by
  obtain ⟨hr, hw⟩ := h
  refine ⟨fun c hc => ?_, fun hasleep => ?_⟩
  · rcases hr c hc with hwake | ⟨-, hrest⟩
    · exact absurd hquiet.rwake hwake.ne'
    · exact hrest
  · rcases hw hasleep with hwake | ⟨-, hopen, hlow | ⟨len, first, hcopy⟩⟩
    · exact absurd hquiet.wwake hwake.ne'
    · exact ⟨hopen, low_eq_false_iff.mp hlow⟩
    · rcases hquiet.rd with hidle | ⟨c, hc⟩
      · rw [hcopy] at hidle
        exact absurd hidle (by simp)
      · rw [hcopy] at hc
        exact absurd hc (by simp)

/-- In every run of alert steps, in any interleaving, no reader and no writer is left asleep when
no step is in progress. -/
theorem awake_of_run {q : Queue} (h : Run Step (fun s e => Flows e ∧ Alert s e) { q := q } s)
    (hquiet : s.Quiet) : s.Awake := by
  have hstart : Sys.Minded { q := q } :=
    ⟨readerKept_of_free (by simp), fun hasleep => absurd hasleep (by simp)⟩
  have hminded : s.Minded := h.invariant hstart fun s e s' hminded hok hstep =>
    alert_step hminded hok.1 hok.2 hstep.2
  exact awake_of_minded hminded hquiet

/-- A queue for the examples. -/
def fresh : Queue := { limit := 100 }

theorem awake_of_run_sleep : Sys.Awake { q := fresh, rd := .asleep (.qread 10) } := by
  refine awake_of_run (q := fresh) (.snoc (.snoc (.snoc .nil
    (e := .read (.qread 10)) ⟨trivial, trivial⟩ ⟨by decide, rfl⟩)
    (e := .readStep { addr := 1 }) ⟨trivial, ?_⟩ ⟨by decide, rfl⟩)
    (e := .readStep { addr := 1 }) ⟨trivial, ?_⟩ ⟨by decide, rfl⟩) ?_
  · exact fun hcoal => absurd hcoal (by decide)
  · exact Or.inr (Or.inl rfl)
  · exact ⟨rfl, rfl, .inr ⟨_, rfl⟩, .inl rfl⟩

/-- A reader finds the queue empty. Before it sleeps, a block is written and taken by `qget`. It
sleeps with `Qstarve` cleared, and the next block written does not wake it. -/
theorem reader_forgotten :
    ∃ s, Run Step (fun _ e => Flows e) { q := fresh } s ∧ s.Quiet ∧ ¬ s.Awake := by
  refine ⟨_, .snoc (.snoc (.snoc (.snoc (.snoc (.snoc (.snoc (.snoc (.snoc .nil
    (e := .read (.qread 10)) trivial ⟨by decide, rfl⟩)
    (e := .readStep { addr := 1 }) trivial ⟨by decide, rfl⟩)
    (e := .write { addr := 1, data := [1] }) trivial ⟨by decide, rfl⟩)
    (e := .writeStep) trivial ⟨by decide, rfl⟩)
    (e := .wakeRr) trivial ⟨by decide, rfl⟩)
    (e := .op .qget) trivial ⟨by decide, rfl⟩)
    (e := .readStep { addr := 1 }) trivial ⟨by decide, rfl⟩)
    (e := .write { addr := 2, data := [2] }) trivial ⟨by decide, rfl⟩)
    (e := .writeStep) trivial ⟨by decide, rfl⟩, ?_, ?_⟩
  · exact ⟨rfl, rfl, .inr ⟨.qread 10, rfl⟩, .inl rfl⟩
  · intro h
    exact absurd (h.1 (.qread 10) rfl).1 (by decide)

end PlanNine.Qio
