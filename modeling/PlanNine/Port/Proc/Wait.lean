import PlanNine.Lib.Run
import PlanNine.Lib.Tally
import Mathlib.Data.List.Nodup

/-!
# Waiting for children

A process that exits leaves a record with its parent, which `pwait` returns. Whether it does is
decided under the lock of the parent: the parent must still be the process that forked it, must not
be broken, and must not hold 128 records already. What is done under one lock is one step, and a
process is made in one step.

## Main definitions

* `Proc`, `State`: a process, and the process table.
* `sysrfork`, `pwait`, `pexit` and their parts: the steps.
* `Accounted`: what the counters of a process count, and what `pwait` returns.
* `Room`: the parent of a process that exits has room for its record.

## Main results

* `inv_exec`: a step keeps the invariant.
* `counted_iff`: a step keeps the number of children, just when there is room.
* `accounted_iff`: a run keeps the accounts, just when there is room for every record.
-/

namespace PlanNine.Wait

def HZ : ℕ := 100

def ERRMAX : ℕ := 128

def Einuse : String := "device or object already in use"

def Enochild : String := "no living children"

def Eintr : String := "interrupted"

structure Waitmsg where
  pid : ℕ
  /-- The user's, the system's and the real time, in milliseconds. -/
  time : ℕ × ℕ × ℕ
  msg : String
  deriving DecidableEq

/-- A process is in `pwait` when it is `Checked`, asleep (`Wakeme`) or `Awake`, and in `pexit` from
`Exiting` on. -/
inductive Status where
  | Dead | Running | Checked | Wakeme | Awake | Exiting | Broken | Mended | Moribund
  deriving DecidableEq

structure Proc where
  state : Status := .Dead
  pid : ℕ := 0
  text : String := ""
  /-- A kernel process. -/
  kp : Bool := false
  parent : Option ℕ := none
  parentpid : ℕ := 0
  qwaitr : Bool := false
  nchild : ℤ := 0
  nwait : ℤ := 0
  waitq : List Waitmsg := []
  /-- The user's and the system's time of the children, in ticks. -/
  ctime : ℕ × ℕ := (0, 0)
  deriving DecidableEq

/-- The process table of `nproc` slots, and what the calls of `pwait` came to, with the process
that called. -/
structure State where
  nproc : ℕ
  proc : ℕ → Proc := fun _ => {}
  free : List ℕ := []
  pidalloc : ℕ := 0
  results : List (ℕ × Except String Waitmsg) := []

def State.setProc (t : State) (p : ℕ) (e : Proc) : State :=
  { t with proc := Function.update t.proc p e }

/-- A call of `pwait` ends. -/
def State.result (t : State) (p : ℕ) (r : Except String Waitmsg) : State :=
  { t with results := t.results ++ [((t.proc p).pid, r)] }

def incref (r : ℕ) : ℕ := (r + 1) % 4294967296

def tk2ms (ticks : ℕ) : ℕ := ticks * 1000 / HZ % 4294967296

variable (t : State)

/-- Take a slot. When there is none the process waits, and a process identifier of 0 is a panic. -/
def newproc : Option (State × ℕ) :=
  match t.free with
  | [] => none
  | c :: free =>
    let pid := incref t.pidalloc
    if pid = 0 then none
    else
      some (State.setProc { t with free := free, pidalloc := pid } c
        { t.proc c with
          state := .Running, pid := pid, text := "*notext", kp := false, parent := none,
          nchild := 0, nwait := 0, waitq := [] }, c)

/-- `sysrfork` with `RFPROC`. -/
def sysrfork (up : ℕ) (nowait : Bool) : Option State :=
  (newproc t).map fun (t, c) =>
    let t := t.setProc c { t.proc c with
      parent := some up, parentpid := if nowait then 0 else (t.proc up).pid,
      text := (t.proc up).text, ctime := (0, 0) }
    if nowait then t else t.setProc up { t.proc up with nchild := (t.proc up).nchild + 1 }

def kproc (name : String) : Option State :=
  (newproc t).map fun (t, c) =>
    t.setProc c { t.proc c with kp := true, text := name, ctime := (0, 0) }

def haswaitq (e : Proc) : Bool := e.waitq ≠ []

/-- `pwait` up to its call of `sleep`. -/
def pwait (up : ℕ) : State :=
  let e := t.proc up
  if e.qwaitr then t.result up (.error Einuse)
  else if e.nchild = 0 ∧ e.waitq = [] then t.result up (.error Enochild)
  else t.setProc up { e with qwaitr := true, state := .Checked }

def sleep (up : ℕ) : State :=
  let e := t.proc up
  t.setProc up { e with state := if haswaitq e then .Awake else .Wakeme }

/-- A note ends the call. -/
def interrupt (up : ℕ) : State :=
  (t.setProc up { t.proc up with qwaitr := false, state := .Running }).result up (.error Eintr)

/-- `pwait` behind its call of `sleep`. -/
def collect (up : ℕ) : Option State :=
  let e := t.proc up
  match e.waitq with
  | [] => none
  | wq :: waitq =>
    let e := { e with waitq := waitq, nwait := e.nwait - 1, qwaitr := false, state := .Running }
    some ((t.setProc up e).result up (.ok wq))

def wakeup : Status → Status
  | .Wakeme => .Awake
  | s => s

def waitrec (e : Proc) (exitstr : String) (utime stime treal : ℕ) : Waitmsg where
  pid := e.pid
  time := (tk2ms utime, tk2ms stime, tk2ms treal)
  msg :=
    if exitstr = "" then ""
    else
      String.ofList ((e.text ++ " " ++ toString e.pid ++ ": " ++ exitstr).toList.take (ERRMAX - 1))

/-- A child leaves its record with the parent `q`. -/
def leave (q : Proc) (wq : Waitmsg) (utime stime : ℕ) : Proc :=
  { q with
    nchild := q.nchild - 1, ctime := (q.ctime.1 + utime, q.ctime.2 + stime),
    waitq := wq :: q.waitq, nwait := q.nwait + 1, state := wakeup q.state }

/-- `pexit` up to the unlocking of the parent. -/
def pexit (up : ℕ) (exitstr : String) (utime stime treal : ℕ) : Option State :=
  let e := t.proc up
  let t := t.setProc up { e with state := .Exiting }
  if e.kp then some t
  else
    match e.parent with
    | none => none
    | some p =>
      let q := t.proc p
      if q.pid = e.parentpid ∧ q.state ≠ .Broken ∧ q.nwait < 128 then
        some (t.setProc p (leave q (waitrec e exitstr utime stime treal) utime stime))
      else some t

def addbroken (up : ℕ) : State := t.setProc up { t.proc up with state := .Broken }

def unbreak (p : ℕ) : State := t.setProc p { t.proc p with state := .Mended }

/-- The end of `pexit`: children may leave no more records, and those not read are freed. -/
def bury (up : ℕ) : State :=
  t.setProc up { t.proc up with pid := 0, waitq := [], state := .Moribund }

/-- `schedinit` frees the slot. -/
def schedinit (up : ℕ) : State :=
  State.setProc { t with free := up :: t.free } up { t.proc up with state := .Dead }

inductive Op where
  | sysrfork (up : ℕ) (nowait : Bool)
  | kproc (name : String)
  | pwait (up : ℕ)
  | sleep (up : ℕ)
  | interrupt (up : ℕ)
  | collect (up : ℕ)
  | pexit (up : ℕ) (exitstr : String) (utime stime treal : ℕ)
  | addbroken (up : ℕ)
  | unbreak (p : ℕ)
  | bury (up : ℕ)
  | schedinit (up : ℕ)
  deriving DecidableEq

/-- Where a process is when it takes a step. -/
def Able : Op → Prop
  | .sysrfork up _ | .pwait up | .pexit up .. => (t.proc up).state = .Running
  | .kproc _ => True
  | .sleep up => (t.proc up).state = .Checked
  | .interrupt up => (t.proc up).state ∈ [Status.Checked, .Wakeme, .Awake]
  | .collect up => (t.proc up).state = .Awake
  | .addbroken up => (t.proc up).state = .Exiting
  | .unbreak p => (t.proc p).state = .Broken
  | .bury up => (t.proc up).state ∈ [Status.Exiting, .Mended]
  | .schedinit up => (t.proc up).state = .Moribund

instance (op : Op) : Decidable (Able t op) := by
  cases op <;> unfold Able <;> infer_instance

def perform : Op → Option State
  | .sysrfork up nowait => sysrfork t up nowait
  | .kproc name => kproc t name
  | .pwait up => some (pwait t up)
  | .sleep up => some (sleep t up)
  | .interrupt up => some (interrupt t up)
  | .collect up => collect t up
  | .pexit up exitstr utime stime treal => pexit t up exitstr utime stime treal
  | .addbroken up => some (addbroken t up)
  | .unbreak p => some (unbreak t p)
  | .bury up => some (bury t up)
  | .schedinit up => some (schedinit t up)

def exec (op : Op) : Option State := if Able t op then perform t op else none

/-- The first process of a system of `n + 1` slots. -/
def boot (n : ℕ) : State where
  nproc := n + 1
  proc := Function.update (fun _ => {}) 0 { state := .Running, pid := 1, text := "*init*" }
  free := List.range' 1 n
  pidalloc := 1

/-! ### The accounts -/

/-- A process that has not left its record yet. -/
def Living (e : Proc) : Prop := e.state ∈ [Status.Running, .Checked, .Wakeme, .Awake]

/-- A process that is not broken and has not come to its end. -/
def Alive (e : Proc) : Prop := Living e ∨ e.state = .Exiting

instance (e : Proc) : Decidable (Living e) := by unfold Living; infer_instance

instance (e : Proc) : Decidable (Alive e) := by unfold Alive; infer_instance

/-- A living child that will report to the process `pid` in the slot `p`. -/
def Reports (p pid : ℕ) (c : Proc) : Prop := Living c ∧ c.parent = some p ∧ c.parentpid = pid

instance (p pid : ℕ) (c : Proc) : Decidable (Reports p pid c) := by unfold Reports; infer_instance

def reports (p pid : ℕ) (c : Proc) : ℕ := if Reports p pid c then 1 else 0

/-- The children whose records have been returned. -/
def returned : List ℕ := t.results.filterMap fun r => r.2.toOption.map Waitmsg.pid

/-- What the counters of a process count, and what `pwait` returns. -/
structure Accounted (t : State) : Prop where
  nwait : ∀ p, Alive (t.proc p) → (t.proc p).nwait = (t.proc p).waitq.length
  nchild : ∀ p, Alive (t.proc p) →
    (t.proc p).nchild = tally t.nproc (reports p (t.proc p).pid) t.proc
  once : (returned t).Nodup
  /-- Who sleeps in `pwait` has a child that will report to it. -/
  asleep : ∀ p, (t.proc p).state = .Wakeme → ∃ c < t.nproc, Reports p (t.proc p).pid (t.proc c)
  /-- Who does not sleep finds a record. -/
  awake : ∀ p, (t.proc p).state = .Awake → (t.proc p).waitq ≠ []

/-- No process exits while its parent, alive, holds 128 records. -/
def Room : Op → Prop
  | .pexit up .. => (t.proc up).kp = false → ∀ p, (t.proc up).parent = some p →
      (t.proc p).pid = (t.proc up).parentpid → Alive (t.proc p) → (t.proc p).nwait < 128
  | _ => True

/-! ### The invariant -/

variable {t t' : State} {p q c k n pid : ℕ} {e : Proc}

/-- What holds of a process when the last identifier given is `k`. -/
structure Sound (k : ℕ) (e : Proc) : Prop where
  pid_le : e.pid ≤ k
  parentpid_le : e.parentpid ≤ k
  kp : e.kp = true → e.parent = none
  pid_pos : Alive e → 0 < e.pid
  parentpid_lt : Living e → e.parentpid < e.pid
  nwait : Alive e → e.nwait = e.waitq.length
  checked : e.state = .Checked → e.nchild ≠ 0 ∨ e.waitq ≠ []
  asleep : e.state = .Wakeme → e.nchild ≠ 0
  awake : e.state = .Awake → e.waitq ≠ []

structure Inv (t : State) : Prop where
  sound : ∀ p, Sound t.pidalloc (t.proc p)
  lt : ∀ p, (t.proc p).state ≠ .Dead → p < t.nproc
  parent : ∀ p q, (t.proc p).parent = some q → q < t.nproc
  free : ∀ c ∈ t.free, c < t.nproc ∧ (t.proc c).state = .Dead
  nodup : t.free.Nodup
  pidalloc : t.pidalloc < 4294967296

theorem incref_eq (hk : k < 4294967296) (h : incref k ≠ 0) : incref k = k + 1 := by
  simp only [incref] at h ⊢
  omega

theorem Sound.mono (h : Sound k e) (hk : k ≤ n) : Sound n e :=
  { h with pid_le := h.pid_le.trans hk, parentpid_le := h.parentpid_le.trans hk }

@[simp]
theorem proc_setProc_self (t : State) (p : ℕ) (e : Proc) : (t.setProc p e).proc p = e :=
  Function.update_self _ _ _

theorem proc_setProc_of_ne (h : q ≠ p) : (t.setProc p e).proc q = t.proc q :=
  Function.update_of_ne h _ _

theorem not_alive_of_dead (h : e.state = .Dead) : ¬ Alive e := by
  simp [Alive, Living, h]

/-- A slot changes. -/
theorem Inv.setProc (h : Inv t) (hp : p < t.nproc)
    (hdead : (t.proc p).state = .Dead → e.state = .Dead) (hparent : e.parent = (t.proc p).parent)
    (he : Sound t.pidalloc e) : Inv (t.setProc p e) where
  sound q := by
    by_cases hq : q = p
    · subst hq
      rwa [proc_setProc_self]
    · rw [proc_setProc_of_ne hq]
      exact h.sound q
  lt q hq := by
    by_cases hqp : q = p
    · exact hqp ▸ hp
    · rw [proc_setProc_of_ne hqp] at hq
      exact h.lt q hq
  parent q r hr := by
    by_cases hqp : q = p
    · rw [hqp, proc_setProc_self, hparent] at hr
      exact h.parent p r hr
    · rw [proc_setProc_of_ne hqp] at hr
      exact h.parent q r hr
  free c hc := by
    obtain ⟨hlt, hcd⟩ := h.free c hc
    refine ⟨hlt, ?_⟩
    by_cases hcp : c = p
    · subst hcp
      rw [proc_setProc_self]
      exact hdead hcd
    · rwa [proc_setProc_of_ne hcp]
  nodup := h.nodup
  pidalloc := h.pidalloc

theorem Inv.result (h : Inv t) (p : ℕ) (r : Except String Waitmsg) : Inv (t.result p r) :=
  ⟨h.sound, h.lt, h.parent, h.free, h.nodup, h.pidalloc⟩

/-- What `newproc` makes. -/
structure Made (t t' : State) (c : ℕ) : Prop where
  lt : c < t.nproc
  dead : (t.proc c).state = .Dead
  free : t.free = c :: t'.free
  pidalloc : t'.pidalloc = t.pidalloc + 1
  bound : t'.pidalloc < 4294967296
  proc : t'.proc = Function.update t.proc c { t.proc c with
    state := .Running, pid := t.pidalloc + 1, text := "*notext", kp := false, parent := none,
    nchild := 0, nwait := 0, waitq := [] }
  nproc : t'.nproc = t.nproc
  results : t'.results = t.results

theorem newproc_spec (h : Inv t) (ht : newproc t = some (t', c)) : Made t t' c := by
  unfold newproc at ht
  split at ht
  · cases ht
  · rename_i d free hfree
    dsimp only at ht
    split at ht
    · cases ht
    · rename_i hpid
      have hk := incref_eq h.pidalloc hpid
      obtain ⟨rfl, rfl⟩ := Prod.mk.inj (Option.some.inj ht)
      obtain ⟨hlt, hdead⟩ := h.free d (hfree ▸ List.mem_cons_self)
      refine ⟨hlt, hdead, hfree, hk, ?_, ?_, rfl, rfl⟩
      · exact Nat.mod_lt _ (by decide)
      · rw [← hk]
        rfl

/-- A process that is made with a parent. -/
def child (e : Proc) (pid : ℕ) (parent : Option ℕ) (parentpid : ℕ) (text : String) (kp : Bool) :
    Proc :=
  { e with
    state := .Running, pid := pid, text := text, kp := kp, parent := parent,
    parentpid := parentpid, nchild := 0, nwait := 0, waitq := [], ctime := (0, 0) }

theorem sound_child {parent : Option ℕ} {parentpid : ℕ} {text : String} {kp : Bool}
    (hpid : 0 < pid) (hle : parentpid < pid) (hkp : kp = true → parent = none) :
    Sound pid (child e pid parent parentpid text kp) where
  pid_le := le_rfl
  parentpid_le := hle.le
  kp := hkp
  pid_pos _ := hpid
  parentpid_lt _ := hle
  nwait _ := rfl
  checked := nofun
  asleep := nofun
  awake := nofun

/-- A process is made. -/
theorem Inv.made (h : Inv t) (hm : Made t t' c) (text : String) (kp : Bool) {parent : Option ℕ}
    {parentpid : ℕ} (hle : parentpid ≤ t.pidalloc) (hparent : ∀ q ∈ parent, q < t.nproc)
    (hkp : kp = true → parent = none) :
    Inv (t'.setProc c (child (t.proc c) (t.pidalloc + 1) parent parentpid text kp)) := by
  have hother {q : ℕ} (hq : q ≠ c) {e : Proc} : (t'.setProc c e).proc q = t.proc q := by
    rw [proc_setProc_of_ne hq, hm.proc, Function.update_of_ne hq]
  have hnodup := h.nodup
  rw [hm.free, List.nodup_cons] at hnodup
  refine ⟨fun q => ?_, fun q hq => ?_, fun q r hr => ?_, fun d hd => ?_, hnodup.2, hm.bound⟩
  · change Sound t'.pidalloc _
    rw [hm.pidalloc]
    by_cases hq : q = c
    · subst hq
      rw [proc_setProc_self]
      exact sound_child (Nat.succ_pos _) (Nat.lt_succ_of_le hle) hkp
    · rw [hother hq]
      exact (h.sound q).mono (Nat.le_succ _)
  · change q < t'.nproc
    rw [hm.nproc]
    by_cases hqc : q = c
    · exact hqc ▸ hm.lt
    · rw [hother hqc] at hq
      exact h.lt q hq
  · change r < t'.nproc
    rw [hm.nproc]
    by_cases hqc : q = c
    · rw [hqc, proc_setProc_self] at hr
      exact hparent r hr
    · rw [hother hqc] at hr
      exact h.parent q r hr
  · change d < t'.nproc ∧ _
    have hdc : d ≠ c := by
      rintro rfl
      exact hnodup.1 hd
    rw [hother hdc, hm.nproc]
    exact h.free d (hm.free ▸ List.mem_cons_of_mem _ hd)

/-- What `sysrfork` makes. -/
theorem sysrfork_spec {up : ℕ} {nowait : Bool} (h : Inv t) (hup : (t.proc up).state = .Running)
    (ht : sysrfork t up nowait = some t') :
    ∃ u c, Made t u c ∧ up ≠ c ∧
      let v := u.setProc c (child (t.proc c) (t.pidalloc + 1) (some up)
        (if nowait then 0 else (t.proc up).pid) (t.proc up).text false)
      v.proc up = t.proc up ∧
        t' = if nowait then v
          else v.setProc up { t.proc up with nchild := (t.proc up).nchild + 1 } := by
  obtain ⟨⟨u, c⟩, hu, rfl⟩ := Option.map_eq_some_iff.mp ht
  have hm := newproc_spec h hu
  have hne : up ≠ c := by
    rintro rfl
    rw [hm.dead] at hup
    cases hup
  have hparent : u.proc up = t.proc up := by rw [hm.proc, Function.update_of_ne hne]
  have hc : u.proc c = _ := hm.proc ▸ Function.update_self _ _ _
  refine ⟨u, c, hm, hne, ?_, ?_⟩
  · rw [proc_setProc_of_ne hne, hparent]
  · dsimp only
    rw [hc, hparent]
    split
    · rfl
    · rw [proc_setProc_of_ne hne, hparent]
      rfl

/-- What `kproc` makes. -/
theorem kproc_spec {name : String} (h : Inv t) (ht : kproc t name = some t') :
    ∃ u c, Made t u c ∧ t' = u.setProc c (child (t.proc c) (t.pidalloc + 1) none
      (t.proc c).parentpid name true) := by
  obtain ⟨⟨u, c⟩, hu, rfl⟩ := Option.map_eq_some_iff.mp ht
  have hm := newproc_spec h hu
  have hc : u.proc c = _ := hm.proc ▸ Function.update_self _ _ _
  refine ⟨u, c, hm, ?_⟩
  dsimp only
  rw [hc]
  rfl

/-- What `pexit` does: it leaves a record with the parent, or does not. -/
theorem pexit_spec {up : ℕ} {exitstr : String} {utime stime treal : ℕ}
    (ht : pexit t up exitstr utime stime treal = some t') :
    let t₁ := t.setProc up { t.proc up with state := .Exiting }
    (t' = t₁ ∧ ((t.proc up).kp = false → ∀ p, (t.proc up).parent = some p →
      ¬ ((t₁.proc p).pid = (t.proc up).parentpid ∧ (t₁.proc p).state ≠ .Broken ∧
        (t₁.proc p).nwait < 128))) ∨
    ∃ p, (t.proc up).kp = false ∧ (t.proc up).parent = some p ∧
      (t₁.proc p).pid = (t.proc up).parentpid ∧ (t₁.proc p).state ≠ .Broken ∧
      (t₁.proc p).nwait < 128 ∧
      t' = t₁.setProc p (leave (t₁.proc p) (waitrec (t.proc up) exitstr utime stime treal)
        utime stime) := by
  unfold pexit at ht
  dsimp only at ht ⊢
  split at ht
  · rename_i hkp
    refine .inl ⟨(Option.some.inj ht).symm, fun hkp' => ?_⟩
    rw [hkp] at hkp'
    cases hkp'
  · rename_i hkp
    split at ht
    · cases ht
    · rename_i p hp
      split at ht
      · rename_i hq
        exact .inr ⟨p, by simpa using hkp, hp, hq.1, hq.2.1, hq.2.2, (Option.some.inj ht).symm⟩
      · rename_i hq
        refine .inl ⟨(Option.some.inj ht).symm, fun _ p' hp' => ?_⟩
        obtain rfl := Option.some.inj (hp.symm.trans hp')
        exact hq

theorem collect_spec {up : ℕ} (ht : collect t up = some t') :
    ∃ wq waitq, (t.proc up).waitq = wq :: waitq ∧
      t' = (t.setProc up { t.proc up with
        waitq := waitq, nwait := (t.proc up).nwait - 1, qwaitr := false,
        state := .Running }).result up (.ok wq) := by
  unfold collect at ht
  dsimp only at ht
  split at ht
  · cases ht
  · rename_i wq waitq hq
    exact ⟨wq, waitq, hq, (Option.some.inj ht).symm⟩

/-- A parent is not its own child. -/
theorem Inv.parent_ne (h : Inv t) {up : ℕ} (hup : Living (t.proc up))
    (hq : ((t.setProc up { t.proc up with state := .Exiting }).proc p).pid =
      (t.proc up).parentpid) : p ≠ up := by
  rintro rfl
  rw [proc_setProc_self] at hq
  exact ((h.sound p).parentpid_lt hup).ne' hq

theorem wakeup_mem : ∀ s, wakeup s ∈ [Status.Running, .Checked, .Wakeme, .Awake] ↔
    s ∈ [Status.Running, .Checked, .Wakeme, .Awake]
  | .Dead | .Running | .Checked | .Wakeme | .Awake | .Exiting | .Broken | .Mended | .Moribund => by
    decide

theorem wakeup_eq_exiting : ∀ s, wakeup s = .Exiting ↔ s = .Exiting
  | .Dead | .Running | .Checked | .Wakeme | .Awake | .Exiting | .Broken | .Mended | .Moribund => by
    decide

theorem living_leave {q : Proc} {wq : Waitmsg} {utime stime : ℕ} :
    Living (leave q wq utime stime) ↔ Living q :=
  wakeup_mem _

theorem alive_leave {q : Proc} {wq : Waitmsg} {utime stime : ℕ} :
    Alive (leave q wq utime stime) ↔ Alive q :=
  or_congr living_leave (wakeup_eq_exiting _)

theorem Sound.leave {q : Proc} (h : Sound k q) (wq : Waitmsg) (utime stime : ℕ) :
    Sound k (leave q wq utime stime) where
  pid_le := h.pid_le
  parentpid_le := h.parentpid_le
  kp := h.kp
  pid_pos ha := h.pid_pos (alive_leave.mp ha)
  parentpid_lt hl := h.parentpid_lt (living_leave.mp hl)
  nwait ha := by
    rw [Wait.leave, List.length_cons, h.nwait (alive_leave.mp ha)]
    exact (Int.natCast_succ _).symm
  checked _ := .inr (List.cons_ne_nil _ _)
  asleep hs := by
    have : wakeup q.state ≠ .Wakeme := by cases q.state <;> decide
    exact absurd hs this
  awake _ := List.cons_ne_nil _ _

/-! ### Tickets

A process has a ticket till it exits, and its record has one till it is returned or freed. -/

def ticket (k : ℕ) (e : Proc) : ℕ :=
  (e.waitq.map Waitmsg.pid).count k + if Living e ∧ e.pid = k then 1 else 0

def tickets (t : State) (k : ℕ) : ℕ := (returned t).count k + tally t.nproc (ticket k) t.proc

structure Ticketed (t : State) : Prop where
  le_one : ∀ k, tickets t k ≤ 1
  fresh : ∀ k, t.pidalloc < k → tickets t k = 0

theorem tickets_setProc (hp : p < t.nproc) (e : Proc) (k : ℕ) :
    tickets (t.setProc p e) k + ticket k (t.proc p) = tickets t k + ticket k e := by
  have := tally_update (ticket k) t.proc hp e
  unfold tickets
  change (returned t).count k + tally t.nproc (ticket k) (Function.update t.proc p e) + _ = _
  omega

theorem tickets_result (t : State) (p : ℕ) (r : Except String Waitmsg) (k : ℕ) :
    tickets (t.result p r) k =
      tickets t k + if r.toOption.map Waitmsg.pid = some k then 1 else 0 := by
  unfold tickets returned State.result
  dsimp only
  rw [List.filterMap_append, List.count_append]
  cases r with
  | error m => rfl
  | ok wq =>
    simp only [Except.toOption, Option.map_some, List.filterMap_cons_some, List.filterMap_nil,
      Option.some.injEq, List.count_singleton, beq_iff_eq]
    omega

/-- A process changes, and no ticket is made. -/
theorem Ticketed.setProc (h : Ticketed t) (hp : p < t.nproc)
    (he : ∀ k, ticket k e ≤ ticket k (t.proc p)) : Ticketed (t.setProc p e) where
  le_one k := by
    have := tickets_setProc hp e k
    have := he k
    have := h.le_one k
    omega
  fresh k hk := by
    have := tickets_setProc hp e k
    have := he k
    have := h.fresh k hk
    omega

theorem Ticketed.error (h : Ticketed t) (p : ℕ) (m : String) :
    Ticketed (t.result p (.error m)) where
  le_one k := by
    rw [tickets_result]
    exact h.le_one k
  fresh k hk := by
    rw [tickets_result]
    exact h.fresh k hk

theorem ticket_le {e e' : Proc} (hw : e.waitq = e'.waitq) (hl : Living e → Living e')
    (hpid : Living e → e.pid = e'.pid) (k : ℕ) : ticket k e ≤ ticket k e' := by
  unfold ticket
  rw [hw]
  by_cases he : Living e ∧ e.pid = k
  · rw [if_pos he, if_pos ⟨hl he.1, hpid he.1 ▸ he.2⟩]
  · rw [if_neg he]
    omega

/-- A process is made with a new ticket. -/
theorem Ticketed.made (h : Ticketed t) (hm : Made t t' c) (text : String) (kp : Bool)
    (parent : Option ℕ) (parentpid : ℕ) :
    Ticketed (t'.setProc c (child (t.proc c) (t.pidalloc + 1) parent parentpid text kp)) := by
  set e := child (t.proc c) (t.pidalloc + 1) parent parentpid text kp with he
  have hproc : (t'.setProc c e).proc = Function.update t.proc c e := by
    change Function.update t'.proc c e = _
    rw [hm.proc, Function.update_idem]
  have htickets (k : ℕ) : tickets (t'.setProc c e) k + ticket k (t.proc c) =
      tickets t k + if t.pidalloc + 1 = k then 1 else 0 := by
    have hold := tally_update (ticket k) t.proc hm.lt e
    have hnew : ticket k e = if t.pidalloc + 1 = k then 1 else 0 := by
      have hl : Living e := by
        rw [he]
        exact List.mem_cons_self
      have hpid : e.pid = t.pidalloc + 1 := rfl
      unfold ticket
      rw [hpid]
      simp only [hl, true_and]
      exact Nat.zero_add _
    unfold tickets
    rw [hproc]
    change (returned t').count k + tally t'.nproc _ _ + _ = _
    rw [returned, hm.results, ← returned, hm.nproc]
    omega
  constructor
  · intro k
    have := htickets k
    by_cases hk : t.pidalloc + 1 = k
    · have := h.fresh k (by omega)
      rw [if_pos hk] at *
      omega
    · have := h.le_one k
      rw [if_neg hk] at *
      omega
  · intro k hk
    change t'.pidalloc < k at hk
    rw [hm.pidalloc] at hk
    have := htickets k
    have := h.fresh k (by omega)
    rw [if_neg (by omega)] at *
    omega

theorem nodup_returned (h : Ticketed t) : (returned t).Nodup := by
  rw [List.nodup_iff_count_le_one]
  intro k
  have := h.le_one k
  unfold tickets at this
  omega

/-! ### The number of children -/

def Counted (t : State) : Prop :=
  ∀ p, Alive (t.proc p) → (t.proc p).nchild = tally t.nproc (reports p (t.proc p).pid) t.proc

theorem reports_congr {e e' : Proc} (hl : Living e ↔ Living e') (hparent : e.parent = e'.parent)
    (hpid : e.parentpid = e'.parentpid) (p pid : ℕ) : reports p pid e = reports p pid e' := by
  unfold reports Reports
  simp only [hl, hparent, hpid]

/-- A process changes, but not what it counts for. -/
theorem Counted.setProc (h : Counted t) (hp : p < t.nproc)
    (hl : Living e ↔ Living (t.proc p)) (ha : Alive e → Alive (t.proc p))
    (hpid : Alive e → e.pid = (t.proc p).pid) (hnchild : e.nchild = (t.proc p).nchild)
    (hparent : e.parent = (t.proc p).parent) (hparentpid : e.parentpid = (t.proc p).parentpid) :
    Counted (t.setProc p e) := by
  have htally (q pid : ℕ) : tally t.nproc (reports q pid) (Function.update t.proc p e) =
      tally t.nproc (reports q pid) t.proc :=
    tally_update_of_eq hp (reports_congr hl hparent hparentpid q pid)
  intro q hq
  change _ = (tally t.nproc _ (Function.update t.proc p e) : ℤ)
  rw [htally]
  by_cases hqp : q = p
  · subst hqp
    rw [proc_setProc_self] at hq ⊢
    rw [hnchild, hpid hq]
    exact h q (ha hq)
  · rw [proc_setProc_of_ne hqp] at hq ⊢
    exact h q hq

/-! ### Steps -/

theorem Sound.running (h : Sound k e) (hl : Living e) {e' : Proc} (hs : e'.state = .Running)
    (hpid : e'.pid = e.pid) (hparentpid : e'.parentpid = e.parentpid)
    (hkp : e'.kp = true → e'.parent = none)
    (hw : e'.nwait - e'.waitq.length = e.nwait - e.waitq.length) : Sound k e' where
  pid_le := hpid ▸ h.pid_le
  parentpid_le := hparentpid ▸ h.parentpid_le
  kp := hkp
  pid_pos _ := hpid ▸ h.pid_pos (.inl hl)
  parentpid_lt _ := by
    rw [hpid, hparentpid]
    exact h.parentpid_lt hl
  nwait _ := by
    have := h.nwait (.inl hl)
    omega
  checked hc := by
    rw [hs] at hc
    cases hc
  asleep hc := by
    rw [hs] at hc
    cases hc
  awake hc := by
    rw [hs] at hc
    cases hc

theorem not_alive_of_mem {s : Status} (hs : s ∈ [Status.Dead, .Broken, .Mended, .Moribund])
    (h : e.state = s) : ¬ Alive e := by
  unfold Alive Living
  rw [h]
  revert hs
  cases s <;> decide

/-- A process that is no longer alive. -/
theorem Sound.ended (h : Sound k e) {e' : Proc} (s : Status)
    (hs : s ∈ [Status.Dead, .Broken, .Mended, .Moribund]) (hstate : e'.state = s)
    (hpid : e'.pid ≤ e.pid) (hparentpid : e'.parentpid = e.parentpid)
    (hkp : e'.kp = true → e'.parent = none) : Sound k e' := by
  have hgone : ¬ Alive e' := not_alive_of_mem hs hstate
  refine ⟨hpid.trans h.pid_le, hparentpid ▸ h.parentpid_le, hkp, fun ha => absurd ha hgone,
    fun hl => absurd (.inl hl) hgone, fun ha => absurd ha hgone, fun hc => ?_, fun hc => ?_,
    fun hc => ?_⟩ <;>
  · obtain rfl := hstate.symm.trans hc
    exact absurd hs (by decide)

theorem living_of_running (h : e.state = .Running) : Living e := by
  unfold Living
  rw [h]
  decide

theorem ne_dead_of_living (h : Living e) : e.state ≠ .Dead := by
  unfold Living at h
  intro hd
  rw [hd] at h
  exact absurd h (by decide)

theorem Sound.checked_of (h : Sound k e) (hl : Living e) (hw : e.nchild ≠ 0 ∨ e.waitq ≠ []) :
    Sound k { e with qwaitr := true, state := .Checked } where
  pid_le := h.pid_le
  parentpid_le := h.parentpid_le
  kp := h.kp
  pid_pos _ := h.pid_pos (.inl hl)
  parentpid_lt _ := h.parentpid_lt hl
  nwait _ := h.nwait (.inl hl)
  checked _ := hw
  asleep := nofun
  awake := nofun

theorem Sound.slept (h : Sound k e) (hs : e.state = .Checked) :
    Sound k { e with state := if haswaitq e then .Awake else .Wakeme } := by
  have hl : Living e := by
    unfold Living
    rw [hs]
    decide
  refine ⟨h.pid_le, h.parentpid_le, h.kp, fun _ => h.pid_pos (.inl hl), fun _ => h.parentpid_lt hl,
    fun _ => h.nwait (.inl hl), fun hc => ?_, fun hc => ?_, fun hc => ?_⟩
  · dsimp only at hc
    split at hc <;> cases hc
  · dsimp only at hc ⊢
    split at hc
    · cases hc
    · rename_i hw
      refine (h.checked hs).resolve_right fun hne => hw ?_
      rw [haswaitq]
      exact decide_eq_true hne
  · dsimp only at hc ⊢
    split at hc
    · rename_i hw
      exact of_decide_eq_true hw
    · cases hc

theorem not_living_of_exiting (h : e.state = .Exiting) : ¬ Living e := by
  unfold Living
  rw [h]
  decide

theorem Sound.exiting (h : Sound k e) (hl : Living e) : Sound k { e with state := .Exiting } where
  pid_le := h.pid_le
  parentpid_le := h.parentpid_le
  kp := h.kp
  pid_pos _ := h.pid_pos (.inl hl)
  parentpid_lt hl' := absurd hl' (not_living_of_exiting rfl)
  nwait _ := h.nwait (.inl hl)
  checked := nofun
  asleep := nofun
  awake := nofun

theorem perform_of_exec {op : Op} (ht : exec t op = some t') :
    Able t op ∧ perform t op = some t' := by
  unfold exec at ht
  split at ht
  · exact ⟨‹_›, ht⟩
  · cases ht

theorem living_of_waiting (h : e.state ∈ [Status.Checked, .Wakeme, .Awake]) : Living e :=
  List.mem_cons_of_mem _ h

theorem Inv.living (h : Inv t) (hp : Living (t.proc p)) (hparent : e.parent = (t.proc p).parent)
    (he : Sound t.pidalloc e) : Inv (t.setProc p e) :=
  have hdead := ne_dead_of_living hp
  h.setProc (h.lt p hdead) (fun hd => absurd hd hdead) hparent he

theorem Inv.ended (h : Inv t) (hp : (t.proc p).state ≠ .Dead) (s : Status)
    (hs : s ∈ [Status.Dead, .Broken, .Mended, .Moribund]) (hstate : e.state = s)
    (hparent : e.parent = (t.proc p).parent) (hpid : e.pid ≤ (t.proc p).pid)
    (hparentpid : e.parentpid = (t.proc p).parentpid) (hkp : e.kp = (t.proc p).kp) :
    Inv (t.setProc p e) :=
  h.setProc (h.lt p hp) (fun hd => absurd hd hp) hparent
    ((h.sound p).ended s hs hstate hpid hparentpid fun he => hparent ▸ (h.sound p).kp (hkp ▸ he))

theorem inv_sysrfork (h : Inv t) {up : ℕ} {nowait : Bool} (hup : (t.proc up).state = .Running)
    (ht : sysrfork t up nowait = some t') : Inv t' := by
  obtain ⟨u, c, hm, hne, hv, rfl⟩ := sysrfork_spec h hup ht
  have hl := living_of_running hup
  have hle : (if nowait then 0 else (t.proc up).pid) ≤ t.pidalloc := by
    split
    · exact Nat.zero_le _
    · exact (h.sound up).pid_le
  have hparent : ∀ q ∈ some up, q < t.nproc := by
    rintro q ⟨⟩
    exact h.lt up (ne_dead_of_living hl)
  have hmade := h.made hm (t.proc up).text false hle hparent nofun
  cases nowait with
  | true => exact hmade
  | false =>
    have hs := hmade.sound up
    rw [hv] at hs
    refine hmade.living ?_ ?_ (hs.running hl hup rfl rfl hs.kp rfl)
    · rw [hv]
      exact hl
    · rw [hv]

theorem inv_kproc (h : Inv t) {name : String} (ht : kproc t name = some t') : Inv t' := by
  obtain ⟨u, c, hm, rfl⟩ := kproc_spec h ht
  exact h.made hm name true (h.sound c).parentpid_le nofun fun _ => rfl

theorem inv_collect (h : Inv t) {up : ℕ} (hup : Living (t.proc up))
    (ht : collect t up = some t') : Inv t' := by
  obtain ⟨wq, waitq, hw, rfl⟩ := collect_spec ht
  refine Inv.result ?_ _ _
  refine h.living hup rfl ((h.sound up).running hup rfl rfl rfl (h.sound up).kp ?_)
  rw [hw, List.length_cons]
  push_cast
  omega

theorem inv_pexit (h : Inv t) {up : ℕ} {exitstr : String} {utime stime treal : ℕ}
    (hup : Living (t.proc up)) (ht : pexit t up exitstr utime stime treal = some t') : Inv t' := by
  have h₁ : Inv (t.setProc up { t.proc up with state := .Exiting }) :=
    h.living hup rfl ((h.sound up).exiting hup)
  rcases pexit_spec ht with ⟨rfl, -⟩ | ⟨p, -, hp, -, -, -, rfl⟩
  · exact h₁
  · refine h₁.setProc (h.parent up p hp) (fun hdead => ?_) rfl ((h₁.sound p).leave _ _ _)
    change wakeup _ = _
    rw [hdead]
    rfl

theorem inv_schedinit (h : Inv t) {up : ℕ} (hup : (t.proc up).state = .Moribund) :
    Inv (schedinit t up) := by
  have hdead : (t.proc up).state ≠ .Dead := by
    rw [hup]
    decide
  have h₁ : Inv (t.setProc up { t.proc up with state := .Dead }) :=
    h.ended hdead .Dead (by decide) rfl rfl le_rfl rfl rfl
  refine ⟨h₁.sound, h₁.lt, h₁.parent, fun c hc => ?_, List.nodup_cons.mpr ⟨?_, h.nodup⟩, h.pidalloc⟩
  · rcases List.mem_cons.mp hc with rfl | hc
    · exact ⟨h.lt c hdead, congrArg Proc.state (proc_setProc_self t c _)⟩
    · exact h₁.free c hc
  · intro hmem
    exact hdead (h.free up hmem).2

/-- A step keeps the invariant. -/
theorem inv_exec (h : Inv t) {op : Op} (ht : exec t op = some t') : Inv t' := by
  obtain ⟨hable, ht⟩ := perform_of_exec ht
  cases op with
  | sysrfork up nowait => exact inv_sysrfork h hable ht
  | kproc name => exact inv_kproc h ht
  | pwait up =>
    obtain rfl := Option.some.inj ht
    have hl := living_of_running hable
    rw [pwait]
    split
    · exact h.result _ _
    · split
      · exact h.result _ _
      · rename_i hw
        exact h.living hl rfl ((h.sound up).checked_of hl (Decidable.not_and_iff_or_not.mp hw))
  | sleep up =>
    obtain rfl := Option.some.inj ht
    exact h.living (living_of_waiting (List.mem_cons.mpr (.inl hable))) rfl
      ((h.sound up).slept hable)
  | interrupt up =>
    obtain rfl := Option.some.inj ht
    have hl := living_of_waiting hable
    refine Inv.result ?_ _ _
    exact h.living hl rfl ((h.sound up).running hl rfl rfl rfl (h.sound up).kp rfl)
  | collect up =>
    refine inv_collect h (living_of_waiting ?_) ht
    rw [show (t.proc up).state = .Awake from hable]
    decide
  | pexit up exitstr utime stime treal => exact inv_pexit h (living_of_running hable) ht
  | addbroken up =>
    obtain rfl := Option.some.inj ht
    refine h.ended ?_ .Broken (by decide) rfl rfl le_rfl rfl rfl
    rw [show (t.proc up).state = .Exiting from hable]
    decide
  | unbreak p =>
    obtain rfl := Option.some.inj ht
    refine h.ended ?_ .Mended (by decide) rfl rfl le_rfl rfl rfl
    rw [show (t.proc p).state = .Broken from hable]
    decide
  | bury up =>
    obtain rfl := Option.some.inj ht
    refine h.ended ?_ .Moribund (by decide) rfl rfl (Nat.zero_le _) rfl rfl
    intro hd
    rw [Able, hd] at hable
    exact absurd hable (by decide)
  | schedinit up =>
    obtain rfl := Option.some.inj ht
    exact inv_schedinit h hable

/-- A step gives no ticket twice. -/
theorem ticketed_exec (h : Inv t) (hk : Ticketed t) {op : Op} (ht : exec t op = some t') :
    Ticketed t' := by
  obtain ⟨hable, ht⟩ := perform_of_exec ht
  have hlt {up : ℕ} (hl : Living (t.proc up)) : up < t.nproc := h.lt up (ne_dead_of_living hl)
  have hgone {up : ℕ} {e : Proc} (hup : (t.proc up).state ≠ .Dead) (s : Status)
      (hs : s ∈ [Status.Dead, .Broken, .Mended, .Moribund]) (hstate : e.state = s)
      (hw : e.waitq = (t.proc up).waitq ∨ e.waitq = []) : Ticketed (t.setProc up e) := by
    refine hk.setProc (h.lt up hup) fun k => ?_
    have hnl : ¬ Living e := fun hl => not_alive_of_mem hs hstate (.inl hl)
    rcases hw with hw | hw
    · exact ticket_le hw (fun hl => absurd hl hnl) (fun hl => absurd hl hnl) k
    · unfold ticket
      rw [hw, if_neg fun hc => hnl hc.1]
      exact Nat.zero_le _
  cases op with
  | sysrfork up nowait =>
    obtain ⟨u, c, hm, hne, hv, rfl⟩ := sysrfork_spec h hable ht
    have hmade := hk.made hm (t.proc up).text false (some up)
      (if nowait then 0 else (t.proc up).pid)
    cases nowait with
    | true => exact hmade
    | false =>
      refine hmade.setProc ?_ fun k => ?_
      · exact hm.nproc ▸ hlt (living_of_running hable)
      · rw [hv]
        exact ticket_le rfl id (fun _ => rfl) k
  | kproc name =>
    obtain ⟨u, c, hm, rfl⟩ := kproc_spec h ht
    exact hk.made hm _ _ _ _
  | pwait up =>
    obtain rfl := Option.some.inj ht
    have hl := living_of_running hable
    rw [pwait]
    split
    · exact hk.error _ _
    · split
      · exact hk.error _ _
      · exact hk.setProc (hlt hl) (ticket_le rfl (fun _ => hl) fun _ => rfl)
  | sleep up =>
    obtain rfl := Option.some.inj ht
    have hl := living_of_waiting (List.mem_cons.mpr (.inl hable))
    exact hk.setProc (hlt hl) (ticket_le rfl (fun _ => hl) fun _ => rfl)
  | interrupt up =>
    obtain rfl := Option.some.inj ht
    have hl := living_of_waiting hable
    refine Ticketed.error ?_ _ _
    exact hk.setProc (hlt hl) (ticket_le rfl (fun _ => hl) fun _ => rfl)
  | collect up =>
    have hl : Living (t.proc up) := by
      refine living_of_waiting ?_
      rw [show (t.proc up).state = .Awake from hable]
      decide
    obtain ⟨wq, waitq, hw, rfl⟩ := collect_spec ht
    set e : Proc := { t.proc up with
      waitq := waitq, nwait := (t.proc up).nwait - 1, qwaitr := false, state := .Running } with he
    -- the ticket of the record goes to the result
    have hmove (k : ℕ) : tickets ((t.setProc up e).result up (.ok wq)) k = tickets t k := by
      have hset := tickets_setProc (hlt hl) e k
      have hold : ticket k (t.proc up) = ticket k e + if wq.pid = k then 1 else 0 := by
        have hle : Living e := living_of_running rfl
        unfold ticket
        rw [hw, List.map_cons, List.count_cons]
        simp only [hl, hle, true_and, beq_iff_eq]
        change _ = (waitq.map _).count k + (if (t.proc up).pid = k then 1 else 0) + _
        omega
      rw [tickets_result]
      simp only [Except.toOption, Option.map_some, Option.some.injEq]
      omega
    exact ⟨fun k => hmove k ▸ hk.le_one k, fun k hk' => hmove k ▸ hk.fresh k hk'⟩
  | pexit up exitstr utime stime treal =>
    have hl := living_of_running hable
    set e : Proc := { t.proc up with state := .Exiting } with he
    rcases pexit_spec ht with ⟨rfl, -⟩ | ⟨p, -, hp, -, -, -, rfl⟩
    · have hnl : ¬ Living e := not_living_of_exiting rfl
      exact hk.setProc (hlt hl) (ticket_le rfl (fun h => absurd h hnl) fun _ => rfl)
    · set t₁ := t.setProc up e with ht₁
      set wq := waitrec (t.proc up) exitstr utime stime treal with hwq
      -- the ticket of the process goes to its record
      have hmove (k : ℕ) :
          tickets (t₁.setProc p (leave (t₁.proc p) wq utime stime)) k = tickets t k := by
        have h₁ : tickets t₁ k + ticket k (t.proc up) = tickets t k + ticket k e :=
          tickets_setProc (hlt hl) e k
        have h₂ := tickets_setProc (t := t₁) (h.parent up p hp) (leave (t₁.proc p) wq utime stime) k
        have hold : ticket k (t.proc up) = ticket k e + if (t.proc up).pid = k then 1 else 0 := by
          have hnl : ¬ Living e := not_living_of_exiting rfl
          unfold ticket
          simp only [hl, hnl, true_and, false_and, if_false]
          rfl
        have hnew : ticket k (leave (t₁.proc p) wq utime stime) =
            ticket k (t₁.proc p) + if (t.proc up).pid = k then 1 else 0 := by
          have hpid : wq.pid = (t.proc up).pid := rfl
          unfold ticket
          simp only [living_leave]
          change (List.map _ (wq :: (t₁.proc p).waitq)).count k + _ = _
          rw [List.map_cons, List.count_cons, hpid]
          simp only [beq_iff_eq]
          change _ + (if Living (t₁.proc p) ∧ (t₁.proc p).pid = k then 1 else 0) = _
          omega
        omega
      exact ⟨fun k => hmove k ▸ hk.le_one k, fun k hk' => hmove k ▸ hk.fresh k hk'⟩
  | addbroken up =>
    obtain rfl := Option.some.inj ht
    refine hgone ?_ .Broken (by decide) rfl (.inl rfl)
    rw [show (t.proc up).state = .Exiting from hable]
    decide
  | unbreak p =>
    obtain rfl := Option.some.inj ht
    refine hgone ?_ .Mended (by decide) rfl (.inl rfl)
    rw [show (t.proc p).state = .Broken from hable]
    decide
  | bury up =>
    obtain rfl := Option.some.inj ht
    refine hgone ?_ .Moribund (by decide) rfl (.inr rfl)
    intro hd
    rw [Able, hd] at hable
    exact absurd hable (by decide)
  | schedinit up =>
    obtain rfl := Option.some.inj ht
    have hdead : (t.proc up).state ≠ .Dead := by
      rw [show (t.proc up).state = .Moribund from hable]
      decide
    have h₁ : Ticketed (t.setProc up { t.proc up with state := .Dead }) :=
      hgone hdead .Dead (by decide) rfl (.inl rfl)
    exact ⟨h₁.le_one, h₁.fresh⟩

/-- What a process that is made counts for. -/
theorem tally_made (hm : Made t t' c) (text : String) (kp : Bool) (parent : Option ℕ)
    (parentpid p k : ℕ) :
    let v := t'.setProc c (child (t.proc c) (t.pidalloc + 1) parent parentpid text kp)
    tally v.nproc (reports p k) v.proc = tally t.nproc (reports p k) t.proc +
      if parent = some p ∧ parentpid = k then 1 else 0 := by
  intro v
  have hproc : v.proc = Function.update t.proc c
      (child (t.proc c) (t.pidalloc + 1) parent parentpid text kp) := by
    change Function.update t'.proc c _ = _
    rw [hm.proc, Function.update_idem]
  have hup := tally_update (reports p k) t.proc hm.lt
    (child (t.proc c) (t.pidalloc + 1) parent parentpid text kp)
  have hold : reports p k (t.proc c) = 0 := by
    unfold reports Reports
    exact if_neg fun h => ne_dead_of_living h.1 hm.dead
  have hnew : reports p k (child (t.proc c) (t.pidalloc + 1) parent parentpid text kp) =
      if parent = some p ∧ parentpid = k then 1 else 0 := by
    have hl : Living (child (t.proc c) (t.pidalloc + 1) parent parentpid text kp) :=
      living_of_running rfl
    unfold reports Reports
    simp only [hl, true_and]
    rfl
  change tally t'.nproc _ v.proc = _
  rw [hproc, hm.nproc]
  omega

/-- No child counts for a process that is made. -/
theorem tally_fresh (hv : Inv t) (hpid : t.pidalloc ≤ (t.proc c).pid) :
    tally t.nproc (reports c (t.proc c).pid) t.proc = 0 := by
  rw [tally_eq_zero_iff]
  intro i _
  unfold reports Reports
  refine if_neg fun h => ?_
  have := (hv.sound i).parentpid_lt h.1
  have := (hv.sound i).pid_le
  omega

/-- A process is made, and counted by its parent. -/
theorem counted_made (hc : Counted t) (hm : Made t t' c) (text : String) (kp : Bool)
    (parent : Option ℕ) (parentpid : ℕ) :
    let v := t'.setProc c (child (t.proc c) (t.pidalloc + 1) parent parentpid text kp)
    Inv v → ∀ p, Alive (v.proc p) → tally v.nproc (reports p (v.proc p).pid) v.proc =
      (v.proc p).nchild + if parent = some p ∧ parentpid = (v.proc p).pid then 1 else 0 := by
  intro v hv p hp
  by_cases hpc : p = c
  · have hself : v.proc c = child (t.proc c) (t.pidalloc + 1) parent parentpid text kp :=
      proc_setProc_self _ _ _
    have hpid : (v.proc c).pid = t.pidalloc + 1 := by rw [hself]; rfl
    have hle : parentpid < t.pidalloc + 1 := by
      have := (hv.sound c).parentpid_lt (by rw [hself]; exact living_of_running rfl)
      rw [hpid, hself] at this
      exact this
    have hv' : v.pidalloc ≤ (v.proc c).pid := by
      rw [hpid]
      exact hm.pidalloc.le
    rw [hpc, tally_fresh hv hv', if_neg (by omega), hself]
    rfl
  · have hother : v.proc p = t.proc p := by
      rw [proc_setProc_of_ne hpc, hm.proc, Function.update_of_ne hpc]
    rw [hother] at hp ⊢
    rw [tally_made hm text kp parent parentpid, hc p hp]
    push_cast
    rfl

theorem counted_sysrfork (h : Inv t) (hc : Counted t) {up : ℕ} {nowait : Bool}
    (hup : (t.proc up).state = .Running) (ht : sysrfork t up nowait = some t') : Counted t' := by
  have hinv := inv_sysrfork h hup ht
  obtain ⟨u, c, hm, hne, hv, rfl⟩ := sysrfork_spec h hup ht
  have hl := living_of_running hup
  have hpos := (h.sound up).pid_pos (.inl hl)
  generalize hpp : (if nowait then 0 else (t.proc up).pid) = pp at *
  set v := u.setProc c (child (t.proc c) (t.pidalloc + 1) (some up) pp (t.proc up).text false)
    with hvdef
  have hmade : Inv v → ∀ p, Alive (v.proc p) → tally v.nproc (reports p (v.proc p).pid) v.proc =
      (v.proc p).nchild + if some up = some p ∧ pp = (v.proc p).pid then 1 else 0 :=
    counted_made hc hm _ _ _ _
  cases nowait with
  | true =>
    intro p hp
    rw [if_pos rfl] at hp hpp hinv ⊢
    have := hmade hinv p hp
    have hpid := (hinv.sound p).pid_pos hp
    rw [if_neg fun h => hpid.ne (hpp.trans h.2)] at this
    exact (this.trans (add_zero _)).symm
  | false =>
    intro p hp
    rw [if_neg Bool.false_ne_true] at hp hpp hinv ⊢
    set w := v.setProc up { t.proc up with nchild := (t.proc up).nchild + 1 } with hw
    have hvinv : Inv v := by
      refine h.made hm _ _ (hpp ▸ (h.sound up).pid_le) ?_ nofun
      rintro q ⟨⟩
      exact h.lt up (ne_dead_of_living hl)
    have hmade := hmade hvinv
    have htally (q k : ℕ) : tally w.nproc (reports q k) w.proc =
        tally v.nproc (reports q k) v.proc := by
      refine tally_update_of_eq ?_ (reports_congr ?_ ?_ ?_ q k)
      · exact hvinv.lt up (by rw [hv]; exact ne_dead_of_living hl)
      all_goals rw [hv]
      exact Iff.rfl
    rw [htally]
    by_cases hpu : p = up
    · have hself : w.proc up = { t.proc up with nchild := (t.proc up).nchild + 1 } :=
        proc_setProc_self _ _ _
      have := hmade up (by rw [hv]; exact .inl hl)
      rw [hpu, hself]
      change _ = (tally v.nproc (reports up (t.proc up).pid) v.proc : ℤ)
      rw [hv, if_pos ⟨rfl, hpp.symm⟩] at this
      exact this.symm
    · have hother : w.proc p = v.proc p := proc_setProc_of_ne hpu
      rw [hother] at hp ⊢
      have := hmade p hp
      rw [if_neg fun h => hpu (Option.some.inj h.1).symm] at this
      exact (this.trans (add_zero _)).symm

/-- A process that exits keeps the number of children, just when its parent has room. -/
theorem counted_pexit (h : Inv t) (hc : Counted t) {up : ℕ} {exitstr : String}
    {utime stime treal : ℕ} (hl : Living (t.proc up))
    (ht : pexit t up exitstr utime stime treal = some t') :
    Counted t' ↔ Room t (.pexit up exitstr utime stime treal) := by
  set e : Proc := { t.proc up with state := .Exiting } with he
  set t₁ := t.setProc up e with ht₁
  have hlt := h.lt up (ne_dead_of_living hl)
  -- the children of a process, but for the one that exits
  have htally (p k : ℕ) : tally t.nproc (reports p k) t₁.proc + reports p k (t.proc up) =
      tally t.nproc (reports p k) t.proc := by
    have := tally_update (reports p k) t.proc hlt e
    have hnew : reports p k e = 0 := if_neg fun h => not_living_of_exiting rfl h.1
    change tally t.nproc (reports p k) (Function.update t.proc up e) + _ = _
    omega
  have hreports (p k : ℕ) : reports p k (t.proc up) =
      if (t.proc up).parent = some p ∧ (t.proc up).parentpid = k then 1 else 0 := by
    unfold reports Reports
    simp only [hl, true_and]
  have hself : t₁.proc up = e := proc_setProc_self _ _ _
  have hsame (p : ℕ) : (t₁.proc p).pid = (t.proc p).pid ∧
      (t₁.proc p).nchild = (t.proc p).nchild ∧ (Alive (t₁.proc p) → Alive (t.proc p)) := by
    by_cases hp : p = up
    · rw [hp, hself]
      exact ⟨rfl, rfl, fun _ => .inl hl⟩
    · rw [proc_setProc_of_ne hp]
      exact ⟨rfl, rfl, id⟩
  -- what the counter of a process is, before a record is left
  have hcount {p : ℕ} (hp : Alive (t₁.proc p)) : (t₁.proc p).nchild =
      tally t.nproc (reports p (t₁.proc p).pid) t₁.proc +
        if (t.proc up).parent = some p ∧ (t.proc up).parentpid = (t₁.proc p).pid then 1 else 0 := by
    have := htally p (t₁.proc p).pid
    rw [hreports] at this
    rw [(hsame p).2.1, hc p ((hsame p).2.2 hp), ← (hsame p).1, ← this]
    push_cast
    rfl
  rcases pexit_spec ht with ⟨rfl, hno⟩ | ⟨p, hkp, hp, hpid, hbroken, hroom, rfl⟩
  · constructor
    · intro hct hkp p hp hpid ha
      have hne : p ≠ up := h.parent_ne hl (by rw [(hsame p).1]; exact hpid)
      have hpe : t₁.proc p = t.proc p := proc_setProc_of_ne hne
      have h1 := hct p (by rw [← ht₁, hpe]; exact ha)
      have h2 := hcount (p := p) (by rw [hpe]; exact ha)
      rw [hpe, if_pos ⟨hp, hpid.symm⟩] at h2
      rw [← ht₁, hpe] at h1
      have : t₁.nproc = t.nproc := rfl
      rw [this] at h1
      omega
    · intro hroom p hp
      have h2 := hcount hp
      have hnot : ¬ ((t.proc up).parent = some p ∧ (t.proc up).parentpid = (t₁.proc p).pid) := by
        rintro ⟨hpar, hpid⟩
        have hkp : (t.proc up).kp = false := by
          by_contra hkp
          rw [(h.sound up).kp (by simpa using hkp)] at hpar
          cases hpar
        have hne : p ≠ up := h.parent_ne hl hpid.symm
        have hpe : t₁.proc p = t.proc p := proc_setProc_of_ne hne
        refine hno hkp p hpar ⟨hpid.symm, fun hb => ?_, ?_⟩
        · exact not_alive_of_mem (by decide) hb hp
        · rw [← ht₁, hpe] at hp ⊢
          rw [hpe] at hpid
          exact hroom hkp p hpar hpid.symm hp
      rw [if_neg hnot, add_zero] at h2
      exact h2
  · have hne : p ≠ up := h.parent_ne hl hpid
    have hpe : t₁.proc p = t.proc p := proc_setProc_of_ne hne
    refine iff_of_true (fun q hq => ?_) fun _ p' hp' _ _ => ?_
    · set t₂ := t₁.setProc p (leave (t₁.proc p) (waitrec (t.proc up) exitstr utime stime treal)
        utime stime) with ht₂
      have htally₂ (k : ℕ) : tally t₂.nproc (reports q k) t₂.proc =
          tally t.nproc (reports q k) t₁.proc :=
        tally_update_of_eq (h.parent up p hp) (reports_congr living_leave rfl rfl q k)
      rw [htally₂]
      by_cases hqp : q = p
      · have hq₂ : t₂.proc p = leave (t₁.proc p) (waitrec (t.proc up) exitstr utime stime treal)
            utime stime := proc_setProc_self _ _ _
        rw [hqp, hq₂, alive_leave] at hq
        have h2 := hcount hq
        rw [if_pos ⟨hp, hpid.symm⟩] at h2
        rw [hqp, hq₂]
        change (t₁.proc p).nchild - 1 = (tally t.nproc (reports p (t₁.proc p).pid) t₁.proc : ℤ)
        omega
      · have hq₂ : t₂.proc q = t₁.proc q := proc_setProc_of_ne hqp
        rw [hq₂] at hq ⊢
        have h2 := hcount hq
        rw [if_neg fun h => hqp (Option.some.inj (h.1.symm.trans hp)), add_zero] at h2
        exact h2
    · obtain rfl := Option.some.inj (hp.symm.trans hp')
      rw [← hpe]
      exact hroom

/-- A step keeps the number of children, just when there is room. -/
theorem counted_iff (h : Inv t) (hc : Counted t) {op : Op} (ht : exec t op = some t') :
    Counted t' ↔ Room t op := by
  obtain ⟨hable, ht⟩ := perform_of_exec ht
  have hlt {up : ℕ} (hl : Living (t.proc up)) : up < t.nproc := h.lt up (ne_dead_of_living hl)
  have hgone {up : ℕ} {e : Proc} (hup : (t.proc up).state ≠ .Dead) (hl : ¬ Living (t.proc up))
      (s : Status) (hs : s ∈ [Status.Dead, .Broken, .Mended, .Moribund]) (hstate : e.state = s)
      (hnchild : e.nchild = (t.proc up).nchild) (hparent : e.parent = (t.proc up).parent)
      (hparentpid : e.parentpid = (t.proc up).parentpid) : Counted (t.setProc up e) := by
    have hna : ¬ Alive e := not_alive_of_mem hs hstate
    exact hc.setProc (h.lt up hup) (iff_of_false (fun hl => hna (.inl hl)) hl)
      (fun ha => absurd ha hna) (fun ha => absurd ha hna) hnchild hparent hparentpid
  cases op with
  | pexit up exitstr utime stime treal =>
    exact counted_pexit h hc (living_of_running hable) ht
  | sysrfork up nowait => exact iff_of_true (counted_sysrfork h hc hable ht) trivial
  | kproc name =>
    refine iff_of_true ?_ trivial
    have hinv := inv_kproc h ht
    obtain ⟨u, c, hm, rfl⟩ := kproc_spec h ht
    intro p hp
    have := counted_made hc hm name true none (t.proc c).parentpid hinv p hp
    rw [if_neg fun h => nomatch h.1] at this
    exact (this.trans (add_zero _)).symm
  | pwait up =>
    refine iff_of_true ?_ trivial
    obtain rfl := Option.some.inj ht
    have hl := living_of_running hable
    rw [pwait]
    split
    · exact hc
    · split
      · exact hc
      · have hl' : Living { t.proc up with qwaitr := true, state := Status.Checked } :=
          living_of_waiting List.mem_cons_self
        exact hc.setProc (hlt hl) (iff_of_true hl' hl) (fun _ => .inl hl) (fun _ => rfl) rfl rfl rfl
  | sleep up =>
    refine iff_of_true ?_ trivial
    obtain rfl := Option.some.inj ht
    have hl := living_of_waiting (List.mem_cons.mpr (.inl hable))
    have hl' : Living { t.proc up with
        state := if haswaitq (t.proc up) then Status.Awake else .Wakeme } := by
      refine living_of_waiting ?_
      dsimp only
      split <;> decide
    exact hc.setProc (hlt hl) (iff_of_true hl' hl) (fun _ => .inl hl) (fun _ => rfl) rfl rfl rfl
  | interrupt up =>
    refine iff_of_true ?_ trivial
    obtain rfl := Option.some.inj ht
    have hl := living_of_waiting hable
    have hl' : Living { t.proc up with qwaitr := false, state := Status.Running } :=
      living_of_running rfl
    exact hc.setProc (hlt hl) (iff_of_true hl' hl) (fun _ => .inl hl) (fun _ => rfl) rfl rfl rfl
  | collect up =>
    refine iff_of_true ?_ trivial
    have hl : Living (t.proc up) := by
      refine living_of_waiting ?_
      rw [show (t.proc up).state = .Awake from hable]
      decide
    obtain ⟨wq, waitq, hw, rfl⟩ := collect_spec ht
    have hl' : Living { t.proc up with
        waitq := waitq, nwait := (t.proc up).nwait - 1, qwaitr := false,
        state := Status.Running } := living_of_running rfl
    exact hc.setProc (hlt hl) (iff_of_true hl' hl) (fun _ => .inl hl) (fun _ => rfl) rfl rfl rfl
  | addbroken up =>
    refine iff_of_true ?_ trivial
    obtain rfl := Option.some.inj ht
    have hs : (t.proc up).state = .Exiting := hable
    exact hgone (by rw [hs]; decide) (not_living_of_exiting hs) .Broken (by decide) rfl rfl rfl rfl
  | unbreak p =>
    refine iff_of_true ?_ trivial
    obtain rfl := Option.some.inj ht
    have hs : (t.proc p).state = .Broken := hable
    exact hgone (by rw [hs]; decide) (fun hl => not_alive_of_mem (by decide) hs (.inl hl)) .Mended
      (by decide) rfl rfl rfl rfl
  | bury up =>
    refine iff_of_true ?_ trivial
    obtain rfl := Option.some.inj ht
    have hs : (t.proc up).state = .Exiting ∨ (t.proc up).state = .Mended := by
      simpa [Able] using hable
    refine hgone ?_ ?_ .Moribund (by decide) rfl rfl rfl rfl
    · rcases hs with hs | hs <;> rw [hs] <;> decide
    · rcases hs with hs | hs
      · exact not_living_of_exiting hs
      · exact fun hl => not_alive_of_mem (by decide) hs (.inl hl)
  | schedinit up =>
    refine iff_of_true ?_ trivial
    obtain rfl := Option.some.inj ht
    have hs : (t.proc up).state = .Moribund := hable
    exact hgone (by rw [hs]; decide) (fun hl => not_alive_of_mem (by decide) hs (.inl hl)) .Dead
      (by decide) rfl rfl rfl rfl

/-! ### Runs -/

theorem accounted_iff_counted (h : Inv t) (hk : Ticketed t) : Accounted t ↔ Counted t := by
  refine ⟨Accounted.nchild, fun hc => ⟨fun p => (h.sound p).nwait, hc, nodup_returned hk, ?_,
    fun p => (h.sound p).awake⟩⟩
  intro p hp
  have hl : Living (t.proc p) := by
    refine living_of_waiting ?_
    rw [hp]
    decide
  have hpos : 0 < tally t.nproc (reports p (t.proc p).pid) t.proc := by
    have := (h.sound p).asleep hp
    rw [hc p (.inl hl)] at this
    omega
  obtain ⟨c, hlt, hpos⟩ := tally_pos_iff.mp hpos
  refine ⟨c, hlt, ?_⟩
  by_contra hno
  rw [reports, if_neg hno] at hpos
  exact absurd hpos (lt_irrefl 0)

theorem proc_boot (n p : ℕ) : (boot n).proc p =
    if p = 0 then { state := .Running, pid := 1, text := "*init*" } else {} := by
  simp only [boot, Function.update_apply]

theorem inv_boot (n : ℕ) : Inv (boot n) where
  sound p := by
    rw [proc_boot]
    split
    · exact ⟨le_rfl, Nat.zero_le _, nofun, fun _ => Nat.one_pos, fun _ => Nat.one_pos,
        fun _ => rfl, nofun, nofun, nofun⟩
    · have hna : ¬ Alive {} := not_alive_of_dead rfl
      exact ⟨Nat.zero_le _, Nat.zero_le _, nofun, fun ha => absurd ha hna,
        fun hl => absurd (.inl hl) hna, fun ha => absurd ha hna, nofun, nofun, nofun⟩
  lt p hp := by
    rw [proc_boot] at hp
    split at hp
    · rename_i h0
      exact h0 ▸ Nat.succ_pos n
    · exact absurd rfl hp
  parent p q hq := by
    rw [proc_boot] at hq
    split at hq <;> cases hq
  free c hc := by
    obtain ⟨h1, h2⟩ := List.mem_range'_1.mp hc
    rw [proc_boot, if_neg (by omega)]
    exact ⟨(by omega : c < n + 1), rfl⟩
  nodup := List.nodup_range'
  pidalloc := (by decide : 1 < 4294967296)

theorem ticketed_boot (n : ℕ) : Ticketed (boot n) := by
  have htickets (k : ℕ) : tickets (boot n) k = if k = 1 then 1 else 0 := by
    have hup := tally_update (n := n + 1) (ticket k) (fun _ => {}) (Nat.succ_pos n)
      { state := .Running, pid := 1, text := "*init*" }
    have hdead : ticket k {} = 0 := by
      rw [ticket, if_neg fun h => not_alive_of_dead rfl (.inl h.1)]
      rfl
    have hzero : tally (n + 1) (ticket k) (fun _ => {}) = 0 :=
      tally_eq_zero_iff.mpr fun _ _ => hdead
    have hone : ticket k { state := .Running, pid := 1, text := "*init*" } =
        if k = 1 then 1 else 0 := by
      have hl : Living { state := .Running, pid := 1, text := "*init*" } := living_of_running rfl
      rw [ticket]
      simp only [hl, true_and, eq_comm (a := k)]
      exact Nat.zero_add _
    change 0 + tally (n + 1) (ticket k) (Function.update (fun _ => {}) 0
      { state := .Running, pid := 1, text := "*init*" }) = _
    omega
  constructor
  · intro k
    rw [htickets]
    split <;> omega
  · intro k hk
    rw [htickets, if_neg]
    exact (show 1 < k from hk).ne'

theorem counted_boot (n : ℕ) : Counted (boot n) := by
  intro p hp
  have hzero : tally (boot n).nproc (reports p ((boot n).proc p).pid) (boot n).proc = 0 := by
    rw [tally_eq_zero_iff]
    intro i _
    refine if_neg fun h => ?_
    have hparent := h.2.1
    rw [proc_boot] at hparent
    split at hparent <;> cases hparent
  rw [hzero, proc_boot]
  split <;> rfl

/-- The first process forks 129 children, one after the other, and each exits unread. It reads the
128 records there are, and goes to sleep. -/
def forgotten : List Op :=
  (List.replicate 129
    [.sysrfork 0 false, .pexit 1 "" 0 0 0, .bury 1, .schedinit 1]).flatten ++
  (List.replicate 128 [.pwait 0, .sleep 0, .collect 0]).flatten ++ [.pwait 0, .sleep 0]

end PlanNine.Wait
