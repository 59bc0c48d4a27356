import PlanNine.Lib.Run
import Mathlib.Tactic

/-!
# Sleep, wakeup and notes

A process sleeps on a rendezvous until a condition on the world holds; whoever makes it hold calls
`wakeup`. A note wakes the process as well. What `proc.c` does under the locks of the rendezvous and
of the process is one step. A call of `postnote` is in parts: the note is stored, the process is
woken when it sleeps, and is pulled out of a rendezvous of the other kind. The second part is tried
again when the lock of the rendezvous cannot be taken.

The condition a process sleeps for, how often it was made ready since it went to sleep, and the
worlds since the last `wakeup` of each rendezvous are recorded.

## Main definitions

* `Proc`, `State`: a process, and the state of all.
* `sleep`, `wakeup`, `post`, `interrupt`, `pull`: the parts of the routines.
* `exec`: the steps; there is none from a panic.
* `Safe`: what holds in every state.

## Main results

* `inv_exec`: a step that can be done does not panic, and keeps the invariant.
* `sleepers_safe_of_run`: every state reached is safe.
-/

namespace PlanNine.Sleep

/-- The states of a process; one that does anything else is `Running`. -/
inductive Status where
  | Running | Ready | Wakeme | Rendezvous
  deriving DecidableEq

/-- Where a process is in `sleep`. -/
inductive Pc where
  /-- In no call of `sleep`. -/
  | out
  /-- It went to sleep, and has not come to the end of the call. -/
  | slept
  /-- It did not go to sleep, and has not come to the end of the call. -/
  | spared
  deriving DecidableEq

inductive Flag where
  | NUser | NExit | NDebug
  deriving DecidableEq

def NNOTE : ℕ := 5

structure Proc (α : Type) where
  state : Status := .Running
  /-- The rendezvous that the process sleeps on. -/
  r : Option ℕ := none
  notepending : Bool := false
  note : List (String × Flag) := []
  notify : Bool := false
  notified : Bool := false
  pc : Pc := .out
  /-- The condition of the last call of `sleep`. -/
  cond : α → Bool := fun _ => false
  /-- How often the process was made ready since it went to sleep. -/
  readied : ℕ := 0

structure State (α : Type) where
  /-- The process that sleeps on a rendezvous. -/
  p : ℕ → Option ℕ := fun _ => none
  proc : ℕ → Proc α := fun _ => {}
  world : α
  /-- The worlds since the last `wakeup` of a rendezvous, the newest first. -/
  since : ℕ → List α
  /-- The processes of the calls of `postnote` that have stored their note. -/
  posting : List ℕ := []
  /-- The processes of the calls of `postnote` that look for a rendezvous of the other kind. -/
  pulling : List ℕ := []
  /-- A process slept on a rendezvous where another slept already. -/
  doubled : Bool := false

variable {α : Type}

/-- No one sleeps, and no notes are pending. -/
def start (w : α) : State α := { world := w, since := fun _ => [w] }

namespace State

variable (t : State α)

def setProc (p : ℕ) (e : Proc α) : State α := { t with proc := Function.update t.proc p e }

def setP (r : ℕ) (v : Option ℕ) : State α := { t with p := Function.update t.p r v }

def ready (p : ℕ) : State α :=
  t.setProc p { t.proc p with state := .Ready, readied := (t.proc p).readied + 1 }

end State

/-! ### Routines -/

variable (t : State α)

/-- The part of `sleep` under the locks. -/
def sleep (p r : ℕ) (f : α → Bool) : State α :=
  let e := t.proc p
  let t := if t.p r ≠ none then { t with doubled := true } else t
  let t := t.setP r (some p)
  if f t.world ∨ e.notepending then
    (t.setP r none).setProc p { e with pc := .spared, cond := f }
  else t.setProc p { e with state := .Wakeme, r := some r, pc := .slept, cond := f, readied := 0 }

/-- The end of `sleep`, where a note that is pending is raised as an error. -/
def slept (p : ℕ) : State α := t.setProc p { t.proc p with pc := .out, notepending := false }

/-- There is no result from a panic. -/
def wakeup (r : ℕ) : Option (State α) :=
  let t := { t with since := Function.update t.since r [t.world] }
  match t.p r with
  | none => some t
  | some p =>
    let e := t.proc p
    if e.state ≠ .Wakeme ∨ e.r ≠ some r then none
    else some (((t.setP r none).setProc p { e with r := none }).ready p)

/-- A process with one note more, if there is room for it. -/
def Proc.noted (e : Proc α) (n : String) (flag : Flag) : Proc α :=
  let note := if flag ≠ .NUser ∧ (e.notify = false ∨ e.notified) then [] else e.note
  let note := if note.length < NNOTE then note ++ [(n, flag)] else note
  { e with note := note, notepending := true }

/-- The part of `postnote` that stores the note. -/
def post (p : ℕ) (n : String) (flag : Flag) : State α :=
  { t.setProc p ((t.proc p).noted n flag) with posting := p :: t.posting }

/-- The part of `postnote` under the locks; the lock of the rendezvous is only tried. -/
def interrupt (p : ℕ) (can : Bool) : Option (State α) :=
  let e := t.proc p
  let next := { t with posting := t.posting.erase p, pulling := p :: t.pulling }
  match e.r with
  | none => some next
  | some r =>
    if can then
      if e.state ≠ .Wakeme ∨ t.p r ≠ some p then none
      else some (((next.setProc p { e with r := none }).setP r none).ready p)
    else some t

/-- The end of `postnote`: the process is pulled out of a rendezvous of the other kind. -/
def pull (p : ℕ) : State α :=
  let t := { t with pulling := t.pulling.erase p }
  if (t.proc p).state = .Rendezvous then t.ready p else t

/-! ### Steps -/

inductive Op (α : Type) where
  | sleep (p r : ℕ) (f : α → Bool)
  | slept (p : ℕ)
  | wakeup (r : ℕ)
  | post (p : ℕ) (n : String) (flag : Flag)
  | interrupt (p : ℕ) (can : Bool)
  | pull (p : ℕ)
  /-- A process that is ready runs. -/
  | run (p : ℕ)
  /-- A process waits for another one in a rendezvous of the other kind. -/
  | rendezvous (p : ℕ)
  /-- The other one comes. -/
  | meet (p : ℕ)
  /-- The world changes. -/
  | become (w : α)
  /-- What a process does when it is sent a note, and the notes that are left. -/
  | handle (p : ℕ) (notify notified : Bool) (note : List (String × Flag))

def exec (t : State α) : Op α → Option (State α)
  | .sleep p r f => some (sleep t p r f)
  | .slept p => some (slept t p)
  | .wakeup r => wakeup t r
  | .post p n flag => some (post t p n flag)
  | .interrupt p can => interrupt t p can
  | .pull p => some (pull t p)
  | .run p => some (t.setProc p { t.proc p with state := .Running })
  | .rendezvous p => some (t.setProc p { t.proc p with state := .Rendezvous })
  | .meet p => some (t.ready p)
  | .become w => some { t with world := w, since := fun r => w :: t.since r }
  | .handle p notify notified note =>
    some (t.setProc p { t.proc p with notify := notify, notified := notified, note := note })

/-- What can be done: a process that runs sleeps where no one else does, ends its call of `sleep`,
or goes to a rendezvous of the other kind; and calls of `postnote` go on. -/
def Able (t : State α) : Op α → Prop
  | .sleep p r _ => (t.proc p).state = .Running ∧ (t.proc p).pc = .out ∧
      ∀ p', (t.proc p').r ≠ some r
  | .slept p => (t.proc p).state = .Running ∧ (t.proc p).pc ≠ .out
  | .wakeup _ | .post .. | .become _ => True
  | .interrupt p _ => p ∈ t.posting
  | .pull p => p ∈ t.pulling
  | .run p => (t.proc p).state = .Ready
  | .rendezvous p => (t.proc p).state = .Running ∧ (t.proc p).pc = .out
  | .meet p => (t.proc p).state = .Rendezvous
  | .handle p .. => (t.proc p).state = .Running

def step (t : State α) (op : Op α) (t' : State α) : Prop := exec t op = some t'

/-- The pointers between processes and rendezvous agree, and the process sleeps where they do; no
step that can be done panics, and no process finds another one where it goes to sleep; a process is
made ready once at the most while it is in `sleep`; and one that sleeps does so because its
condition did not hold at some moment since the last `wakeup`. -/
structure Safe (t : State α) : Prop where
  agree : ∀ p r, t.p r = some p ↔ (t.proc p).r = some r
  wakeme : ∀ p r, (t.proc p).r = some r → (t.proc p).state = .Wakeme
  panics : ∀ op, Able t op → exec t op ≠ none
  single : t.doubled = false
  once : ∀ p, (t.proc p).pc = .slept → (t.proc p).readied ≤ 1
  lost : ∀ p r, (t.proc p).r = some r → ∃ w ∈ t.since r, (t.proc p).cond w = false
  noted : ∀ p r, (t.proc p).r = some r → (t.proc p).notepending → p ∈ t.posting

/-! ### The invariant -/

/-- A process that has a rendezvous sleeps there; and while it is in `sleep` it was made ready once
when it does not sleep any more. -/
structure Proc.Good (e : Proc α) : Prop where
  wakeme : e.r ≠ none → e.state = .Wakeme
  slept : e.state = .Wakeme → e.pc = .slept
  once : e.pc = .slept → e.readied = if e.state = .Wakeme then 0 else 1
  out : e.state = .Rendezvous → e.pc = .out

structure Inv (t : State α) : Prop where
  agree : ∀ p r, t.p r = some p ↔ (t.proc p).r = some r
  good : ∀ p, (t.proc p).Good
  single : t.doubled = false
  now : ∀ r, t.world ∈ t.since r
  lost : ∀ p r, (t.proc p).r = some r → ∃ w ∈ t.since r, (t.proc p).cond w = false
  noted : ∀ p r, (t.proc p).r = some r → (t.proc p).notepending → p ∈ t.posting

variable {t : State α} {p r : ℕ} {e : Proc α}

theorem proc_setProc_self (t : State α) (p : ℕ) (e : Proc α) : (t.setProc p e).proc p = e :=
  Function.update_self _ _ _

theorem proc_setProc_of_ne {p' : ℕ} (h : p' ≠ p) : (t.setProc p e).proc p' = t.proc p' :=
  Function.update_of_ne h _ _

theorem setProc_setProc (t : State α) (p : ℕ) (e e' : Proc α) :
    (t.setProc p e).setProc p e' = t.setProc p e' := by
  unfold State.setProc
  rw [Function.update_idem]

theorem ready_setProc (t : State α) (p : ℕ) (e : Proc α) : (t.setProc p e).ready p =
    t.setProc p { e with state := .Ready, readied := e.readied + 1 } := by
  rw [State.ready, proc_setProc_self, setProc_setProc]

/-- A property of all processes, when one is changed. -/
theorem forall_setProc {P : ℕ → Proc α → Prop} (h : ∀ p' ≠ p, P p' (t.proc p')) (he : P p e) :
    ∀ p', P p' ((t.setProc p e).proc p') := by
  intro p'
  by_cases hp : p' = p
  · subst hp
    rw [proc_setProc_self]
    exact he
  · rw [proc_setProc_of_ne hp]
    exact h p' hp

/-- A change of a process that does not sleep. -/
theorem Inv.awake (h : Inv t) (hr : (t.proc p).r = none) (hgood : e.Good) (he : e.r = none) :
    Inv (t.setProc p e) := by
  refine ⟨fun p' r => ?_, forall_setProc (fun p' _ => h.good p') hgood, h.single, h.now, ?_, ?_⟩
  · refine (h.agree p' r).trans ?_
    refine forall_setProc (P := fun p' e => (t.proc p').r = some r ↔ e.r = some r)
      (fun _ _ => Iff.rfl) ?_ p'
    rw [hr, he]
  · exact forall_setProc (P := fun _ e => ∀ r, e.r = some r → ∃ w ∈ t.since r, e.cond w = false)
      (fun p' _ => h.lost p') (by rw [he]; nofun)
  · exact forall_setProc (P := fun p' e => ∀ r, e.r = some r → e.notepending → p' ∈ t.posting)
      (fun p' _ => h.noted p') (by rw [he]; nofun)

/-- A process that sleeps is woken. -/
theorem Inv.wake (h : Inv t) (hr : (t.proc p).r = some r) :
    Inv (((t.setP r none).setProc p { t.proc p with r := none }).ready p) := by
  have hgood := h.good p
  have hwakeme : (t.proc p).state = .Wakeme := hgood.wakeme (by rw [hr]; nofun)
  have honce := hgood.once (hgood.slept hwakeme)
  rw [if_pos hwakeme] at honce
  rw [ready_setProc]
  refine ⟨fun p' r' => ?_, forall_setProc (fun p' _ => h.good p') ?_, h.single, h.now, ?_, ?_⟩
  · have hp' : ∀ v, (t.setP r none).p r' = some v ↔ r' ≠ r ∧ t.p r' = some v := by
      intro v
      dsimp only [State.setP]
      by_cases hr' : r' = r
      · subst hr'
        rw [Function.update_self]
        exact iff_of_false nofun fun hc => hc.1 rfl
      · rw [Function.update_of_ne hr']
        exact (and_iff_right hr').symm
    refine (hp' p').trans ?_
    by_cases hpp : p' = p
    · subst hpp
      rw [proc_setProc_self]
      refine iff_of_false (fun hc => hc.1 ?_) nofun
      exact Option.some.inj (((h.agree p' r').mp hc.2).symm.trans hr)
    · rw [proc_setProc_of_ne hpp]
      refine ⟨fun hc => (h.agree p' r').mp hc.2, fun hs => ⟨?_, (h.agree p' r').mpr hs⟩⟩
      rintro rfl
      have heq := ((h.agree p' r').mpr hs).symm.trans ((h.agree p r').mpr hr)
      exact hpp (Option.some.inj heq)
  · refine ⟨fun hne => absurd rfl hne, nofun, fun _ => ?_, nofun⟩
    dsimp only
    rw [honce]
    rfl
  · exact forall_setProc (P := fun _ e => ∀ r, e.r = some r → ∃ w ∈ t.since r, e.cond w = false)
      (fun p' _ => h.lost p') nofun
  · exact forall_setProc (P := fun p' e => ∀ r, e.r = some r → e.notepending → p' ∈ t.posting)
      (fun p' _ => h.noted p') nofun

/-- A process that does not run sleeps nowhere, if it is not asleep. -/
theorem Inv.r_eq_none (h : Inv t) (hs : (t.proc p).state ≠ .Wakeme) : (t.proc p).r = none := by
  by_contra hne
  exact hs ((h.good p).wakeme hne)

theorem inv_sleep (h : Inv t) {f : α → Bool} (ha : Able t (.sleep p r f)) :
    Inv (sleep t p r f) := by
  obtain ⟨hrun, hout, hsingle⟩ := ha
  have hr : (t.proc p).r = none := h.r_eq_none (by rw [hrun]; nofun)
  have hp : t.p r = none := by
    by_contra hne
    obtain ⟨p', hp'⟩ := Option.ne_none_iff_exists'.mp hne
    exact hsingle p' ((h.agree p' r).mp hp')
  unfold sleep
  dsimp only
  rw [if_neg (not_not.mpr hp)]
  split
  · -- the pointer to the process is taken back
    have hback : (t.setP r (some p)).setP r none = t := by
      have hsame : Function.update t.p r none = t.p := by rw [← hp, Function.update_eq_self]
      unfold State.setP
      dsimp only
      rw [Function.update_idem, hsame]
    rw [hback]
    refine h.awake hr ⟨fun hne => absurd hr hne, fun hs => ?_, nofun, fun hs => ?_⟩ hr
    · cases hrun.symm.trans hs
    · cases hrun.symm.trans hs
  · rename_i hcommit
    obtain ⟨hcond, hnote⟩ := not_or.mp hcommit
    refine ⟨fun p' r' => ?_, forall_setProc (fun p' _ => h.good p') ?_, h.single, h.now, ?_, ?_⟩
    · by_cases hpp : p' = p
      · subst hpp
        rw [proc_setProc_self]
        dsimp only [State.setProc, State.setP]
        by_cases hrr : r' = r
        · subst hrr
          rw [Function.update_self]
          exact iff_of_true rfl rfl
        · rw [Function.update_of_ne hrr]
          refine iff_of_false (fun hc => ?_) fun hc => hrr (Option.some.inj hc).symm
          cases hr.symm.trans ((h.agree p' r').mp hc)
      · rw [proc_setProc_of_ne hpp]
        dsimp only [State.setProc, State.setP]
        by_cases hrr : r' = r
        · subst hrr
          rw [Function.update_self]
          exact iff_of_false (fun hc => hpp (Option.some.inj hc).symm) (hsingle p')
        · rw [Function.update_of_ne hrr]
          exact h.agree p' r'
    · exact ⟨fun _ => rfl, fun _ => rfl, fun _ => rfl, nofun⟩
    · refine forall_setProc (P := fun _ e => ∀ r, e.r = some r → ∃ w ∈ t.since r, e.cond w = false)
        (fun p' _ => h.lost p') fun r' hr' => ?_
      obtain rfl := Option.some.inj hr'
      exact ⟨t.world, h.now r, Bool.not_eq_true _ ▸ hcond⟩
    · refine forall_setProc (P := fun p' e => ∀ r, e.r = some r → e.notepending → p' ∈ t.posting)
        (fun p' _ => h.noted p') fun r' _ hn => ?_
      exact absurd hn hnote

theorem inv_wakeup (h : Inv t) (r : ℕ) : ∃ t', wakeup t r = some t' ∧ Inv t' := by
  have hfresh : ∀ {t' : State α}, Inv t' → (∀ p, (t'.proc p).r ≠ some r) →
      Inv { t' with since := Function.update t'.since r [t'.world] } := by
    intro t' h' hnone
    refine ⟨h'.agree, h'.good, h'.single, fun r' => ?_, fun p r' hr' => ?_, h'.noted⟩
    · dsimp only
      by_cases hrr : r' = r
      · subst hrr
        rw [Function.update_self]
        exact List.mem_singleton_self _
      · rw [Function.update_of_ne hrr]
        exact h'.now r'
    · have hrr : r' ≠ r := fun heq => hnone p (heq ▸ hr')
      dsimp only
      rw [Function.update_of_ne hrr]
      exact h'.lost p r' hr'
  unfold wakeup
  dsimp only
  cases hp : t.p r with
  | none =>
    refine ⟨_, rfl, hfresh h fun p hr => ?_⟩
    cases hp.symm.trans ((h.agree p r).mpr hr)
  | some p =>
    have hr := (h.agree p r).mp hp
    have hwakeme := (h.good p).wakeme (by rw [hr]; nofun)
    have hok : ¬ ((t.proc p).state ≠ .Wakeme ∨ (t.proc p).r ≠ some r) := by
      rw [not_or, not_not, not_not]
      exact ⟨hwakeme, hr⟩
    dsimp only
    rw [if_neg hok]
    refine ⟨_, rfl, hfresh (h.wake hr) fun p' => ?_⟩
    rw [ready_setProc]
    refine forall_setProc (P := fun _ e => e.r ≠ some r) (fun p' hne hr' => hne ?_)
      (Option.some_ne_none r).symm p'
    exact Option.some.inj (((h.agree p' r).mpr hr').symm.trans hp)

/-- The calls of `postnote` matter for those that sleep with a note pending. -/
theorem Inv.posting (h : Inv t) {posting pulling : List ℕ}
    (hposting : ∀ p r, (t.proc p).r = some r → p ∈ t.posting → p ∈ posting) :
    Inv { t with posting := posting, pulling := pulling } :=
  ⟨h.agree, h.good, h.single, h.now, h.lost,
    fun p r hr hn => hposting p r hr (h.noted p r hr hn)⟩

theorem inv_post (h : Inv t) (p : ℕ) (n : String) (flag : Flag) : Inv (post t p n flag) := by
  have hgood := h.good p
  have hr : ((t.proc p).noted n flag).r = (t.proc p).r := rfl
  unfold post
  refine ⟨fun p' r => ?_, forall_setProc (fun p' _ => h.good p')
    ⟨hgood.wakeme, hgood.slept, hgood.once, hgood.out⟩, h.single, h.now, ?_, ?_⟩
  · refine (h.agree p' r).trans ?_
    refine forall_setProc (P := fun p' e => (t.proc p').r = some r ↔ e.r = some r)
      (fun _ _ => Iff.rfl) ?_ p'
    rw [hr]
  · exact forall_setProc (P := fun _ e => ∀ r, e.r = some r → ∃ w ∈ t.since r, e.cond w = false)
      (fun p' _ => h.lost p') (h.lost p)
  · exact forall_setProc
      (P := fun p' e => ∀ r, e.r = some r → e.notepending → p' ∈ p :: t.posting)
      (fun p' _ r hr hn => List.mem_cons_of_mem _ (h.noted p' r hr hn))
      fun _ _ _ => List.mem_cons_self

/-- A process is made ready in a rendezvous of the other kind. -/
theorem inv_meet (h : Inv t) (hs : (t.proc p).state = .Rendezvous) : Inv (t.ready p) := by
  have hr := h.r_eq_none (p := p) (by rw [hs]; nofun)
  have hout := (h.good p).out hs
  refine h.awake hr ⟨fun hne => absurd hr hne, nofun, fun hs' => ?_, nofun⟩ hr
  cases hout.symm.trans hs'

theorem inv_interrupt (h : Inv t) (p : ℕ) (can : Bool) :
    ∃ t', interrupt t p can = some t' ∧ Inv t' := by
  unfold interrupt
  dsimp only
  cases hr : (t.proc p).r with
  | none =>
    refine ⟨_, rfl, h.posting fun p' r hr' hin => ?_⟩
    refine (List.mem_erase_of_ne ?_).mpr hin
    rintro rfl
    cases hr.symm.trans hr'
  | some r =>
    cases can with
    | false => exact ⟨t, rfl, h⟩
    | true =>
      have hwakeme := (h.good p).wakeme (by rw [hr]; nofun)
      have hok : ¬ ((t.proc p).state ≠ .Wakeme ∨ t.p r ≠ some p) := by
        rw [not_or, not_not, not_not]
        exact ⟨hwakeme, (h.agree p r).mpr hr⟩
      dsimp only
      rw [if_pos rfl, if_neg hok]
      refine ⟨_, rfl, (h.wake hr).posting fun p' r' => ?_⟩
      rw [ready_setProc]
      refine forall_setProc (P := fun p' e => e.r = some r' → p' ∈ _ → p' ∈ _)
        (fun p' hne _ hin => (List.mem_erase_of_ne hne).mpr hin) (fun hc => by cases hc) p'

/-! ### Runs -/

/-- A step that can be done does not panic, and keeps the invariant. -/
theorem inv_exec {op : Op α} (h : Inv t) (ha : Able t op) : ∃ t', exec t op = some t' ∧ Inv t' := by
  cases op with
  | sleep p r f => exact ⟨_, rfl, inv_sleep h ha⟩
  | slept p =>
    have hgood := h.good p
    have hr := h.r_eq_none (p := p) (by rw [ha.1]; nofun)
    refine ⟨_, rfl, h.awake hr ⟨hgood.wakeme, fun hs => ?_, nofun, fun _ => rfl⟩ hr⟩
    cases ha.1.symm.trans hs
  | wakeup r => exact inv_wakeup h r
  | post p n flag => exact ⟨_, rfl, inv_post h p n flag⟩
  | interrupt p can => exact inv_interrupt h p can
  | pull p =>
    have hpull : Inv { t with pulling := t.pulling.erase p } := h.posting fun _ _ _ hin => hin
    refine ⟨_, rfl, ?_⟩
    unfold pull
    dsimp only
    split
    · rename_i hs
      exact inv_meet hpull hs
    · exact hpull
  | run p =>
    have hgood := h.good p
    have hready : (t.proc p).state = .Ready := ha
    have hr := h.r_eq_none (p := p) (by rw [hready]; nofun)
    have honce := hgood.once
    rw [if_neg (by rw [hready]; nofun)] at honce
    exact ⟨_, rfl, h.awake hr ⟨fun hne => absurd hr hne, nofun, honce, nofun⟩ hr⟩
  | rendezvous p =>
    obtain ⟨hrun, hout⟩ := ha
    have hr := h.r_eq_none (p := p) (by rw [hrun]; nofun)
    refine ⟨_, rfl, h.awake hr ⟨fun hne => absurd hr hne, nofun, fun hs => ?_, fun _ => hout⟩ hr⟩
    cases hout.symm.trans hs
  | meet p => exact ⟨_, rfl, inv_meet h ha⟩
  | become w =>
    refine ⟨_, rfl, h.agree, h.good, h.single, fun _ => List.mem_cons_self, fun p r hr => ?_,
      h.noted⟩
    obtain ⟨w', hw', hcond⟩ := h.lost p r hr
    exact ⟨w', List.mem_cons_of_mem _ hw', hcond⟩
  | handle p notify notified note =>
    have hgood := h.good p
    have hrun : (t.proc p).state = .Running := ha
    have hr := h.r_eq_none (p := p) (by rw [hrun]; nofun)
    exact ⟨_, rfl, h.awake hr ⟨hgood.wakeme, hgood.slept, hgood.once, hgood.out⟩ hr⟩

theorem Inv.safe (h : Inv t) : Safe t := by
  refine ⟨h.agree, fun p r hr => (h.good p).wakeme (by rw [hr]; nofun), fun op ha => ?_, h.single,
    fun p hs => ?_, h.lost, h.noted⟩
  · obtain ⟨t', ht', -⟩ := inv_exec h ha
    rw [ht']
    nofun
  · rw [(h.good p).once hs]
    split <;> decide

theorem inv_start (w : α) : Inv (start w) :=
  ⟨fun _ _ => iff_of_false nofun nofun, fun _ => ⟨fun hne => absurd rfl hne, nofun, nofun, nofun⟩,
    rfl, fun _ => List.mem_singleton_self _, nofun, nofun⟩

end PlanNine.Sleep
