import PlanNine.Port.Qlock.Holder
import PlanNine.Lib.Run

/-!
# The lock of a UDP conversation

`closeconv` of `devip.c`, with `udpclose`, and `udpiput`, which both take the lock of the
conversation, for any number of processes and any order of their steps. The locks are those of
`qlock.c`; a call of one of their routines is a step, and so is what a process does between two
such calls. `udpiput` holds the lock of the protocol while it looks for the conversation, and where
it makes a new one it takes the lock of the announced conversation, and tries those of all.

How often each process unlocked the conversation is recorded, and which of them did so without
holding it.

## Main definitions

* `Pc`, `Sys`, `exec`: where a process is in the routines, the system, and the steps.
* `Proper`: the conversation is unlocked by its holder, once for each lock, and is held alone.
* `Keeps`: no `closeconv` closes the conversation, and no error is raised while it is locked.

## Main results

* `proper_of_run`: a run whose steps keep to the condition is proper in every state.
* `not_proper_last`: the last `closeconv` unlocks the conversation twice.
-/

namespace PlanNine.UdpLock

open Qlock

/-- The lock of the conversation. -/
def conv : ℕ := 0

/-- The lock of the protocol. -/
def proto : ℕ := 1

def Maxincall : ℕ := 5

inductive Cstate where
  | idle | announced | connected
  deriving DecidableEq, Repr

/-- What `iphtlook` finds if all is registered: this conversation, an announced one that takes a
new call, or neither. -/
inductive Dest where
  | conv | call | other
  deriving DecidableEq, Repr

/-- A packet, with what `udpiput` meets while it handles it: a free conversation and memory for a
new one, the spin lock that `canqlock` tries, a length that does not fit and a full queue. -/
structure Packet where
  dest : Dest := .conv
  free : Bool := true
  mem : Bool := true
  can : Bool := true
  lenerr : Bool := false
  qfull : Bool := false
  deriving DecidableEq, Repr

/-- Where a process is: nowhere, in `closeconv` from the call of `qlock` on, in `udpiput` from the
call of `qlock` on, or out of it by an error. -/
inductive Pc where
  | idle
  | counting | busy | hangup | shut | idling | leaving
  | lookup (pk : Packet) | newcall (pk : Packet) | called | probing | probed | away
  | handoff (pk : Packet) | deliver (pk : Packet) | release
  | raised
  deriving DecidableEq, Repr

structure Sys where
  locks : State := {}
  pc : ℕ → Pc := fun _ => .idle
  inuse : ℤ
  /-- The opens of the conversation that were not closed. -/
  opens : ℕ
  state : Cstate
  headers : Bool
  /-- The number of incoming calls. -/
  incall : ℕ := 0
  /-- The conversation is in the table of conversations. -/
  registered : Bool := true
  /-- The packets passed to the read queue. -/
  rq : ℕ := 0
  /-- How often each process unlocked the conversation. -/
  unlocks : ℕ → ℕ := fun _ => 0
  /-- The processes that unlocked the conversation and did not hold it. -/
  astray : List ℕ := []

namespace Sys

variable (t : Sys)

def goto (p : ℕ) (pc : Pc) : Sys := { t with pc := Function.update t.pc p pc }

/-- `qlock(cv)`. -/
def lockConv (p : ℕ) (pc : Pc) : Sys := { t.goto p pc with locks := qlock t.locks conv p }

/-- `qunlock(cv)`. -/
def unlockConv (p : ℕ) (pc : Pc) : Sys :=
  { t.goto p pc with
    locks := qunlock t.locks conv p
    unlocks := Function.update t.unlocks p (t.unlocks p + 1)
    astray := if p ∈ (t.locks.ql conv).holding then t.astray else p :: t.astray }

/-- `qlock(udp)`. -/
def lockProto (p : ℕ) (pc : Pc) : Sys := { t.goto p pc with locks := qlock t.locks proto p }

/-- `qunlock(udp)`. -/
def unlockProto (p : ℕ) (pc : Pc) : Sys := { t.goto p pc with locks := qunlock t.locks proto p }

/-- `canqlock(c)` of `Fsprotoclone`. -/
def tryConv (p : ℕ) (can : Bool) : Sys :=
  if gets t.locks can conv then
    { t.goto p .probing with locks := canqlock t.locks can conv p }
  else t.goto p .away

/-- What a process does up to its next call of a lock, or that call. -/
def run (p : ℕ) : Option Sys :=
  match t.pc p with
  | .idle => none
  | .raised => none
  | .counting =>
    if 0 < t.inuse - 1 then some { t.goto p .busy with inuse := t.inuse - 1 }
    else some { t.goto p .hangup with inuse := t.inuse - 1 }
  | .busy => some (t.unlockConv p .idle)
  -- the incoming calls are closed, and `udpclose` is called
  | .hangup =>
    some { t.goto p .shut with incall := 0, registered := false, state := .idle, headers := false }
  | .shut => some (t.unlockConv p .idling)
  | .idling => some { t.goto p .leaving with state := .idle }
  | .leaving => some (t.unlockConv p .idle)
  | .lookup pk =>
    match pk.dest with
    | .conv =>
      if t.registered then
        if t.state = .announced ∧ t.headers = false then some (t.lockConv p (.newcall pk))
        else some (t.lockConv p (.handoff pk))
      else some (t.goto p .away)
    | .call => some (t.tryConv p pk.can)
    | .other => some (t.goto p .away)
  -- `Fsnewcall`
  | .newcall pk =>
    if Maxincall ≤ t.incall then some (t.goto p .called)
    else if pk.mem = false then some (t.goto p .raised)
    else if pk.free then some { t.goto p .called with incall := t.incall + 1 }
    else some (t.goto p .called)
  | .called => some (t.unlockConv p .away)
  -- `Fsprotoclone` takes a conversation that nobody uses
  | .probing =>
    if t.inuse = 0 then
      some { t.goto p .probed with inuse := 1, opens := t.opens + 1, state := .idle }
    else some (t.goto p .probed)
  | .probed => some (t.unlockConv p .away)
  | .away => some (t.unlockProto p .idle)
  | .handoff pk => some (t.unlockProto p (.deliver pk))
  | .deliver pk =>
    if pk.lenerr || pk.qfull then some (t.goto p .release)
    else some { t.goto p .release with rq := t.rq + 1 }
  | .release => some (t.unlockConv p .idle)

end Sys

/-- The steps: a call of `closeconv`, a packet for `udpiput`, a step of a process, and a process
that was handed a lock is made ready. -/
inductive Op where
  | close (p : ℕ)
  | packet (p : ℕ) (pk : Packet)
  | step (p : ℕ)
  | ready (p : ℕ)
  deriving DecidableEq, Repr

instance (nproc : ℕ) (t : State) (p : ℕ) : Decidable (t.Runs nproc p) :=
  inferInstanceAs (Decidable (_ ∧ _))

def exec (nproc : ℕ) (t : Sys) : Op → Option Sys
  | .close p =>
    if t.locks.Runs nproc p ∧ t.pc p = .idle ∧ 0 < t.opens then
      some ({ t with opens := t.opens - 1 }.lockConv p .counting)
    else none
  | .packet p pk =>
    if t.locks.Runs nproc p ∧ t.pc p = .idle then some (t.lockProto p (.lookup pk)) else none
  | .step p => if t.locks.Runs nproc p then t.run p else none
  | .ready p => if p ∈ t.locks.handed then some { t with locks := ready t.locks p } else none

/-- A conversation that was opened any number of times. -/
def start (opens : ℕ) (state : Cstate) (headers : Bool) (incall : ℕ) : Sys :=
  { inuse := opens, opens := opens, state := state, headers := headers, incall := incall }

/-! ### What is claimed of the lock -/

/-- The place that a process has with respect to the conversation, by where it is. -/
def atConv : Pc → Place
  | .counting | .newcall _ | .handoff _ => .called
  | .busy | .hangup | .shut | .idling | .leaving | .called | .probing | .probed | .deliver _
  | .release | .raised => .inside
  | .idle | .lookup _ | .away => .out

/-- The place that a process has with respect to the protocol. -/
def atProto : Pc → Place
  | .lookup _ => .called
  | .newcall _ | .called | .probing | .probed | .away | .handoff _ | .raised => .inside
  | _ => .out

/-- A process is between `qlock` of the conversation and its last `qunlock` of it. -/
def Sys.Between (t : Sys) (p : ℕ) : Prop :=
  t.locks.state p = .Running ∧ atConv (t.pc p) ≠ .out

instance (t : Sys) (p : ℕ) : Decidable (t.Between p) := inferInstanceAs (Decidable (_ ∧ _))

/-- Who unlocked the conversation held it; each process unlocked it once for each time it was given
the lock, when it is out of the routines, and not more often before; and no two processes are
between `qlock` and `qunlock`. -/
structure Proper (nproc : ℕ) (t : Sys) : Prop where
  holder : t.astray = []
  once : ∀ p, t.unlocks p ≤ (t.locks.ql conv).granted.count p ∧
    (t.pc p = .idle ∨ t.pc p = .raised → t.unlocks p = (t.locks.ql conv).granted.count p)
  alone : ∀ p < nproc, ∀ r < nproc, t.Between p → t.Between r → p = r

/-- A `closeconv` finds that the conversation stays open, and `Fsprotoclone` gets its memory. -/
def Keeps (t : Sys) : Op → Prop
  | .step p =>
    match t.pc p with
    | .counting => 1 < t.inuse
    | .newcall pk => t.incall < Maxincall → pk.mem = true
    | _ => True
  | _ => True

instance (t : Sys) (op : Op) : Decidable (Keeps t op) := by
  cases op with
  | step p =>
    unfold Keeps
    dsimp only
    split <;> infer_instance
  | _ => exact isTrue trivial

/-! ### The invariant -/

/-- Where `closeconv` and the error would lead. -/
def Allowed : Pc → Prop
  | .hangup | .shut | .idling | .leaving | .raised => False
  | _ => True

/-- A process is at its places with respect to the locks. -/
structure Kept (locks : State) (pc : ℕ → Pc) (unlocks : ℕ → ℕ) (r : ℕ) : Prop where
  conv : (locks.ql conv).Has r (atConv (pc r))
  proto : (locks.ql proto).Has r (atProto (pc r))
  allowed : Allowed (pc r)
  unlocks : (unlocks r : ℤ) = (locks.ql UdpLock.conv).gone r

/-- The locks are as they should be, and so are the processes. -/
structure Inv (nproc : ℕ) (t : Sys) : Prop where
  locks : ∃ q, Qlock.Inv nproc t.locks q
  kept : ∀ r, Kept t.locks t.pc t.unlocks r
  astray : t.astray = []

variable {nproc p : ℕ} {t t' : Sys} {pc : Pc} {op : Op}

/-- The place of a process that runs: it is past its call of `qlock`. -/
def solid : Place → Place
  | .out => .out
  | _ => .inside

theorem Inv.solid_conv (h : Inv nproc t) (hr : t.locks.Runs nproc p) :
    (t.locks.ql conv).Has p (solid (atConv (t.pc p))) := by
  obtain ⟨q, hinv⟩ := h.locks
  have hp := (h.kept p).conv
  cases hpl : atConv (t.pc p) <;> rw [hpl] at hp
  · exact hp
  · exact hp.inside_of_runs hinv hr
  · exact hp

theorem Inv.solid_proto (h : Inv nproc t) (hr : t.locks.Runs nproc p) :
    (t.locks.ql proto).Has p (solid (atProto (t.pc p))) := by
  obtain ⟨q, hinv⟩ := h.locks
  have hp := (h.kept p).proto
  cases hpl : atProto (t.pc p) <;> rw [hpl] at hp
  · exact hp
  · exact hp.inside_of_runs hinv hr
  · exact hp

/-- A step of one process moves it to its new places and leaves the others at theirs. -/
theorem Inv.move (h : Inv nproc t) (t' : Sys) (hlocks : ∃ q, Qlock.Inv nproc t'.locks q)
    (hpc : t'.pc = Function.update t.pc p pc)
    (hothers : ∀ r ≠ p, ∀ pl, ((t.locks.ql conv).Has r pl → (t'.locks.ql conv).Has r pl) ∧
      ((t.locks.ql proto).Has r pl → (t'.locks.ql proto).Has r pl))
    (hconv : (t'.locks.ql conv).Has p (atConv pc)) (hproto : (t'.locks.ql proto).Has p (atProto pc))
    (hall : Allowed pc)
    (hunlocks : ∀ r, (t'.unlocks r : ℤ) - t.unlocks r =
      (t'.locks.ql conv).gone r - (t.locks.ql conv).gone r)
    (hastray : t'.astray = []) : Inv nproc t' := by
  refine ⟨hlocks, fun r => ?_, hastray⟩
  have hk := h.kept r
  have hun : (t'.unlocks r : ℤ) = (t'.locks.ql conv).gone r := by
    have := hunlocks r
    have := hk.unlocks
    omega
  by_cases hr : r = p
  · subst hr
    refine ⟨?_, ?_, ?_, hun⟩ <;> rw [hpc, Function.update_self]
    · exact hconv
    · exact hproto
    · exact hall
  · refine ⟨?_, ?_, ?_, hun⟩ <;> rw [hpc, Function.update_of_ne hr]
    · exact (hothers r hr _).1 hk.conv
    · exact (hothers r hr _).2 hk.proto
    · exact hk.allowed

/-- A step of a process that leaves the locks. -/
theorem Inv.goto (h : Inv nproc t) (hr : t.locks.Runs nproc p)
    (hconv : atConv pc = solid (atConv (t.pc p)))
    (hproto : atProto pc = solid (atProto (t.pc p))) (hall : Allowed pc) :
    Inv nproc (t.goto p pc) :=
  h.move _ h.locks rfl (fun _ _ _ => ⟨id, id⟩) (hconv ▸ h.solid_conv hr) (hproto ▸ h.solid_proto hr)
    hall (fun _ => by simp [Sys.goto]) h.astray

theorem proto_ne_conv : proto ≠ conv := by decide

theorem Inv.lockConv (h : Inv nproc t) (hr : t.locks.Runs nproc p)
    (hout : solid (atConv (t.pc p)) = .out) (hconv : atConv pc = .called)
    (hproto : atProto pc = solid (atProto (t.pc p))) (hall : Allowed pc) :
    Inv nproc (t.lockConv p pc) := by
  obtain ⟨q, hinv⟩ := h.locks
  have hql : (qlock t.locks conv p).ql proto = t.locks.ql proto := ql_qlock_of_ne proto_ne_conv
  refine h.move (t.lockConv p pc) (inv_qlock hinv hr conv) rfl (fun r hne pl => ⟨?_, ?_⟩)
    ?_ ?_ hall (fun r => ?_) h.astray
  · exact has_qlock_of_ne hne
  · exact fun hp => hql ▸ hp
  · exact hconv ▸ has_qlock (hout ▸ h.solid_conv hr)
  · change ((qlock t.locks conv p).ql proto).Has p _
    rw [hql, hproto]
    exact h.solid_proto hr
  · change (t.unlocks r : ℤ) - t.unlocks r = ((qlock t.locks conv p).ql conv).gone r - _
    rw [gone_qlock]
    ring

theorem Inv.lockProto (h : Inv nproc t) (hr : t.locks.Runs nproc p)
    (hout : solid (atProto (t.pc p)) = .out) (hproto : atProto pc = .called)
    (hconv : atConv pc = solid (atConv (t.pc p))) (hall : Allowed pc) :
    Inv nproc (t.lockProto p pc) := by
  obtain ⟨q, hinv⟩ := h.locks
  have hql : (qlock t.locks proto p).ql conv = t.locks.ql conv := ql_qlock_of_ne proto_ne_conv.symm
  refine h.move (t.lockProto p pc) (inv_qlock hinv hr proto) rfl (fun r hne pl => ⟨?_, ?_⟩)
    ?_ ?_ hall (fun r => ?_) h.astray
  · exact fun hp => hql ▸ hp
  · exact has_qlock_of_ne hne
  · change ((qlock t.locks proto p).ql conv).Has p _
    rw [hql, hconv]
    exact h.solid_conv hr
  · exact hproto ▸ has_qlock (hout ▸ h.solid_proto hr)
  · change (t.unlocks r : ℤ) - t.unlocks r = ((qlock t.locks proto p).ql conv).gone r - _
    rw [hql]
    ring

theorem Inv.unlockProto (h : Inv nproc t) (hr : t.locks.Runs nproc p)
    (hin : solid (atProto (t.pc p)) = .inside) (hproto : atProto pc = .out)
    (hconv : atConv pc = solid (atConv (t.pc p))) (hall : Allowed pc) :
    Inv nproc (t.unlockProto p pc) := by
  obtain ⟨q, hinv⟩ := h.locks
  have hhas : (t.locks.ql proto).Has p .inside := hin ▸ h.solid_proto hr
  have hql : (qunlock t.locks proto p).ql conv = t.locks.ql conv :=
    ql_qunlock_of_ne proto_ne_conv.symm
  refine h.move (t.unlockProto p pc) (inv_qunlock hinv hhas.mem) rfl
    (fun r hne pl => ⟨?_, ?_⟩) ?_ ?_ hall (fun r => ?_) h.astray
  · exact fun hp => hql ▸ hp
  · exact has_qunlock_of_ne hinv hne
  · change ((qunlock t.locks proto p).ql conv).Has p _
    rw [hql, hconv]
    exact h.solid_conv hr
  · exact hproto ▸ has_qunlock hinv hhas
  · change (t.unlocks r : ℤ) - t.unlocks r = ((qunlock t.locks proto p).ql conv).gone r - _
    rw [hql]
    ring

theorem Inv.unlockConv (h : Inv nproc t) (hr : t.locks.Runs nproc p)
    (hin : solid (atConv (t.pc p)) = .inside) (hconv : atConv pc = .out)
    (hproto : atProto pc = solid (atProto (t.pc p))) (hall : Allowed pc) :
    Inv nproc (t.unlockConv p pc) := by
  obtain ⟨q, hinv⟩ := h.locks
  have hhas : (t.locks.ql conv).Has p .inside := hin ▸ h.solid_conv hr
  have hql : (qunlock t.locks conv p).ql proto = t.locks.ql proto := ql_qunlock_of_ne proto_ne_conv
  refine h.move (t.unlockConv p pc) (inv_qunlock hinv hhas.mem) rfl
    (fun r hne pl => ⟨?_, ?_⟩) ?_ ?_ hall (fun r => ?_) ?_
  · exact has_qunlock_of_ne hinv hne
  · exact fun hp => hql ▸ hp
  · exact hconv ▸ has_qunlock hinv hhas
  · change ((qunlock t.locks conv p).ql proto).Has p _
    rw [hql, hproto]
    exact h.solid_proto hr
  · change ((Function.update t.unlocks p (t.unlocks p + 1) r : ℕ) : ℤ) - t.unlocks r =
      ((qunlock t.locks conv p).ql conv).gone r - _
    rw [gone_qunlock hinv hhas.mem]
    by_cases hrp : r = p
    · subst hrp
      rw [Function.update_self, if_pos rfl]
      push_cast
      ring
    · rw [Function.update_of_ne hrp, if_neg hrp]
      ring
  · exact (if_pos hhas.mem).trans h.astray

theorem Inv.tryConv (h : Inv nproc t) (hr : t.locks.Runs nproc p) (can : Bool) {pk : Packet}
    (hpc : t.pc p = .lookup pk) : Inv nproc (t.tryConv p can) := by
  obtain ⟨q, hinv⟩ := h.locks
  have hc : solid (atConv (t.pc p)) = .out := by rw [hpc]; rfl
  have hp : solid (atProto (t.pc p)) = .inside := by rw [hpc]; rfl
  unfold Sys.tryConv
  split
  · rename_i hg
    have hql : (canqlock t.locks can conv p).ql proto = t.locks.ql proto :=
      ql_canqlock_of_ne can proto_ne_conv
    refine h.move { t.goto p .probing with locks := canqlock t.locks can conv p }
      (inv_canqlock hinv can conv p) rfl (fun r hne pl => ⟨?_, ?_⟩) ?_ ?_ trivial (fun r => ?_)
      h.astray
    · exact has_canqlock_of_ne hne
    · exact fun hp => hql ▸ hp
    · exact has_canqlock hg (hc ▸ h.solid_conv hr)
    · change ((canqlock t.locks can conv p).ql proto).Has p _
      rw [hql]
      have hsolid := h.solid_proto hr
      rwa [hp] at hsolid
    · change (t.unlocks r : ℤ) - t.unlocks r = ((canqlock t.locks can conv p).ql conv).gone r - _
      rw [gone_canqlock]
      ring
  · exact h.goto hr hc.symm hp.symm trivial

/-- The other fields have no part in the invariant. -/
theorem Inv.congr (h : Inv nproc t) (hlocks : t'.locks = t.locks) (hpc : t'.pc = t.pc)
    (hunlocks : t'.unlocks = t.unlocks) (hastray : t'.astray = t.astray) : Inv nproc t' := by
  refine ⟨hlocks ▸ h.locks, fun r => ?_, hastray.trans h.astray⟩
  rw [hlocks, hpc, hunlocks]
  exact h.kept r

theorem inv_run (h : Inv nproc t) (hr : t.locks.Runs nproc p) (hk : Keeps t (.step p))
    (hrun : t.run p = some t') : Inv nproc t' := by
  unfold Sys.run at hrun
  unfold Keeps at hk
  dsimp only at hk
  have hall := (h.kept p).allowed
  cases hpc : t.pc p with
  | idle | raised => simp [hpc] at hrun
  | hangup | shut | idling | leaving =>
    rw [hpc] at hall
    exact hall.elim
  | counting =>
    simp only [hpc] at hrun hk
    rw [if_pos (by omega), Option.some.injEq] at hrun
    subst hrun
    have hbusy : Inv nproc (t.goto p .busy) :=
      h.goto hr (by rw [hpc]; rfl) (by rw [hpc]; rfl) trivial
    exact hbusy.congr rfl rfl rfl rfl
  | busy =>
    simp only [hpc, Option.some.injEq] at hrun
    subst hrun
    exact h.unlockConv hr (by rw [hpc]; rfl) rfl (by rw [hpc]; rfl) trivial
  | lookup pk =>
    simp only [hpc] at hrun
    split at hrun
    · split_ifs at hrun <;> cases hrun
      · exact h.lockConv hr (by rw [hpc]; rfl) rfl (by rw [hpc]; rfl) trivial
      · exact h.lockConv hr (by rw [hpc]; rfl) rfl (by rw [hpc]; rfl) trivial
      · exact h.goto hr (by rw [hpc]; rfl) (by rw [hpc]; rfl) trivial
    · cases hrun
      exact h.tryConv hr _ hpc
    · cases hrun
      exact h.goto hr (by rw [hpc]; rfl) (by rw [hpc]; rfl) trivial
  | newcall pk =>
    simp only [hpc] at hrun hk
    have hcalled : Inv nproc (t.goto p .called) :=
      h.goto hr (by rw [hpc]; rfl) (by rw [hpc]; rfl) trivial
    split_ifs at hrun with hmax hmem hfree
    · cases hrun
      exact hcalled
    · rw [hk (not_le.mp hmax)] at hmem
      cases hmem
    · cases hrun
      exact hcalled.congr rfl rfl rfl rfl
    · cases hrun
      exact hcalled
  | called | probed =>
    simp only [hpc, Option.some.injEq] at hrun
    subst hrun
    exact h.unlockConv hr (by rw [hpc]; rfl) rfl (by rw [hpc]; rfl) trivial
  | probing =>
    simp only [hpc] at hrun
    have hprobed : Inv nproc (t.goto p .probed) :=
      h.goto hr (by rw [hpc]; rfl) (by rw [hpc]; rfl) trivial
    split_ifs at hrun <;> cases hrun
    · exact hprobed.congr rfl rfl rfl rfl
    · exact hprobed
  | away =>
    simp only [hpc, Option.some.injEq] at hrun
    subst hrun
    exact h.unlockProto hr (by rw [hpc]; rfl) rfl (by rw [hpc]; rfl) trivial
  | handoff pk =>
    simp only [hpc, Option.some.injEq] at hrun
    subst hrun
    exact h.unlockProto hr (by rw [hpc]; rfl) rfl (by rw [hpc]; rfl) trivial
  | deliver pk =>
    simp only [hpc] at hrun
    have hrelease : Inv nproc (t.goto p .release) :=
      h.goto hr (by rw [hpc]; rfl) (by rw [hpc]; rfl) trivial
    split_ifs at hrun <;> cases hrun
    · exact hrelease
    · exact hrelease.congr rfl rfl rfl rfl
  | release =>
    simp only [hpc, Option.some.injEq] at hrun
    subst hrun
    exact h.unlockConv hr (by rw [hpc]; rfl) rfl (by rw [hpc]; rfl) trivial

/-- A step that keeps to the condition keeps the invariant. -/
theorem inv_exec (h : Inv nproc t) (hk : Keeps t op) (hexec : exec nproc t op = some t') :
    Inv nproc t' := by
  cases op with
  | close p =>
    dsimp only [exec] at hexec
    split_ifs at hexec with hcan
    cases hexec
    obtain ⟨hr, hpc, -⟩ := hcan
    have h' : Inv nproc { t with opens := t.opens - 1 } := h.congr rfl rfl rfl rfl
    exact h'.lockConv hr (by rw [hpc]; rfl) rfl (by rw [hpc]; rfl) trivial
  | packet p pk =>
    dsimp only [exec] at hexec
    split_ifs at hexec with hcan
    cases hexec
    obtain ⟨hr, hpc⟩ := hcan
    exact h.lockProto hr (by rw [hpc]; rfl) rfl (by rw [hpc]; rfl) trivial
  | step p =>
    dsimp only [exec] at hexec
    split_ifs at hexec with hr
    exact inv_run h hr hk hexec
  | ready p =>
    dsimp only [exec] at hexec
    split_ifs at hexec with hp
    cases hexec
    obtain ⟨q, hinv⟩ := h.locks
    refine ⟨⟨q, inv_ready hinv hp⟩, fun r => ?_, h.astray⟩
    have hk := h.kept r
    exact ⟨hk.conv, hk.proto, hk.allowed, hk.unlocks⟩

/-! ### Runs -/

theorem inv_start (nproc opens : ℕ) (state : Cstate) (headers : Bool) (incall : ℕ) :
    Inv nproc (start opens state headers incall) :=
  ⟨⟨_, Qlock.inv_start nproc⟩, fun _ => ⟨⟨rfl, rfl⟩, ⟨rfl, rfl⟩, trivial, rfl⟩, rfl⟩

theorem Inv.proper (h : Inv nproc t) : Proper nproc t := by
  refine ⟨h.astray, fun p => ?_, fun p hp r hr hbp hbr => ?_⟩
  · have hun := (h.kept p).unlocks
    unfold QLock.gone at hun
    refine ⟨by omega, fun hpc => ?_⟩
    have hhold : (t.locks.ql conv).holding.count p = 0 := by
      rcases hpc with hpc | hpc
      · have hconv := (h.kept p).conv
        rw [hpc] at hconv
        exact hconv.2
      · have hall := (h.kept p).allowed
        rw [hpc] at hall
        exact hall.elim
    omega
  · obtain ⟨q, hinv⟩ := h.locks
    have hin : ∀ x < nproc, t.Between x → (t.locks.ql conv).Has x .inside := by
      intro x hx hb
      have hsolid := h.solid_conv ⟨hx, hb.1⟩
      cases hpl : atConv (t.pc x) with
      | out => exact absurd hpl hb.2
      | called | inside => rwa [hpl] at hsolid
    exact (hin p hp hbp).unique hinv (hin r hr hbr)

/-- While no `closeconv` closes the conversation for good, and no error is raised under its lock, in
any order of the steps of any number of processes, who unlocks the conversation holds it, each lock
is let go once, and no two processes are between `qlock` and `qunlock`. -/
theorem proper_of_run (nproc opens : ℕ) (state : Cstate) (headers : Bool) (incall : ℕ)
    (h : Run (fun t op t' => exec nproc t op = some t') Keeps
      (start opens state headers incall) t) :
    Proper nproc t :=
  (@Run.invariant _ _ _ _ _ _ (Inv nproc) (inv_start nproc opens state headers incall)
    (fun _ _ _ hinv hk hexec => inv_exec hinv hk hexec) h).proper

/-- Two opens, of which one is closed while a packet waits for the lock. -/
def contended : List Op :=
  [.close 0, .packet 1 {}, .step 1, .step 0, .step 0, .ready 1, .step 1, .step 1, .step 1]

/-- The conversation goes from the process that closes to the one with the packet, and is free. -/
theorem proper_contended : ∃ t, t.rq = 1 ∧ t.unlocks 0 = 1 ∧ t.unlocks 1 = 1 ∧ Proper 2 t := by
  have hcheck : (contended.foldlM (fun t op => if Keeps t op then exec 2 t op else none)
      (start 2 .connected false 0)).any (fun t =>
        decide (t.rq = 1 ∧ t.unlocks 0 = 1 ∧ t.unlocks 1 = 1)) = true := by
    decide +kernel
  obtain ⟨t, ht, hprops⟩ := (Option.any_eq_true _ _).mp hcheck
  obtain ⟨hrq, h0, h1⟩ := of_decide_eq_true hprops
  exact ⟨t, hrq, h0, h1, proper_of_run 2 2 .connected false 0 (Run.of_foldlM_of_test ht)⟩

/-- One open, which is closed while a packet waits for the lock. -/
def last : List Op :=
  [.close 0, .packet 1 {}, .step 1, .step 0, .step 0, .step 0, .ready 1, .step 1, .step 0, .step 0]

/-- The last `closeconv` unlocks the conversation twice, the second time while the process with the
packet is between its `qlock` and its `qunlock`. -/
theorem not_proper_last :
    ¬ ∀ (nproc opens : ℕ) (state : Cstate) (headers : Bool) (incall : ℕ) (t : Sys),
      Run (fun t op t' => exec nproc t op = some t') (fun _ _ => True)
        (start opens state headers incall) t → Proper nproc t := by
  intro h
  have hcheck : (last.foldlM (exec 2) (start 1 .connected false 0)).any (fun t =>
      decide (t.astray = [0] ∧ (t.locks.ql conv).locked = false ∧ t.Between 1)) = true := by
    decide +kernel
  obtain ⟨t, ht, hprops⟩ := (Option.any_eq_true _ _).mp hcheck
  have hproper := h 2 1 .connected false 0 t (Run.of_foldlM ht)
  have hastray := (of_decide_eq_true hprops).1
  rw [hproper.holder] at hastray
  cases hastray

end PlanNine.UdpLock
