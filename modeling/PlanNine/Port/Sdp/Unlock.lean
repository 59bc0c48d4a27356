import PlanNine.Port.Sdp.Lifecycle

/-!
# The locks of a conversation

`readcontrol` and `writecontrol` hold a lock of their own besides the lock of the conversation,
which they give up while they sleep; the timer of `sdpackproc` holds the lock of the conversation
only. Any of them may be stopped by an error of the channel's `bwrite`, which `convwriteblock` lets
through to the handlers of its callers.

The handler of `writecontrol` gives both locks back, and `sdpackproc` ignores errors. The handler of
`readcontrol` is written for the errors that are raised without the lock of the conversation: an
acknowledgement that is refused leaves that lock held. And the return at the end of a conversation
that the other side has closed leaves `in.controllk` held.

## Main definitions

* `GuardM`: routines on a conversation and the locks of it that the calling process holds.
* `readcontrol`, `writecontrol`, `sdpackproc`: the calls, with the wakes from their sleeps.
* `Call.Unlocks`: a call that returns or raises an error holds no lock.

## Main results

* `Call.unlocks_iff`: the calls and conversations that get their locks released.
* `world_readcontrol`, `sdp_writecontrol_eq`: without sleeps, the calls do to the conversation what
  `Sdp.readcontrol` and `Sdp.writecontrol` do.
-/

namespace PlanNine.Sdp.Unlock

open Kern

/-! ### Locks -/

/-- The locks of a conversation `c`: `c` itself, `c->in.controllk` and `c->out.controllk`. -/
inductive Lk where
  | conv | inControllk | outControllk
  deriving DecidableEq, Repr

/-- The panics of the routines, and the ways to misuse a lock. -/
inductive Fault where
  | routine (why : Panic)
  /-- a process waits for a lock that it holds -/
  | qlock (l : Lk)
  /-- a process gives up a lock that it does not hold -/
  | qunlock (l : Lk)
  deriving DecidableEq, Repr

/-- A conversation with the locks of it that the calling process holds. -/
structure Guarded where
  world : World
  held : Finset Lk := ∅

abbrev GuardM (α : Type) : Type := Kern Fault Guarded α

def qlock (l : Lk) : GuardM Unit := do
  let g ← get
  assert (l ∉ g.held) (.qlock l)
  modify fun g => { g with held := insert l g.held }

def qunlock (l : Lk) : GuardM Unit := do
  let g ← get
  assert (l ∈ g.held) (.qunlock l)
  modify fun g => { g with held := g.held.erase l }

/-- An early stop of a routine on the conversation. -/
def guarded : Stop Panic → Stop Fault
  | .error msg => .error msg
  | .panic why => .panic (.routine why)

/-- A routine on the conversation; it touches no lock. -/
def under {α : Type} (m : ConvM α) : GuardM α := fun g =>
  match m g.world with
  | (.ok a, w) => (.ok a, { g with world := w })
  | (.error e, w) => (.error (guarded e), { g with world := w })

section

variable {α : Type} {m : ConvM α} {g : Guarded} {l : Lk} {E : Stop Fault → Guarded → Prop}

@[simp] theorem wp_qlock {Q : Unit → Guarded → Prop} : (qlock l).wp Q E g ↔
    if l ∈ g.held then E (.panic (.qlock l)) g
    else Q () { g with held := insert l g.held } := by
  by_cases h : l ∈ g.held <;> simp [qlock, h]

@[simp] theorem wp_qunlock {Q : Unit → Guarded → Prop} : (qunlock l).wp Q E g ↔
    if l ∈ g.held then Q () { g with held := g.held.erase l }
    else E (.panic (.qunlock l)) g := by
  by_cases h : l ∈ g.held <;> simp [qunlock, h]

theorem wp_under {Q : α → Guarded → Prop} : (under m).wp Q E g ↔
    m.wp (fun a w => Q a { g with world := w }) (fun e w => E (guarded e) { g with world := w })
      g.world := by
  unfold Kern.wp under
  rcases m g.world with ⟨_ | _, w⟩ <;> rfl

end

/-! ### The calls -/

/-- How a sleep ends: whether a note interrupts it, and the conversation that the process finds
when it has the lock again. -/
structure Wake where
  interrupted : Bool := false
  conv : Conv

/-- Take the lock of the conversation and find what the other processes left. -/
def relock (c : Conv) : GuardM Unit := do
  qlock .conv
  modify fun g => { g with world := g.world.map fun _ => c }

/-- The loop of `readcontrol`: whether there is a message; `none` when no wake is left and the
process sleeps on. -/
def readwait (ws : List Wake) : GuardM (Option Bool) := do
  let c ← under getConv
  if c.chan = false ∨ c.state = .cClosed then
    qunlock .conv
    error "conversation closed"
  else if c.inp.controlpkt ≠ none then return some true
  else if c.state = .cRemoteClose then
    qunlock .conv
    return some false
  else
    qunlock .conv
    match ws with
    | [] => return none
    | wk :: ws =>
        if wk.interrupted then error "interrupted"
        else
          relock wk.conv
          readwait ws

variable (L : Libsec) (env : Env)

/-- `convack(c)` and the message. -/
def takecontrol : ConvM (Option (List UInt8)) := do
  convack L env
  let c ← getConv
  setConv fun c => { c with inp := { c.inp with controlpkt := none } }
  return c.inp.controlpkt

/-- The message, or `none` at the end; the outer `none` is a process still asleep. -/
def readcontrol (ws : List Wake) : GuardM (Option (Option (List UInt8))) := do
  qlock .inControllk
  let r ← waserror (do
      qlock .conv
      match ← readwait ws with
      | none => return none
      -- the handler is taken off, and `in.controllk` stays locked
      | some false => return some none
      | some true =>
          let b ← under (takecontrol L env)
          qunlock .conv
          return some (some b))
    fun msg => do
      qunlock .inControllk
      error msg
  match r with
  | none => return none
  | some none => return some none
  | some (some b) =>
      qunlock .inControllk
      return some b

/-- `writewait(c)`: the wakes that are left; `none` when the process sleeps on. -/
def writewait (ws : List Wake) : GuardM (Option (List Wake)) := do
  if ← under Sdp.writewait then return some ws
  else
    qunlock .conv
    match ws with
    | [] => return none
    | wk :: ws =>
        relock wk.conv
        if wk.interrupted then error "interrupted"
        else writewait ws

/-- `writecontrol` between its two waits. -/
def putcontrol (p : List UInt8) : ConvM Unit := do
  let c ← getConv
  let cseq := incr c.out.controlseq
  let b := hnputl cseq ++ p
  setConv fun c => { c with out := { c.out with controlseq := cseq, controlpkt := some b } }
  convretryinit env
  convoput L env TControl ControlMesg b

/-- Whether the call has come to its end; `none` when the process sleeps on. -/
def writecontrol (p : List UInt8) (wait : Bool) (ws : List Wake) : GuardM (Option Unit) := do
  qlock .outControllk
  qlock .conv
  let r ← waserror (do
      match ← writewait ws with
      | none => return none
      | some ws =>
          under (putcontrol L env p)
          if wait then return (← writewait ws).map fun _ => ()
          else return some ())
    fun msg => do
      qunlock .conv
      qunlock .outControllk
      error msg
  match r with
  | none => return none
  | some _ =>
      qunlock .conv
      qunlock .outControllk
      return some ()

/-- The round of `sdpackproc` for one conversation, which is `c` once its lock is held. -/
def sdpackproc (c : Conv) : GuardM Unit := do
  let old ← under getConv
  if old.ref = 0 then return
  else
    relock c
    if 0 < c.ref then waserror (under (convtimer L env)) fun _ => pure ()
    qunlock .conv

/-- The calls whose locks are looked at. -/
inductive Call where
  | readcontrol
  | writecontrol (p : List UInt8) (wait : Bool)
  | convtimer (c : Conv)

/-- A call; `none` when its process sleeps on after the wakes. -/
def Call.run (ws : List Wake) : Call → GuardM (Option Unit)
  | .readcontrol => do return (← Unlock.readcontrol L env ws).map fun _ => ()
  | .writecontrol p wait => Unlock.writecontrol L env p wait ws
  | .convtimer c => do
      sdpackproc L env c
      return some ()

/-- No lock is misused, and none is held when an error is raised. -/
def StopsUnlocked : Stop Fault → Guarded → Prop
  | .error _, g => g.held = ∅
  | .panic (.routine _), _ => True
  | .panic _, _ => False

/-- The call misuses no lock, and holds none when it returns or raises an error. -/
def Call.Unlocks (ws : List Wake) (w : World) (call : Call) : Prop :=
  (call.run L env ws).wp (fun r g => r ≠ none → g.held = ∅) StopsUnlocked { world := w }

/-! ### Where the locks are released -/

/-- There is no channel to write to any more. -/
def Shut (c : Conv) : Prop := c.chan = false ∨ c.state = .cClosed

/-- The loop of `readcontrol` goes to sleep. -/
def Waits (c : Conv) : Prop :=
  ¬Shut c ∧ c.inp.controlpkt = none ∧ c.state ≠ .cRemoteClose

instance (c : Conv) : Decidable (Shut c) := inferInstanceAs (Decidable (_ ∨ _))

instance (c : Conv) : Decidable (Waits c) := inferInstanceAs (Decidable (_ ∧ _))

/-- The conversation at which the loop of `readcontrol` ends, when it does and no note ends it. -/
def settled : Conv → List Wake → Option Conv
  | c, [] => if Waits c then none else some c
  | c, wk :: ws =>
      if Waits c then if wk.interrupted then none else settled wk.conv ws
      else some c

/-- The packet of the acknowledgement; `none` when an algorithm has no state. -/
def ackPacket (c : Conv) : Option (OneWay × List UInt8) :=
  encode L c.out TControl ControlAck ((ackWords c.inp.controlseq c.lstats).flatMap hnputl)
    (List.replicate c.out.cipherivlen 0)

/-- No assertion on the references fails when the conversation is closed. -/
def Closable (c : Conv) : Prop :=
  1 < c.ref ∨ c.ref = 1 ∧ c.dataopen = 0 ∧ c.controlopen = 0

/-- The channel refuses the acknowledgement, and the conversation is closed. -/
def Refused (w : World) : Prop :=
  ackPacket L w.conv ≠ none ∧ env.refuses w ∧ Closable w.conv

/-- The call releases its locks: a reader does unless it comes to the end of a conversation that the
other side closed, or its acknowledgement is refused. -/
def Call.Fine (ws : List Wake) (w : World) : Call → Prop
  | .readcontrol => ∀ c, settled w.conv ws = some c →
      Shut c ∨ c.inp.controlpkt ≠ none ∧ ¬Refused L env (w.map fun _ => c)
  | .writecontrol _ _ => True
  | .convtimer _ => True

/-! ### The reader -/

variable {L env}

/-- Closing a conversation raises no error, and stops the machine just when it is not closable. -/
theorem wp_convclose_closable {w : World} (hs : w.conv.state ≠ .cClosed) :
    convclose.wp (fun _ _ => Closable w.conv) (fun e _ => e = .panic .convderef ∧ ¬Closable w.conv)
      w := by
  simp only [convclose, wp_bind, wp_getConv, wp_ite, wp_setConv, hs, ne_eq, not_false_eq_true,
    if_true]
  by_cases hpos : 1 < w.conv.ref
  · rw [wp_convderef_of_pos hpos]
    exact .inl hpos
  · by_cases hlast : w.conv.ref = 1 ∧ w.conv.dataopen = 0 ∧ w.conv.controlopen = 0
    · rw [wp_convderef_of_last hlast.1 hlast.2.1 hlast.2.2]
      exact .inr hlast
    · have hnot : ¬Closable w.conv := not_or.mpr ⟨hpos, hlast⟩
      have hle : w.conv.ref ≤ 1 := by omega
      by_cases hzero : w.conv.ref - 1 = 0
      · by_cases hdata : w.conv.dataopen = 0
        · have hcontrol : w.conv.controlopen ≠ 0 := fun h => hlast ⟨by omega, hdata, h⟩
          simp [convderef, dropRef, hzero, hdata, hcontrol, hnot]
        · simp [convderef, dropRef, hzero, hdata, hnot]
      · simp [convderef, dropRef, hle, hzero, hnot]

/-- A packet that cannot be made stops the machine. -/
theorem wp_convoput_of_none {w : World} {type subtype : ℕ} {b : List UInt8}
    {Q : Unit → World → Prop} {E : Stop Panic → World → Prop}
    (henc : encode L w.conv.out type subtype b (List.replicate w.conv.out.cipherivlen 0) = none) :
    (convoput L env type subtype b).wp Q E w ↔ E (.panic .nilalg)
      ({ w with puts := w.puts ++ [(type, subtype, b)] }.map countOut) := by
  simp only [convoput, wp_bind, wp_modify, wp_setConv, wp_getConv, World.conv_map, countOut, henc,
    wp_panic]

theorem wp_convoput_of_some {w : World} {type subtype : ℕ} {b pkt : List UInt8} {ow : OneWay}
    {Q : Unit → World → Prop} {E : Stop Panic → World → Prop}
    (henc : encode L w.conv.out type subtype b (List.replicate w.conv.out.cipherivlen 0) =
      some (ow, pkt)) :
    (convoput L env type subtype b).wp Q E w ↔ (convwriteblock env pkt).wp Q E
      ({ w with puts := w.puts ++ [(type, subtype, b)] }.map
        fun c => { countOut c with out := ow }) := by
  simp only [convoput, wp_bind, wp_modify, wp_setConv, wp_getConv, World.conv_map, countOut, henc]
  rfl

/-- An error comes out of the acknowledgement just when it is refused. -/
theorem takecontrol_raises_iff {w : World} (hopen : ¬Shut w.conv) :
    (∃ msg, (takecontrol L env w).1 = .error (.error msg)) ↔ Refused L env w := by
  obtain ⟨hchan, hs⟩ := not_or.mp hopen
  have hwp : (takecontrol L env).wp (fun _ _ => ¬Refused L env w)
      (fun e _ => (∃ msg, e = .error msg) ↔ Refused L env w) w := by
    simp only [takecontrol, convack, wp_bind, wp_getConv, wp_setConv, wp_pure]
    cases henc : ackPacket L w.conv with
    | none =>
      have hnot : ¬Refused L env w := fun h => h.1 henc
      rw [wp_convoput_of_none henc]
      exact iff_of_false (by rintro ⟨_, ⟨⟩⟩) hnot
    | some r =>
      have hne : ackPacket L w.conv ≠ none := by rw [henc]; exact Option.some_ne_none r
      rw [wp_convoput_of_some henc, wp_convwriteblock (by simpa using hchan)]
      refine ⟨fun hgo h => hgo h.2.1, fun href => ?_⟩
      refine wp_mono (wp_convclose_closable (by exact hs)) (fun _ _ hcl => ?_) fun e _ he => ?_
      · exact iff_of_true ⟨_, rfl⟩ ⟨hne, href, hcl⟩
      · obtain ⟨rfl, hcl⟩ := he
        exact iff_of_false (by rintro ⟨_, ⟨⟩⟩) fun h => hcl h.2.2
  unfold Kern.wp at hwp
  rcases hrun : takecontrol L env w with ⟨e | b, w'⟩
  · rw [hrun] at hwp
    simpa using hwp
  · rw [hrun] at hwp
    exact iff_of_false (by rintro ⟨_, ⟨⟩⟩) hwp

/-- The locks of a reader that holds both of its own. -/
def both : Finset Lk := {.conv, .inControllk}

/-- What the loop of `readcontrol` may come to. -/
def Settles (ws : List Wake) (w : World) (r : Option Bool) (g : Guarded) : Prop :=
  match r with
  | none => settled w.conv ws = none ∧ g.held = {.inControllk}
  | some more => ∃ c, settled w.conv ws = some c ∧ ¬Shut c ∧
      (more = true ↔ c.inp.controlpkt ≠ none) ∧ g.world = w.map (fun _ => c) ∧
      g.held = if more then both else {.inControllk}

/-- How the loop of `readcontrol` may raise an error. -/
def Gives (ws : List Wake) (w : World) (e : Stop Fault) (g : Guarded) : Prop :=
  (∃ msg, e = .error msg) ∧ g.held = {.inControllk} ∧ ∀ c, settled w.conv ws = some c → Shut c

/-- A round of the loop that goes to sleep is left with the lock of the reader only. -/
theorem wp_readwait_of_waits {ws : List Wake} {w : World} (hw : Waits w.conv)
    {Q : Option Bool → Guarded → Prop} {E : Stop Fault → Guarded → Prop} :
    (readwait ws).wp Q E { world := w, held := both } ↔
      match ws with
      | [] => Q none { world := w, held := {.inControllk} }
      | wk :: ws =>
          if wk.interrupted then E (.error "interrupted") { world := w, held := {.inControllk} }
          else (readwait ws).wp Q E { world := w.map fun _ => wk.conv, held := both } := by
  obtain ⟨hs, hp, hrc⟩ := hw
  have hunlock : both.erase .conv = {.inControllk} := by decide
  have hmem : Lk.conv ∈ both := by decide
  have hfree : Lk.conv ∉ ({.inControllk} : Finset Lk) := by decide
  conv_lhs => unfold readwait
  simp only [wp_bind, wp_under, wp_getConv, wp_ite, wp_qunlock]
  rw [if_neg (by exact hs), if_neg (by simp [hp]), if_neg (by exact hrc), if_pos hmem, hunlock]
  cases ws with
  | nil => exact .rfl
  | cons wk ws =>
    simp only [wp_ite, wp_error, relock, wp_bind, wp_qlock, wp_modify, hfree, if_false]
    exact .rfl

/-- What the loop of `readcontrol` comes to. -/
theorem readwait_spec (ws : List Wake) (w : World) :
    (readwait ws).wp (Settles ws w) (Gives ws w) { world := w, held := both } := by
  have hunlock : both.erase .conv = {.inControllk} := by decide
  have hmem : Lk.conv ∈ both := by decide
  by_cases hw : Waits w.conv
  · rw [wp_readwait_of_waits hw]
    cases ws with
    | nil => exact ⟨if_pos hw, rfl⟩
    | cons wk ws =>
      have hset : settled w.conv (wk :: ws) =
          if wk.interrupted then none else settled wk.conv ws := if_pos hw
      dsimp only
      split_ifs with hi
      · rw [if_pos hi] at hset
        exact ⟨⟨_, rfl⟩, rfl, fun c hc => by simp [hset] at hc⟩
      · rw [if_neg hi] at hset
        have hrest := readwait_spec ws (w.map fun _ => wk.conv)
        unfold Settles Gives at hrest ⊢
        rw [hset]
        exact hrest
  -- the rounds that do not go to sleep
  have hset : settled w.conv ws = some w.conv := by
    cases ws <;> rw [settled, if_neg hw]
  unfold readwait
  simp only [wp_bind, wp_under, wp_getConv, wp_ite, wp_qunlock, wp_error, wp_pure]
  by_cases hs : Shut w.conv
  · rw [if_pos (by exact hs), if_pos hmem]
    refine ⟨⟨_, rfl⟩, hunlock, fun c hc => ?_⟩
    rw [hset] at hc
    cases hc
    exact hs
  by_cases hp : w.conv.inp.controlpkt = none
  · have hrc : w.conv.state = .cRemoteClose := not_not.mp fun h => hw ⟨hs, hp, h⟩
    rw [if_neg (by exact hs), if_neg (by simp [hp]), if_pos (by exact hrc), if_pos hmem]
    exact ⟨w.conv, hset, hs, by simp [hp], rfl, hunlock⟩
  · rw [if_neg (by exact hs), if_pos (by exact hp)]
    exact ⟨w.conv, hset, hs, by simp [hp], rfl, rfl⟩

/-- The reader releases its locks just when it does not end at a closed end and no acknowledgement
is refused. -/
theorem unlocks_readcontrol {ws : List Wake} {w : World} :
    Call.readcontrol.Unlocks L env ws w ↔ Call.readcontrol.Fine L env ws w := by
  unfold Call.Unlocks Call.run readcontrol
  simp only [wp_bind, wp_qlock, wp_waserror, wp_pure]
  rw [if_neg (by decide), if_neg (by decide)]
  have hspec := readwait_spec ws w
  have hheld : insert Lk.conv (insert Lk.inControllk ∅) = both := rfl
  rcases hrun : readwait ws { world := w, held := both } with ⟨e | r, g⟩
  · rw [wp_of_error hrun] at hspec
    obtain ⟨⟨msg, rfl⟩, hg, hshut⟩ := hspec
    refine iff_of_true ?_ fun c hc => .inl (hshut c hc)
    rw [← hheld] at hrun
    rw [wp_of_error hrun, caught_error, wp_bind, wp_qunlock, hg]
    rfl
  · rw [wp_of_ok hrun] at hspec
    rw [← hheld] at hrun
    rw [wp_of_ok hrun]
    obtain _ | _ | _ := r
    · obtain ⟨hset, hg⟩ := hspec
      refine iff_of_true (fun h => absurd rfl h) fun c hc => ?_
      rw [hset] at hc
      cases hc
    · obtain ⟨c, hset, hopen, hmsg, hw, hg⟩ := hspec
      refine iff_of_false (fun h => ?_) fun h => ?_
      · have hfree : g.held = ∅ := h (Option.some_ne_none _)
        rw [hg] at hfree
        exact absurd hfree (by decide)
      · obtain hs | ⟨hp, -⟩ := h c hset
        · exact hopen hs
        · exact Bool.false_ne_true (hmsg.mpr hp)
    · obtain ⟨c, hset, hopen, hmsg, hw, hg⟩ := hspec
      have hfine : Call.readcontrol.Fine L env ws w ↔ ¬Refused L env g.world := by
        rw [hw]
        refine ⟨fun h => ((h c hset).resolve_left hopen).2, fun h c' hc' => ?_⟩
        cases hset.symm.trans hc'
        exact .inr ⟨hmsg.mp rfl, h⟩
      have hraise := @takecontrol_raises_iff L env g.world (by
        rw [hw]
        exact hopen)
      rw [hfine, ← hraise]
      have hrelock : Lk.conv ∈ g.held ∧ Lk.inControllk ∈ g.held.erase .conv ∧
          (g.held.erase .conv).erase .inControllk = ∅ := by
        rw [hg]
        decide
      simp only [wp_bind, wp_under]
      rcases htake : takecontrol L env g.world with ⟨(msg | why) | b, w'⟩
      · rw [wp_of_error htake]
        refine iff_of_false (fun h => ?_) fun h => h ⟨msg, rfl⟩
        -- the handler gives back one of the two locks
        have hkept : both.erase .inControllk ≠ ∅ := by decide
        have hboth : Lk.inControllk ∈ both := by decide
        rw [guarded, caught_error, wp_bind, wp_qunlock, hg, if_pos rfl, if_pos hboth] at h
        exact hkept h
      · rw [wp_of_error htake]
        exact iff_of_true trivial (by rintro ⟨_, ⟨⟩⟩)
      · rw [wp_of_ok htake]
        refine iff_of_true ?_ (by rintro ⟨_, ⟨⟩⟩)
        simp only [wp_bind, wp_qunlock, wp_pure]
        rw [if_pos hrelock.1, if_pos hrelock.2.1]
        exact fun _ => hrelock.2.2

/-- Once it need not wait, `Sdp.readcontrol` takes the message, if there is one. -/
theorem world_sdp_readcontrol {w : World} : (Sdp.readcontrol L env w).2 =
    if Shut w.conv ∨ w.conv.inp.controlpkt = none then w else (takecontrol L env w).2 := by
  obtain ⟨w₁, hw₁⟩ : ∃ w₁, (takecontrol L env w).2 = w₁ := ⟨_, rfl⟩
  have htake := wp_left (m := takecontrol L env) (s := w)
  rw [hw₁] at htake ⊢
  simp only [takecontrol, wp_bind, wp_getConv, wp_setConv, wp_pure] at htake
  refine @wp_snd _ _ _ _ _ (fun w' => w' = _) ?_
  simp only [Sdp.readcontrol, wp_bind, wp_getConv, wp_ite, wp_error]
  by_cases hs : Shut w.conv
  · rw [if_pos (by exact hs), if_pos (Or.inl hs)]
  rw [if_neg (by exact hs)]
  cases hp : w.conv.inp.controlpkt with
  | none => exact (if_pos (Or.inr rfl)).symm
  | some b =>
    rw [if_neg (not_or.mpr ⟨hs, Option.some_ne_none b⟩)]
    simp only [wp_bind, wp_getConv, wp_setConv, wp_pure]
    exact htake

/-- A reader that need not sleep does to the conversation what `Sdp.readcontrol` does. -/
theorem world_readcontrol {ws : List Wake} {w : World} (hw : ¬Waits w.conv) :
    (readcontrol L env ws { world := w }).2.world = (Sdp.readcontrol L env w).2 := by
  rw [world_sdp_readcontrol]
  obtain ⟨w₁, hw₁⟩ : ∃ w₁, (takecontrol L env w).2 = w₁ := ⟨_, rfl⟩
  have htake := wp_left (m := takecontrol L env) (s := w)
  rw [hw₁] at htake ⊢
  refine @wp_snd Fault Guarded _ _ _ (fun g => g.world = _) ?_
  unfold readcontrol readwait
  simp only [wp_bind, wp_qlock, wp_waserror, wp_under, wp_getConv, wp_ite]
  rw [if_neg (Finset.notMem_empty _), if_neg (by decide)]
  by_cases hs : Shut w.conv
  · rw [if_pos (by exact hs), if_pos (Or.inl hs)]
    simp
  rw [if_neg (by exact hs)]
  by_cases hp : w.conv.inp.controlpkt = none
  · have hrc : w.conv.state = .cRemoteClose := not_not.mp fun h => hw ⟨hs, hp, h⟩
    rw [if_neg (by simp [hp]), if_pos (by exact hrc), if_pos (Or.inr hp)]
    simp
  · rw [if_pos (by exact hp), if_neg (not_or.mpr ⟨hs, hp⟩)]
    simp only [wp_pure, wp_bind, wp_under]
    refine wp_mono htake (fun _ w' h => ?_) fun e w' h => ?_
    · simpa using h
    · cases e with
      | error msg => simpa [guarded] using h
      | panic why => exact h

/-! ### The writer and the timer -/

/-- A writer that need not sleep does to the conversation what `Sdp.writecontrol` does. -/
theorem sdp_writecontrol_eq (p : List UInt8) : Sdp.writecontrol L env p = (do
    if ← Sdp.writewait then
      putcontrol L env p
      return true
    return false) := by
  rfl

/-- The locks held are `H` when a routine raises an error or panics. -/
def StopsWith (H : Finset Lk) (e : Stop Fault) (g : Guarded) : Prop :=
  g.held = H ∧ ((∃ msg, e = .error msg) ∨ ∃ why, e = .panic (.routine why))

/-- A routine on the conversation leaves the locks alone, whichever way it stops. -/
theorem under_spec {α : Type} (m : ConvM α) (g : Guarded) :
    (under m).wp (fun _ g' => g'.held = g.held) (StopsWith g.held) g := by
  rw [wp_under]
  unfold Kern.wp
  rcases m g.world with ⟨(msg | why) | a, w⟩
  · exact ⟨rfl, .inl ⟨msg, rfl⟩⟩
  · exact ⟨rfl, .inr ⟨why, rfl⟩⟩
  · rfl

/-- The locks of a writer that holds both of its own. -/
def bothOut : Finset Lk := {.conv, .outControllk}

/-- The writer has both of its locks whenever `writewait` returns or raises an error. -/
theorem writewait_spec (ws : List Wake) (g : Guarded) (hg : g.held = bothOut) :
    (writewait ws).wp (fun r g => r ≠ none → g.held = bothOut) (StopsWith bothOut) g := by
  have hunlock : bothOut.erase .conv = {.outControllk} := by decide
  have hmem : Lk.conv ∈ bothOut := by decide
  have hfree : Lk.conv ∉ ({.outControllk} : Finset Lk) := by decide
  have hround := under_spec Sdp.writewait g
  rw [hg] at hround
  unfold writewait
  rw [wp_bind]
  refine wp_mono hround (fun ready g' hg' => ?_) fun _ _ he => he
  split_ifs
  · exact fun _ => hg'
  rw [wp_bind, wp_qunlock, hg', if_pos hmem, hunlock]
  cases ws with
  | nil => exact fun h => absurd rfl h
  | cons wk ws =>
    simp only [relock, wp_bind, wp_qlock, wp_modify, hfree, if_false]
    split_ifs
    · exact ⟨rfl, .inl ⟨_, rfl⟩⟩
    · exact writewait_spec ws _ rfl

/-- So does everything that `writecontrol` does under its handler. -/
theorem writing_spec (p : List UInt8) (wait : Bool) (ws : List Wake) (g : Guarded)
    (hg : g.held = bothOut) : (do
      match ← writewait ws with
      | none => return none
      | some ws =>
          under (putcontrol L env p)
          if wait then return (← writewait ws).map fun _ => ()
          else return some () : GuardM (Option Unit)).wp
      (fun r g => r ≠ none → g.held = bothOut) (StopsWith bothOut) g := by
  rw [wp_bind]
  refine wp_mono (writewait_spec ws g hg) (fun r g₁ h₁ => ?_) fun _ _ he => he
  match r with
  | none => exact fun h => absurd rfl h
  | some ws =>
    have hg₁ : g₁.held = bothOut := h₁ (Option.some_ne_none ws)
    have hput := under_spec (putcontrol L env p) g₁
    rw [hg₁] at hput
    rw [wp_bind]
    refine wp_mono hput (fun _ g₂ hg₂ => ?_) fun _ _ he => he
    split_ifs
    · rw [wp_bind]
      refine wp_mono (writewait_spec ws g₂ hg₂) (fun r g₃ h₃ hr => h₃ fun hnone => ?_)
        fun _ _ he => he
      rw [hnone] at hr
      exact hr rfl
    · exact fun _ => hg₂

theorem unlocks_writecontrol {p : List UInt8} {wait : Bool} {ws : List Wake} {w : World} :
    (Call.writecontrol p wait).Unlocks L env ws w := by
  have hmem : Lk.conv ∈ bothOut := by decide
  have hrest : Lk.outControllk ∈ bothOut.erase .conv := by decide
  have hnone : (bothOut.erase .conv).erase .outControllk = ∅ := by decide
  have hfree : Lk.conv ∉ insert Lk.outControllk (∅ : Finset Lk) := by decide
  unfold Call.Unlocks Call.run writecontrol
  rw [wp_bind, wp_qlock, if_neg (Finset.notMem_empty _), wp_bind, wp_qlock, if_neg hfree,
    wp_bind, wp_waserror]
  refine wp_mono (writing_spec p wait ws _ rfl) (fun r g h => ?_) fun e g h => ?_
  · match r with
    | none => exact fun h => absurd rfl h
    | some _ =>
      have hg : g.held = bothOut := h (Option.some_ne_none _)
      simp only [wp_bind, wp_qunlock, wp_pure, hg, hmem, hrest, if_true]
      exact fun _ => hnone
  · -- the handler gives back both locks
    obtain ⟨hg, ⟨msg, rfl⟩ | ⟨why, rfl⟩⟩ := h
    · rw [caught_error]
      simp only [wp_bind, wp_qunlock, wp_error, hg, hmem, hrest, if_true]
      exact hnone
    · exact trivial

theorem unlocks_convtimer {c : Conv} {ws : List Wake} {w : World} :
    (Call.convtimer c).Unlocks L env ws w := by
  have hfree : Lk.conv ∉ (∅ : Finset Lk) := Finset.notMem_empty _
  have hmem : Lk.conv ∈ insert Lk.conv (∅ : Finset Lk) := Finset.mem_insert_self _ _
  have hnone : (insert Lk.conv (∅ : Finset Lk)).erase .conv = ∅ := by decide
  unfold Call.Unlocks Call.run sdpackproc
  rw [wp_bind, wp_bind, wp_under, wp_getConv, wp_ite]
  split_ifs
  · exact fun _ => rfl
  · simp only [wp_bind, wp_pure, relock, wp_qlock, wp_modify, hfree, if_false, wp_waserror]
    refine wp_mono (under_spec (convtimer L env) _) (fun _ g hg => ?_) fun e g h => ?_
    · simp only [wp_qunlock, hg, hmem, if_true]
      exact fun _ => hnone
    · obtain ⟨hg, ⟨msg, rfl⟩ | ⟨why, rfl⟩⟩ := h
      · simp only [caught_error, wp_pure, wp_qunlock, hg, hmem, if_true]
        exact fun _ => hnone
      · exact trivial
  · simp only [wp_bind, relock, wp_qlock, wp_modify, hfree, if_false, wp_qunlock, hmem, if_true]
    exact fun _ => hnone

/-- A call releases its locks, whatever the channel does with its packets and the other processes
with the conversation, just when it is not a reader that comes to the end of a conversation closed
by the other side, or whose acknowledgement is refused. -/
theorem Call.unlocks_iff (call : Call) (ws : List Wake) (w : World) :
    call.Unlocks L env ws w ↔ call.Fine L env ws w := by
  cases call with
  | readcontrol => exact unlocks_readcontrol
  | writecontrol p wait => exact iff_of_true unlocks_writecontrol trivial
  | convtimer c => exact iff_of_true unlocks_convtimer trivial

/-- A step of the system as a function. -/
def exec (d : SdpDev) (e : Env × Event) : Option SdpDev :=
  match d.step Libsec.null e.1 e.2 with
  | some (.ok d') => some d'
  | _ => none

theorem step_of_exec {d d' : SdpDev} {e : Env × Event} (h : exec d e = some d') :
    Step Libsec.null d e d' := by
  unfold exec at h
  split at h
  · cases h
    assumption
  · cases h

/-- The first control message of a peer: one byte, and the digest that `Libsec.null` computes. -/
def hello : List UInt8 := [0x10, 0, 0, 1, 0, 0, 0, 1, 7] ++ List.replicate 12 0

/-- A conversation is set up by its peer, and a control message comes in. -/
def greeted : List (Env × Event) :=
  [({}, .clone "u" fun _ => false), ({}, .call 0 (.open .Qdata "u" 0)),
    ({}, .call 0 (.open .Qcontrol "u" 0)), ({}, .call 0 (.ctl ["accept", "x"])),
    ({}, .call 0 (.readdata (connectPacket ConOpenRequest 1 0))),
    ({}, .call 0 (.readdata (connectPacket ConOpenAckAck 1 0))), ({}, .call 0 (.readdata hello))]

theorem greeted_locked : (greeted.foldlM exec {}).any (fun d => d.conv.any fun s =>
    match Call.readcontrol.run Libsec.null { fails := fun _ => true } []
      { world := { conv := s.conv } } with
    | (.error (.error _), g) => decide (g.held ≠ ∅)
    | _ => false) = true := by
  decide +kernel

/-- The acknowledgement that a reader sends is refused, and the conversation stays locked. -/
theorem not_unlocks_reader : ¬∀ (d : SdpDev) (s : Slot) (call : Call) (env : Env) (ws : List Wake),
    Run (Step Libsec.null) (fun _ _ => True) {} d → s ∈ d.conv →
      call.Unlocks Libsec.null env ws { conv := s.conv } := by
  intro h
  obtain ⟨d, hd, hslots⟩ := (Option.any_eq_true _ _).mp greeted_locked
  obtain ⟨s, hs, hheld⟩ := List.any_eq_true.mp hslots
  have hlocks := h d s .readcontrol { fails := fun _ => true } []
    ((Run.of_foldlM hd).mono_step fun _ _ _ => step_of_exec) hs
  unfold Call.Unlocks at hlocks
  split at hheld
  · rename_i hrun
    rw [wp_of_error hrun] at hlocks
    exact of_decide_eq_true hheld hlocks
  · cases hheld

end PlanNine.Sdp.Unlock
