import Mathlib
import PlanNine.Port.Sdp.Rules

/-!
# References held across the routines of a conversation

While somebody outside holds a conversation, its reference count is the number of holders plus the
reference of the state, and closing it does not free it. Every routine keeps that, whatever the
channel does, except one that announces a new state: when its packet is refused, the conversation
is closed underneath it and the state is set all the same.

## Main definitions

* `live`: the reference that a state holds.
* `Held`: the references shared by outside holders, reader processes and the state.
* `Keeps P m`: from a world that meets `P`, the routine `m` keeps the references held.

## Main results

* `keeps_convclose`, `keeps_convwriteblock`, `keeps_convoconnect`, `keeps_convsetstate`.
* `keeps_conviput`, `keeps_convtimer`, `keeps_sdpctl` and the other calls.
-/

namespace PlanNine.Sdp

open Kern

variable {L : Libsec} {env : Env}

/-- The reference that a state holds: one, unless the conversation is free or closed. -/
def live (s : ConvState) : ℤ := if s = .cFree ∨ s = .cClosed then 0 else 1

theorem live_nonneg (s : ConvState) : 0 ≤ live s := by
  cases s <;> decide

theorem live_of_ne {s : ConvState} (h : s ≠ .cFree) (h' : s ≠ .cClosed) : live s = 1 := by
  simp [live, h, h']

/-- The references of a conversation that `k` outside holders share with the reader processes
started so far and with the state. -/
def Held (k dataopen controlopen : ℤ) (nreader : ℕ) (c : Conv) : Prop :=
  c.ref = k + nreader + live c.state ∧ (c.ref = 0 ↔ c.state = .cFree) ∧
    c.dataopen = dataopen ∧ c.controlopen = controlopen

theorem Held.congr {k d ct : ℤ} {n : ℕ} {c c' : Conv} (h : Held k d ct n c)
    (href : c'.ref = c.ref) (hs : c'.state = c.state) (hd : c'.dataopen = c.dataopen)
    (hc : c'.controlopen = c.controlopen) : Held k d ct n c' := by
  simpa only [Held, href, hs, hd, hc] using h

/-- Another state with a reference of its own. -/
theorem Held.setState {k d ct : ℤ} {n : ℕ} {c c' : Conv} (hk : 0 ≤ k) (h : Held k d ct n c)
    (href : c'.ref = c.ref) (hs : live c'.state = live c.state) (hs' : live c'.state = 1)
    (hd : c'.dataopen = c.dataopen) (hc : c'.controlopen = c.controlopen) : Held k d ct n c' := by
  obtain ⟨h1, h2, h3, h4⟩ := h
  refine ⟨by omega, ⟨fun h0 => by omega, fun h0 => ?_⟩, by omega, by omega⟩
  rw [h0] at hs'
  exact absurd hs' (by decide)

theorem Held.state_ne_free {k d ct : ℤ} {n : ℕ} {c : Conv} (hk : 1 ≤ k) (h : Held k d ct n c) :
    c.state ≠ .cFree := by
  intro hs
  have := h.1
  have := h.2.1.mpr hs
  have := live_nonneg c.state
  omega

theorem Held.closed_or_lt {k d ct : ℤ} {n : ℕ} {c : Conv} (hk : 1 ≤ k) (h : Held k d ct n c) :
    c.state = .cClosed ∨ 1 < c.ref := by
  by_cases hs : c.state = .cClosed
  · exact .inl hs
  · have := h.1
    have := live_of_ne (h.state_ne_free hk) hs
    right
    omega

theorem Held.closed {k d ct : ℤ} {n : ℕ} {c : Conv} (hk : 1 ≤ k) (h : Held k d ct n c) :
    Held k d ct n (closed c) := by
  obtain ⟨h1, h2, h3, h4⟩ := h
  by_cases hs : c.state = .cClosed
  · refine Held.congr ⟨h1, h2, h3, h4⟩ ?_ ?_ rfl rfl <;> simp [Sdp.closed, hs]
  · have hl := live_of_ne (Held.state_ne_free hk ⟨h1, h2, h3, h4⟩) hs
    have hl' : live .cClosed = 0 := rfl
    refine ⟨?_, ⟨fun h0 => ?_, fun h0 => by simp at h0⟩, h3, h4⟩
    · simp only [Sdp.closed, hs, if_false, hl']
      omega
    · simp only [Sdp.closed, hs, if_false] at h0
      omega

/-- The assertions of `sdpclone` and `convderef`. -/
def RefPanic (p : Panic) : Prop := p = .sdpclone ∨ p = .convderef

/-- What an early stop leaves: the references held, or a panic that is not about them. -/
def StopHeld (k d ct : ℤ) (e : Stop Panic) (w : World) : Prop :=
  match e with
  | .error _ => Held k d ct w.nreader w.conv
  | .panic p => ¬ RefPanic p

/-- A routine keeps the references of a conversation held from outside, and does not fail the
assertions on them. -/
def Keeps {α : Type} (P : World → Prop) (m : ConvM α) : Prop :=
  ∀ k d ct w, 1 ≤ k → Held k d ct w.nreader w.conv → P w →
    m.wp (fun _ w' => Held k d ct w'.nreader w'.conv) (StopHeld k d ct) w

/-- `Keeps` with no condition on the world. -/
abbrev Keeps' {α : Type} (m : ConvM α) : Prop := Keeps (fun _ => True) m

namespace Keeps

variable {α β : Type} {P : World → Prop}

theorem pure (a : α) : Keeps P (pure a : ConvM α) := fun _ _ _ _ _ h _ => h

theorem error (msg : String) : Keeps P (Kern.error msg : ConvM α) := fun _ _ _ _ _ h _ => h

theorem panic {p : Panic} (hp : ¬ RefPanic p) : Keeps P (Kern.panic p : ConvM α) :=
  fun _ _ _ _ _ _ _ => hp

theorem assert {b : Bool} {p : Panic} (hp : ¬ RefPanic p) :
    Keeps P (Kern.assert b p : ConvM Unit) := by
  intro k d ct w hk h hP
  rw [wp_assert]
  split
  · exact h
  · exact hp

theorem bind {m : ConvM α} {f : α → ConvM β} (hm : Keeps P m) (hf : ∀ a, Keeps' (f a)) :
    Keeps P (m >>= f) := by
  intro k d ct w hk h hP
  rw [wp_bind]
  exact wp_mono (hm k d ct w hk h hP) (fun a s' h' => hf a k d ct s' hk h' trivial)
    fun _ _ h' => h'

theorem getConv_bind {f : Conv → ConvM β} (hf : ∀ c, Keeps (fun w => w.conv = c ∧ P w) (f c)) :
    Keeps P (getConv >>= f) := by
  intro k d ct w hk h hP
  rw [wp_bind, wp_getConv]
  exact hf _ k d ct w hk h ⟨rfl, hP⟩

theorem setConv {f : Conv → Conv}
    (hf : ∀ c, (f c).ref = c.ref ∧ (f c).state = c.state ∧ (f c).dataopen = c.dataopen ∧
      (f c).controlopen = c.controlopen) : Keeps P (setConv f) := by
  intro k d ct w hk h hP
  obtain ⟨h1, h2, h3, h4⟩ := hf w.conv
  exact h.congr h1 h2 h3 h4

/-- A change of the conversation in front of the rest, with a condition carried along. -/
theorem setConv_bind {f : Conv → Conv} {m : Unit → ConvM β} (P' : World → Prop)
    (hf : ∀ c, (f c).ref = c.ref ∧ (f c).state = c.state ∧ (f c).dataopen = c.dataopen ∧
      (f c).controlopen = c.controlopen)
    (hP : ∀ w, P w → P' (w.map f)) (hm : Keeps P' (m ())) :
    Keeps P (Sdp.setConv f >>= m) := by
  intro k d ct w hk h hw
  obtain ⟨h1, h2, h3, h4⟩ := hf w.conv
  rw [wp_bind, wp_setConv]
  exact hm k d ct _ hk (h.congr h1 h2 h3 h4) (hP w hw)

theorem mono {P' : World → Prop} {m : ConvM α} (hm : Keeps P' m) (h : ∀ w, P w → P' w) :
    Keeps P m :=
  fun k d ct w hk hw hP => hm k d ct w hk hw (h w hP)

theorem waserror {m : ConvM α} {handler : String → ConvM α} (hm : Keeps P m)
    (hh : ∀ msg, Keeps' (handler msg)) : Keeps P (Kern.waserror m handler) := by
  intro k d ct w hk h hP
  rw [wp_waserror]
  refine wp_mono (hm k d ct w hk h hP) (fun _ _ h' => h') fun e s' h' => ?_
  cases e with
  | error msg => exact hh msg k d ct s' hk h' trivial
  | panic p => exact h'

theorem ite {c : Prop} [Decidable c] {m m' : ConvM α} (hm : c → Keeps P m)
    (hm' : ¬ c → Keeps P m') : Keeps P (if c then m else m') := by
  split
  · exact hm ‹_›
  · exact hm' ‹_›

end Keeps

/-! ### Closing and writing -/

theorem keeps_convclose : Keeps' convclose := by
  intro k d ct w hk h _
  rw [wp_convclose_of_held (h.closed_or_lt hk)]
  exact h.closed hk

theorem keeps_convwriteblock {b : List UInt8} : Keeps' (convwriteblock env b) := by
  intro k d ct w hk h _
  by_cases hc : w.conv.chan = true
  · rw [wp_convwriteblock hc]
    refine ⟨fun _ => h, fun _ => ?_⟩
    rw [wp_convclose_of_held (w := { w with nwrite := w.nwrite + 1 }) (h.closed_or_lt hk)]
    exact h.closed hk
  · by_cases hd : w.conv.drop ≠ 0 ∧ env.dropped w.nwrite = true
    · simpa only [convwriteblock, wp_bind, wp_get, wp_modify, wp_ite, hd, ne_eq, not_false_eq_true,
        and_self, if_true, wp_pure] using h
    · simp only [convwriteblock, wp_bind, wp_get, wp_modify, wp_ite, hd, if_false, wp_assert, hc,
        Bool.false_eq_true, StopHeld, RefPanic]
      simp

theorem keeps_convoconnect {op dialid acceptid : ℕ} :
    Keeps' (convoconnect env op dialid acceptid) := by
  unfold convoconnect
  refine .setConv_bind (fun _ => True) (fun c => ⟨rfl, rfl, rfl, rfl⟩) (fun _ h => h) ?_
  refine .getConv_bind fun c => .bind (.assert (by simp [RefPanic])) fun _ => ?_
  exact .waserror keeps_convwriteblock fun _ => .pure ()

theorem keeps_conreset {dialid acceptid : ℕ} : Keeps' (conreset env dialid acceptid) :=
  .bind keeps_convoconnect fun _ => keeps_convclose

/-! ### New states -/

/-- A packet that goes through leaves the conversation alone, up to the packets counted. -/
theorem wp_convoconnect_of_accepted {op dialid acceptid : ℕ} {Q : Unit → World → Prop}
    {E : Stop Panic → World → Prop} {w : World} (hr : ¬ env.refuses w)
    (hQ : Q () ((w.map countOut).wrote env (connectPacket op dialid acceptid)))
    (hE : E (.panic .convoconnect) (w.map countOut)) :
    (convoconnect env op dialid acceptid).wp Q E w := by
  rw [wp_convoconnect]
  split
  · exact ⟨fun _ => hQ, fun h => absurd h hr⟩
  · exact hE

/-- Whether `convsetstate` writes a packet for the new state. -/
def Announces (c : Conv) (s : ConvState) : Prop :=
  s = .cDial ∨ s = .cAccept ∨ s = .cLocalClose ∨ (s = .cOpen ∧ c.state = .cDial)

section

variable (a : Authalg) (c : Conv)

@[simp] theorem setauth_ref : (setauth L a c).ref = c.ref := by cases a <;> rfl
@[simp] theorem setauth_state : (setauth L a c).state = c.state := by cases a <;> rfl
@[simp] theorem setauth_dataopen : (setauth L a c).dataopen = c.dataopen := by cases a <;> rfl
@[simp] theorem setauth_controlopen : (setauth L a c).controlopen = c.controlopen := by
  cases a <;> rfl

end

theorem stopHeld_panic {k d ct : ℤ} {p : Panic} {w : World} (hp : ¬ RefPanic p) :
    StopHeld k d ct (.panic p) w := hp

/-- The local close is announced even when nobody holds the conversation any more. -/
theorem held_localClose {k d ct : ℤ} {w : World} {E : Stop Panic → World → Prop} (hk : 0 ≤ k)
    (h : Held k d ct w.nreader w.conv) (hr : ¬ env.refuses w)
    (hE : ∀ p w', ¬ RefPanic p → E (.panic p) w') :
    (convsetstate L env .cLocalClose).wp (fun _ w' => Held k d ct w'.nreader w'.conv) E w := by
  simp only [convsetstate, convretryinit, wp_bind, wp_getConv, wp_assert, wp_setConv]
  split
  · rename_i hst
    refine wp_convoconnect_of_accepted hr ?_ (hE _ _ (by simp [RefPanic]))
    refine h.setState hk rfl ?_ rfl rfl rfl
    rcases decide_eq_true_eq.mp hst with hst | hst <;> simp [hst, live]
  · exact hE _ _ (by simp [RefPanic])

theorem keeps_convsetstate {s : ConvState} (hs : s ≠ .cRemoteClose) :
    Keeps (fun w => Announces w.conv s → ¬ env.refuses w) (convsetstate L env s) := by
  intro k d ct w hk h hw
  cases s with
  | cFree | cInit =>
      simp [convsetstate, StopHeld, RefPanic]
  | cRemoteClose => exact absurd rfl hs
  | cClosed => exact keeps_convclose k d ct w hk h trivial
  | cDial =>
      have hr : ¬ env.refuses w := hw (by simp [Announces])
      simp only [convsetstate, convretryinit, wp_bind, wp_getConv, wp_assert, wp_setConv]
      split
      · rename_i hst
        refine wp_convoconnect_of_accepted hr ?_ (stopHeld_panic (by simp [RefPanic]))
        exact h.setState (by omega) rfl (by simp [decide_eq_true_eq.mp hst, live]) rfl rfl rfl
      · exact stopHeld_panic (by simp [RefPanic])
  | cAccept =>
      have hr : ¬ env.refuses w := hw (by simp [Announces])
      simp only [convsetstate, convretryinit, wp_bind, wp_getConv, wp_assert, wp_setConv]
      split
      · rename_i hst
        refine wp_convoconnect_of_accepted hr ?_ (stopHeld_panic (by simp [RefPanic]))
        exact h.setState (by omega) rfl (by simp [decide_eq_true_eq.mp hst, live]) rfl rfl rfl
      · exact stopHeld_panic (by simp [RefPanic])
  | cLocalClose =>
      exact held_localClose (by omega) h (hw (by simp [Announces])) fun p w' hp => hp
  | cOpen =>
      simp only [convsetstate, convretryinit, wp_bind, wp_getConv, wp_assert, wp_setConv, wp_ite]
      split
      · rename_i hst
        split
        · rename_i hd
          have hr : ¬ env.refuses w := hw (by simp [Announces, hd])
          refine wp_convoconnect_of_accepted (by simpa only [Env.refuses, World.map] using hr) ?_
            (stopHeld_panic (by simp [RefPanic]))
          refine h.setState (by omega) ?_ ?_ ?_ ?_ ?_ <;>
            simp [World.map, World.wrote, hd, countOut, live]
        · rename_i hd
          have hacc := (decide_eq_true_eq.mp hst).resolve_left hd
          refine h.setState (by omega) ?_ ?_ ?_ ?_ ?_ <;> simp [World.map, hacc, live]
      · exact stopHeld_panic (by simp [RefPanic])

/-! ### Input -/

/-- The connection packet moves the conversation to a state that its sender is told of. -/
def Answers (c : Conv) (subtype : ℕ) (b : Block) : Prop :=
  b.blen = 8 ∧ wrongIds c subtype (nhgetl b.data) (nhgetl (b.data.drop 4)) = false ∧
    (subtype = ConOpenRequest ∧ c.state = .cInit ∨ subtype = ConOpenAck ∧ c.state = .cDial ∨
      subtype = ConClose ∧ c.state = .cOpen)

theorem wp_convsetstate_remoteClose {Q : Unit → World → Prop} {E : Stop Panic → World → Prop}
    {w : World} : (convsetstate L env .cRemoteClose).wp Q E w ↔
      Q () (w.map fun c => { c with state := .cRemoteClose }) := by
  simp only [convsetstate, wp_bind, wp_getConv, wp_setConv]

theorem keeps_conviconnect {subtype : ℕ} {b : Block} :
    Keeps (fun w => Answers w.conv subtype b → ¬ env.refuses w)
      (conviconnect L env subtype b) := by
  unfold conviconnect conviconnectIds
  refine .ite (fun _ => .pure ()) fun hb => ?_
  refine .ite (fun _ => keeps_convclose.mono fun _ _ => trivial) fun hreset => ?_
  refine .getConv_bind fun c => ?_
  refine .ite (fun _ => .panic (by simp [RefPanic])) fun hfree => ?_
  have hrej : ∀ {P : World → Prop} {dialid acceptid : ℕ},
      Keeps P (conreset env dialid acceptid) := keeps_conreset.mono fun _ _ => trivial
  have hcon : ∀ {P : World → Prop} {op dialid acceptid : ℕ},
      Keeps P (convoconnect env op dialid acceptid) := keeps_convoconnect.mono fun _ _ => trivial
  refine .ite (fun _ => hrej) fun hids => ?_
  refine .ite (fun hop => ?_) fun hop => .ite (fun hop => ?_) fun hop => .ite (fun hop => ?_)
    fun hop => .ite (fun hop => ?_) fun hop => .ite (fun hop => ?_) fun hop => hrej
  · cases hs : c.state with
    | cInit =>
        refine .setConv_bind (fun w => ¬ env.refuses w) (fun c => ⟨rfl, rfl, rfl, rfl⟩) ?_ ?_
        · rintro w ⟨rfl, h⟩
          exact h ⟨not_not.mp hb, by simpa using hids, .inl ⟨hop, hs⟩⟩
        · exact (keeps_convsetstate (by decide)).mono fun _ h _ => h
    | cAccept | cOpen => exact .pure ()
    | _ => exact hrej
  · cases hs : c.state with
    | cDial =>
        refine .setConv_bind (fun w => ¬ env.refuses w) (fun c => ⟨rfl, rfl, rfl, rfl⟩) ?_ ?_
        · rintro w ⟨rfl, h⟩
          exact h ⟨not_not.mp hb, by simpa using hids, .inr (.inl ⟨hop, hs⟩)⟩
        · exact (keeps_convsetstate (by decide)).mono fun _ h _ => h
    | cOpen => exact hcon
    | _ => exact hrej
  · cases hs : c.state with
    | cAccept =>
        refine (keeps_convsetstate (by decide)).mono ?_
        rintro w ⟨rfl, -⟩ ha
        simp [Announces, hs] at ha
    | cOpen | cLocalClose | cRemoteClose => exact .pure ()
    | _ => exact hrej
  · cases hs : c.state with
    | cOpen =>
        rintro k d ct w hk h ⟨rfl, hw⟩
        have hr : ¬ env.refuses w :=
          hw ⟨not_not.mp hb, by simpa using hids, .inr (.inr ⟨hop, hs⟩)⟩
        rw [wp_bind]
        refine wp_convoconnect_of_accepted hr ?_ (stopHeld_panic (by simp [RefPanic]))
        rw [wp_convsetstate_remoteClose]
        refine h.setState (by omega) ?_ ?_ ?_ ?_ ?_ <;>
          simp [World.map, World.wrote, hs, countOut, live]
    | cRemoteClose => exact hcon
    | _ => exact hrej
  · cases c.state with
    | cLocalClose => exact keeps_convclose.mono fun _ _ => trivial
    | _ => exact hrej

theorem keeps_convoput {type subtype : ℕ} {b : List UInt8} :
    Keeps' (convoput L env type subtype b) := by
  unfold convoput
  intro k d ct w hk h _
  rw [wp_bind, wp_modify]
  refine Keeps.setConv_bind (f := countOut) (fun _ => True) (fun c => ⟨rfl, rfl, rfl, rfl⟩)
    (fun _ h => h) ?_ k d ct _ hk h trivial
  refine .getConv_bind fun c => ?_
  cases encode L c.out type subtype b (List.replicate c.out.cipherivlen 0) with
  | none => exact .panic (by simp [RefPanic])
  | some r =>
      exact .setConv_bind (fun _ => True) (fun c => ⟨rfl, rfl, rfl, rfl⟩) (fun _ _ => trivial)
        keeps_convwriteblock

theorem keeps_convack : Keeps' (convack L env) :=
  .getConv_bind fun _ => keeps_convoput.mono fun _ _ => trivial

theorem keeps_count {P : World → Prop} {f : Stats → Stats} : Keeps P (count f) :=
  .setConv fun _ => ⟨rfl, rfl, rfl, rfl⟩

theorem keeps_convicontrol {subtype : ℕ} {b : Block} :
    Keeps' (convicontrol L env subtype b) := by
  have hack : ∀ {P : World → Prop}, Keeps P (convack L env) := keeps_convack.mono fun _ _ => trivial
  unfold convicontrol
  refine .ite (fun _ => .pure ()) fun _ => .getConv_bind fun c => ?_
  refine .ite (fun _ => .ite (fun _ => .ite (fun _ => hack) fun _ => .pure ()) fun _ =>
    .ite (fun _ => .pure ()) fun _ => ?_) fun _ => .ite (fun _ => .ite (fun _ => .pure ()) fun _ =>
      .ite (fun _ => .pure ()) fun _ => .setConv fun _ => ⟨rfl, rfl, rfl, rfl⟩) fun _ => .pure ()
  refine .setConv_bind (fun _ => True) (fun c => ⟨rfl, rfl, rfl, rfl⟩) (fun _ _ => trivial) ?_
  exact .ite (fun _ => hack) fun _ k d ct w _ h _ => h.congr rfl rfl rfl rfl

/-- Two conversations with the same references and state. -/
def SameRefs (c c' : Conv) : Prop :=
  c'.ref = c.ref ∧ c'.state = c.state ∧ c'.dataopen = c.dataopen ∧ c'.controlopen = c.controlopen

theorem sameRefs_thwackuncomp {c c' : Conv} {subtype seq : ℕ} {b : Block} {r : Option Block}
    (h : thwackuncomp c subtype seq b = some (c', r)) : SameRefs c c' := by
  unfold thwackuncomp at h
  split_ifs at h
  · cases ho : c.out.compstate with
    | none => simp [ho] at h
    | some st =>
        cases st <;> simp only [ho, Option.some.injEq, Prod.mk.injEq, reduceCtorEq] at h
        obtain ⟨rfl, -⟩ := h
        exact ⟨rfl, rfl, rfl, rfl⟩
  · rcases hi : c.inp.compstate with _ | _ | ut <;>
      rcases ho : c.out.compstate with _ | tw | _ <;> simp only [hi, ho, reduceCtorEq] at h
    split at h
    · obtain ⟨rfl, -⟩ := Option.some.inj h |> Prod.mk.inj
      exact ⟨rfl, rfl, rfl, rfl⟩
    · simp at h
    · obtain ⟨rfl, -⟩ := Option.some.inj h |> Prod.mk.inj
      exact ⟨rfl, rfl, rfl, rfl⟩
  · obtain ⟨rfl, -⟩ := Option.some.inj h |> Prod.mk.inj
    exact ⟨rfl, rfl, rfl, rfl⟩

theorem keeps_convicomp {subtype seq : ℕ} {b : Block} : Keeps' (convicomp subtype seq b) := by
  unfold convicomp
  refine .getConv_bind fun c => ?_
  cases c.inp.comp with
  | none => exact .pure none
  | some f =>
      cases hu : thwackuncomp c subtype seq b with
      | none => exact .panic (by simp [RefPanic])
      | some r =>
          obtain ⟨c', b'⟩ := r
          rintro k d ct w hk h ⟨rfl, -⟩
          obtain ⟨h1, h2, h3, h4⟩ := sameRefs_thwackuncomp hu
          exact h.congr h1 h2 h3 h4

theorem keeps_conviputGood {type subtype seq : ℕ} {control : Bool} {b : Block} :
    Keeps' (conviputGood L env type subtype seq control b) := by
  unfold conviputGood
  refine .ite (fun _ => .bind keeps_convicontrol fun _ => .pure none) fun _ => .ite (fun _ => ?_)
    fun _ => .ite (fun _ => ?_) fun _ => .bind keeps_count fun _ => .pure none
  · exact .bind keeps_count fun _ => .ite (fun _ => .bind keeps_count fun _ => .pure none)
      fun _ => .pure _
  · refine .bind keeps_count fun _ => .bind keeps_convicomp fun r => ?_
    cases r with
    | none => exact .bind keeps_count fun _ => .pure none
    | some b =>
        exact .bind keeps_count fun _ => .ite (fun _ => .bind keeps_count fun _ => .pure none)
          fun _ => .pure _

theorem keeps_conviputAuth {type subtype seq seqwrap : ℕ} {seqdiff : ℤ} {control : Bool}
    {b : Block} : Keeps' (conviputAuth L env type subtype seq seqwrap seqdiff control b) := by
  unfold conviputAuth
  refine .getConv_bind fun c => ?_
  cases undoAuth L c.inp b with
  | none => exact .panic (by simp [RefPanic])
  | some r =>
      obtain ⟨_ | _, b⟩ := r
      · exact .bind keeps_count fun _ => .pure none
      · dsimp only
        cases undoCipher L c.inp b with
        | none => exact .panic (by simp [RefPanic])
        | some r =>
            obtain ⟨_ | _, ow, b⟩ := r
            · exact .bind (.setConv fun _ => ⟨rfl, rfl, rfl, rfl⟩) fun _ =>
                .bind keeps_count fun _ => .pure none
            · exact .bind (.setConv fun _ => ⟨rfl, rfl, rfl, rfl⟩) fun _ => keeps_conviputGood

theorem keeps_conviputSeq {type subtype : ℕ} {control : Bool} {b : Block} :
    Keeps' (conviputSeq L env type subtype control b) := by
  unfold conviputSeq
  refine .getConv_bind fun c => ?_
  dsimp only
  cases seqCheck c.inp (guess c.inp (b.byte 0 <<< 16 + b.byte 1 <<< 8 + b.byte 2)).2 with
  | old | dup => exact .bind keeps_count fun _ => .pure none
  | reorder => exact .bind keeps_count fun _ => keeps_conviputAuth
  | new => exact keeps_conviputAuth.mono fun _ _ => trivial

/-- The type of a packet. -/
def pktType (pkt : List UInt8) : ℕ := (Block.ofList pkt).byte 0 >>> 4

/-- The subtype of a packet. -/
def pktSubtype (pkt : List UInt8) : ℕ := (Block.ofList pkt).byte 0 &&& 0xf

/-- A packet behind its first byte. -/
def pktBody (pkt : List UInt8) : Block := { Block.ofList pkt with rp := 1 }

/-- The packet moves the conversation to a state that its sender is told of. -/
def Moves (c : Conv) (pkt : List UInt8) : Prop :=
  pktType pkt = TConnect ∧ Answers c (pktSubtype pkt) (pktBody pkt)

theorem keeps_conviput {pkt : List UInt8} {control : Bool} :
    Keeps (fun w => Moves w.conv pkt → ¬ env.refuses w) (conviput L env pkt control) := by
  unfold conviput
  refine .setConv_bind (fun w => Moves w.conv pkt → ¬ env.refuses w)
    (fun c => ⟨rfl, rfl, rfl, rfl⟩) (fun w h => h) ?_
  refine .ite (fun _ => (Keeps.bind keeps_count fun _ => .pure none).mono fun _ _ => trivial)
    fun hlen => ?_
  refine .ite (fun htype => ?_) fun _ => ?_
  · refine .bind (keeps_conviconnect.mono ?_) fun _ => .pure none
    exact fun w h ha => h ⟨htype, ha⟩
  · refine .getConv_bind fun c => ?_
    have hseq : ∀ {P : World → Prop} {type subtype : ℕ} {b : Block},
        Keeps P (conviputSeq L env type subtype control b) :=
      keeps_conviputSeq.mono fun _ _ => trivial
    cases c.state with
    | cInit | cDial => exact .bind keeps_count fun _ => .bind keeps_conreset fun _ => hseq
    | cAccept | cRemoteClose | cLocalClose => exact .bind keeps_count fun _ => .pure none
    | cOpen | cClosed | cFree => exact hseq

/-! ### The timer, readers and writers -/

theorem keeps_convretryinit {P : World → Prop} : Keeps P (convretryinit env) :=
  .setConv fun _ => ⟨rfl, rfl, rfl, rfl⟩

theorem keeps_convretry {reset : Bool} : Keeps' (convretry env reset) := by
  unfold convretry
  refine .setConv_bind (fun _ => True) (fun c => ⟨rfl, rfl, rfl, rfl⟩) (fun _ h => h) ?_
  refine .getConv_bind fun c => .ite (fun _ => ?_) fun _ =>
    .bind (.setConv fun _ => ⟨rfl, rfl, rfl, rfl⟩) fun _ => .pure _
  exact .ite (fun _ => .bind (keeps_convoconnect.mono fun _ _ => trivial) fun _ =>
    .bind keeps_convclose fun _ => .pure _) fun _ =>
    .bind (keeps_convclose.mono fun _ _ => trivial) fun _ => .pure _

theorem keeps_convtimer : Keeps' (convtimer L env) := by
  have hretry : ∀ {P : World → Prop} {reset : Bool}, Keeps P (convretry env reset) :=
    keeps_convretry.mono fun _ _ => trivial
  unfold convtimer
  refine .getConv_bind fun c => .ite (fun _ => .pure ()) fun _ => ?_
  cases c.state with
  | cFree | cInit | cRemoteClose | cClosed => exact .pure ()
  | cDial | cAccept | cLocalClose =>
      exact .bind hretry fun _ => .ite (fun _ => keeps_convoconnect) fun _ => .pure ()
  | cOpen =>
      dsimp only
      cases c.out.controlpkt with
      | some b => exact .bind hretry fun _ => .ite (fun _ => keeps_convoput) fun _ => .pure ()
      | none =>
          refine .bind (.setConv fun _ => ⟨rfl, rfl, rfl, rfl⟩) fun _ =>
            .ite (fun _ => .pure ()) fun _ => .ite (fun _ => .pure ()) fun _ => ?_
          exact .bind (.setConv fun _ => ⟨rfl, rfl, rfl, rfl⟩) fun _ =>
            .bind keeps_convretryinit fun _ => .waserror keeps_convoput fun _ => .pure ()

theorem keeps_readcontrol : Keeps' (readcontrol L env) := by
  unfold readcontrol
  refine .getConv_bind fun c => .ite (fun _ => .bind (.error _) fun _ => ?_) fun _ => ?_
  all_goals
    cases c.inp.controlpkt with
    | none => exact .pure _
    | some p =>
        refine .bind (keeps_convack.mono fun _ _ => trivial) fun _ => .getConv_bind fun _ => ?_
        exact .bind (.setConv fun _ => ⟨rfl, rfl, rfl, rfl⟩) fun _ => .pure _

theorem keeps_writewait : Keeps' writewait :=
  .getConv_bind fun _ => .ite (fun _ => .bind (.error _) fun _ => .pure _) fun _ => .pure _

theorem keeps_writecontrol {p : List UInt8} : Keeps' (writecontrol L env p) := by
  unfold writecontrol
  refine .bind keeps_writewait fun _ => .ite (fun _ => ?_) fun _ => .pure _
  refine .getConv_bind fun c => .bind (.setConv fun _ => ⟨rfl, rfl, rfl, rfl⟩) fun _ => ?_
  exact .bind keeps_convretryinit fun _ => .bind keeps_convoput fun _ => .pure _

theorem sameRefs_thwackcomp {c c' : Conv} {seq subtype : ℕ} {b bb : List UInt8}
    (h : thwackcomp c seq b = some (c', subtype, bb)) : SameRefs c c' := by
  unfold thwackcomp at h
  rcases hi : c.inp.compstate with _ | _ | ut <;>
    rcases ho : c.out.compstate with _ | tw | _ <;> simp only [hi, ho, reduceCtorEq] at h
  split at h <;>
  · obtain ⟨rfl, -⟩ := Option.some.inj h |> Prod.mk.inj
    exact ⟨rfl, rfl, rfl, rfl⟩

theorem keeps_writedata {b : List UInt8} : Keeps' (writedata L env b) := by
  have hout : ∀ {P : World → Prop} {type subtype : ℕ} {b : List UInt8},
      Keeps P (convoput L env type subtype b) := keeps_convoput.mono fun _ _ => trivial
  unfold writedata
  refine .getConv_bind fun c => .ite (fun _ => .bind (.error _) fun _ => ?_) fun _ => ?_
  all_goals
    refine .bind keeps_count fun _ => ?_
    cases c.out.comp with
    | none => exact .bind hout fun _ => .pure _
    | some f =>
        refine .getConv_bind fun c => ?_
        cases hu : thwackcomp c ((c.out.seq + 1) % SeqMax) b with
        | none => exact .bind (.panic (by simp [RefPanic])) fun _ => .pure _
        | some r =>
            obtain ⟨c', subtype, bb⟩ := r
            refine .bind (m := setConv fun _ => c') ?_ fun _ =>
              .bind keeps_count fun _ => .bind hout fun _ => .pure _
            rintro k d ct w hk h ⟨rfl, -⟩
            obtain ⟨h1, h2, h3, h4⟩ := sameRefs_thwackcomp hu
            exact h.congr h1 h2 h3 h4

/-! ### Control requests -/

/-- The request connects the conversation, so that it goes on to announce itself. -/
def Connects (env : Env) (c : Conv) : Prop :=
  c.state = .cInit ∧ c.chan = false ∧ env.noname = false ∧ env.noproc = false

/-- The conversation with a channel and a reader process. -/
def connected (path : String) (c : Conv) : Conv :=
  { c with chan := true, channame := some path, reader := true, ref := c.ref + 1 }

theorem wp_convopenchan {path : String} {Q : Unit → World → Prop} {E : Stop Panic → World → Prop}
    {w : World} : (convopenchan env path).wp Q E w ↔
      if w.conv.state ≠ .cInit ∨ w.conv.chan = true then E (.error "already connected") w
      else if env.noname = true then E (.error "cannot open channel") w
      else if env.noproc = true then
        E (.error "no procs") (w.map fun c => { c with chan := false, channame := none })
      else if w.conv.reader = false ∧ 0 < w.conv.ref then
        Q () { w.map (connected path) with nreader := w.nreader + 1 }
      else E (.panic .convopenchan)
        { w.map fun c => { c with chan := true, channame := some path } with
          nreader := w.nreader + 1 } := by
  simp only [convopenchan, wp_bind, wp_getConv, wp_ite, wp_error]
  split
  · rfl
  split
  · rfl
  simp only [wp_setConv, wp_waserror, kproc, wp_bind, wp_ite, wp_error, caught_error, wp_modify,
    wp_assert, World.map, decide_eq_true_eq, connected]
  rfl

theorem Held.connected {k d ct : ℤ} {n : ℕ} {c : Conv} {path : String} (hk : 1 ≤ k)
    (h : Held k d ct n c) : Held k d ct (n + 1) (connected path c) := by
  obtain ⟨h1, h2, h3, h4⟩ := h
  have := live_nonneg c.state
  refine ⟨?_, ⟨fun h0 => ?_, fun h0 => ?_⟩, h3, h4⟩ <;> simp only [Sdp.connected] at *
  · push_cast
    omega
  · omega
  · have := h2.mpr h0
    omega

theorem keeps_convopenchan {path : String} : Keeps' (convopenchan env path) := by
  intro k d ct w hk h _
  rw [wp_convopenchan]
  split_ifs
  · exact h
  · exact h
  · exact h
  · exact h.connected hk
  · exact stopHeld_panic (by simp [RefPanic])

theorem keeps_dial {path : String} :
    Keeps (fun w => Connects env w.conv → ¬ env.refuses w)
      (convopenchan env path >>= fun _ => convsetstate L env .cDial) := by
  intro k d ct w hk h hw
  rw [wp_bind, wp_convopenchan]
  split_ifs with h1 h2 h3 h4
  · exact h
  · exact h
  · exact h
  · refine keeps_convsetstate (by decide) k d ct _ hk (h.connected hk) fun _ => ?_
    refine hw ⟨?_, ?_, ?_, ?_⟩
    · exact not_not.mp fun hs => h1 (.inl hs)
    · simpa using fun hc => h1 (.inr hc)
    · simpa using h2
    · simpa using h3
  · exact stopHeld_panic (by simp [RefPanic])

section

variable (a : Cipheralg) (c : Conv) (ivec : List UInt8)

theorem sameRefs_cipherInit : SameRefs c (a.init L ivec c) := by
  cases a <;> exact ⟨rfl, rfl, rfl, rfl⟩

theorem sameRefs_authInit (a : Authalg) : SameRefs c (a.init L c) := by
  cases a <;> exact ⟨rfl, rfl, rfl, rfl⟩

theorem SameRefs.trans {c c' c'' : Conv} (h : SameRefs c c') (h' : SameRefs c' c'') :
    SameRefs c c'' := by
  obtain ⟨h1, h2, h3, h4⟩ := h
  obtain ⟨h1', h2', h3', h4'⟩ := h'
  exact ⟨h1'.trans h1, h2'.trans h2, h3'.trans h3, h4'.trans h4⟩

theorem sameRefs_recipher : SameRefs c (match c.cipher with
    | some a => a.init L env.ivec c
    | none => c) := by
  split
  · exact sameRefs_cipherInit _ c env.ivec
  · exact ⟨rfl, rfl, rfl, rfl⟩

theorem sameRefs_reinit : SameRefs c (reinit L env c) := by
  unfold reinit
  dsimp only
  split
  · exact (sameRefs_recipher c).trans (sameRefs_authInit _ _)
  · exact sameRefs_recipher c

end

theorem keeps_setcomp {a : Compalg} : Keeps' (setcomp env a) := by
  have hset : ∀ {P : World → Prop} {f : Conv → Conv}, (∀ c, SameRefs c (f c)) →
      Keeps P (setConv f) := fun hf => .setConv hf
  unfold setcomp
  refine .bind (hset fun _ => ⟨rfl, rfl, rfl, rfl⟩) fun _ => ?_
  cases a with
  | null => exact hset fun _ => ⟨rfl, rfl, rfl, rfl⟩
  | thwack =>
      unfold thwackcompinit
      refine .bind (hset fun _ => ⟨rfl, rfl, rfl, rfl⟩) fun _ =>
        .ite (fun _ => .bind (.error _) fun _ => ?_) fun _ => ?_
      all_goals
        refine .bind (hset fun _ => ⟨rfl, rfl, rfl, rfl⟩) fun _ =>
          .ite (fun _ => .bind (.error _) fun _ => ?_) fun _ => ?_
        all_goals exact hset fun _ => ⟨rfl, rfl, rfl, rfl⟩

/-- The control request dials. -/
def Dials (env : Env) (c : Conv) (f : List String) : Prop :=
  (∃ path, f = ["dial", path]) ∧ Connects env c

theorem CtlReq.lookup_eq_dial {name : String} (h : CtlReq.lookup name = some .dial) :
    name = "dial" := by
  unfold CtlReq.lookup at h
  simp only [List.lookup] at h
  split at h
  · simp at h
  · split at h
    · rename_i hn
      exact by simpa using hn
    · repeat' split at h
      all_goals simp at h

theorem keeps_run {req : CtlReq} {arg : String} :
    Keeps (fun w => req = .dial → Connects env w.conv → ¬ env.refuses w) (req.run L env arg) := by
  have hset : ∀ {P : World → Prop} {f : Conv → Conv}, (∀ c, SameRefs c (f c)) →
      Keeps P (setConv f) := fun hf => .setConv hf
  cases req with
  | accept => exact keeps_convopenchan.mono fun _ _ => trivial
  | dial => exact keeps_dial.mono fun _ h => h rfl
  | drop => exact hset fun _ => ⟨rfl, rfl, rfl, rfl⟩
  | cipher =>
      unfold CtlReq.run
      dsimp only
      cases Cipheralg.lookup arg with
      | none => exact .error _
      | some a =>
          have hinit := fun c : Conv => sameRefs_cipherInit (L := L) a { c with cipher := some a }
            env.ivec
          exact hset hinit
  | auth =>
      unfold CtlReq.run
      dsimp only
      cases Authalg.lookup arg with
      | none => exact .error _
      | some a => exact hset fun c => sameRefs_authInit { c with auth := some a } a
  | comp =>
      unfold CtlReq.run
      dsimp only
      cases Compalg.lookup arg with
      | none => exact .error _
      | some a => exact keeps_setcomp.mono fun _ _ => trivial
  | insecret | outsecret =>
      refine .getConv_bind fun c => .bind (hset fun _ => ⟨rfl, rfl, rfl, rfl⟩) fun _ =>
        .ite (fun _ => .bind (.error _) fun _ => ?_) fun _ => ?_
      all_goals exact hset fun c => sameRefs_reinit c

theorem keeps_sdpctl {f : List String} :
    Keeps (fun w => Dials env w.conv f → ¬ env.refuses w) (sdpctl L env f) := by
  unfold sdpctl
  cases f with
  | nil => exact .error _
  | cons arg0 args =>
      dsimp only
      cases hreq : CtlReq.lookup arg0 with
      | none => exact .error _
      | some req =>
          match args with
          | [] | _ :: _ :: _ => exact .error _
          | [arg] =>
              refine keeps_run.mono fun w h hdial hcon => h ⟨⟨arg, ?_⟩, hcon⟩
              subst hdial
              rw [CtlReq.lookup_eq_dial hreq]

end PlanNine.Sdp
