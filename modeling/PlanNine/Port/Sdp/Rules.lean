import PlanNine.Port.Sdp.Dev

/-!
# What the routines of a conversation do

The weakest preconditions of the routines that drop references, close a conversation and write to
its channel, in the cases that the other results need.

## Main definitions

* `closed`: the conversation that `convclose` leaves while somebody else holds it.
* `Env.refuses`: the write that comes next raises an error.
* `World.wrote`: the world after a write that raised none.

## Main results

* `wp_convclose_of_held`, `wp_convwriteblock`, `wp_convoconnect`.
-/

namespace PlanNine.Sdp

open Kern

variable {L : Libsec} {env : Env} {Q : Unit → World → Prop} {E : Stop Panic → World → Prop}
  {w : World}

theorem wp_convderef_of_pos (h : 1 < w.conv.ref) : convderef.wp Q E w ↔ Q () (w.map dropRef) := by
  have h' : 0 < w.conv.ref - 1 := by omega
  simp only [convderef, dropRef, wp_bind, wp_setConv, wp_getConv, World.conv_map, wp_ite, wp_pure,
    h', if_true]

theorem wp_convderef_of_last (h : w.conv.ref = 1) (hd : w.conv.dataopen = 0)
    (hc : w.conv.controlopen = 0) :
    convderef.wp Q E w ↔ Q () ((w.map dropRef).map cleared) := by
  have h' : w.conv.ref - 1 = 0 := by omega
  simp only [convderef, dropRef, wp_bind, wp_setConv, wp_getConv, World.conv_map, wp_ite, wp_pure,
    wp_assert, h', hd, hc, decide_true, if_true]
  rfl

/-- The conversation closed while somebody else holds it. -/
def closed (c : Conv) : Conv :=
  { c with ref := if c.state = .cClosed then c.ref else c.ref - 1, state := .cClosed }

@[simp] theorem closed_state (c : Conv) : (closed c).state = .cClosed := rfl
@[simp] theorem closed_inp (c : Conv) : (closed c).inp = c.inp := rfl
@[simp] theorem closed_out (c : Conv) : (closed c).out = c.out := rfl

theorem wp_convclose_of_held (h : w.conv.state = .cClosed ∨ 1 < w.conv.ref) :
    convclose.wp Q E w ↔ Q () (w.map closed) := by
  by_cases hs : w.conv.state = .cClosed
  · have hc : closed w.conv = { w.conv with state := .cClosed } := by
      simp [closed, hs]
    simp only [convclose, wp_bind, wp_getConv, wp_ite, hs, ne_eq, not_true, if_false, wp_setConv,
      World.map, hc]
  · have hc : closed w.conv = { dropRef w.conv with state := .cClosed } := by
      simp [closed, dropRef, hs]
    simp only [convclose, wp_bind, wp_getConv, wp_ite, hs, ne_eq, not_false_eq_true, if_true,
      wp_convderef_of_pos (h.resolve_left hs), wp_setConv, World.map, hc]

/-- The channel raises an error at the next write. -/
def Env.refuses (env : Env) (w : World) : Prop :=
  env.fails w.nwrite = true ∧ ¬ (w.conv.drop ≠ 0 ∧ env.dropped w.nwrite = true)

/-- The world after a write that raised no error: the packet is sent or dropped. -/
def World.wrote (env : Env) (w : World) (b : List UInt8) : World :=
  { w with
    nwrite := w.nwrite + 1
    sent := if w.conv.drop ≠ 0 ∧ env.dropped w.nwrite = true then w.sent else w.sent ++ [b] }

@[simp] theorem World.conv_wrote (w : World) (b : List UInt8) : (w.wrote env b).conv = w.conv := rfl

@[simp] theorem World.nreader_wrote (w : World) (b : List UInt8) :
    (w.wrote env b).nreader = w.nreader := rfl

@[simp] theorem World.handed_wrote (w : World) (b : List UInt8) :
    (w.wrote env b).handed = w.handed := rfl

/-- A write either goes through, or closes the conversation and raises an error. -/
theorem wp_convwriteblock {b : List UInt8} (hchan : w.conv.chan = true) :
    (convwriteblock env b).wp Q E w ↔
      (¬ env.refuses w → Q () (w.wrote env b)) ∧
      (env.refuses w → convclose.wp (fun _ w' => E (.error "write error") w') E
        { w with nwrite := w.nwrite + 1 }) := by
  by_cases hd : w.conv.drop ≠ 0 ∧ env.dropped w.nwrite = true
  · simp only [convwriteblock, wp_bind, wp_get, wp_modify, wp_ite, hd, ne_eq, not_false_eq_true,
      and_self, if_true, wp_pure, Env.refuses, not_true, and_false, World.wrote, forall_const,
      false_implies, and_true]
  · simp only [convwriteblock, wp_bind, wp_get, wp_modify, wp_ite, hd, if_false, wp_pure, wp_assert,
      hchan, if_true, wp_error, Env.refuses, World.wrote, not_false_eq_true, and_true]
    split <;> rename_i hf
    · simp only [hf, not_true, false_implies, true_and, forall_const]
    · simp [hf]

@[simp] theorem countOut_chan (c : Conv) : (countOut c).chan = c.chan := rfl

/-- A connection packet is sent, or the conversation is closed; no error comes out. -/
theorem wp_convoconnect {op dialid acceptid : ℕ} :
    (convoconnect env op dialid acceptid).wp Q E w ↔
      if w.conv.chan = true then
        (¬ env.refuses w →
          Q () ((w.map countOut).wrote env (connectPacket op dialid acceptid))) ∧
        (env.refuses w →
          convclose.wp (fun _ => Q ()) (caught (fun _ => Q ()) E)
            { w.map countOut with nwrite := w.nwrite + 1 })
      else E (.panic .convoconnect) (w.map countOut) := by
  by_cases hc : w.conv.chan = true
  · simp only [convoconnect, wp_bind, wp_setConv, wp_getConv, World.conv_map, wp_assert,
      countOut_chan, hc, if_true, wp_waserror]
    rw [wp_convwriteblock (w := w.map countOut) hc]
    rfl
  · simp only [convoconnect, wp_bind, wp_setConv, wp_getConv, World.conv_map, wp_assert,
      countOut_chan, hc]
    rfl

end PlanNine.Sdp
