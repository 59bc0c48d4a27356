import Mathlib.Data.List.Infix
import Mathlib.Order.Basic

/-!
# Stop and wait

A sender numbers its messages from one and holds the next one back until the last is acknowledged.
The receiver takes the message that comes next, keeps it in a slot of one message until a reader
takes it, and acknowledges it only then; a message that is a mere ping is acknowledged at once and
goes to no reader. Messages and acknowledgements may be lost, repeated and delivered in any order:
any message sent so far may be delivered, and any acknowledgement made so far.

## Main definitions

* `StopWait`: the sender, the receiver and the acknowledgements between them.
* `StopWait.Step`: a step of either side.
* `StopWait.Inv`: what holds in every run.

## Main results

* `StopWait.Inv.step`: each step keeps the invariant.
* `StopWait.Inv.got_initial`: the messages read are the first of those sent, pings left out.
-/

namespace PlanNine

variable {α : Type*}

/-- The messages sent and whether the last of them is still to be acknowledged, the
acknowledgements made, and the last number received, the slot and the messages read. -/
structure StopWait (α : Type*) where
  sent : List α := []
  pending : Bool := false
  acks : List ℕ := []
  seq : ℕ := 0
  slot : Option α := none
  got : List α := []

namespace StopWait

variable (ping : α → Bool)

/-- A step of the sender, of the receiver or of the reader. -/
inductive Step (s : StopWait α) : StopWait α → Prop
  /-- the next message is sent -/
  | send (m : α) (hidle : s.pending = false) :
      Step s { s with sent := s.sent ++ [m], pending := true }
  /-- an acknowledgement of the last message arrives -/
  | acked (hack : s.sent.length ∈ s.acks) : Step s { s with pending := false }
  /-- the next message arrives and is a ping -/
  | pinged {m : α} (hm : s.sent[s.seq]? = some m) (hping : ping m = true) :
      Step s { s with seq := s.seq + 1, acks := s.acks ++ [s.seq + 1] }
  /-- the next message arrives for the reader -/
  | filled {m : α} (hm : s.sent[s.seq]? = some m) (hping : ping m = false) :
      Step s { s with seq := s.seq + 1, slot := some m }
  /-- the last message arrives again after it was read -/
  | again (hslot : s.slot = none) : Step s { s with acks := s.acks ++ [s.seq] }
  /-- the message in the slot is read -/
  | read {m : α} (hslot : s.slot = some m) :
      Step s { s with slot := none, acks := s.acks ++ [s.seq], got := s.got ++ [m] }

/-- The messages received are the first of those sent, at most one is missing, and none is missing
or unread when the sender does not wait. An acknowledgement of the last message received tells that
it was read. -/
structure Inv (s : StopWait α) : Prop where
  order : s.got ++ s.slot.toList = (s.sent.take s.seq).filter fun m => !ping m
  seq_le : s.seq ≤ s.sent.length
  le_seq : s.sent.length ≤ s.seq + 1
  idle : s.pending = false → s.seq = s.sent.length ∧ s.slot = none
  missing : s.sent.length = s.seq + 1 → s.slot = none
  acks : ∀ n ∈ s.acks, n ≤ s.seq ∧ (n = s.seq → s.slot = none)

variable {ping} {s t : StopWait α}

theorem inv_init : Inv ping ({} : StopWait α) where
  order := rfl
  seq_le := le_rfl
  le_seq := Nat.zero_le _
  idle := fun _ => ⟨rfl, rfl⟩
  missing := fun _ => rfl
  acks := fun _ h => absurd h List.not_mem_nil

/-- One more acknowledgement of the last message received, when it is read. -/
theorem Inv.acks_append (h : ∀ n ∈ s.acks, n ≤ s.seq) :
    ∀ n ∈ s.acks ++ [s.seq], n ≤ s.seq := by
  intro n hn
  rcases List.mem_append.mp hn with hn | hn
  · exact h n hn
  · exact (List.mem_singleton.mp hn).le

theorem Inv.step (h : Inv ping s) (hstep : Step ping s t) : Inv ping t := by
  have hacks : ∀ n ∈ s.acks, n ≤ s.seq := fun n hn => (h.acks n hn).1
  cases hstep with
  | send m hidle =>
    obtain ⟨hseq, hslot⟩ := h.idle hidle
    refine ⟨?_, ?_, ?_, fun hp => Bool.noConfusion hp, fun _ => hslot, h.acks⟩
    · rw [h.order, List.take_append_of_le_length h.seq_le]
    · rw [List.length_append]
      exact h.seq_le.trans (Nat.le_add_right _ _)
    · rw [List.length_append, hseq]
      rfl
  | acked hack =>
    obtain ⟨hle, hslot⟩ := h.acks _ hack
    have heq : s.sent.length = s.seq := le_antisymm hle h.seq_le
    exact ⟨h.order, h.seq_le, h.le_seq, fun _ => ⟨heq.symm, hslot heq⟩, h.missing, h.acks⟩
  | pinged hm hping =>
    have hlt : s.seq < s.sent.length := (List.getElem?_eq_some_iff.mp hm).1
    have hlast : s.sent.length = s.seq + 1 := le_antisymm h.le_seq hlt
    have hslot : s.slot = none := h.missing hlast
    refine ⟨?_, hlt, hlast.le.trans (Nat.le_succ _), fun _ => ⟨hlast.symm, hslot⟩, fun _ => hslot,
      fun n hn => ⟨?_, fun _ => hslot⟩⟩
    · rw [h.order, List.take_add_one, hm, List.filter_append]
      simp [hping]
    · exact Inv.acks_append (s := { s with seq := s.seq + 1 })
        (fun n hn => (hacks n hn).trans (Nat.le_succ _)) n hn
  | filled hm hping =>
    have hlt : s.seq < s.sent.length := (List.getElem?_eq_some_iff.mp hm).1
    have hlast : s.sent.length = s.seq + 1 := le_antisymm h.le_seq hlt
    have horder := h.order
    rw [h.missing hlast, Option.toList_none, List.append_nil] at horder
    refine ⟨?_, hlt, hlast.le.trans (Nat.le_succ _), fun hp => ?_, fun hn => ?_, fun n hn => ?_⟩
    · rw [horder, List.take_add_one, hm, List.filter_append]
      simp [hping]
    · have := (h.idle hp).1
      omega
    · exact absurd (hlast.symm.trans hn) (by simp)
    · have hle : n < s.seq + 1 := Nat.lt_succ_of_le (hacks n hn)
      exact ⟨hle.le, fun heq => absurd heq hle.ne⟩
  | again hslot =>
    exact ⟨h.order, h.seq_le, h.le_seq, h.idle, h.missing,
      fun n hn => ⟨Inv.acks_append hacks n hn, fun _ => hslot⟩⟩
  | read hslot =>
    have horder := h.order
    rw [hslot, Option.toList_some] at horder
    refine ⟨?_, h.seq_le, h.le_seq, fun hp => ⟨(h.idle hp).1, rfl⟩, fun _ => rfl,
      fun n hn => ⟨Inv.acks_append hacks n hn, fun _ => rfl⟩⟩
    rw [Option.toList_none, List.append_nil, horder]

/-- What was read is the beginning of what was sent, without the pings. -/
theorem Inv.got_initial (h : Inv ping s) : s.got <+: s.sent.filter fun m => !ping m := by
  have hread : s.got <+: (s.sent.take s.seq).filter fun m => !ping m := by
    rw [← h.order]
    exact List.prefix_append _ _
  have hsent : s.sent.take s.seq <+: s.sent := ⟨s.sent.drop s.seq, List.take_append_drop _ _⟩
  exact hread.trans (hsent.filter _)

end StopWait

end PlanNine
