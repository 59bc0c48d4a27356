import Mathlib.Data.List.Basic
import Mathlib.Tactic

/-!
# The reliable half of RUDP

What `rudp.c` keeps for each destination, and the routines that work on it: a queue of messages that
are not acknowledged, of which the first one is sent again after a time; sequence numbers that skip
zero; and numbers of generations, by which an end knows its peer again. The messages handed to the
network and those freed from the queue are recorded, and how often the end hung up.

`generation` is a counter of the kernel. The addresses, ports and checksums of the packets and the
sleep of a writer with too many messages in the queue are left out.

## Main definitions

* `Msg`, `Reliable`, `Rel`: a message, the state of a destination, and that state with its records.
* `relackq`, `relhangup`, `relrexmit`, `relsendack`, `reliput`: the routines.
* `kick`, `tick`: the part of `rudpkick` and that of `relackproc` that deal with one destination.
-/

namespace PlanNine.Rudp

def Hangupgen : ℕ := 0xffffffff

def Rudptickms : ℕ := 50

def Rudprxms : ℕ := 200

def Rudpmaxxmit : ℕ := 10

def Maxunacked : ℕ := 100

/-- `INSEQ`. -/
def inseq (a start stop : ℕ) : Bool :=
  if start ≤ stop then start < a ∧ a ≤ stop else start < a ∨ a ≤ stop

/-- `NEXTSEQ`. -/
def nextseq (a : ℕ) : ℕ := if a + 1 = 4294967296 then 1 else a + 1

/-- The header of a message, and its data. -/
structure Msg where
  relseq : ℕ
  relsgen : ℕ
  relack : ℕ
  relagen : ℕ
  data : List UInt8 := []
  deriving DecidableEq, Repr

/-- The state of a destination. -/
structure Reliable where
  unacked : List Msg := []
  timeout : ℕ := 0
  xmits : ℕ := 0
  sndseq : ℕ := 0
  sndgen : ℕ
  rcvseq : ℕ := 0
  rcvgen : ℕ := 0
  acksent : ℕ := 0
  ackrcvd : ℕ := 0
  deriving DecidableEq, Repr

/-- The state of a destination, the counter of generations, the messages handed to the network, the
messages freed because they were acknowledged, and how often the end hung up. -/
structure Rel where
  r : Reliable
  generation : ℕ
  out : List Msg := []
  freed : List Msg := []
  hangups : ℕ := 0
  deriving DecidableEq, Repr

/-- The next generation and the counter behind it. -/
def nextgen (generation : ℕ) : ℕ × ℕ :=
  let g := if generation = Hangupgen then 0 else generation
  (g, (g + 1) % 4294967296)

/-- `relstate`, where there is no state yet for the destination. -/
def relstate (generation : ℕ) : Rel :=
  { r := { sndgen := (nextgen generation).1 }, generation := (nextgen generation).2 }

/-- Keep a copy of a message. -/
def relackq (r : Reliable) (m : Msg) : Reliable :=
  if r.unacked = [] then { r with timeout := 0, xmits := 1, unacked := [m] }
  else { r with unacked := r.unacked ++ [m] }

def relhangup (x : Rel) : Rel :=
  { x with
    r := { sndgen := (nextgen x.generation).1 }
    generation := (nextgen x.generation).2
    hangups := x.hangups + 1 }

/-- `doipoput`. -/
def Rel.put (x : Rel) (m : Msg) : Rel := { x with out := x.out ++ [m] }

/-- Send the first message of the queue again. -/
def relrexmit (x : Rel) : Rel :=
  let x' := { x with r := { x.r with timeout := 0, xmits := x.r.xmits + 1 } }
  if Rudpmaxxmit < x.r.xmits then relhangup x'
  else
    match x.r.unacked with
    | m :: _ => x'.put m
    | [] => x'

def relsendack (x : Rel) (hangup : Bool) : Rel :=
  let m : Msg :=
    { relseq := 0
      relsgen := if hangup then Hangupgen else x.r.sndgen
      relack := x.r.rcvseq
      relagen := x.r.rcvgen }
  { x with r := { x.r with acksent := max x.r.acksent x.r.rcvseq } }.put m

/-- The loop that frees what is acknowledged. -/
def dequeue (ack : ℕ) : List Msg → Rel → Rel
  | [], x => x
  | m :: ms, x =>
    if inseq ack x.r.ackrcvd x.r.sndseq then
      dequeue ack ms
        { x with
          r := { x.r with unacked := ms, ackrcvd := nextseq x.r.ackrcvd }
          freed := x.freed ++ [m] }
    else x

/-- The acknowledgement of a message is taken; what it leaves in the queue is sent again if it was
sent more than once. -/
def acked (ack : ℕ) (x : Rel) : Rel :=
  let y := dequeue ack x.r.unacked x
  if y.r.unacked ≠ x.r.unacked ∧ y.r.unacked ≠ [] then
    let z := { y with r := { y.r with timeout := 0 } }
    if 1 < z.r.xmits then relrexmit { z with r := { z.r with xmits := 1 } } else z
  else y

/-- Whether a message goes to the user; a state that is forgotten is taken off its list. -/
inductive Verdict where
  | pass | refuse | forget
  deriving DecidableEq, Repr

/-- The message is the next one, or is refused with an acknowledgement. -/
def inorder (x : Rel) (m : Msg) (qfull : Bool) : Rel × Verdict :=
  if m.relseq = 0 ∨ qfull = true then (x, .refuse)
  else if m.relseq ≠ nextseq x.r.rcvseq then (relsendack x false, .refuse)
  else ({ x with r := { x.r with rcvseq := m.relseq } }, .pass)

/-- A new generation of the peer is taken over, with a hangup if there was another one. -/
def meet (x : Rel) (sgen : ℕ) : Rel :=
  if x.r.rcvgen = sgen then x
  else
    let y := if x.r.rcvgen ≠ 0 then relhangup x else x
    { y with r := { y.r with rcvgen := sgen } }

/-- `reliput`; `qfull` is whether the read queue is full. -/
def reliput (x : Rel) (m : Msg) (qfull : Bool) : Rel × Verdict :=
  if m.relack ≠ 0 ∧ m.relagen ≠ x.r.sndgen then (x, .refuse)
  else if m.relsgen = Hangupgen then
    if m.relagen = x.r.sndgen then (relhangup x, .forget) else (x, .refuse)
  else if x.r.rcvgen ≠ m.relsgen ∧ m.relseq ≠ 0 ∧ m.relseq ≠ 1 then (x, .refuse)
  else
    let y := meet x m.relsgen
    let z := if m.relack ≠ 0 ∧ m.relagen = y.r.sndgen then acked m.relack y else y
    inorder z m qfull

/-- The message that is made of what a user writes. -/
def kicked (r : Reliable) (data : List UInt8) : Msg :=
  { relseq := nextseq r.sndseq
    relsgen := r.sndgen
    relack := r.rcvseq
    relagen := r.rcvgen
    data := data }

/-- The part of `rudpkick` that numbers a message, queues it and sends it. -/
def kick (x : Rel) (data : List UInt8) : Rel :=
  let m := kicked x.r data
  let r := { x.r with sndseq := nextseq x.r.sndseq, acksent := x.r.rcvseq }
  { x with r := relackq r m }.put m

/-- The part of `relackproc` that looks at the time since the first message was sent. -/
def tickTimeout (x : Rel) : Rel :=
  if x.r.unacked = [] then x
  else
    let y := { x with r := { x.r with timeout := x.r.timeout + Rudptickms } }
    if Rudprxms * y.r.xmits < y.r.timeout then relrexmit y else y

/-- What `relackproc` does for a destination every 50 milliseconds. -/
def tick (x : Rel) : Rel :=
  let y := tickTimeout x
  if y.r.acksent ≠ y.r.rcvseq then relsendack y false else y

/-! ### What `reliput` passes on -/

theorem dequeue_rcv (ack : ℕ) (ms : List Msg) (x : Rel) :
    (dequeue ack ms x).r.rcvseq = x.r.rcvseq ∧ (dequeue ack ms x).r.rcvgen = x.r.rcvgen := by
  induction ms generalizing x with
  | nil => exact ⟨rfl, rfl⟩
  | cons m ms ih =>
    rw [dequeue]
    split_ifs
    · exact ih _
    · exact ⟨rfl, rfl⟩

/-- An acknowledgement does not change what was received. -/
theorem acked_rcv (ack : ℕ) (x : Rel) :
    (acked ack x).r.rcvseq = x.r.rcvseq ∧ (acked ack x).r.rcvgen = x.r.rcvgen := by
  have hd := dequeue_rcv ack x.r.unacked x
  dsimp only [acked]
  split_ifs
  · rw [relrexmit, if_neg (by decide : ¬Rudpmaxxmit < 1)]
    split
    · exact hd
    · exact hd
  · exact hd
  · exact hd

/-- A message goes to the user: it acknowledges nothing or the present generation, is no hangup, and
is the next one of the peer's generation, or the first one of a new generation. -/
def Accepts (r : Reliable) (m : Msg) (qfull : Bool) : Prop :=
  (m.relack = 0 ∨ m.relagen = r.sndgen) ∧ m.relsgen ≠ Hangupgen ∧ qfull = false ∧
    if r.rcvgen = m.relsgen then m.relseq ≠ 0 ∧ m.relseq = nextseq r.rcvseq
    else m.relseq = 1 ∧ (r.rcvgen = 0 → nextseq r.rcvseq = 1)

instance (r : Reliable) (m : Msg) (qfull : Bool) : Decidable (Accepts r m qfull) :=
  inferInstanceAs (Decidable (_ ∧ _ ∧ _ ∧ _))

theorem inorder_pass_iff (x : Rel) (m : Msg) (qfull : Bool) : (inorder x m qfull).2 = .pass ↔
    m.relseq ≠ 0 ∧ qfull = false ∧ m.relseq = nextseq x.r.rcvseq := by
  rw [inorder]
  split_ifs with hrefuse hseq
  · refine iff_of_false nofun fun h => ?_
    rcases hrefuse with hzero | hfull
    · exact h.1 hzero
    · exact Bool.false_ne_true (h.2.1.symm.trans hfull)
  · exact iff_of_false nofun fun h => hseq h.2.2
  · rw [not_or, Bool.not_eq_true] at hrefuse
    exact iff_of_true rfl ⟨hrefuse.1, hrefuse.2, not_not.mp hseq⟩

theorem meet_rcvseq (x : Rel) (sgen : ℕ) : (meet x sgen).r.rcvseq =
    if x.r.rcvgen = sgen ∨ x.r.rcvgen = 0 then x.r.rcvseq else 0 := by
  rw [meet]
  by_cases hgen : x.r.rcvgen = sgen
  · rw [if_pos hgen, if_pos (.inl hgen)]
  · by_cases hzero : x.r.rcvgen = 0
    · have hor : x.r.rcvgen = sgen ∨ x.r.rcvgen = 0 := .inr hzero
      rw [if_neg hgen, if_pos hor]
      dsimp only
      rw [if_neg (not_not.mpr hzero)]
    · have hor : ¬(x.r.rcvgen = sgen ∨ x.r.rcvgen = 0) := not_or.mpr ⟨hgen, hzero⟩
      rw [if_neg hgen, if_neg hor]
      dsimp only
      rw [if_pos hzero]
      rfl

/-- `reliput` passes on just what is to go to the user. -/
theorem reliput_pass_iff (x : Rel) (m : Msg) (qfull : Bool) :
    (reliput x m qfull).2 = .pass ↔ Accepts x.r m qfull := by
  have hin {z : Rel} (hz : z.r.rcvseq = (meet x m.relsgen).r.rcvseq)
      (hack : m.relack = 0 ∨ m.relagen = x.r.sndgen) (hhang : m.relsgen ≠ Hangupgen)
      (hgen : ¬(x.r.rcvgen ≠ m.relsgen ∧ m.relseq ≠ 0 ∧ m.relseq ≠ 1)) :
      (inorder z m qfull).2 = .pass ↔ Accepts x.r m qfull := by
    rw [inorder_pass_iff, Accepts, hz, meet_rcvseq]
    by_cases hsame : x.r.rcvgen = m.relsgen
    · rw [if_pos (.inl hsame), if_pos hsame]
      tauto
    · rw [if_neg hsame]
      have hone : m.relseq ≠ 0 ↔ m.relseq = 1 := by
        constructor
        · intro hne
          by_contra h1
          exact hgen ⟨hsame, hne, h1⟩
        · intro h1
          rw [h1]
          exact one_ne_zero
      rw [hone]
      by_cases hzero : x.r.rcvgen = 0
      · rw [if_pos (.inr hzero)]
        constructor
        · exact fun h => ⟨hack, hhang, h.2.1, h.1, fun _ => h.2.2 ▸ h.1⟩
        · exact fun h => ⟨h.2.2.2.1, h.2.2.1, h.2.2.2.1.trans (h.2.2.2.2 hzero).symm⟩
      · rw [if_neg (not_or.mpr ⟨hsame, hzero⟩)]
        constructor
        · exact fun h => ⟨hack, hhang, h.2.1, h.1, fun h0 => absurd h0 hzero⟩
        · exact fun h => ⟨h.2.2.2.1, h.2.2.1, h.2.2.2.1⟩
  dsimp only [reliput]
  split_ifs with hstale hhang hforget hold hacked
  · refine iff_of_false nofun fun h => ?_
    exact h.1.elim hstale.1 hstale.2
  · exact iff_of_false nofun fun h => h.2.1 hhang
  · exact iff_of_false nofun fun h => h.2.1 hhang
  · refine iff_of_false nofun fun h => ?_
    have h1 := h.2.2.2
    rw [if_neg hold.1] at h1
    exact hold.2.2 h1.1
  · exact hin (acked_rcv _ _).1 (by tauto) hhang hold
  · exact hin rfl (by tauto) hhang hold

end PlanNine.Rudp
