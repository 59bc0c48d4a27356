import Mathlib.Data.List.TakeWhile
import PlanNine.Ip.Rudp.Rel
import PlanNine.Lib.Run

/-!
# Messages between two ends of RUDP

Two ends that each keep the state of the other one. The packets of the network are all that were
ever handed to it, so that they may be lost, repeated and reordered. While no end hangs up, the
messages that `reliput` passes on are the first of those written at the other end, and what it frees
from the queue has been passed on there.

## Main definitions

* `End`, `step`: an end with what was written and passed on there, and the steps of two ends.
* `Half`, `Good`: what holds of a sender and a receiver, and of two ends.
* `Calm`: no end has hung up, and few messages were written.

## Main results

* `Good.write`, `Good.arrive`, `Good.tick`: the invariant is kept.
* `delivered_once_of_run`: delivery in order, each message once.
-/

namespace PlanNine.Rudp

/-- An end: the state of its peer, the messages written here, and those passed on to the reader. -/
structure End where
  rel : Rel
  wrote : List (List UInt8) := []
  got : List (List UInt8) := []
  deriving DecidableEq, Repr

abbrev System := Bool → End

/-- A user writes at an end, a packet that the other end sent arrives, or time passes. -/
inductive Event
  | write (x : Bool) (data : List UInt8)
  | arrive (x : Bool) (m : Msg) (qfull : Bool)
  | tick (x : Bool)
  deriving DecidableEq, Repr

/-- A user writes a message. -/
def End.write (e : End) (data : List UInt8) : End :=
  { e with rel := kick e.rel data, wrote := e.wrote ++ [data] }

/-- What `reliput` leaves, and the data where it lets them pass. -/
def End.take (e : End) (data : List UInt8) : Rel × Verdict → End
  | (x, .pass) => { e with rel := x, got := e.got ++ [data] }
  | (x, _) => { e with rel := x }

/-- A packet comes in. -/
def End.arrive (e : End) (m : Msg) (qfull : Bool) : End :=
  e.take m.data (reliput e.rel m qfull)

/-- `relackproc` comes by. -/
def End.tick (e : End) : End := { e with rel := Rudp.tick e.rel }

def step (s : System) : Event → Option System
  | .write x data => some (Function.update s x ((s x).write data))
  | .arrive x m qfull =>
    if m ∈ (s !x).rel.out then some (Function.update s x ((s x).arrive m qfull)) else none
  | .tick x => some (Function.update s x (s x).tick)

/-- An end at the start, with the counter of generations as it is there. -/
def begun (generation : ℕ) : End := { rel := relstate generation }

/-! ### The invariant -/

/-- A message holds what its number stands for. -/
structure Carries (wrote : List (List UInt8)) (m : Msg) : Prop where
  pos : 0 < m.relseq
  le : m.relseq ≤ wrote.length
  data : wrote[m.relseq - 1]? = some m.data

/-- A packet acknowledges no more than was passed on, to the generation `sndgen`. -/
structure Acks (rcvseq sndgen : ℕ) (m : Msg) : Prop where
  le : m.relack ≤ rcvseq
  gen : m.relack ≠ 0 → m.relagen = sndgen

/-- What holds of the sender `e` and the receiver `d`. -/
structure Half (e d : End) : Prop where
  sndseq : e.rel.r.sndseq = e.wrote.length
  short : e.wrote.length < 2147483648
  sndgen : e.rel.r.sndgen ≠ Hangupgen
  rcv_le : d.rel.r.rcvseq ≤ e.wrote.length
  got : d.got = e.wrote.take d.rel.r.rcvseq
  ack_le : e.rel.r.ackrcvd ≤ d.rel.r.rcvseq
  count : e.rel.r.ackrcvd + e.rel.r.unacked.length = e.wrote.length
  unacked : e.rel.r.unacked.map Msg.data = e.wrote.drop e.rel.r.ackrcvd
  freed : e.rel.freed.map Msg.data = e.wrote.take e.rel.r.ackrcvd
  queued : ∀ m ∈ e.rel.r.unacked, m.relsgen = e.rel.r.sndgen ∧ Carries e.wrote m
  out : ∀ m ∈ e.rel.out, m.relsgen = e.rel.r.sndgen ∧ (m.relseq ≠ 0 → Carries e.wrote m)
  queued_acks : ∀ m ∈ d.rel.r.unacked, Acks d.rel.r.rcvseq e.rel.r.sndgen m
  acks : ∀ m ∈ d.rel.out, Acks d.rel.r.rcvseq e.rel.r.sndgen m
  rcvgen : d.rel.r.rcvgen = 0 ∨ d.rel.r.rcvgen = e.rel.r.sndgen
  met : d.rel.r.rcvseq ≠ 0 → d.rel.r.rcvgen = e.rel.r.sndgen

/-- What holds of two ends. -/
structure Good (e d : End) : Prop where
  out : Half e d
  inp : Half d e

theorem Good.symm {e d : End} (h : Good e d) : Good d e := ⟨h.inp, h.out⟩

theorem half_begun (g g' : ℕ) : Half (begun g) (begun g') where
  sndseq := rfl
  short := Nat.two_pow_pos 31
  sndgen := by
    simp only [begun, relstate, nextgen]
    split_ifs with h
    · decide
    · exact h
  rcv_le := le_rfl
  got := rfl
  ack_le := le_rfl
  count := rfl
  unacked := rfl
  freed := rfl
  queued := nofun
  out := nofun
  queued_acks := nofun
  acks := nofun
  rcvgen := .inl rfl
  met := fun h => absurd rfl h

theorem nextseq_of_lt {a : ℕ} (h : a < 2147483648) : nextseq a = a + 1 := if_neg (by omega)

theorem Carries.append {wrote l : List (List UInt8)} {m : Msg} (h : Carries wrote m) :
    Carries (wrote ++ l) m where
  pos := h.pos
  le := h.le.trans (by simp)
  data := by
    have hpos := h.pos
    have hle := h.le
    rw [List.getElem?_append_left (by omega)]
    exact h.data

theorem Acks.mono {a b g : ℕ} {m : Msg} (h : Acks a g m) (hab : a ≤ b) : Acks b g m :=
  ⟨h.le.trans hab, h.gen⟩

section

variable {e d : End} {m : Msg}

/-! ### Small changes of an end -/

/-- A packet is handed to the network. -/
theorem Good.put (h : Good e d) (hsgen : m.relsgen = e.rel.r.sndgen)
    (hseq : m.relseq ≠ 0 → Carries e.wrote m) (hack : Acks e.rel.r.rcvseq d.rel.r.sndgen m) :
    Good { e with rel := e.rel.put m } d where
  out := { h.out with
    out := fun m' hm' => by
      rcases List.mem_append.mp hm' with hm' | hm'
      · exact h.out.out m' hm'
      · rw [List.mem_singleton.mp hm']
        exact ⟨hsgen, hseq⟩ }
  inp := { h.inp with
    acks := fun m' hm' => by
      rcases List.mem_append.mp hm' with hm' | hm'
      · exact h.inp.acks m' hm'
      · rw [List.mem_singleton.mp hm']
        exact hack }

/-- The timer, the count of transmissions and the last acknowledgement sent do not matter. -/
theorem Good.timers (h : Good e d) (timeout xmits acksent : ℕ) :
    Good { e with rel := { e.rel with r := { e.rel.r with
      timeout := timeout, xmits := xmits, acksent := acksent } } } d :=
  ⟨{ h.out with }, { h.inp with }⟩

/-- The generation of the peer is taken over. -/
theorem Good.learn (h : Good e d) :
    Good { e with rel := { e.rel with r := { e.rel.r with rcvgen := d.rel.r.sndgen } } } d :=
  ⟨{ h.out with }, { h.inp with rcvgen := .inr rfl, met := fun _ => rfl }⟩

/-- What the peer has passed on is freed. -/
theorem Good.pop (h : Good e d) {ms : List Msg} (hun : e.rel.r.unacked = m :: ms)
    (hlt : e.rel.r.ackrcvd < d.rel.r.rcvseq) :
    Good { e with rel := { e.rel with
      r := { e.rel.r with unacked := ms, ackrcvd := e.rel.r.ackrcvd + 1 }
      freed := e.rel.freed ++ [m] } } d := by
  have hcount := h.out.count
  have hdata := h.out.unacked
  rw [hun, List.length_cons] at hcount
  rw [hun, List.map_cons] at hdata
  have hm : e.wrote[e.rel.r.ackrcvd]? = some m.data := by
    have h0 := congrArg List.head? hdata
    rw [List.head?_cons, List.head?_drop] at h0
    exact h0.symm
  refine ⟨{ h.out with
    ack_le := hlt
    count := ?_
    unacked := ?_
    freed := ?_
    queued := fun m' hm' => h.out.queued m' (hun ▸ List.mem_cons_of_mem _ hm') },
    { h.inp with queued_acks := fun m' hm' =>
        h.inp.queued_acks m' (hun ▸ List.mem_cons_of_mem _ hm') }⟩
  · dsimp only
    omega
  · have htail := congrArg List.tail hdata
    rwa [List.tail_cons, List.tail_drop] at htail
  · rw [List.map_append, h.out.freed, List.take_add_one, hm]
    rfl

/-- The next message is passed on. -/
theorem Good.accept (h : Good e d) (hm : Carries d.wrote m)
    (hseq : m.relseq = e.rel.r.rcvseq + 1) (hgen : e.rel.r.rcvgen = d.rel.r.sndgen) :
    Good { e with
      rel := { e.rel with r := { e.rel.r with rcvseq := m.relseq } }
      got := e.got ++ [m.data] } d := by
  have hle : e.rel.r.rcvseq ≤ m.relseq := by omega
  refine ⟨{ h.out with }, { h.inp with
    rcv_le := hm.le
    got := ?_
    ack_le := h.inp.ack_le.trans hle
    queued_acks := fun m' hm' => (h.inp.queued_acks m' hm').mono hle
    acks := fun m' hm' => (h.inp.acks m' hm').mono hle
    met := fun _ => hgen }⟩
  have hdata := hm.data
  rw [hseq, Nat.add_sub_cancel] at hdata
  dsimp only
  rw [h.inp.got, hseq, List.take_add_one, hdata]
  rfl

/-- What acknowledges the messages passed on is a proper acknowledgement. -/
theorem Good.acks_rcvseq (h : Good e d) (hack : m.relack = e.rel.r.rcvseq)
    (hgen : m.relagen = e.rel.r.rcvgen) : Acks e.rel.r.rcvseq d.rel.r.sndgen m :=
  ⟨hack.le, fun hne => hgen.trans (h.inp.met (hack ▸ hne))⟩

/-- A message is numbered and queued. -/
theorem Good.queue (h : Good e d) (data : List UInt8)
    (hlen : e.wrote.length + 1 < 2147483648) :
    Good { e with
      rel := { e.rel with r := { e.rel.r with
        sndseq := nextseq e.rel.r.sndseq
        unacked := e.rel.r.unacked ++ [kicked e.rel.r data] } }
      wrote := e.wrote ++ [data] } d ∧ Carries (e.wrote ++ [data]) (kicked e.rel.r data) := by
  have hseq : nextseq e.rel.r.sndseq = e.wrote.length + 1 := by
    rw [h.out.sndseq]
    exact nextseq_of_lt h.out.short
  have hcarries : Carries (e.wrote ++ [data]) (kicked e.rel.r data) := by
    refine ⟨?_, ?_, ?_⟩ <;> dsimp only [kicked] <;> rw [hseq]
    · exact Nat.succ_pos _
    · simp
    · simp
  have hcount := h.out.count
  have hlength : (e.wrote ++ [data]).length = e.wrote.length + 1 := by simp
  refine ⟨⟨{ h.out with
    sndseq := hseq.trans hlength.symm
    short := hlength.trans_lt hlen
    rcv_le := h.out.rcv_le.trans (hlength ▸ Nat.le_succ _)
    got := ?_
    count := ?_
    unacked := ?_
    freed := ?_
    queued := fun m' hm' => ?_
    out := fun m' hm' => ⟨(h.out.out m' hm').1, fun hne => ((h.out.out m' hm').2 hne).append⟩ },
    { h.inp with queued_acks := fun m' hm' => ?_ }⟩, hcarries⟩
  · exact h.out.got.trans (List.take_append_of_le_length h.out.rcv_le).symm
  · dsimp only
    rw [hlength, List.length_append, List.length_singleton]
    omega
  · rw [List.map_append, h.out.unacked,
      List.drop_append_of_le_length (h.out.ack_le.trans h.out.rcv_le)]
    rfl
  · exact h.out.freed.trans
      (List.take_append_of_le_length (h.out.ack_le.trans h.out.rcv_le)).symm
  · rcases List.mem_append.mp hm' with hm' | hm'
    · exact ⟨(h.out.queued m' hm').1, (h.out.queued m' hm').2.append⟩
    · rw [List.mem_singleton.mp hm']
      exact ⟨rfl, hcarries⟩
  · rcases List.mem_append.mp hm' with hm' | hm'
    · exact h.inp.queued_acks m' hm'
    · rw [List.mem_singleton.mp hm']
      exact h.acks_rcvseq rfl rfl

/-! ### The routines -/

/-- A user writes a message. -/
theorem Good.write (h : Good e d) (data : List UInt8) (hlen : e.wrote.length + 1 < 2147483648) :
    Good (e.write data) d := by
  obtain ⟨hq, hcarries⟩ := h.queue data hlen
  have hput (timeout xmits : ℕ) := (hq.timers timeout xmits e.rel.r.rcvseq).put (m :=
    kicked e.rel.r data) rfl (fun _ => hcarries) (h.acks_rcvseq rfl rfl)
  dsimp only [End.write, kick, relackq]
  split_ifs with hnil
  · have hput' := hput 0 1
    dsimp only at hput'
    rwa [hnil] at hput'
  · exact hput e.rel.r.timeout e.rel.r.xmits

/-- The first message of the queue is sent again, where it was not sent too often. -/
theorem Good.relrexmit (h : Good e d) (hmax : ¬Rudpmaxxmit < e.rel.r.xmits) :
    Good { e with rel := relrexmit e.rel } d := by
  dsimp only [Rudp.relrexmit]
  rw [if_neg hmax]
  split
  · rename_i m ms hun
    obtain ⟨hsgen, hcarries⟩ := h.out.queued m (hun ▸ List.mem_cons_self)
    have hacks := h.inp.queued_acks m (hun ▸ List.mem_cons_self)
    exact (h.timers 0 (e.rel.r.xmits + 1) e.rel.r.acksent).put hsgen (fun _ => hcarries) hacks
  · exact h.timers 0 (e.rel.r.xmits + 1) e.rel.r.acksent

/-- An acknowledgement is sent. -/
theorem Good.relsendack (h : Good e d) : Good { e with rel := relsendack e.rel false } d :=
  (h.timers e.rel.r.timeout e.rel.r.xmits (max e.rel.r.acksent e.rel.r.rcvseq)).put rfl
    (fun hne => absurd rfl hne) (h.acks_rcvseq rfl rfl)

/-- What an acknowledgement frees has been passed on at the other end. -/
theorem Good.dequeue (h : Good e d) {ack : ℕ} (hack : ack ≤ d.rel.r.rcvseq) :
    Good { e with rel := dequeue ack e.rel.r.unacked e.rel } d := by
  generalize hun : e.rel.r.unacked = ms
  induction ms generalizing e with
  | nil => exact h
  | cons m ms ih =>
    rw [Rudp.dequeue]
    split_ifs with hin
    · have hlt : e.rel.r.ackrcvd < ack := by
        have hle := h.out.ack_le.trans h.out.rcv_le
        rw [inseq, if_pos (h.out.sndseq ▸ hle)] at hin
        exact (of_decide_eq_true hin).1
      have hnext : nextseq e.rel.r.ackrcvd = e.rel.r.ackrcvd + 1 := by
        refine nextseq_of_lt ?_
        have hle := h.out.ack_le.trans h.out.rcv_le
        have hshort := h.out.short
        omega
      rw [hnext]
      exact ih (h.pop hun (hlt.trans_le hack)) rfl
    · exact h

/-- An acknowledgement arrives. -/
theorem Good.acked (h : Good e d) {ack : ℕ} (hack : ack ≤ d.rel.r.rcvseq) :
    Good { e with rel := acked ack e.rel } d := by
  have hd := h.dequeue hack
  dsimp only [Rudp.acked]
  split_ifs with hsome hxmits
  · exact (hd.timers 0 1 (Rudp.dequeue ack e.rel.r.unacked e.rel).r.acksent).relrexmit
      (by decide : ¬Rudpmaxxmit < 1)
  · exact hd.timers 0 _ _
  · exact hd

/-- A packet of the peer that names its generation is met without a hangup. -/
theorem Good.meet (h : Good e d) :
    Good { e with rel := meet e.rel d.rel.r.sndgen } d ∧
      (meet e.rel d.rel.r.sndgen).r.rcvgen = d.rel.r.sndgen ∧
      (meet e.rel d.rel.r.sndgen).r.rcvseq = e.rel.r.rcvseq := by
  dsimp only [Rudp.meet]
  split_ifs with hgen hzero
  · exact ⟨h, hgen, rfl⟩
  · exact absurd (h.inp.rcvgen.resolve_left hzero) hgen
  · exact ⟨h.learn, rfl, rfl⟩

/-- The next message is passed on, and any other one is answered. -/
theorem Good.inorder (h : Good e d) (hcarries : m.relseq ≠ 0 → Carries d.wrote m)
    (hgen : e.rel.r.rcvgen = d.rel.r.sndgen) (qfull : Bool) :
    Good (e.take m.data (inorder e.rel m qfull)) d := by
  dsimp only [Rudp.inorder]
  split_ifs with hrefuse hseq
  · exact h
  · exact h.relsendack
  · rw [not_or] at hrefuse
    have hnext : nextseq e.rel.r.rcvseq = e.rel.r.rcvseq + 1 :=
      nextseq_of_lt (h.inp.rcv_le.trans_lt h.inp.short)
    exact h.accept (hcarries hrefuse.1) ((not_not.mp hseq).trans hnext) hgen

/-- A packet that the peer sent arrives. -/
theorem Good.arrive (h : Good e d) (hm : m ∈ d.rel.out) (qfull : Bool) :
    Good (e.arrive m qfull) d := by
  obtain ⟨hsgen, hcarries⟩ := h.inp.out m hm
  have hack := h.out.acks m hm
  obtain ⟨hmeet, hgen, -⟩ := h.meet
  dsimp only [End.arrive, reliput]
  split_ifs with hstale hhangup hforget hold hacked
  · exact h
  · exact absurd (hsgen.symm.trans hhangup) h.inp.sndgen
  · exact absurd (hsgen.symm.trans hhangup) h.inp.sndgen
  · exact h
  · rw [hsgen] at hacked ⊢
    have hkeep := acked_rcv m.relack (Rudp.meet e.rel d.rel.r.sndgen)
    exact (hmeet.acked hack.le).inorder hcarries (hkeep.2.trans hgen) qfull
  · rw [hsgen]
    exact hmeet.inorder hcarries hgen qfull

/-! ### Hangups -/

theorem hangups_relrexmit (x : Rel) :
    (relrexmit x).hangups = if Rudpmaxxmit < x.r.xmits then x.hangups + 1 else x.hangups := by
  dsimp only [relrexmit]
  split_ifs
  · rfl
  · split <;> rfl

theorem hangups_dequeue (ack : ℕ) (ms : List Msg) (x : Rel) :
    (dequeue ack ms x).hangups = x.hangups := by
  induction ms generalizing x with
  | nil => rfl
  | cons m ms ih =>
    rw [dequeue]
    split_ifs
    · exact ih _
    · rfl

theorem hangups_acked (ack : ℕ) (x : Rel) : (acked ack x).hangups = x.hangups := by
  dsimp only [acked]
  split_ifs
  · rw [hangups_relrexmit, if_neg (by decide : ¬Rudpmaxxmit < 1)]
    exact hangups_dequeue ack _ x
  · exact hangups_dequeue ack _ x
  · exact hangups_dequeue ack _ x

theorem hangups_inorder (x : Rel) (m : Msg) (qfull : Bool) :
    (inorder x m qfull).1.hangups = x.hangups := by
  rw [inorder]
  split_ifs <;> rfl

theorem le_hangups_meet (x : Rel) (sgen : ℕ) : x.hangups ≤ (meet x sgen).hangups := by
  rw [meet]
  split_ifs
  · exact le_rfl
  · exact Nat.le_succ _
  · exact le_rfl

theorem le_hangups_reliput (x : Rel) (m : Msg) (qfull : Bool) :
    x.hangups ≤ (reliput x m qfull).1.hangups := by
  dsimp only [reliput]
  split_ifs
  · exact le_rfl
  · exact Nat.le_succ _
  · exact le_rfl
  · exact le_rfl
  · rw [hangups_inorder, hangups_acked]
    exact le_hangups_meet x m.relsgen
  · rw [hangups_inorder]
    exact le_hangups_meet x m.relsgen

theorem hangups_tick (x : Rel) : (tick x).hangups = (tickTimeout x).hangups := by
  rw [tick]
  split_ifs <;> rfl

theorem le_hangups_tick (x : Rel) : x.hangups ≤ (tick x).hangups := by
  rw [hangups_tick]
  dsimp only [tickTimeout]
  split_ifs
  · exact le_rfl
  · rw [hangups_relrexmit]
    split_ifs
    · exact Nat.le_succ _
    · exact le_rfl
  · exact le_rfl

theorem hangups_take (data : List UInt8) (p : Rel × Verdict) :
    (e.take data p).rel.hangups = p.1.hangups := by
  obtain ⟨x, v⟩ := p
  cases v <;> rfl

theorem wrote_take (data : List UInt8) (p : Rel × Verdict) : (e.take data p).wrote = e.wrote := by
  obtain ⟨x, v⟩ := p
  cases v <;> rfl

/-- Time passes, and the end does not hang up. -/
theorem Good.tick (h : Good e d) (hup : e.tick.rel.hangups = 0) : Good e.tick d := by
  have htimeout : Good { e with rel := tickTimeout e.rel } d := by
    dsimp only [End.tick] at hup
    rw [hangups_tick] at hup
    dsimp only [tickTimeout] at hup ⊢
    split_ifs at hup ⊢ with hnil hlate
    · exact h
    · refine (h.timers _ e.rel.r.xmits e.rel.r.acksent).relrexmit fun hmax => ?_
      rw [hangups_relrexmit, if_pos hmax] at hup
      exact absurd hup (Nat.succ_ne_zero _)
    · exact h.timers _ e.rel.r.xmits e.rel.r.acksent
  dsimp only [End.tick, Rudp.tick]
  split_ifs
  · exact htimeout.relsendack
  · exact htimeout

end

/-! ### Runs -/

/-- No end has hung up, and few messages were written. -/
structure Calm (s : System) : Prop where
  hangups : ∀ x, (s x).rel.hangups = 0
  short : ∀ x, (s x).wrote.length < 2147483648

variable {s t : System}

/-- Both ends, where one of them is replaced. -/
theorem good_update {x : Bool} {e : End} (h : Good e (s !x)) (y : Bool) :
    Good (Function.update s x e y) (Function.update s x e !y) := by
  obtain rfl | hne := eq_or_ne y x
  · rw [Function.update_self, Function.update_of_ne (Bool.not_ne_self y)]
    exact h
  · obtain rfl : (!x) = y := by
      cases x <;> cases y <;> first | rfl | exact absurd rfl hne
    rw [Function.update_of_ne (Bool.not_ne_self x), Bool.not_not, Function.update_self]
    exact h.symm

/-- An end that is replaced has hung up no more, and has written fewer messages. -/
theorem Calm.of_update {x : Bool} {e : End} (h : Calm (Function.update s x e))
    (hhangups : (s x).rel.hangups ≤ e.rel.hangups) (hwrote : (s x).wrote <+: e.wrote) : Calm s := by
  have hx := h.hangups x
  have hshort := h.short x
  rw [Function.update_self] at hx hshort
  refine ⟨fun y => ?_, fun y => ?_⟩
  · obtain rfl | hne := eq_or_ne y x
    · exact Nat.le_zero.mp (hhangups.trans_eq hx)
    · have hy := h.hangups y
      rwa [Function.update_of_ne hne] at hy
  · obtain rfl | hne := eq_or_ne y x
    · exact hwrote.length_le.trans_lt hshort
    · have hy := h.short y
      rwa [Function.update_of_ne hne] at hy

/-- A step that leaves a calm system starts from one, and keeps the invariant. -/
theorem good_step {ev : Event} (h : Calm s → ∀ x, Good (s x) (s !x))
    (hstep : step s ev = some t) (hcalm : Calm t) (x : Bool) : Good (t x) (t !x) := by
  cases ev with
  | write y data =>
    cases hstep
    have hlen := hcalm.short y
    rw [Function.update_self, End.write, List.length_append] at hlen
    have hgood := h (hcalm.of_update le_rfl (List.prefix_append _ _)) y
    exact good_update (hgood.write data hlen) x
  | arrive y m qfull =>
    rw [step, Option.ite_none_right_eq_some] at hstep
    obtain ⟨hm, hstep⟩ := hstep
    cases hstep
    have hle := le_hangups_reliput (s y).rel m qfull
    rw [← hangups_take (e := s y) m.data] at hle
    have hwrote := wrote_take (e := s y) m.data (reliput (s y).rel m qfull)
    have hgood := h (hcalm.of_update hle (hwrote ▸ List.prefix_refl _)) y
    exact good_update (hgood.arrive hm qfull) x
  | tick y =>
    cases hstep
    have hup := hcalm.hangups y
    rw [Function.update_self] at hup
    have hgood := h (hcalm.of_update (le_hangups_tick _) (List.prefix_refl _)) y
    exact good_update (hgood.tick hup) x

/-- While no end has hung up and fewer than 2³¹ messages were written at each end, an end has passed
on the first messages written at the other one, each once and in order, and has freed only messages
that were passed on there. -/
theorem delivered_once_of_run {generation : Bool → ℕ}
    (hrun : Run (fun s ev t => step s ev = some t) (fun _ _ => True)
      (fun x => begun (generation x)) s) (hcalm : Calm s) (x : Bool) :
    (s !x).got <+: (s x).wrote ∧ (s x).rel.freed.map Msg.data <+: (s !x).got := by
  have hgood := @Run.invariant _ _ _ _ _ _ (fun s => Calm s → ∀ x, Good (s x) (s !x))
    (fun _ x => ⟨half_begun _ _, half_begun _ _⟩)
    (fun _ _ _ h _ hstep => good_step h hstep) hrun
  obtain ⟨hout, -⟩ := hgood hcalm x
  rw [hout.got, hout.freed]
  exact ⟨List.take_prefix _ _, List.take_prefix_take_left hout.ack_le⟩

/-- Two messages arrive in the wrong order, the second one again after the first, and the packets
are acknowledged. -/
theorem delivered_once_swapped :
    ∃ s : System, (s true).got = [[1], [2]] ∧ (s false).rel.freed.length = 2 ∧
      (s true).got <+: (s false).wrote ∧ (s false).rel.freed.map Msg.data <+: (s true).got := by
  have hrun : ∃ s, Run (fun s ev t => step s ev = some t) (fun _ _ => True)
      (fun x => begun (if x then 7 else 5)) s ∧ ((s true).got = [[1], [2]] ∧
        (s false).rel.freed.length = 2) ∧ Calm s := by
    refine ⟨_, ((((((Run.nil.snoc (e := .write false [1]) trivial rfl).snoc
      (e := .write false [2]) trivial rfl).snoc
      (e := .arrive true ⟨2, 5, 0, 0, [2]⟩ false) trivial rfl).snoc
      (e := .arrive true ⟨1, 5, 0, 0, [1]⟩ false) trivial rfl).snoc
      (e := .arrive true ⟨2, 5, 0, 0, [2]⟩ false) trivial rfl).snoc
      (e := .arrive true ⟨2, 5, 0, 0, [2]⟩ false) trivial rfl).snoc
      (e := .arrive false ⟨0, 7, 2, 5, []⟩ false) trivial rfl, ⟨rfl, rfl⟩, ⟨?_, ?_⟩⟩
    · rintro (_ | _) <;> rfl
    · rintro (_ | _) <;> decide
  obtain ⟨s, hrun, ⟨hread, hfreed⟩, hcalm⟩ := hrun
  exact ⟨s, hread, hfreed, delivered_once_of_run hrun hcalm false⟩

end PlanNine.Rudp
