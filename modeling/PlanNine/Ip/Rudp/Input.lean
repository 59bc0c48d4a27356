import PlanNine.Ip.Ipaux.Hash
import PlanNine.Ip.Rudp.Rel
import PlanNine.Lib.Kern
import PlanNine.Port.Qio.Block

/-!
# Input of RUDP

`rudpiput`, with `relstate`, `trimblock`, `padblock`, `concatblock` and `qpass`, for a packet of any
blocks. The locks that the routine holds are recorded, and the blocks that it allocates, frees and
queues.

The checksum of a string of blocks and whether an address is one of this machine are parameters. The
statistics, the log, the reply of `icmpnoconv` and the acknowledgements of `reliput`, which are
packets of their own, and the local address that such an acknowledgement fills in are left out.

## Main definitions

* `Packet`: the blocks of a packet, with the fields of the header.
* `Env`: the protocol, its conversations and their queues, and the records.
* `rudpiput`: the routine.
* `Settled`: no lock is held, and every block was freed or queued once.
* `Fits`: a packet that is passed on is long enough, and one that is refused is a single block.

## Main results

* `settled_iff`: when `rudpiput` leaves no lock and no block behind.
* `not_settled_short`: a packet whose header says more bytes than there are.
-/

namespace PlanNine.RudpInput

open Ipaux Qio Rudp

def UDP_IPHDR : ℕ := 8

def UDP_PHDRSIZE : ℕ := 12

def UDP_RHDRSIZE : ℕ := 36

/-! ### The packet -/

def v4tov6 (a b c d : UInt8) : Ipaddr := #v[0, 0, 0, 0, 0, 0, 0, 0, 0, 0, 0xff, 0xff, a, b, c, d]

/-- A packet: its first block, the blocks behind it, and the memory behind the first block. -/
structure Packet where
  bp : Block
  next : List Block := []
  behind : ℕ → UInt8 := fun _ => 0

namespace Packet

variable (pk : Packet)

def blocks : List Block := pk.bp :: pk.next

/-- The byte at `bp->rp[i]`. -/
def rp (i : ℕ) : UInt8 :=
  if h : i < pk.bp.data.length then pk.bp.data[i] else pk.behind (i - pk.bp.data.length)

def nhgets (i : ℕ) : UInt16 := (pk.rp i).toUInt16 <<< 8 ||| (pk.rp (i + 1)).toUInt16

def nhgetl (i : ℕ) : ℕ :=
  ((pk.rp i).toNat * 256 + (pk.rp (i + 1)).toNat) * 65536 +
    (pk.rp (i + 2)).toNat * 256 + (pk.rp (i + 3)).toNat

def udpsrc : Ipaddr := v4tov6 (pk.rp 12) (pk.rp 13) (pk.rp 14) (pk.rp 15)

def udpdst : Ipaddr := v4tov6 (pk.rp 16) (pk.rp 17) (pk.rp 18) (pk.rp 19)

def udpsport : UInt16 := pk.nhgets 20

def udpdport : UInt16 := pk.nhgets 22

def udplen : UInt16 := pk.nhgets 24

def udpcksum : UInt16 := pk.nhgets 26

/-- The header of RUDP. -/
def msg : Msg where
  relseq := pk.nhgetl 28
  relsgen := pk.nhgetl 32
  relack := pk.nhgetl 36
  relagen := pk.nhgetl 40

/-- The addresses and ports that the conversation is looked up by. -/
def quad : Ipaux.Packet where
  sa := pk.udpsrc
  sp := pk.udpsport
  da := pk.udpdst
  dp := pk.udpdport

/-- The first block, with the pseudo header put back. -/
def pseudo : List Block :=
  { pk.bp with data := ((pk.bp.data.set 8 0).set 10 (pk.rp 24)).set 11 (pk.rp 25) } :: pk.next

end Packet

/-! ### The protocol -/

/-- A destination's state, with its address. -/
structure Dest where
  addr : Ipaddr
  port : UInt16
  rel : Reliable

structure Rudpcb where
  headers : ℕ := 0
  r : List Dest := []

inductive Lock where
  | rudp
  | ucb (c : ℕ)
  deriving DecidableEq, Repr

/-- The protocol and its conversations with their read queues; the locks held by the routine, and
the blocks that it allocated, freed and handed to a queue. -/
structure Env where
  conv : ℕ → Conv := fun _ => {}
  ptcl : ℕ → Rudpcb := fun _ => {}
  ht : Ipht := fun _ => []
  generation : ℕ := 1
  rq : ℕ → List Block := fun _ => []
  held : List Lock := []
  allocated : List ℕ := []
  freed : List ℕ := []
  queued : List ℕ := []

/-- Where the machine stops: a block that is not there is read, or `padblock` meets a string. -/
inductive Crash where
  | nilblock | padblock
  deriving DecidableEq, Repr

abbrev M := Kern Crash Env

def qlock (l : Lock) : M Unit := Kern.modify fun s => { s with held := l :: s.held }

def qunlock (l : Lock) : M Unit := Kern.modify fun s => { s with held := s.held.erase l }

def freeb (b : Block) : M Unit := Kern.modify fun s => { s with freed := s.freed ++ [b.addr] }

def freeblist (bs : List Block) : M Unit :=
  Kern.modify fun s => { s with freed := s.freed ++ bs.map Block.addr }

def allocb (m : Mem) (size : ℕ) : M Block := do
  Kern.modify fun s => { s with allocated := s.allocated ++ [m.addr] }
  return Qio.allocb m size

/-! ### Strings of blocks -/

/-- The blocks before the offset are freed. -/
def trimFront : List Block → ℕ → M (List Block)
  | [], _ => Kern.panic .nilblock
  | b :: bs, offset =>
    if b.BLEN < offset then do
      freeb b
      trimFront bs (offset - b.BLEN)
    else return b.skip offset :: bs

/-- The blocks behind the length are freed; a length below zero is a large one, as an `ulong`. -/
def trimBack : List Block → ℤ → M (List Block)
  | [], _ => Kern.panic .nilblock
  | b :: bs, len =>
    if len < 0 ∨ b.BLEN < len then do
      let cs ← trimBack bs (len - b.BLEN)
      return b :: cs
    else do
      freeblist bs
      return [b.cut len.toNat]

/-- `trimblock`; the empty string is `nil`. -/
def trimblock (bs : List Block) (offset : ℕ) (len : ℤ) : M (List Block) :=
  if (blocklen bs : ℤ) < offset + len then do
    freeblist bs
    return []
  else do
    let cs ← trimFront bs offset
    trimBack cs len

/-- `padblock` by the length of `p`, and `p` put there. -/
def padblock (m : Mem) (p : List UInt8) : List Block → M (List Block)
  | [] => Kern.panic .nilblock
  | b :: bs =>
    if p.length ≤ b.head then
      return { b with head := b.head - p.length, data := p ++ b.data } :: bs
    else if bs ≠ [] then Kern.panic .padblock
    else do
      let nb ← allocb m (p.length + b.BLEN)
      freeb b
      return [{ nb with data := p ++ b.data, room := nb.room - (p.length + b.BLEN) }]

def concatblock (m : Mem) (bs : List Block) : M (List Block) :=
  if bs.tail = [] then return bs
  else do
    let nb ← allocb m (blocklen bs)
    freeblist bs
    return [nb.put (bytes bs)]

/-- What a queue does with a block: it takes it, or frees it because it is full or closed. -/
inductive Pass where
  | queued | limit | closed
  deriving DecidableEq, Repr

def qpass (c : ℕ) (pass : Pass) (bs : List Block) : M Unit :=
  match pass with
  | .queued => Kern.modify fun s => { s with
      rq := Function.update s.rq c (s.rq c ++ bs)
      queued := s.queued ++ bs.map Block.addr }
  | .limit | .closed => freeblist bs

/-! ### The routine -/

/-- The states of all destinations behind a change of one, which is dropped where it is
forgotten. -/
def relstore (addr : Ipaddr) (port : UInt16) (x : Option Reliable) : List Dest → List Dest
  | [] => x.toList.map fun r => ⟨addr, port, r⟩
  | d :: ds =>
    if d.addr = addr ∧ d.port = port then (x.toList.map fun r => ⟨addr, port, r⟩) ++ ds
    else d :: relstore addr port x ds

/-- `relstate`. -/
def relfind (s : Env) (c : ℕ) (addr : Ipaddr) (port : UInt16) : Rel :=
  match (s.ptcl c).r.find? fun d => d.addr = addr ∧ d.port = port with
  | some d => { r := d.rel, generation := s.generation }
  | none => relstate s.generation

/-- `reliput` on the state of the destination; the result is whether the packet is passed on. -/
def reliput (c : ℕ) (m : Msg) (addr : Ipaddr) (port : UInt16) (qfull : Bool) : M Bool := do
  let s ← Kern.get
  let x := Rudp.reliput (relfind s c addr port) m qfull
  let r := if x.2 = .forget then none else some x.1.r
  Kern.modify fun s => { s with
    ptcl := Function.update s.ptcl c
      { s.ptcl c with r := relstore addr port r (s.ptcl c).r }
    generation := x.1.generation }
  return x.2 = .pass

/-- What a call of `rudpiput` meets: whether the read queue is full, when `reliput` and when the
routine looks, what the queue does with the packet, and the memory that is given out. -/
structure Meets where
  full : Bool := false
  fullLater : Bool := false
  pass : Pass := .queued
  mem : Mem := ⟨0, 64, 0⟩
  memLater : Mem := ⟨1, 64, 0⟩
  /-- `ifc->lifc->local` -/
  ifclocal : Ipaddr := IPnoaddr

variable (ptclcsum : List Block → ℕ → ℕ → UInt16) (runi : Ipaddr → Bool)

/-- A port as it stands in a header. -/
def hnputs (v : UInt16) : List UInt8 := [(v >>> 8).toUInt8, v.toUInt8]

/-- The source is saved in the conversation, with the local address that it was sent to. -/
def saveSource (w : Meets) (pk : Packet) (c : ℕ) : M Unit :=
  let l := w.ifclocal
  -- the first bytes of the interface's address are taken, which has 16
  let laddr := if runi pk.udpdst then pk.udpdst else v4tov6 l[0] l[1] l[2] l[3]
  Kern.modify fun s => { s with
    conv := Function.update s.conv c
      { s.conv c with raddr := pk.udpsrc, rport := pk.udpsport, laddr := laddr } }

/-- The addresses are put before the data, or the source is saved. -/
def address (w : Meets) (pk : Packet) (c : ℕ) (bs : List Block) : M (List Block) := do
  let s ← Kern.get
  match (s.ptcl c).headers with
  | 7 => padblock w.mem (pk.udpsrc.toList ++ pk.udpdst.toList ++ w.ifclocal.toList ++
      hnputs pk.udpsport ++ hnputs pk.udpdport) bs
  | 6 => padblock w.mem (pk.udpsrc.toList ++
      (if runi pk.udpdst then pk.udpdst else w.ifclocal).toList ++
      hnputs pk.udpsport ++ hnputs pk.udpdport) bs
  | _ =>
    if (s.conv c).raddr = IPnoaddr then do
      saveSource runi w pk c
      return bs
    else return bs

def enqueue (w : Meets) (c : ℕ) (bs : List Block) : M Unit :=
  if w.fullLater then freeblist bs else qpass c w.pass bs

/-- What is done with a packet that `reliput` passes on. -/
def deliver (w : Meets) (pk : Packet) (c : ℕ) : M Unit := do
  let len : ℤ := pk.udplen.toNat - (UDP_RHDRSIZE - UDP_PHDRSIZE : ℕ)
  let bs ← trimblock pk.blocks (UDP_IPHDR + UDP_RHDRSIZE) len
  -- the lock of the conversation is not released here
  if bs = [] then return ()
  else do
    let bs ← address runi w pk c bs
    let bs ← concatblock w.memLater bs
    enqueue w c bs
    qunlock (.ucb c)

def rudpiput (w : Meets) (pk : Packet) : M Unit := do
  if pk.udpcksum ≠ 0 ∧ ptclcsum pk.pseudo UDP_IPHDR (pk.udplen.toNat + UDP_PHDRSIZE) ≠ 0 then
    freeblist pk.blocks
  else do
    qlock .rudp
    let s ← Kern.get
    match iphtlook s.ht s.conv pk.quad with
    | none =>
      qunlock .rudp
      freeblist pk.blocks
    | some c =>
      qlock (.ucb c)
      qunlock .rudp
      let pass ← reliput c pk.msg pk.udpsrc pk.udpsport w.full
      if pass = false then do
        qunlock (.ucb c)
        -- only the first block is freed here
        freeb pk.bp
      else deliver runi w pk c

/-! ### What is claimed of it -/

/-- A call starts with no lock and an empty record. -/
def Env.enter (s : Env) : Env := { s with held := [], allocated := [], freed := [], queued := [] }

/-- The locks held are `held`, and of the blocks that came in or were allocated those in `hand` are
left; the others were freed or queued, each once. -/
structure Owes (pk : Packet) (held : List Lock) (hand : List ℕ) (s : Env) : Prop where
  held : s.held = held
  blocks : ∀ a, s.freed.count a + s.queued.count a + hand.count a =
    (pk.blocks.map Block.addr).count a + s.allocated.count a

/-- No lock is held, and every block was freed or queued once. -/
def Settled (pk : Packet) (s : Env) : Prop := Owes pk [] [] s

/-- Where the checksum is right and there is a conversation, a packet that is passed on is as long
as its header says, and one that is refused is a single block. -/
def Fits (s : Env) (w : Meets) (pk : Packet) : Prop :=
  (pk.udpcksum ≠ 0 → ptclcsum pk.pseudo UDP_IPHDR (pk.udplen.toNat + UDP_PHDRSIZE) = 0) →
    ∀ c, iphtlook s.ht s.conv pk.quad = some c →
      if Accepts (relfind s c pk.udpsrc pk.udpsport).r pk.msg w.full then
        pk.udplen.toNat + 20 ≤ blocklen pk.blocks
      else pk.next = []

section

variable {pk : Packet} {held : List Lock} {hand : List ℕ} {s : Env} {bs : List Block}

/-- Weakest preconditions where a crash is no matter. -/
abbrev wlp {α : Type} (m : M α) (Q : α → Env → Prop) (s : Env) : Prop := m.wp Q (fun _ _ => True) s

theorem owes_freeblist (hand : List ℕ) (h : Owes pk held (hand ++ bs.map Block.addr) s) :
    wlp (freeblist bs) (fun _ => Owes pk held hand) s := by
  refine ⟨h.held, fun a => ?_⟩
  have ha := h.blocks a
  simp only [List.count_append] at ha ⊢
  omega

theorem owes_freeb {b : Block} (h : Owes pk held (b.addr :: hand) s) :
    wlp (freeb b) (fun _ => Owes pk held hand) s := by
  refine ⟨h.held, fun a => ?_⟩
  have ha := h.blocks a
  simp only [List.count_append, List.count_cons, List.count_nil] at ha ⊢
  omega

theorem owes_allocb (h : Owes pk held hand s) (m : Mem) (size : ℕ) :
    wlp (allocb m size) (fun b t => Owes pk held (b.addr :: hand) t ∧ b = Qio.allocb m size) s := by
  refine ⟨⟨h.held, fun a => ?_⟩, rfl⟩
  have ha := h.blocks a
  simp only [List.count_append, List.count_cons, List.count_nil, addr_allocb] at ha ⊢
  omega

theorem owes_trimFront (offset : ℕ) (h : Owes pk held (bs.map Block.addr) s) :
    wlp (trimFront bs offset) (fun cs t => Owes pk held (cs.map Block.addr) t) s := by
  induction bs generalizing offset s with
  | nil => trivial
  | cons b bs ih =>
    rw [trimFront]
    split_ifs
    · refine Kern.wp_bind.mpr (Kern.wp_mono (owes_freeb h) (fun _ t ht => ?_) fun _ _ => id)
      exact ih _ ht
    · exact h

theorem owes_trimBack (hand : List ℕ) (len : ℤ)
    (h : Owes pk held (hand ++ bs.map Block.addr) s) :
    wlp (trimBack bs len) (fun cs t => Owes pk held (hand ++ cs.map Block.addr) t ∧ cs ≠ []) s := by
  induction bs generalizing hand len with
  | nil => trivial
  | cons b bs ih =>
    rw [trimBack]
    split_ifs
    · rw [List.map_cons, ← List.singleton_append, ← List.append_assoc] at h
      refine Kern.wp_bind.mpr (Kern.wp_mono (ih _ _ h) (fun cs t ht => ?_) fun _ _ => id)
      rw [List.append_assoc] at ht
      exact ⟨ht.1, List.cons_ne_nil _ _⟩
    · rw [List.map_cons, ← List.singleton_append, ← List.append_assoc] at h
      refine Kern.wp_bind.mpr (Kern.wp_mono (owes_freeblist _ h) (fun _ t ht => ?_) fun _ _ => id)
      exact ⟨ht, List.cons_ne_nil _ _⟩

/-- A string that is long enough is trimmed to one that is not empty. -/
theorem owes_trimblock (offset : ℕ) (len : ℤ) (h : Owes pk held (bs.map Block.addr) s)
    (hlen : offset + len ≤ blocklen bs) :
    wlp (trimblock bs offset len)
      (fun cs t => Owes pk held (cs.map Block.addr) t ∧ cs ≠ []) s := by
  rw [trimblock, if_neg (not_lt.mpr hlen)]
  refine Kern.wp_bind.mpr (Kern.wp_mono (owes_trimFront offset h) (fun cs t ht => ?_) fun _ _ => id)
  exact owes_trimBack [] len ht

theorem owes_padblock (m : Mem) (p : List UInt8) (h : Owes pk held (bs.map Block.addr) s) :
    wlp (padblock m p bs) (fun cs t => Owes pk held (cs.map Block.addr) t) s := by
  cases bs with
  | nil => trivial
  | cons b bs =>
    rw [padblock]
    split_ifs with hroom hnil
    · exact h
    · trivial
    · rw [not_not] at hnil
      subst hnil
      refine Kern.wp_bind.mpr (Kern.wp_mono (owes_allocb h m _) (fun nb t ht => ?_) fun _ _ => id)
      obtain ⟨ht, hnb⟩ := ht
      have hswap : Owes pk held (b.addr :: [nb.addr]) t := by
        refine ⟨ht.held, fun a => ?_⟩
        have ha := ht.blocks a
        simp only [List.map_cons, List.map_nil, List.count_cons, List.count_nil] at ha ⊢
        omega
      exact Kern.wp_bind.mpr (Kern.wp_mono (owes_freeb hswap) (fun _ u hu => hu) fun _ _ => id)

theorem owes_concatblock (m : Mem) (h : Owes pk held (bs.map Block.addr) s) :
    wlp (concatblock m bs) (fun cs t => Owes pk held (cs.map Block.addr) t) s := by
  rw [concatblock]
  split_ifs
  · exact h
  · refine Kern.wp_bind.mpr (Kern.wp_mono (owes_allocb h m _) (fun nb t ht => ?_) fun _ _ => id)
    exact Kern.wp_bind.mpr (Kern.wp_mono (owes_freeblist [nb.addr] ht.1)
      (fun _ u hu => hu) fun _ _ => id)

theorem owes_qpass (c : ℕ) (pass : Pass) (h : Owes pk held (bs.map Block.addr) s) :
    wlp (qpass c pass bs) (fun _ => Owes pk held []) s := by
  cases pass with
  | queued =>
    refine ⟨h.held, fun a => ?_⟩
    have ha := h.blocks a
    simp only [List.count_append, List.count_nil] at ha ⊢
    omega
  | limit => exact owes_freeblist [] h
  | closed => exact owes_freeblist [] h

variable {ptclcsum : List Block → ℕ → ℕ → UInt16} {runi : Ipaddr → Bool} {w : Meets} {c : ℕ}

theorem owes_address (h : Owes pk held (bs.map Block.addr) s) :
    wlp (address runi w pk c bs) (fun cs t => Owes pk held (cs.map Block.addr) t) s := by
  rw [address]
  refine Kern.wp_bind.mpr (Kern.wp_get.mpr ?_)
  split
  · exact owes_padblock _ _ h
  · exact owes_padblock _ _ h
  · split_ifs
    · exact ⟨h.held, h.blocks⟩
    · exact h

/-- A packet that is long enough is handed on, and the lock is released. -/
theorem settled_deliver (h : Owes pk [.ucb c] (pk.blocks.map Block.addr) s)
    (hlen : pk.udplen.toNat + 20 ≤ blocklen pk.blocks) :
    wlp (deliver runi w pk c) (fun _ => Settled pk) s := by
  rw [deliver]
  have htrim := owes_trimblock (UDP_IPHDR + UDP_RHDRSIZE)
    (pk.udplen.toNat - (UDP_RHDRSIZE - UDP_PHDRSIZE : ℕ)) h (by
      simp only [UDP_IPHDR, UDP_RHDRSIZE, UDP_PHDRSIZE]
      omega)
  refine Kern.wp_bind.mpr (Kern.wp_mono htrim (fun cs t ht => ?_) fun _ _ => id)
  obtain ⟨ht, hne⟩ := ht
  rw [if_neg hne]
  refine Kern.wp_bind.mpr (Kern.wp_mono (owes_address ht) (fun cs t ht => ?_) fun _ _ => id)
  refine Kern.wp_bind.mpr (Kern.wp_mono (owes_concatblock _ ht) (fun cs t ht => ?_) fun _ _ => id)
  have hlast : wlp (enqueue w c cs) (fun _ => Owes pk [.ucb c] []) t := by
    rw [enqueue]
    split_ifs
    · exact owes_freeblist [] ht
    · exact owes_qpass c _ ht
  refine Kern.wp_bind.mpr (Kern.wp_mono hlast (fun _ u hu => ?_) fun _ _ => id)
  exact ⟨by simp [hu.held], hu.blocks⟩

/-- A packet that is too short leaves the lock held. -/
theorem not_settled_deliver (hheld : s.held = [.ucb c])
    (hlen : ¬pk.udplen.toNat + 20 ≤ blocklen pk.blocks) :
    ¬wlp (deliver runi w pk c) (fun _ => Settled pk) s := by
  rw [deliver, trimblock, if_pos (by simp only [UDP_IPHDR, UDP_RHDRSIZE, UDP_PHDRSIZE]; omega)]
  exact fun h => List.cons_ne_nil _ _ (hheld.symm.trans h.held)

/-- A packet that is refused, and the lock is released. -/
theorem settled_refuse_iff (h : Owes pk [.ucb c] (pk.blocks.map Block.addr) s)
    (hfreed : s.freed = []) (hqueued : s.queued = []) :
    wlp (do
      qunlock (.ucb c)
      freeb pk.bp) (fun _ => Settled pk) s ↔ pk.next = [] := by
  have hall := h.blocks
  constructor
  · intro hs
    rcases hnext : pk.next with - | ⟨b, bs⟩
    · rfl
    · have hb := hs.blocks b.addr
      have ha := hall b.addr
      simp only [Packet.blocks, hnext, hfreed, hqueued, List.map_cons, List.count_cons_self,
        List.count_nil, List.count_append, List.count_cons] at ha hb
      omega
  · intro hnext
    refine ⟨by simp [h.held], fun a => ?_⟩
    have ha := hall a
    simp only [Packet.blocks, hnext, List.map_cons, List.map_nil, List.count_append,
      List.count_nil] at ha ⊢
    omega

/-- `reliput` passes on just what it accepts, and touches no block. -/
theorem reliput_run (c : ℕ) (m : Msg) (addr : Ipaddr) (port : UInt16) (qfull : Bool) (s : Env) :
    ∃ pass t, reliput c m addr port qfull s = (.ok pass, t) ∧
      (pass = true ↔ Accepts (relfind s c addr port).r m qfull) ∧ t.held = s.held ∧
      t.freed = s.freed ∧ t.queued = s.queued ∧ t.allocated = s.allocated :=
  ⟨_, _, rfl, decide_eq_true_iff.trans (reliput_pass_iff _ _ _), rfl, rfl, rfl, rfl⟩

/-- When `rudpiput` returns, it holds no lock and every block was freed or queued once, just when
the packet fits. -/
theorem settled_iff (ptclcsum : List Block → ℕ → ℕ → UInt16) (runi : Ipaddr → Bool) (s : Env)
    (w : Meets) (pk : Packet) :
    wlp (rudpiput ptclcsum runi w pk) (fun _ => Settled pk) s.enter ↔
      Fits ptclcsum s w pk := by
  have hstart : Owes pk [] (pk.blocks.map Block.addr) s.enter := ⟨rfl, fun a => by simp [Env.enter]⟩
  rw [rudpiput, Fits]
  split_ifs with hsum
  · exact iff_of_true (owes_freeblist [] hstart) fun h => absurd (h hsum.1) hsum.2
  have hgood : pk.udpcksum ≠ 0 →
      ptclcsum pk.pseudo UDP_IPHDR (pk.udplen.toNat + UDP_PHDRSIZE) = 0 := by
    tauto
  rw [forall_prop_of_true hgood]
  change wlp (match iphtlook s.ht s.conv pk.quad with
    | none => _
    | some c => _) _ { s.enter with held := [.rudp] } ↔ _
  cases hlook : iphtlook s.ht s.conv pk.quad with
  | none =>
    refine iff_of_true ?_ nofun
    exact owes_freeblist [] ⟨rfl, hstart.blocks⟩
  | some c =>
    obtain ⟨pass, t, hrun, hpass, hheld, hfreed, hqueued, halloc⟩ := reliput_run c pk.msg pk.udpsrc
      pk.udpsport w.full { s.enter with held := ([.ucb c, .rudp] : List Lock).erase .rudp }
    have ht : Owes pk [.ucb c] (pk.blocks.map Block.addr) t := by
      refine ⟨hheld.trans (by simp), ?_⟩
      rw [hfreed, hqueued, halloc]
      exact hstart.blocks
    have hfits : (∀ c', some c = some c' →
        if Accepts (relfind s c' pk.udpsrc pk.udpsport).r pk.msg w.full then
          pk.udplen.toNat + 20 ≤ blocklen pk.blocks
        else pk.next = []) ↔
        if pass = true then pk.udplen.toNat + 20 ≤ blocklen pk.blocks else pk.next = [] := by
      have hacc : pass = true ↔ Accepts (relfind s c pk.udpsrc pk.udpsport).r pk.msg w.full :=
        hpass
      simp only [hacc, Option.some.injEq, forall_eq']
    rw [hfits]
    rw [wlp, Kern.wp_bind, qlock, Kern.wp_modify, Kern.wp_bind, qunlock, Kern.wp_modify,
      Kern.wp_bind, Kern.wp]
    dsimp only at hrun ⊢
    rw [hrun]
    cases pass with
    | false => exact settled_refuse_iff ht hfreed hqueued
    | true =>
      refine ⟨fun hs => ?_, settled_deliver ht⟩
      by_contra hlen
      exact not_settled_deliver ht.held hlen hs

end

/-! ### A packet that is too short -/

/-- A packet of 44 bytes for port 5001, the first of its sender, whose header says 100 bytes. -/
def short : Packet where
  bp :=
    { addr := 0
      data := [0x45, 0, 0, 0, 0, 0, 0, 0, 0, 254, 0, 0, 10, 0, 0, 2, 10, 0, 0, 1,
        0, 80, 0x13, 0x89, 0, 100, 0, 0, 0, 0, 0, 1, 0, 0, 0, 1, 0, 0, 0, 0, 0, 0, 0, 0] }

/-- A conversation that is announced for port 5001. -/
def announced : Env where
  conv := fun _ => { lport := 5001 }
  ht := iphtadd (fun _ => []) (fun _ => { lport := 5001 }) 0

/-- The packet is accepted, and the lock of the conversation stays held. -/
theorem not_settled_short :
    ¬∀ (ptclcsum : List Block → ℕ → ℕ → UInt16) (runi : Ipaddr → Bool) (s : Env) (w : Meets)
      (pk : Packet), wlp (rudpiput ptclcsum runi w pk) (fun _ => Settled pk) s.enter := by
  intro h
  have hs := h (fun _ _ _ => 0) (fun _ => true) announced {} short
  have hrun : (rudpiput (fun _ _ _ => 0) (fun _ => true) {} short announced.enter).1.isOk = true ∧
      (rudpiput (fun _ _ _ => 0) (fun _ => true) {} short announced.enter).2.held = [.ucb 0] := by
    decide +kernel
  unfold wlp Kern.wp at hs
  revert hrun hs
  rcases rudpiput (fun _ _ _ => 0) (fun _ => true) {} short announced.enter with ⟨_ | _, t⟩
  · exact fun _ hrun => Bool.false_ne_true hrun.1
  · exact fun hs hrun => List.cons_ne_nil _ _ (hrun.2.symm.trans hs.held)

end PlanNine.RudpInput
