import PlanNine.Ip.Ptclcsum
import PlanNine.Ip.Rudp.Input
import PlanNine.Ip.Udp.Close
import PlanNine.Port.Qio.Trim

/-!
# Input of UDP

`udpiput` for a packet of any blocks, of version 4 or 6, with any length in its header. The locks
that the routine holds are recorded, and the blocks that it allocates, frees and queues.

The sum of the bytes of a block and whether an address is one of this machine are parameters. What
`Fsnewcall` comes to and whether the queue takes the packet are inputs; the statistics, the log and
the replies to packets of no conversation are left out.

## Main definitions

* `header`, `Badsum`: the fields of the header and the test of the checksum, for both versions.
* `udpiput`: the routine.
* `Handled`: no lock is held, and the packet is freed, or queued as the address header and the data.
* `Fits`: the length in the header of a packet that is passed on is that of a header at least.

## Main results

* `handled_iff`: when `udpiput` returns and the packet is handled.
* `not_handled_runt`: a packet whose header says seven bytes.
-/

namespace PlanNine.UdpInput

open Ipaux Qio RudpInput UdpClose

def UDP_UDPHDR_SZ : ℕ := 8
def UDP4_PHDR_OFF : ℕ := 8
def UDP4_PHDR_SZ : ℕ := 12
def UDP4_IPHDR_SZ : ℕ := 20
def UDP6_IPHDR_SZ : ℕ := 40
def UDP6_PHDR_SZ : ℕ := 40
def UDP6_PHDR_OFF : ℕ := 0
def IP_UDPPROTO : UInt8 := 17
def IP_VER6 : UInt8 := 0x60

/-! ### The header -/

inductive Version where
  | V4 | V6
  deriving DecidableEq, Repr

/-- The size of the IP header. -/
def Version.iphdr : Version → ℕ
  | .V4 => UDP4_IPHDR_SZ
  | .V6 => UDP6_IPHDR_SZ

def version (pk : RudpInput.Packet) : Version := if pk.rp 0 &&& 0xF0 = IP_VER6 then .V6 else .V4

/-- The fields of a header. -/
structure Header where
  raddr : Ipaddr
  laddr : Ipaddr
  rport : UInt16
  lport : UInt16
  len : UInt16

/-- The address at `bp->rp[i]`. -/
def ipmove (pk : RudpInput.Packet) (i : ℕ) : Ipaddr := Vector.ofFn fun j => pk.rp (i + j)

def header (pk : RudpInput.Packet) : Header :=
  match version pk with
  | .V4 => ⟨pk.udpsrc, pk.udpdst, pk.nhgets 20, pk.nhgets 22, pk.nhgets 24⟩
  | .V6 => ⟨ipmove pk 8, ipmove pk 24, pk.nhgets 40, pk.nhgets 42, pk.nhgets 44⟩

/-- The first eight bytes of a packet of version 6 as the checksum takes them. -/
def pseudo6 (pk : RudpInput.Packet) : List Block :=
  { pk.bp with data := [0, 0, pk.rp 44, pk.rp 45, 0, 0, 0, IP_UDPPROTO] ++ pk.bp.data.drop 8 } ::
    pk.next

/-- The packet has a checksum, and it is wrong. -/
def Badsum (ptclbsum : List UInt8 → UInt16) (pk : RudpInput.Packet) : Prop :=
  match version pk with
  | .V4 => pk.nhgets 26 ≠ 0 ∧
      ptclcsum ptclbsum pk.pseudo UDP4_PHDR_OFF ((header pk).len.toNat + UDP4_PHDR_SZ) ≠ 0
  | .V6 =>
      ptclcsum ptclbsum (pseudo6 pk) UDP6_PHDR_OFF ((header pk).len.toNat + UDP6_PHDR_SZ) ≠ 0

instance (ptclbsum : List UInt8 → UInt16) (pk : RudpInput.Packet) :
    Decidable (Badsum ptclbsum pk) := by
  unfold Badsum
  cases version pk <;> infer_instance

/-! ### The protocol -/

inductive Lock where
  | udp
  | conv (c : ℕ)
  deriving DecidableEq, Repr

/-- The protocol and its conversations with their read queues; the locks held by the routine, and
the blocks that it allocated, freed and handed to a queue. -/
structure Env where
  conv : ℕ → Ipaux.Conv := fun _ => {}
  state : ℕ → Cstate := fun _ => .Idle
  headers : ℕ → ℕ := fun _ => 0
  ht : Ipht := fun _ => []
  rq : ℕ → List Block := fun _ => []
  held : List Lock := []
  allocated : List ℕ := []
  freed : List ℕ := []
  queued : List ℕ := []

abbrev M := Kern Crash Env

def qlock (l : Lock) : M Unit := Kern.modify fun s => { s with held := l :: s.held }

def qunlock (l : Lock) : M Unit := Kern.modify fun s => { s with held := s.held.erase l }

def freeblist (bs : List Block) : M Unit :=
  Kern.modify fun s => { s with freed := s.freed ++ bs.map Block.addr }

def allocb (m : Mem) (size : ℕ) : M Block := do
  Kern.modify fun s => { s with allocated := s.allocated ++ [m.addr] }
  return Qio.allocb m size

def trimblock (bs : List Block) (offset : ℕ) (len : ℤ) : M (List Block) :=
  match Trim.trimblock bs offset len with
  | none => Kern.panic .nilblock
  | some t => do
    freeblist t.freed
    return t.kept

/-- `padblock` by the length of `p`, and `p` put there. -/
def padblock (m : Mem) (p : List UInt8) : List Block → M (List Block)
  | [] => Kern.panic .nilblock
  | b :: bs =>
    if p.length ≤ b.head then
      return { b with head := b.head - p.length, data := p ++ b.data } :: bs
    else if bs ≠ [] then Kern.panic .padblock
    else do
      let nb ← allocb m (p.length + b.BLEN)
      freeblist [b]
      return [{ nb with data := p ++ b.data, room := nb.room - (p.length + b.BLEN) }]

def concatblock (m : Mem) (bs : List Block) : M (List Block) :=
  if bs.tail = [] then return bs
  else do
    let nb ← allocb m (blocklen bs)
    freeblist bs
    return [nb.put (bytes bs)]

def qpass (c : ℕ) (pass : RudpInput.Pass) (bs : List Block) : M Unit :=
  match pass with
  | .queued => Kern.modify fun s => { s with
      rq := Function.update s.rq c (s.rq c ++ bs)
      queued := s.queued ++ bs.map Block.addr }
  | .limit | .closed => freeblist bs

/-- What `Fsnewcall` comes to: there are too many calls or conversations, a free conversation is
taken, or there is no memory for one. -/
inductive Newcall where
  | refused
  | made (nc : ℕ)
  | nomem
  deriving DecidableEq, Repr

/-- What a call of `udpiput` meets. -/
structure Meets where
  newcall : Newcall := .refused
  /-- `qfull(c->rq)` -/
  full : Bool := false
  pass : RudpInput.Pass := .queued
  mem : Mem := ⟨0, 64, 0⟩
  memLater : Mem := ⟨1, 64, 0⟩
  /-- `ifc->lifc->local` -/
  ifclocal : Ipaddr := IPnoaddr

def Fsnewcall (w : Meets) (c : ℕ) (q : Ipaux.Conv) : M (Option ℕ) := do
  qlock (.conv c)
  match w.newcall with
  | .refused =>
    qunlock (.conv c)
    return none
  | .nomem => Kern.error "no memory"
  | .made nc =>
    Kern.modify fun s => { s with
      conv := Function.update s.conv nc q
      state := Function.update s.state nc .Connected }
    qunlock (.conv c)
    return some nc

/-! ### The routine -/

section

variable (ptclbsum : List UInt8 → UInt16) (runi : Ipaddr → Bool) (w : Meets)
  (pk : RudpInput.Packet)

/-- The local address of a new call. -/
def calladdr : Ipaddr :=
  let l := w.ifclocal
  if runi (header pk).laddr then (header pk).laddr
  else
    match version pk with
    -- the first bytes of the interface's address are taken, which has 16
    | .V4 => v4tov6 l[0]! l[1]! l[2]! l[3]!
    | .V6 => l

/-- The conversation that takes the packet, with the local address that goes into its header. -/
def called (c : ℕ) : M (Option (ℕ × Ipaddr)) := do
  let s ← Kern.get
  if s.state c = .Announced ∧ s.headers c = 0 then do
    let h := header pk
    let laddr := calladdr runi w pk
    match ← Fsnewcall w c ⟨h.raddr, h.rport, laddr, h.lport⟩ with
    | none => return none
    | some nc =>
      Kern.modify fun s => { s with ht := iphtadd s.ht s.conv nc }
      return some (nc, laddr)
  else return some (c, (header pk).laddr)

/-- The header that a mode puts before the data. -/
def addrHeader (laddr : Ipaddr) (mode : ℕ) : List UInt8 :=
  let h := header pk
  match mode with
  | 7 => h.raddr.toList ++ laddr.toList ++ w.ifclocal.toList ++
      RudpInput.hnputs h.rport ++ RudpInput.hnputs h.lport
  | 6 => h.raddr.toList ++ (if runi laddr then laddr else w.ifclocal).toList ++
      RudpInput.hnputs h.rport ++ RudpInput.hnputs h.lport
  | _ => []

def address (c : ℕ) (laddr : Ipaddr) (bs : List Block) : M (List Block) := do
  let s ← Kern.get
  match s.headers c with
  | 7 => padblock w.mem (addrHeader runi w pk laddr 7) bs
  | 6 => padblock w.mem (addrHeader runi w pk laddr 6) bs
  | _ => return bs

/-- Where the data begins. -/
def dataOffset : ℕ := (version pk).iphdr + UDP_UDPHDR_SZ

def deliver (c : ℕ) (laddr : Ipaddr) : M Unit := do
  let len : ℤ := (header pk).len.toNat - UDP_UDPHDR_SZ
  let bs ← trimblock pk.blocks (dataOffset pk) len
  if bs = [] then qunlock (.conv c)
  else do
    let bs ← address runi w pk c laddr bs
    let bs ← concatblock w.memLater bs
    if w.full then do
      qunlock (.conv c)
      freeblist bs
    else do
      qpass c w.pass bs
      qunlock (.conv c)

/-- The addresses and ports that the conversation is looked up by. -/
def quad : Ipaux.Packet :=
  let h := header pk
  { sa := h.raddr, sp := h.rport, da := h.laddr, dp := h.lport }

def udpiput : M Unit := do
  if Badsum ptclbsum pk then freeblist pk.blocks
  else do
    qlock .udp
    let s ← Kern.get
    match iphtlook s.ht s.conv (quad pk) with
    | none =>
      qunlock .udp
      freeblist pk.blocks
    | some c =>
      match ← called runi w pk c with
      | none =>
        qunlock .udp
        freeblist pk.blocks
      | some (c, laddr) =>
        qlock (.conv c)
        qunlock .udp
        deliver runi w pk c laddr

/-! ### What is claimed of it -/

/-- The conversation that takes a packet, with the local address in its header. -/
def taker (s : Env) : Option (ℕ × Ipaddr) := do
  let c ← iphtlook s.ht s.conv (quad pk)
  if s.state c = .Announced ∧ s.headers c = 0 then
    match w.newcall with
    | .made nc => some (nc, calladdr runi w pk)
    | _ => none
  else some (c, (header pk).laddr)

/-- The block `b` is the address header of the conversation's mode and the bytes behind the UDP
header, as many as the length says, which are all there. -/
structure Delivers (s : Env) (c : ℕ) (laddr : Ipaddr) (b : Block) : Prop where
  taker : taker runi w pk s = some (c, laddr)
  header_le : UDP_UDPHDR_SZ ≤ (header pk).len.toNat
  len_le : (version pk).iphdr + (header pk).len.toNat ≤ blocklen pk.blocks
  data : b.data = addrHeader runi w pk laddr (s.headers c) ++
    ((bytes pk.blocks).drop (dataOffset pk)).take ((header pk).len.toNat - UDP_UDPHDR_SZ)

/-- No lock is held, every block is freed or queued, each once, and what is queued is the address
header and the data in one block, behind what the conversation has queued before. -/
structure Handled (s t : Env) : Prop where
  held : t.held = []
  blocks : (t.freed ++ t.queued).Perm (pk.blocks.map Block.addr ++ t.allocated)
  queue : t.queued = [] ∧ t.rq = s.rq ∨ ∃ c laddr b, Delivers runi w pk s c laddr b ∧
    t.queued = [b.addr] ∧ t.rq = Function.update s.rq c (s.rq c ++ [b])

/-- There is room for the header of the mode before the data, or the data is in one block. -/
def Roomy (laddr : Ipaddr) (mode : ℕ) : Prop :=
  ∀ t ∈ Trim.trimblock pk.blocks (dataOffset pk) ((header pk).len.toNat - UDP_UDPHDR_SZ : ℤ),
    ∀ b bs, t.kept = b :: bs → (addrHeader runi w pk laddr mode).length ≤ b.head ∨ bs = []

/-- The packet is too short for its length, or the length is that of a header at least and there is
room for the address header. -/
def Passes (s : Env) (c : ℕ) (laddr : Ipaddr) : Prop :=
  blocklen pk.blocks < (version pk).iphdr + (header pk).len.toNat ∨
    UDP_UDPHDR_SZ ≤ (header pk).len.toNat ∧ Roomy runi w pk laddr (s.headers c)

/-- Where the checksum is right and a conversation takes the packet, it passes; and there is memory
for a new call. -/
def Fits (s : Env) : Prop :=
  ¬Badsum ptclbsum pk →
    (∀ c, iphtlook s.ht s.conv (quad pk) = some c → s.state c = .Announced → s.headers c = 0 →
      w.newcall ≠ .nomem) ∧
    ∀ c laddr, taker runi w pk s = some (c, laddr) → Passes runi w pk s c laddr

end

/-- A call starts with no lock and an empty record. -/
def Env.enter (s : Env) : Env := { s with held := [], allocated := [], freed := [], queued := [] }

/-! ### The steps of the routine -/

/-- Weakest preconditions where the routine must return. -/
abbrev twp {α : Type} (m : M α) (Q : α → Env → Prop) (s : Env) : Prop :=
  m.wp Q (fun _ _ => False) s

/-- The locks held are `held`; the blocks that came in or were allocated are freed, but for those in
`hand`; and the queues and modes are those of the start. -/
structure Owes (s₀ : Env) (pk : RudpInput.Packet) (held : List Lock) (hand : List ℕ) (s : Env) :
    Prop where
  held : s.held = held
  blocks : (s.freed ++ hand).Perm (pk.blocks.map Block.addr ++ s.allocated)
  queued : s.queued = []
  rq : s.rq = s₀.rq
  headers : s.headers = s₀.headers

section

variable {s₀ s : Env} {pk : RudpInput.Packet} {held : List Lock} {hand : List ℕ} {bs : List Block}

theorem owes_freeblist (h : Owes s₀ pk held (hand ++ bs.map Block.addr) s) :
    twp (freeblist bs) (fun _ => Owes s₀ pk held hand) s := by
  refine ⟨h.held, List.perm_iff_count.mpr fun a => ?_, h.queued, h.rq, h.headers⟩
  have ha := h.blocks.count_eq a
  simp only [List.count_append] at ha ⊢
  omega

/-- After the last blocks are freed none is in hand. -/
theorem owes_freeblist_all (h : Owes s₀ pk held (bs.map Block.addr) s) :
    twp (freeblist bs) (fun _ => Owes s₀ pk held []) s := by
  rw [← List.nil_append (bs.map Block.addr)] at h
  exact owes_freeblist h

theorem owes_allocb (h : Owes s₀ pk held hand s) (m : Mem) (size : ℕ) :
    twp (allocb m size) (fun b t => Owes s₀ pk held (hand ++ [b.addr]) t ∧
      b = Qio.allocb m size) s := by
  refine ⟨⟨h.held, List.perm_iff_count.mpr fun a => ?_, h.queued, h.rq, h.headers⟩, rfl⟩
  have ha := h.blocks.count_eq a
  simp only [List.count_append, addr_allocb] at ha ⊢
  omega

/-- A header is put before the data, in the first block or in a copy of the only one. -/
theorem owes_padblock (m : Mem) (p : List UInt8) {b : Block}
    (h : Owes s₀ pk held ((b :: bs).map Block.addr) s) (hroom : p.length ≤ b.head ∨ bs = []) :
    twp (padblock m p (b :: bs)) (fun cs t => Owes s₀ pk held (cs.map Block.addr) t ∧ cs ≠ [] ∧
      bytes cs = p ++ bytes (b :: bs)) s := by
  rw [padblock]
  by_cases hfit : p.length ≤ b.head
  · rw [if_pos hfit]
    exact ⟨h, List.cons_ne_nil _ _, by simp⟩
  · obtain rfl := hroom.resolve_left hfit
    rw [if_neg hfit, if_neg (not_not.mpr rfl)]
    refine Kern.wp_bind.mpr (Kern.wp_mono (owes_allocb h m _) (fun nb t ht => ?_) fun _ _ => id)
    obtain ⟨ht, -⟩ := ht
    have hswap : Owes s₀ pk held ([nb.addr] ++ [b].map Block.addr) t :=
      ⟨ht.held, (List.perm_append_comm.append_left _).trans ht.blocks, ht.queued, ht.rq,
        ht.headers⟩
    refine Kern.wp_bind.mpr (Kern.wp_mono (owes_freeblist hswap) (fun _ u hu => ?_) fun _ _ => id)
    exact ⟨hu, List.cons_ne_nil _ _, by simp⟩

theorem owes_concatblock (m : Mem) (h : Owes s₀ pk held (bs.map Block.addr) s) (hne : bs ≠ []) :
    twp (concatblock m bs) (fun cs t => ∃ b, cs = [b] ∧ Owes s₀ pk held [b.addr] t ∧
      b.data = bytes bs) s := by
  rw [concatblock]
  split_ifs with htail
  · obtain ⟨b, bs, rfl⟩ := List.exists_cons_of_ne_nil hne
    rw [List.tail_cons] at htail
    subst htail
    exact ⟨b, rfl, h, by simp⟩
  · refine Kern.wp_bind.mpr (Kern.wp_mono (owes_allocb h m _) (fun nb t ht => ?_) fun _ _ => id)
    obtain ⟨ht, hnb⟩ := ht
    have hswap : Owes s₀ pk held ([nb.addr] ++ bs.map Block.addr) t :=
      ⟨ht.held, (List.perm_append_comm.append_left _).trans ht.blocks, ht.queued, ht.rq,
        ht.headers⟩
    refine Kern.wp_bind.mpr (Kern.wp_mono (owes_freeblist hswap) (fun _ u hu => ?_) fun _ _ => id)
    exact ⟨_, rfl, hu, by rw [hnb, Block.data_put, data_allocb, List.nil_append]⟩

variable {runi : Ipaddr → Bool} {w : Meets} {c : ℕ} {laddr : Ipaddr}

/-- Other modes put no header before the data. -/
theorem addrHeader_of_ne {mode : ℕ} (h7 : mode ≠ 7) (h6 : mode ≠ 6) :
    addrHeader runi w pk laddr mode = [] := by
  unfold addrHeader
  split
  · exact absurd rfl h7
  · exact absurd rfl h6
  · rfl

/-- `address` puts the header of the mode before the data, where there is room for it. -/
theorem owes_address {b : Block} (h : Owes s₀ pk held ((b :: bs).map Block.addr) s)
    (hroom : (addrHeader runi w pk laddr (s₀.headers c)).length ≤ b.head ∨ bs = []) :
    twp (address runi w pk c laddr (b :: bs)) (fun cs t => Owes s₀ pk held (cs.map Block.addr) t ∧
      cs ≠ [] ∧ bytes cs = addrHeader runi w pk laddr (s₀.headers c) ++ bytes (b :: bs)) s := by
  rw [address]
  refine Kern.wp_bind.mpr (Kern.wp_get.mpr ?_)
  rw [h.headers]
  split
  · rename_i h7
    rw [h7] at hroom ⊢
    exact owes_padblock _ _ h hroom
  · rename_i h6
    rw [h6] at hroom ⊢
    exact owes_padblock _ _ h hroom
  · rename_i h7 h6
    exact ⟨h, List.cons_ne_nil _ _, by rw [addrHeader_of_ne h7 h6, List.nil_append]⟩

/-- Where there is no room for the header, the routine does not return. -/
theorem not_address {b : Block} {Q : List Block → Env → Prop} (hs : s.headers = s₀.headers)
    (hroom : ¬((addrHeader runi w pk laddr (s₀.headers c)).length ≤ b.head ∨ bs = [])) :
    ¬twp (address runi w pk c laddr (b :: bs)) Q s := by
  obtain ⟨hfit, hne⟩ := not_or.mp hroom
  have hpad {p : List UInt8} (hp : ¬p.length ≤ b.head) {t : Env} :
      ¬twp (padblock w.mem p (b :: bs)) Q t := by
    rw [padblock, if_neg hp, if_pos hne]
    exact id
  rw [address]
  intro h
  replace h := Kern.wp_get.mp (Kern.wp_bind.mp h)
  rw [hs] at h
  split at h
  · rename_i h7
    rw [h7] at hfit
    exact hpad hfit h
  · rename_i h6
    rw [h6] at hfit
    exact hpad hfit h
  · rename_i h7 h6
    rw [addrHeader_of_ne h7 h6] at hfit
    exact hfit (Nat.zero_le _)

/-- The last steps: the data goes into one block, which is queued or freed. -/
theorem handled_enqueue (h : Owes s₀ pk [.conv c] (bs.map Block.addr) s) (hne : bs ≠ [])
    (hdel : ∀ b : Block, b.data = bytes bs → Delivers runi w pk s₀ c laddr b) :
    twp (do
      let bs ← concatblock w.memLater bs
      if w.full then do
        qunlock (.conv c)
        freeblist bs
      else do
        qpass c w.pass bs
        qunlock (.conv c)) (fun _ => Handled runi w pk s₀) s := by
  refine Kern.wp_bind.mpr (Kern.wp_mono (owes_concatblock _ h hne) (fun cs t ht => ?_)
    fun _ _ => id)
  obtain ⟨b, rfl, ht, hdata⟩ := ht
  have herase : ([.conv c] : List Lock).erase (.conv c) = [] := List.erase_cons_head _ _
  have hfreed : (t.freed ++ [b.addr]).Perm (pk.blocks.map Block.addr ++ t.allocated) := ht.blocks
  split_ifs
  · refine ⟨?_, ?_, .inl ⟨ht.queued, ht.rq⟩⟩
    · rw [← herase, ← ht.held]
    · simpa [ht.queued] using hfreed
  · cases w.pass with
    | queued =>
      refine ⟨?_, ?_, .inr ⟨c, laddr, b, hdel b hdata, ?_, ?_⟩⟩
      · rw [← herase, ← ht.held]
      · simpa [ht.queued] using hfreed
      · simp [ht.queued]
      · simp [ht.rq]
    | limit =>
      refine ⟨?_, ?_, .inl ⟨ht.queued, ht.rq⟩⟩
      · rw [← herase, ← ht.held]
      · simpa [ht.queued] using hfreed
    | closed =>
      refine ⟨?_, ?_, .inl ⟨ht.queued, ht.rq⟩⟩
      · rw [← herase, ← ht.held]
      · simpa [ht.queued] using hfreed

/-- A packet that a conversation takes is handled just when it passes. -/
theorem handled_deliver_iff (h : Owes s₀ pk [.conv c] (pk.blocks.map Block.addr) s)
    (htaker : taker runi w pk s₀ = some (c, laddr)) :
    twp (deliver runi w pk c laddr) (fun _ => Handled runi w pk s₀) s ↔
      Passes runi w pk s₀ c laddr := by
  have hoff : (dataOffset pk : ℤ) + ((header pk).len.toNat - UDP_UDPHDR_SZ) =
      ((version pk).iphdr + (header pk).len.toNat : ℕ) := by
    rw [dataOffset]
    push_cast
    ring
  have herase : ([.conv c] : List Lock).erase (.conv c) = [] := List.erase_cons_head _ _
  rw [deliver, trimblock, Passes]
  by_cases hshort : blocklen pk.blocks < (version pk).iphdr + (header pk).len.toNat
  · rw [Trim.trimblock_short (by omega)]
    refine iff_of_true ?_ (.inl hshort)
    refine Kern.wp_bind.mpr (Kern.wp_bind.mpr (Kern.wp_mono (owes_freeblist_all h)
      (fun _ t ht => ?_) fun _ _ => id))
    refine ⟨by rw [← herase, ← ht.held], ?_, .inl ⟨ht.queued, ht.rq⟩⟩
    simpa [ht.queued] using ht.blocks
  by_cases hrunt : UDP_UDPHDR_SZ ≤ (header pk).len.toNat
  · have hlenle : (dataOffset pk : ℤ) + ((header pk).len.toNat - UDP_UDPHDR_SZ) ≤
        blocklen pk.blocks := by
      omega
    have hblocks : pk.blocks ≠ [] := List.cons_ne_nil _ _
    obtain ⟨t, hrun, hne, hbytes, hperm⟩ := Trim.trimblock_spec hblocks (by omega) hlenle
    obtain ⟨b, bs', hkept⟩ := List.exists_cons_of_ne_nil hne
    have hroomy : Roomy runi w pk laddr (s₀.headers c) ↔
        ((addrHeader runi w pk laddr (s₀.headers c)).length ≤ b.head ∨ bs' = []) := by
      rw [Roomy, hrun]
      refine ⟨fun hr => hr t rfl b bs' hkept, fun hr t' ht' b' bs'' hk => ?_⟩
      cases ht'
      cases hkept.symm.trans hk
      exact hr
    rw [hrun, or_iff_right hshort, and_iff_right hrunt, hroomy]
    have howes : Owes s₀ pk [.conv c] (t.kept.map Block.addr ++ t.freed.map Block.addr) s := by
      rw [← List.map_append]
      exact ⟨h.held, (hperm.append_left _).trans h.blocks, h.queued, h.rq, h.headers⟩
    have hfree := owes_freeblist howes
    constructor
    · intro hw
      by_contra hroom
      replace hw := Kern.wp_bind.mp (Kern.wp_bind.mp hw)
      rw [freeblist, Kern.wp_modify, Kern.wp_pure, if_neg hne, hkept] at hw
      exact not_address (by exact h.headers) hroom (Kern.wp_bind.mp hw)
    · intro hroom
      refine Kern.wp_bind.mpr (Kern.wp_bind.mpr (Kern.wp_mono hfree (fun _ u hu => ?_)
        fun _ _ => id))
      rw [Kern.wp_pure, if_neg hne, hkept]
      rw [hkept] at hu
      refine Kern.wp_bind.mpr (Kern.wp_mono (owes_address hu hroom) (fun cs v hv => ?_)
        fun _ _ => id)
      obtain ⟨hv, hcs, hdata⟩ := hv
      refine handled_enqueue hv hcs fun b' hb' => ⟨htaker, hrunt, by omega, ?_⟩
      have hlen : ((header pk).len.toNat - UDP_UDPHDR_SZ : ℤ).toNat =
          (header pk).len.toNat - UDP_UDPHDR_SZ := by
        omega
      rw [hb', hdata, ← hkept, hbytes, hlen]
  · rw [Trim.trimblock_neg (by omega) (by omega)]
    refine iff_of_false ?_ fun hp => ?_
    · exact id
    · exact hp.elim hshort fun hp => hrunt hp.1

/-- The protocol with the new call `nc`. -/
def Env.call (s : Env) (nc : ℕ) (q : Ipaux.Conv) : Env :=
  { s with
    conv := Function.update s.conv nc q
    state := Function.update s.state nc .Connected
    ht := iphtadd s.ht (Function.update s.conv nc q) nc }

/-- What `called` comes to; the lock of the listening conversation is given back, unless there is no
memory. -/
theorem twp_called {Q : Option (ℕ × Ipaddr) → Env → Prop} : twp (called runi w pk c) Q s ↔
    if s.state c = .Announced ∧ s.headers c = 0 then
      match w.newcall with
      | .refused => Q none s
      | .nomem => False
      | .made nc => Q (some (nc, calladdr runi w pk)) (s.call nc ⟨(header pk).raddr,
          (header pk).rport, calladdr runi w pk, (header pk).lport⟩)
    else Q (some (c, (header pk).laddr)) s := by
  rw [called]
  refine Kern.wp_bind.trans (Kern.wp_get.trans ?_)
  split_ifs
  · refine Kern.wp_bind.trans ?_
    unfold Fsnewcall
    cases w.newcall with
    | refused => simp [qlock, qunlock]
    | nomem => simp [qlock]
    | made nc => simp [qlock, qunlock, Env.call]
  · exact .rfl

/-- `udpiput` returns, holds no lock, and has freed the packet or queued just its address header
and its data, if and only if the packet fits. -/
theorem handled_iff (ptclbsum : List UInt8 → UInt16) (runi : Ipaddr → Bool) (w : Meets)
    (pk : RudpInput.Packet) (s : Env) :
    twp (udpiput ptclbsum runi w pk) (fun _ => Handled runi w pk s.enter) s.enter ↔
      Fits ptclbsum runi w pk s.enter := by
  have hstart {held : List Lock} (t : Env) (hheld : t.held = held) (hfreed : t.freed = [])
      (hqueued : t.queued = []) (hall : t.allocated = []) (hrq : t.rq = s.enter.rq)
      (hheaders : t.headers = s.enter.headers) :
      Owes s.enter pk held (pk.blocks.map Block.addr) t :=
    ⟨hheld, by rw [hfreed, hall, List.append_nil, List.nil_append], hqueued, hrq, hheaders⟩
  -- a packet that is freed as it is
  have hdrop (t : Env) (h : Owes s.enter pk [] (pk.blocks.map Block.addr) t) :
      twp (freeblist pk.blocks) (fun _ => Handled runi w pk s.enter) t := by
    refine Kern.wp_mono (owes_freeblist_all h) (fun _ u hu => ?_) fun _ _ => id
    refine ⟨hu.held, ?_, .inl ⟨hu.queued, hu.rq⟩⟩
    simpa [hu.queued] using hu.blocks
  rw [udpiput, Fits]
  split_ifs with hsum
  · exact iff_of_true (hdrop _ (hstart _ rfl rfl rfl rfl rfl rfl)) fun h => absurd hsum h
  rw [forall_prop_of_true hsum]
  change twp (match iphtlook s.enter.ht s.enter.conv (quad pk) with
    | none => _
    | some c => _) _ { s.enter with held := [.udp] } ↔ _
  cases hlook : iphtlook s.enter.ht s.enter.conv (quad pk) with
  | none =>
    have hnone : taker runi w pk s.enter = none := by
      rw [taker, hlook]
      rfl
    refine iff_of_true (hdrop _ (hstart _ rfl rfl rfl rfl rfl rfl)) ⟨nofun, fun c laddr ht => ?_⟩
    rw [hnone] at ht
    cases ht
  | some c =>
    -- what takes the packet is asked to pass it, with the lock of the protocol given back
    have htake {t : Env} {c : ℕ} {laddr : Ipaddr} (ht : t.held = [.udp]) (hfreed : t.freed = [])
        (hqueued : t.queued = []) (hall : t.allocated = []) (hrq : t.rq = s.enter.rq)
        (hheaders : t.headers = s.enter.headers)
        (htaker : taker runi w pk s.enter = some (c, laddr)) :
        twp (do
          qlock (.conv c)
          qunlock .udp
          deliver runi w pk c laddr) (fun _ => Handled runi w pk s.enter) t ↔
          ∀ c laddr, taker runi w pk s.enter = some (c, laddr) →
            Passes runi w pk s.enter c laddr := by
      refine Kern.wp_bind.trans (Kern.wp_modify.trans (Kern.wp_bind.trans (Kern.wp_modify.trans
        ((handled_deliver_iff (hstart _ ?_ (by exact hfreed) (by exact hqueued) (by exact hall)
          (by exact hrq) (by exact hheaders)) htaker).trans ?_))))
      · dsimp only
        rw [ht]
        rfl
      · rw [htaker]
        refine ⟨fun hp c' laddr' h => ?_, fun hp => hp c laddr rfl⟩
        cases h
        exact hp
    refine (Kern.wp_bind.trans twp_called).trans ?_
    by_cases hann : s.enter.state c = .Announced ∧ s.enter.headers c = 0
    · rw [if_pos (by exact hann)]
      cases hcall : w.newcall with
      | refused =>
        have hnone : taker runi w pk s.enter = none := by
          rw [taker, hlook]
          simp [hann, hcall]
        refine iff_of_true (hdrop _ (hstart _ rfl rfl rfl rfl rfl rfl))
          ⟨nofun, fun c laddr ht => ?_⟩
        rw [hnone] at ht
        cases ht
      | nomem => exact iff_of_false id fun h => h.1 c rfl hann.1 hann.2 rfl
      | made nc =>
        have htaker : taker runi w pk s.enter = some (nc, calladdr runi w pk) := by
          rw [taker, hlook]
          simp [hann, hcall]
        exact (htake (by rfl) (by rfl) (by rfl) (by rfl) (by rfl) (by rfl) htaker).trans
          (and_iff_right fun _ _ _ _ => nofun).symm
    · rw [if_neg (by exact hann)]
      have htaker : taker runi w pk s.enter = some (c, (header pk).laddr) := by
        rw [taker, hlook]
        simp only [Option.bind_eq_bind, Option.bind_some, hann, if_false]
      refine (htake (by rfl) (by rfl) (by rfl) (by rfl) (by rfl) (by rfl) htaker).trans
        (and_iff_right fun c' hc' h₁ h₂ => ?_).symm
      cases hc'
      exact absurd ⟨h₁, h₂⟩ hann

end

/-! ### A packet that says less than its header -/

/-- A packet of 28 bytes without checksum for port 5001, whose header says seven bytes. -/
def runt : RudpInput.Packet where
  bp :=
    { addr := 0
      data := [0x45, 0, 0, 28, 0, 0, 0, 0, 64, 17, 0, 0, 10, 0, 0, 2, 10, 0, 0, 1,
        0, 80, 0x13, 0x89, 0, 7, 0, 0] }

/-- A conversation that is connected to port 80 of 10.0.0.2 from port 5001 of 10.0.0.1. -/
def connected : Env where
  conv := fun _ => ⟨v4tov6 10 0 0 2, 80, v4tov6 10 0 0 1, 5001⟩
  state := fun _ => .Connected
  ht := iphtadd (fun _ => []) (fun _ => ⟨v4tov6 10 0 0 2, 80, v4tov6 10 0 0 1, 5001⟩) 0

/-- `trimblock` runs off the end of the packet. -/
theorem not_handled_runt :
    ¬∀ (ptclbsum : List UInt8 → UInt16) (runi : Ipaddr → Bool) (w : Meets)
      (pk : RudpInput.Packet) (s : Env),
      twp (udpiput ptclbsum runi w pk) (fun _ => Handled runi w pk s.enter) s.enter := by
  intro h
  have hrun := h (fun _ => 0) (fun _ => true) {} runt connected
  have hstop : (udpiput (fun _ => 0) (fun _ => true) {} runt connected.enter).1.isOk = false := by
    decide +kernel
  unfold twp Kern.wp at hrun
  revert hstop hrun
  rcases udpiput (fun _ => 0) (fun _ => true) {} runt connected.enter with ⟨_ | _, t⟩
  · exact fun hrun _ => hrun
  · exact fun _ hstop => Bool.false_ne_true hstop.symm

end PlanNine.UdpInput
