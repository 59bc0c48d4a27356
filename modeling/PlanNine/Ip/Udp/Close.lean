import PlanNine.Ip.Ipaux.Hash
import PlanNine.Lib.Run

/-!
# Closed conversations of UDP and RUDP

What the routines of `udp.c`, `rudp.c` and `devip.c` do to the addresses of a conversation and to
the table of conversations, for any number of conversations and any sequence of control messages,
writes, packets and closes. A conversation is filed under the index of its addresses when it
connects or announces, and is looked for under that of its addresses when it is closed.

The addresses that `Fsstdconnect` and `setladdrport` take from their arguments, those that
`findlocalip` and the interfaces give, the failures, and which free conversation `Fsprotoclone`
takes, are inputs of a step.

## Main definitions

* `Sys`, `Op`, `exec`: the conversations with the table, and the steps.
* `Closable`: if a conversation is closed now, no entry refers to it any more.
* `Stays`: the address that is saved for a packet leaves the index of the conversation as it is.

## Main results

* `closable_iff`: every conversation can be closed at any time just when all packets keep to the
  condition.
* `not_closable_saved`: a packet whose source ends in 128.
-/

namespace PlanNine.UdpClose

open Ipaux

inductive Proto where
  | udp | rudp
  deriving DecidableEq, Repr

inductive Cstate where
  | Idle | Announcing | Announced | Connecting | Connected
  deriving DecidableEq, Repr

structure Sys where
  conv : ℕ → Conv := fun _ => {}
  state : ℕ → Cstate := fun _ => .Idle
  headers : ℕ → ℕ := fun _ => 0
  ht : Ipht := fun _ => []

/-- Control messages, writes, delayed acknowledgements, packets, and the close. -/
inductive Op where
  | connect (c : ℕ) (q : Conv) (err : Bool)
  | announce (c : ℕ) (laddr : Ipaddr) (lport : UInt16) (err : Bool)
  | ctl (c : ℕ) (cmd : String)
  | write (c : ℕ) (findlocalip : Ipaddr)
  | sendack (c : ℕ) (findlocalip : Ipaddr)
  | packet (p : Packet) (ok : Bool) (nc : Option ℕ) (laddr : Ipaddr)
  | close (c : ℕ)

namespace Sys

variable (s : Sys) (c : ℕ)

def setConv (q : Conv) : Sys := { s with conv := Function.update s.conv c q }

def setState (st : Cstate) : Sys := { s with state := Function.update s.state c st }

def setHeaders (n : ℕ) : Sys := { s with headers := Function.update s.headers c n }

def iphtadd : Sys := { s with ht := Ipaux.iphtadd s.ht s.conv c }

def iphtrem : Sys := { s with ht := Ipaux.iphtrem s.ht s.conv c }

/-- `connectctlmsg`, with `udpconnect` and `rudpconnect`, where `Fsstdconnect` leaves `q`. -/
def connect (proto : Proto) (q : Conv) (err : Bool) : Sys :=
  if s.state c ≠ .Idle then s
  else
    let t := (s.setConv c q).setState c .Connected
    match proto with
    | .udp => if err then t else t.iphtadd c
    | .rudp => t.iphtadd c

/-- `announcectlmsg`, with `udpannounce` and `rudpannounce`, where `Fsstdannounce` leaves `laddr`
and `lport`. -/
def announce (laddr : Ipaddr) (lport : UInt16) (err : Bool) : Sys :=
  if s.state c ≠ .Idle then s
  else
    let t := s.setConv c { laddr := laddr, lport := lport }
    if err then t.setState c .Announcing else (t.setState c .Announced).iphtadd c

/-- `udpctl` and the part of `rudpctl` that sets the header mode. -/
def ctl (proto : Proto) (cmd : String) : Sys :=
  match proto with
  | .udp =>
    if cmd = "oldheaders" then s.setHeaders c 6
    else if cmd = "headers" then s.setHeaders c 7 else s
  | .rudp =>
    if cmd = "headers++4" then s.setHeaders c 7
    else if cmd = "headers" then s.setHeaders c 6 else s

/-- `findlocalip` is asked for a local address where there is none. -/
def fillLaddr (findlocalip : Ipaddr) : Sys :=
  if (s.conv c).laddr = IPnoaddr then s.setConv c { s.conv c with laddr := findlocalip } else s

/-- `udpkick` and `rudpkick`. -/
def write (findlocalip : Ipaddr) : Sys :=
  if s.headers c = 0 then s.fillLaddr c findlocalip else s

/-- The part of `udpiput` that makes a new conversation of an announced one. -/
def newcall (p : Packet) (nc : ℕ) (laddr : Ipaddr) : Sys :=
  ((s.setConv nc { raddr := p.sa, rport := p.sp, laddr := laddr, lport := p.dp }).setState nc
    .Connected).iphtadd nc

/-- The part of `rudpiput` that saves the source of a packet. -/
def save (p : Packet) (laddr : Ipaddr) : Sys :=
  s.setConv c { s.conv c with raddr := p.sa, rport := p.sp, laddr := laddr }

/-- The packet is accepted for a conversation that has no remote address yet and takes no
headers. -/
def Saves (ok : Bool) : Prop := ok = true ∧ s.headers c = 0 ∧ (s.conv c).raddr = IPnoaddr

instance (ok : Bool) : Decidable (s.Saves c ok) := inferInstanceAs (Decidable (_ ∧ _))

/-- `udpiput` and `rudpiput`; `nc` is what `Fsnewcall` takes. -/
def packet (proto : Proto) (p : Packet) (ok : Bool) (nc : Option ℕ) (laddr : Ipaddr) : Sys :=
  match iphtlook s.ht s.conv p with
  | none => s
  | some c =>
    match proto with
    | .udp =>
      if s.state c = .Announced ∧ s.headers c = 0 then
        match nc with
        | some nc => s.newcall p nc laddr
        | none => s
      else s
    | .rudp => if s.Saves c ok then s.save c p laddr else s

/-- `closeconv`, with `udpclose` and `rudpclose`. -/
def close : Sys := (((s.iphtrem c).setConv c {}).setHeaders c 0).setState c .Idle

end Sys

def exec (proto : Proto) (s : Sys) : Op → Option Sys
  | .connect c q err => some (s.connect c proto q err)
  | .announce c laddr lport err => some (s.announce c laddr lport err)
  | .ctl c cmd => some (s.ctl c proto cmd)
  | .write c findlocalip => some (s.write c findlocalip)
  | .sendack c findlocalip => if proto = .rudp then some (s.fillLaddr c findlocalip) else none
  | .packet p ok nc laddr =>
    if ∀ c ∈ nc, s.state c = .Idle then some (s.packet proto p ok nc laddr) else none
  | .close c => some (s.close c)

/-- If the conversation is closed now, no entry refers to it, and no packet is delivered to it. -/
def Closable (s : Sys) (c : ℕ) : Prop :=
  (∀ i, ∀ e ∈ (s.close c).ht i, e.c ≠ c) ∧
    ∀ p, iphtlook (s.close c).ht (s.close c).conv p ≠ some c

/-- Where RUDP saves the source of a packet, the top bit of its last byte is that of its port, or
the local port is a multiple of 64. -/
def Stays (proto : Proto) (s : Sys) : Op → Prop
  | .packet p ok _ _ =>
    proto = .rudp → ∀ c, iphtlook s.ht s.conv p = some c → s.Saves c ok →
      Inside p.sa p.sp (s.conv c).lport
  | _ => True

/-! ### The invariant -/

/-- An entry is under the index of its conversation, and is the only one of it; its conversation is
not idle, and has a local port if the class of the entry says so. -/
structure Inv (s : Sys) : Prop where
  place : ∀ i, ∀ e ∈ s.ht i, i = indexOf (s.conv e.c)
  once : ∀ i, ((s.ht i).map Iphash.c).Nodup
  busy : ∀ i, ∀ e ∈ s.ht i, s.state e.c ≠ .Idle
  port : ∀ i, ∀ e ∈ s.ht i, e.match = .addr ∨ e.match = .any → (s.conv e.c).lport = 0
  exact : ∀ i, ∀ e ∈ s.ht i, e.match = .exact → (s.conv e.c).raddr ≠ IPnoaddr

theorem inv_start : Inv {} := ⟨nofun, fun _ => List.nodup_nil, nofun, nofun, nofun⟩

/-- No entry refers to the conversation. -/
def Absent (ht : Ipht) (c : ℕ) : Prop := ∀ i, ∀ e ∈ ht i, e.c ≠ c

variable {s t : Sys} {c : ℕ} {q : Conv} {st : Cstate} {p : Packet} {proto : Proto}

/-- A conversation without entries may change. -/
theorem Inv.alter (h : Inv s) (hab : Absent s.ht c) (ht : t.ht = s.ht)
    (hconv : t.conv = Function.update s.conv c q)
    (hstate : t.state = Function.update s.state c st) : Inv t := by
  have hc (i : ℕ) (e : Iphash) (he : e ∈ t.ht i) :
      e ∈ s.ht i ∧ t.conv e.c = s.conv e.c ∧ t.state e.c = s.state e.c := by
    rw [ht] at he
    rw [hconv, hstate, Function.update_of_ne (hab i e he), Function.update_of_ne (hab i e he)]
    exact ⟨he, rfl, rfl⟩
  refine ⟨fun i e he => ?_, fun i => ht ▸ h.once i, fun i e he => ?_, fun i e he => ?_,
    fun i e he => ?_⟩ <;> obtain ⟨he, hce, hse⟩ := hc i e he
  · rw [hce]
    exact h.place i e he
  · rw [hse]
    exact h.busy i e he
  · rw [hce]
    exact h.port i e he
  · rw [hce]
    exact h.exact i e he

theorem Inv.absent (h : Inv s) (hidle : s.state c = .Idle) : Absent s.ht c := by
  rintro i e he rfl
  exact h.busy i e he hidle

/-- A conversation without entries is filed. -/
theorem Inv.iphtadd (h : Inv s) (hab : Absent s.ht c) (hst : s.state c ≠ .Idle) :
    Inv (s.iphtadd c) := by
  have hmem (i : ℕ) (e : Iphash) (he : e ∈ (s.iphtadd c).ht i) :
      e ∈ s.ht i ∨ i = indexOf (s.conv c) ∧ e = ⟨c, matchOf (s.conv c)⟩ := by
    dsimp only [Sys.iphtadd, Ipaux.iphtadd] at he
    by_cases hi : i = indexOf (s.conv c)
    · subst hi
      rw [Function.update_self] at he
      exact (List.mem_cons.mp he).symm.imp_right fun heq => ⟨rfl, heq⟩
    · rw [Function.update_of_ne hi] at he
      exact .inl he
  refine ⟨fun i e he => ?_, fun i => ?_, fun i e he => ?_, fun i e he => ?_, fun i e he => ?_⟩
  · rcases hmem i e he with he | ⟨hi, rfl⟩
    · exact h.place i e he
    · exact hi
  · dsimp only [Sys.iphtadd, Ipaux.iphtadd]
    by_cases hi : i = indexOf (s.conv c)
    · subst hi
      rw [Function.update_self, List.map_cons, List.nodup_cons]
      refine ⟨fun hc => ?_, h.once _⟩
      obtain ⟨e, he, hec⟩ := List.mem_map.mp hc
      exact hab _ e he hec
    · rw [Function.update_of_ne hi]
      exact h.once i
  · rcases hmem i e he with he | ⟨-, rfl⟩
    · exact h.busy i e he
    · exact hst
  · rcases hmem i e he with he | ⟨-, rfl⟩
    · exact h.port i e he
    · exact fun hclass => hclass.elim lport_of_addr lport_of_any
  · rcases hmem i e he with he | ⟨-, rfl⟩
    · exact h.exact i e he
    · exact raddr_of_exact

/-- The addresses of a conversation change, and its index does not. -/
theorem Inv.setConv (h : Inv s) (hindex : indexOf q = indexOf (s.conv c))
    (hlport : q.lport = (s.conv c).lport)
    (hraddr : (s.conv c).raddr ≠ IPnoaddr → q.raddr ≠ IPnoaddr) : Inv (s.setConv c q) := by
  have hconv (c' : ℕ) : indexOf ((s.setConv c q).conv c') = indexOf (s.conv c') ∧
      ((s.setConv c q).conv c').lport = (s.conv c').lport ∧
      ((s.conv c').raddr ≠ IPnoaddr → ((s.setConv c q).conv c').raddr ≠ IPnoaddr) := by
    dsimp only [Sys.setConv]
    by_cases hc : c' = c
    · subst hc
      rw [Function.update_self]
      exact ⟨hindex, hlport, hraddr⟩
    · rw [Function.update_of_ne hc]
      exact ⟨rfl, rfl, id⟩
  exact ⟨fun i e he => (h.place i e he).trans (hconv e.c).1.symm, h.once, h.busy,
    fun i e he hclass => (hconv e.c).2.1.trans (h.port i e he hclass),
    fun i e he hclass => (hconv e.c).2.2 (h.exact i e he hclass)⟩

/-- A local address is filled in. -/
theorem Inv.fillLaddr (h : Inv s) (c : ℕ) (findlocalip : Ipaddr) :
    Inv (s.fillLaddr c findlocalip) := by
  rw [Sys.fillLaddr]
  split_ifs
  · exact h.setConv (iphash_laddr _ _) rfl id
  · exact h

/-- The index of a conversation without remote address for which a packet is found. -/
theorem Inv.indexOf_found (h : Inv s) (hlook : iphtlook s.ht s.conv p = some c)
    (hraddr : (s.conv c).raddr = IPnoaddr) :
    indexOf (s.conv c) = (s.conv c).lport.toNat % Nhash ∧
      ∃ e ∈ s.ht (indexOf (s.conv c)), e.c = c := by
  obtain ⟨k, -, e, he, rfl, hk, hfits⟩ := exists_of_scans hlook
  have hplace := h.place _ e he
  refine ⟨?_, e, hplace ▸ he, rfl⟩
  rw [← hplace]
  cases k with
  | exact => exact absurd hraddr (h.exact _ e he hk)
  | pa =>
    simp only [fits, decide_eq_true_eq] at hfits
    rw [probe, iphash_of_inside (inside_zero _), hfits.1]
  | port =>
    simp only [fits, decide_eq_true_eq] at hfits
    rw [probe, iphash_of_inside (inside_zero _), hfits]
  | addr =>
    rw [probe, iphash_of_inside (inside_zero _), h.port _ e he (.inl hk)]
  | any =>
    rw [probe, iphash_of_inside (inside_zero _), h.port _ e he (.inr hk)]

/-- The source of a packet is saved. -/
theorem Inv.save (h : Inv s) (hlook : iphtlook s.ht s.conv p = some c)
    (hraddr : (s.conv c).raddr = IPnoaddr) (hin : Inside p.sa p.sp (s.conv c).lport)
    (laddr : Ipaddr) : Inv (s.save c p laddr) := by
  refine h.setConv ?_ rfl fun hne => absurd hraddr hne
  rw [(h.indexOf_found hlook hraddr).1]
  exact iphash_of_inside hin

/-- A new conversation of an announced one. -/
theorem Inv.newcall (h : Inv s) {nc : ℕ} (hidle : s.state nc = .Idle) (laddr : Ipaddr) :
    Inv (s.newcall p nc laddr) := by
  have hab := h.absent hidle
  refine Inv.iphtadd (h.alter hab rfl rfl rfl) hab ?_
  dsimp only [Sys.setState]
  rw [Function.update_self]
  decide

theorem Inv.connect (h : Inv s) (err : Bool) : Inv (s.connect c proto q err) := by
  rw [Sys.connect]
  by_cases hidle : s.state c ≠ .Idle
  · rw [if_pos hidle]
    exact h
  · rw [if_neg hidle]
    have hab := h.absent (not_not.mp hidle)
    have ht : Inv ((s.setConv c q).setState c .Connected) := h.alter hab rfl rfl rfl
    have hst : ((s.setConv c q).setState c .Connected).state c ≠ .Idle := by
      dsimp only [Sys.setState]
      rw [Function.update_self]
      decide
    cases proto with
    | udp =>
      dsimp only
      split_ifs
      · exact ht
      · exact ht.iphtadd hab hst
    | rudp => exact ht.iphtadd hab hst

theorem Inv.announce (h : Inv s) (laddr : Ipaddr) (lport : UInt16) (err : Bool) :
    Inv (s.announce c laddr lport err) := by
  rw [Sys.announce]
  split_ifs with hidle herr
  · exact h
  · exact h.alter (h.absent (not_not.mp hidle)) rfl rfl rfl
  · have hab := h.absent (not_not.mp hidle)
    refine Inv.iphtadd (h.alter hab rfl rfl rfl) hab ?_
    dsimp only [Sys.setState]
    rw [Function.update_self]
    decide

/-- A removal only takes an entry out. -/
theorem sublist_iphtrem (s : Sys) (c i : ℕ) : ((s.iphtrem c).ht i).Sublist (s.ht i) := by
  dsimp only [Sys.iphtrem, Ipaux.iphtrem]
  by_cases hi : i = indexOf (s.conv c)
  · subst hi
    rw [Function.update_self]
    exact List.eraseP_sublist
  · rw [Function.update_of_ne hi]

/-- The entry under the index of the conversation was the only one. -/
theorem Inv.absent_iphtrem (h : Inv s) (c : ℕ) : Absent (s.iphtrem c).ht c := by
  rintro i e he rfl
  have hi := h.place i e ((sublist_iphtrem s e.c i).subset he)
  subst hi
  dsimp only [Sys.iphtrem, Ipaux.iphtrem] at he
  rw [Function.update_self] at he
  have hmem := List.mem_map_of_mem (f := Iphash.c) he
  have herase : ((s.ht (indexOf (s.conv e.c))).eraseP fun h => h.c = e.c).map Iphash.c =
      ((s.ht (indexOf (s.conv e.c))).map Iphash.c).erase e.c := by
    rw [List.erase_eq_eraseP', List.eraseP_map]
    rfl
  rw [herase] at hmem
  exact (h.once _).not_mem_erase hmem

/-- A conversation that is closed has no entry. -/
theorem Inv.close (h : Inv s) (c : ℕ) : Inv (s.close c) := by
  have hsub (i : ℕ) (e : Iphash) (he : e ∈ (s.iphtrem c).ht i) : e ∈ s.ht i :=
    (sublist_iphtrem s c i).subset he
  have hrem : Inv (s.iphtrem c) :=
    ⟨fun i e he => h.place i e (hsub i e he),
      fun i => (h.once i).sublist ((sublist_iphtrem s c i).map _),
      fun i e he => h.busy i e (hsub i e he), fun i e he => h.port i e (hsub i e he),
      fun i e he => h.exact i e (hsub i e he)⟩
  exact hrem.alter (h.absent_iphtrem c) rfl rfl rfl

/-! ### The steps -/

theorem closable_of_absent (h : Absent (s.close c).ht c) : Closable s c := by
  refine ⟨h, fun p hlook => ?_⟩
  obtain ⟨k, -, e, he, hc, -⟩ := exists_of_scans hlook
  exact h _ e he hc

theorem Inv.setHeaders (h : Inv s) (n : ℕ) : Inv (s.setHeaders c n) :=
  ⟨h.place, h.once, h.busy, h.port, h.exact⟩

theorem Inv.ctl (h : Inv s) (cmd : String) : Inv (s.ctl c proto cmd) := by
  cases proto <;> dsimp only [Sys.ctl] <;> split_ifs
  all_goals first | exact h.setHeaders _ | exact h

/-- A packet for which no source is saved, or one that keeps the index. -/
theorem Inv.packet (h : Inv s) {ok : Bool} {nc : Option ℕ} {laddr : Ipaddr}
    (hidle : ∀ c ∈ nc, s.state c = .Idle) (hok : Stays proto s (.packet p ok nc laddr)) :
    Inv (s.packet proto p ok nc laddr) := by
  unfold Sys.packet
  split
  · exact h
  · rename_i c hlook
    cases proto with
    | udp =>
      dsimp only
      split_ifs
      · cases nc with
        | some nc => exact h.newcall (hidle nc rfl) laddr
        | none => exact h
      · exact h
    | rudp =>
      dsimp only
      split_ifs with hsaves
      · exact h.save hlook hsaves.2.2 (hok rfl c hlook hsaves) laddr
      · exact h

/-- A step that keeps to the condition keeps the invariant. -/
theorem Inv.exec (h : Inv s) {op : Op} (hok : Stays proto s op) (hexec : exec proto s op = some t) :
    Inv t := by
  cases op with
  | connect c q err =>
    cases hexec
    exact h.connect err
  | announce c laddr lport err =>
    cases hexec
    exact h.announce laddr lport err
  | ctl c cmd =>
    cases hexec
    exact h.ctl cmd
  | write c findlocalip =>
    cases hexec
    rw [Sys.write]
    split_ifs
    · exact h.fillLaddr c findlocalip
    · exact h
  | sendack c findlocalip =>
    dsimp only [UdpClose.exec] at hexec
    split_ifs at hexec
    cases hexec
    exact h.fillLaddr c findlocalip
  | packet p ok nc laddr =>
    dsimp only [UdpClose.exec] at hexec
    split_ifs at hexec with hidle
    cases hexec
    exact h.packet hidle hok
  | close c =>
    cases hexec
    exact h.close c

/-- A close leaves the chains of other indices. -/
theorem mem_close_of_ne {e : Iphash} {i : ℕ} (he : e ∈ s.ht i) (hi : i ≠ indexOf (s.conv c)) :
    e ∈ (s.close c).ht i := by
  have hht : (s.close c).ht i = s.ht i := Function.update_of_ne hi _ _
  rwa [hht]

/-- Where a source is saved that moves the index, the entry stays under the old one. -/
theorem not_closable_of_save (h : Inv s) (hlook : iphtlook s.ht s.conv p = some c)
    (hraddr : (s.conv c).raddr = IPnoaddr) (hin : ¬Inside p.sa p.sp (s.conv c).lport)
    (laddr : Ipaddr) : ¬Closable (s.save c p laddr) c := by
  obtain ⟨hindex, e, he, hec⟩ := h.indexOf_found hlook hraddr
  have hsaved : (s.save c p laddr).conv c =
      { s.conv c with raddr := p.sa, rport := p.sp, laddr := laddr } := Function.update_self ..
  have hne : indexOf (s.conv c) ≠ indexOf ((s.save c p laddr).conv c) := by
    intro heq
    rw [hsaved, hindex, indexOf] at heq
    have hlt : (s.conv c).lport.toNat % Nhash < Nipht :=
      (Nat.mod_lt _ (by decide)).trans (by decide)
    rw [heq] at hlt
    exact hin (iphash_lt_iff.mp hlt)
  exact fun hclosable => hclosable.1 _ e (mem_close_of_ne (s := s.save c p laddr) he hne) hec

/-- RUDP saves the source of the first packet. -/
theorem packet_rudp_of_saves (hlook : iphtlook s.ht s.conv p = some c) {ok : Bool}
    (hsaves : s.Saves c ok) (nc : Option ℕ) (laddr : Ipaddr) :
    s.packet .rudp p ok nc laddr = s.save c p laddr := by
  unfold Sys.packet
  rw [hlook]
  exact if_pos hsaves

/-- From a state of the invariant, all conversations can be closed behind a step just when it keeps
to the condition. -/
theorem closable_exec_iff (h : Inv s) {op : Op} (hexec : exec proto s op = some t) :
    (∀ c, Closable t c) ↔ Stays proto s op := by
  refine ⟨fun hclosable => ?_, fun hok c =>
    closable_of_absent ((h.exec hok hexec).absent_iphtrem c)⟩
  cases op with
  | packet p ok nc laddr =>
    rintro rfl c hlook hsaves
    dsimp only [exec] at hexec
    split_ifs at hexec
    cases hexec
    by_contra hin
    refine not_closable_of_save h hlook hsaves.2.2 hin laddr ?_
    have hc := hclosable c
    rwa [packet_rudp_of_saves hlook hsaves] at hc
  | _ => trivial

end PlanNine.UdpClose
