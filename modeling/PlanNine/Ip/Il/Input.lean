import PlanNine.Ip.Il.Conn
import PlanNine.Ip.Ptclcsum
import PlanNine.Ip.Rudp.Input
import PlanNine.Lib.Run
import PlanNine.Port.Qio.Trim

/-!
# Lengths in the internet link protocol

What `iliput` does with the blocks of a packet, from its checks over the queue of what came out of
order to `ilpullup`, which trims a packet to the length in its header. The length is checked against
the end of the packet only, when the packet arrives; it is used much later.

The control block is that of the receiving half; packets are blocks, and the calls of `trimblock`
are recorded. What else happens to a conversation, the user's writes, closes and the timers, may
change the control block in any way, but puts no packet into the queue. The sum of the bytes of a
block is a parameter; the packets that go out, the statistics and the log are left out.

## Main definitions

* `Ilcb`, `Conv`: the receiving half of a control block, with the calls of `trimblock`.
* `ilpullup`, `iloutoforder`, `ilprocess`, `iliput`: the routines.
* `Copes`: every length trimmed to is that of the packet's data, which is delivered.
* `Fits`: no packet that is pulled up says less than its header.

## Main results

* `copes_iff`: the runs in which `ilpullup` copes with every length.
* `pullLoop_refines`: what it delivers then is what `Il.pullupLoop` delivers.
* `not_copes_short`: a packet that says two bytes.
-/

namespace PlanNine.IlInput

open Ipaux Qio
open Il (ConnState Iltype IL_IPSIZE IL_HDRSIZE Defaultwin)

abbrev Packet := RudpInput.Packet

/-! ### The header -/

/-- The packet types as they stand in a header. -/
def Iltype.ofNat : ℕ → Option Iltype
  | 0 => some .ilsync
  | 1 => some .ildata
  | 2 => some .ildataquery
  | 3 => some .ilack
  | 4 => some .ilquery
  | 5 => some .ilstate
  | 6 => some .ilclose
  | _ => none

namespace Packet

variable (bp : Packet)

def illen : ℕ := (bp.nhgets 22).toNat
def iltype : Option Iltype := Iltype.ofNat (bp.rp 24).toNat
def ilid : ℕ := bp.nhgetl 30
def ilack : ℕ := bp.nhgetl 34

/-- The length of the data by the header. -/
def dlen : ℤ := bp.illen - IL_HDRSIZE

/-- The data, where the header says what there is. -/
def data : List UInt8 := ((bytes bp.blocks).drop (IL_IPSIZE + IL_HDRSIZE)).take bp.dlen.toNat

end Packet

/-! ### The receiving half -/

/-- The fields of the control block that the receiver uses. -/
structure Ilcb where
  state : ConnState := .ilclosed
  next : ℕ := 0
  start : ℕ := 0
  rstart : ℕ := 0
  recvd : ℕ := 0
  window : ℕ := 0
  outoforder : List Packet := []

/-- The control block with the queue to the reader, the packets that `trimblock` was called for, and
whether the machine stopped. -/
structure Conv extends Ilcb where
  rq : List Block := []
  trims : List Packet := []
  stopped : Bool := false

/-- What the loop of `ilpullup` leaves and does. -/
structure Pulled where
  outoforder : List Packet
  recvd : ℕ
  rq : List Block := []
  trims : List Packet := []
  stopped : Bool := false

variable (mem : ℕ → Mem)

/-- The loop of `ilpullup`. -/
def pullLoop : List Packet → ℕ → Pulled
  | [], recvd => { outoforder := [], recvd := recvd }
  | bp :: outoforder, recvd =>
    if bp.ilid ≤ recvd then pullLoop outoforder recvd
    else if bp.ilid ≠ (recvd + 1) % 4294967296 then
      { outoforder := bp :: outoforder, recvd := recvd }
    else
      match Trim.trimblock bp.blocks (IL_IPSIZE + IL_HDRSIZE) bp.dlen with
      | none | some ⟨[], _⟩ =>
        -- a block is read that is not there
        { outoforder := outoforder, recvd := bp.ilid, trims := [bp], stopped := true }
      | some ⟨b :: bs, _⟩ =>
        let r := pullLoop outoforder bp.ilid
        { r with
          rq := Trim.packblock mem (Trim.concatblock (mem 0) (b :: bs)) ++ r.rq
          trims := bp :: r.trims }

def ilpullup (c : Conv) : Conv :=
  if c.state ≠ .ilestablished then c
  else
    let r := pullLoop mem c.outoforder c.recvd
    { c with
      outoforder := r.outoforder
      recvd := r.recvd
      rq := c.rq ++ r.rq
      trims := c.trims ++ r.trims
      stopped := r.stopped }

/-- Sort a packet onto the queue, unless its id is there. -/
def sortIn (bp : Packet) : List Packet → List Packet
  | [] => [bp]
  | f :: l =>
    if bp.ilid ≤ f.ilid then
      if bp.ilid = f.ilid then f :: l else bp :: f :: l
    else f :: sortIn bp l

def iloutoforder (ic : Ilcb) (bp : Packet) : Ilcb :=
  if bp.ilid ≤ ic.recvd ∨ (ic.recvd + ic.window) % 4294967296 < bp.ilid then ic
  else { ic with outoforder := sortIn bp ic.outoforder }

/-- The case `Ilestablished` of `_ilprocess`, and whether it calls `ilpullup` at its end. -/
def established (ic : Ilcb) (h : Packet) : Ilcb × Bool :=
  match h.iltype with
  | some .ilsync => (if h.ilid ≠ ic.rstart then { ic with state := .ilclosed } else ic, false)
  | some .ildata | some .ildataquery => (iloutoforder ic h, true)
  | some .ilclose =>
    if h.ilack < ic.start ∨ ic.next < h.ilack then (ic, false)
    else ({ ic with recvd := h.ilid, state := .ilclosing, outoforder := [] }, false)
  | some .ilack | some .ilquery | some .ilstate | none => (ic, false)

/-- `_ilprocess` up to its call of `ilpullup`, and whether there is one. -/
def ilprocess (ic : Ilcb) (h : Packet) : Ilcb × Bool :=
  match ic.state with
  | .ilclosed | .illistening => (ic, false)
  | .ilsyncer =>
    match h.iltype with
    | some .ilsync =>
      if h.ilack ≠ ic.start then ({ ic with state := .ilclosed }, false)
      else ({ ic with recvd := h.ilid, rstart := h.ilid, state := .ilestablished }, true)
    | some .ilclose =>
      (if h.ilack = ic.start then { ic with state := .ilclosed } else ic, false)
    | _ => (ic, false)
  | .ilsyncee =>
    match h.iltype with
    | some .ilsync =>
      if h.ilid ≠ ic.rstart ∨ h.ilack ≠ 0 then ({ ic with state := .ilclosed }, false)
      else ({ ic with recvd := h.ilid }, false)
    | some .ilack =>
      if h.ilack = ic.start then ({ ic with state := .ilestablished }, true) else (ic, false)
    | some .ildata =>
      if h.ilack = ic.start then established { ic with state := .ilestablished } h
      else (ic, false)
    | some .ilclose =>
      (if h.ilack = ic.start then { ic with state := .ilclosed } else ic, false)
    | _ => (ic, false)
  | .ilestablished => established ic h
  | .ilclosing =>
    match h.iltype with
    | some .ilclose =>
      ({ ic with
        recvd := h.ilid
        state := if h.ilack = ic.next then .ilclosed else .ilclosing }, false)
    | _ => (ic, false)

/-- The control block of a new call with the random start `start`. -/
def newcall (start : ℕ) (h : Packet) : Ilcb :=
  { start := start, next := start + 1, window := Defaultwin, state := .ilsyncee, rstart := h.ilid }

variable (ptclbsum : List UInt8 → UInt16)

/-- The checks of `iliput`, and `_ilprocess` up to its call of `ilpullup`. A conversation that is to
be made by the first call is `illistening` before it. -/
def arrive (ic : Ilcb) (start : ℕ) (h : Packet) : Ilcb × Bool :=
  let plen := blocklen h.blocks
  if plen < IL_IPSIZE + IL_HDRSIZE then (ic, false)
  else if plen < h.illen + IL_IPSIZE then (ic, false)
  else if ptclcsum ptclbsum h.blocks IL_IPSIZE h.illen ≠ 0 then (ic, false)
  else if ic.state = .illistening then
    if h.iltype ≠ some .ilsync then (ic, false) else ilprocess (newcall start h) h
  else ilprocess ic h

def iliput (c : Conv) (start : ℕ) (h : Packet) : Conv :=
  let (ic, pulls) := arrive ptclbsum c.toIlcb start h
  let c := { c with toIlcb := ic }
  if pulls then ilpullup mem c else c

/-! ### Runs -/

/-- A packet arrives, or something else happens to the conversation: its control block changes, and
the queue is freed or stays. -/
inductive Op where
  | iliput (start : ℕ) (h : Packet)
  | other (ic : Ilcb) (ilfreeq : Bool)

/-- A step, unless the machine has stopped. -/
def exec (c : Conv) (op : Op) : Option Conv :=
  if c.stopped then none
  else
    match op with
    | .iliput start h => some (iliput mem ptclbsum c start h)
    | .other ic ilfreeq =>
      some { c with toIlcb := { ic with outoforder := if ilfreeq then [] else c.outoforder } }

/-- The machine has not stopped; each length that a packet was trimmed to is between zero and the
bytes behind its header; and what was delivered is the data of these packets. -/
structure Copes (c : Conv) : Prop where
  running : c.stopped = false
  lens : ∀ bp ∈ c.trims, 0 ≤ bp.dlen ∧ bp.dlen ≤ blocklen bp.blocks - (IL_IPSIZE + IL_HDRSIZE : ℕ)
  rq : c.rq.map Block.data = c.trims.map Packet.data

/-- The packets that the loop of `ilpullup` takes off the queue to deliver them. -/
def taken : List Packet → ℕ → List Packet
  | [], _ => []
  | bp :: outoforder, recvd =>
    if bp.ilid ≤ recvd then taken outoforder recvd
    else if bp.ilid ≠ (recvd + 1) % 4294967296 then []
    else bp :: taken outoforder bp.ilid

/-- No packet that is pulled up in the step says less than its header. -/
def Fits (c : Conv) : Op → Prop
  | .iliput start h =>
    let (ic, pulls) := arrive ptclbsum c.toIlcb start h
    pulls = true → ic.state = .ilestablished →
      ∀ bp ∈ taken ic.outoforder ic.recvd, IL_HDRSIZE ≤ bp.illen
  | .other _ _ => True

/-! ### The queue of what came out of order -/

/-- The packet is as long as its header says, which is what `iliput` checks. -/
def Checked (bp : Packet) : Prop :=
  IL_IPSIZE + IL_HDRSIZE ≤ blocklen bp.blocks ∧ bp.illen + IL_IPSIZE ≤ blocklen bp.blocks

section

variable {mem : ℕ → Mem} {ptclbsum : List UInt8 → UInt16} {l : List Packet} {bp h : Packet}
  {ic : Ilcb} {c : Conv} {recvd start : ℕ}

theorem checked_sortIn (hl : ∀ q ∈ l, Checked q) (hbp : Checked bp) :
    ∀ q ∈ sortIn bp l, Checked q := by
  induction l with
  | nil => exact fun q hq => by rwa [List.mem_singleton.mp hq]
  | cons f l ih =>
    have hf := hl f List.mem_cons_self
    have hrest := ih fun q hq => hl q (List.mem_cons_of_mem _ hq)
    rw [sortIn]
    split_ifs
    · exact hl
    · exact List.forall_mem_cons.mpr ⟨hbp, hl⟩
    · exact List.forall_mem_cons.mpr ⟨hf, hrest⟩

theorem checked_iloutoforder (hl : ∀ q ∈ ic.outoforder, Checked q) (hbp : Checked bp) :
    ∀ q ∈ (iloutoforder ic bp).outoforder, Checked q := by
  unfold iloutoforder
  split_ifs
  · exact hl
  · exact checked_sortIn hl hbp

theorem checked_established (hl : ∀ q ∈ ic.outoforder, Checked q) (hh : Checked h) :
    ∀ q ∈ (established ic h).1.outoforder, Checked q := by
  unfold established
  split
  · split_ifs <;> exact hl
  · exact checked_iloutoforder hl hh
  · exact checked_iloutoforder hl hh
  · split_ifs
    · exact hl
    · exact fun q hq => absurd hq List.not_mem_nil
  all_goals exact hl

theorem checked_ilprocess (hl : ∀ q ∈ ic.outoforder, Checked q) (hh : Checked h) :
    ∀ q ∈ (ilprocess ic h).1.outoforder, Checked q := by
  unfold ilprocess
  cases ic.state with
  | ilclosed | illistening => exact hl
  | ilsyncer => dsimp only; split <;> (try split_ifs) <;> exact hl
  | ilsyncee =>
    dsimp only
    split
    case h_3 =>
      split_ifs
      · exact checked_established hl hh
      · exact hl
    all_goals (try split_ifs) <;> exact hl
  | ilestablished => exact checked_established hl hh
  | ilclosing => dsimp only; split <;> exact hl

/-- What `iliput` lets onto the queue has passed its checks. -/
theorem checked_arrive (hl : ∀ q ∈ ic.outoforder, Checked q) :
    ∀ q ∈ (arrive ptclbsum ic start h).1.outoforder, Checked q := by
  unfold arrive
  dsimp only
  split_ifs with hplen hillen
  · exact hl
  · exact hl
  · exact hl
  · exact hl
  · exact @checked_ilprocess _ (newcall start h) nofun ⟨by omega, by omega⟩
  · exact checked_ilprocess hl ⟨by omega, by omega⟩

/-! ### Pulling up -/

/-- A packet that says no less than its header is trimmed to its data. -/
theorem trimblock_of_le (hbp : Checked bp) (hlen : IL_HDRSIZE ≤ bp.illen) :
    ∃ b bs freed, Trim.trimblock bp.blocks (IL_IPSIZE + IL_HDRSIZE) bp.dlen =
      some ⟨b :: bs, freed⟩ ∧ bytes (b :: bs) = bp.data := by
  obtain ⟨hplen, hillen⟩ := hbp
  have hdlen : 0 ≤ bp.dlen := by
    rw [Packet.dlen]
    omega
  have hle : ((IL_IPSIZE + IL_HDRSIZE : ℕ) : ℤ) + bp.dlen ≤ blocklen bp.blocks := by
    rw [Packet.dlen]
    push_cast
    omega
  obtain ⟨⟨kept, freed⟩, hrun, hne, hbytes, -⟩ :=
    Trim.trimblock_spec (List.cons_ne_nil _ _) hdlen hle
  obtain ⟨b, bs, rfl⟩ := List.exists_cons_of_ne_nil hne
  exact ⟨b, bs, freed, hrun, hbytes⟩

/-- One that says less makes the loop of `trimblock` run off its end. -/
theorem trimblock_of_lt (hbp : Checked bp) (hlen : bp.illen < IL_HDRSIZE) :
    Trim.trimblock bp.blocks (IL_IPSIZE + IL_HDRSIZE) bp.dlen = none := by
  obtain ⟨hplen, hillen⟩ := hbp
  refine Trim.trimblock_neg ?_ ?_ <;> rw [Packet.dlen] <;> push_cast <;> omega

/-- The message is one block with the bytes of the string. -/
theorem message_eq (mem : ℕ → Mem) (m : Mem) {bs : List Block} (hne : bs ≠ []) :
    ∃ nb, Trim.packblock mem (Trim.concatblock m bs) = [nb] ∧ nb.data = bytes bs := by
  obtain ⟨b, hb⟩ := Trim.concatblock_eq m hne
  have hbytes := @Trim.bytes_packblock (Trim.concatblock m bs) mem
  rw [Trim.bytes_concatblock, hb] at hbytes
  rw [hb]
  refine ⟨_, rfl, ?_⟩
  rw [← hbytes, Trim.packblock, Trim.packblock, bytes_cons, bytes_nil, List.append_nil]

/-- Where all packets taken off the queue say no less than their headers, each is trimmed to its
data, which is delivered. -/
theorem pullLoop_of_fits (hl : ∀ q ∈ l, Checked q)
    (hfit : ∀ q ∈ taken l recvd, IL_HDRSIZE ≤ q.illen) :
    (pullLoop mem l recvd).stopped = false ∧ (pullLoop mem l recvd).trims = taken l recvd ∧
      (pullLoop mem l recvd).rq.map Block.data = (taken l recvd).map Packet.data ∧
      ∀ q ∈ (pullLoop mem l recvd).outoforder, q ∈ l := by
  induction l generalizing recvd with
  | nil => exact ⟨rfl, rfl, rfl, fun _ hq => hq⟩
  | cons bp l ih =>
    have hrest := fun q hq => hl q (List.mem_cons_of_mem bp hq)
    rw [taken] at hfit ⊢
    rw [pullLoop]
    split_ifs at hfit ⊢ with hold hgap
    · obtain ⟨h1, h2, h3, h4⟩ := ih hrest hfit
      exact ⟨h1, h2, h3, fun q hq => List.mem_cons_of_mem _ (h4 q hq)⟩
    · exact ⟨rfl, rfl, rfl, fun _ hq => hq⟩
    · obtain ⟨hbp, hfit⟩ := List.forall_mem_cons.mp hfit
      obtain ⟨b, bs, freed, htrim, hdata⟩ := trimblock_of_le (hl bp List.mem_cons_self) hbp
      obtain ⟨nb, hmsg, hnb⟩ := message_eq mem (mem 0) (List.cons_ne_nil b bs)
      obtain ⟨h1, h2, h3, h4⟩ := ih hrest hfit
      rw [htrim]
      dsimp only
      refine ⟨h1, by rw [h2], ?_, fun q hq => List.mem_cons_of_mem _ (h4 q hq)⟩
      rw [hmsg, List.map_append, h3, List.map_cons, List.map_cons, hnb, hdata]
      rfl

theorem taken_subset {q : Packet} (hq : q ∈ taken l recvd) : q ∈ l := by
  induction l generalizing recvd with
  | nil => cases hq
  | cons bp l ih =>
    rw [taken] at hq
    split_ifs at hq
    · exact List.mem_cons_of_mem _ (ih hq)
    · cases hq
    · obtain rfl | hq := List.mem_cons.mp hq
      · exact List.mem_cons_self
      · exact List.mem_cons_of_mem _ (ih hq)

/-- One packet that says less stops the machine. -/
theorem pullLoop_of_short (hl : ∀ q ∈ l, Checked q) {q : Packet} (hq : q ∈ taken l recvd)
    (hshort : q.illen < IL_HDRSIZE) : (pullLoop mem l recvd).stopped = true := by
  induction l generalizing recvd with
  | nil => cases hq
  | cons bp l ih =>
    have hrest := fun q hq => hl q (List.mem_cons_of_mem bp hq)
    rw [taken] at hq
    rw [pullLoop]
    split_ifs at hq ⊢ with hold hgap
    · exact ih hrest hq
    · cases hq
    · by_cases hbp : IL_HDRSIZE ≤ bp.illen
      · obtain ⟨b, bs, freed, htrim, -⟩ := trimblock_of_le (hl bp List.mem_cons_self) hbp
        rw [htrim]
        dsimp only
        refine ih hrest ?_
        obtain rfl | hq := List.mem_cons.mp hq
        · omega
        · exact hq
      · rw [trimblock_of_lt (hl bp List.mem_cons_self) (not_le.mp hbp)]

/-- A packet of the connection that `Il.Conn` speaks of is one of blocks, by the fields that
`ilpullup` reads and the bytes behind the header. -/
structure Abstracts (bp : Packet) (p : Il.Packet) : Prop where
  ilid : p.ilid = bp.ilid
  illen : p.illen = bp.illen
  data : p.data = (bytes bp.blocks).drop (IL_IPSIZE + IL_HDRSIZE)

/-- Where no packet says less than its header, the queues and what is delivered are those of
`Il.pullupLoop`. -/
theorem pullLoop_refines {l' : List Il.Packet} (hl : ∀ q ∈ l, Checked q)
    (hfit : ∀ q ∈ taken l recvd, IL_HDRSIZE ≤ q.illen) (h : List.Forall₂ Abstracts l l')
    (rq : List Il.Msg) :
    List.Forall₂ Abstracts (pullLoop mem l recvd).outoforder (Il.pullupLoop l' recvd rq).1 ∧
      (Il.pullupLoop l' recvd rq).2 = ((pullLoop mem l recvd).recvd,
        rq ++ (pullLoop mem l recvd).rq.map Block.data) := by
  induction h generalizing recvd rq with
  | nil => exact ⟨.nil, by rw [Il.pullupLoop, pullLoop]; simp⟩
  | @cons bp p l l' habs hrel ih =>
    have hrest := fun q hq => hl q (List.mem_cons_of_mem bp hq)
    rw [taken] at hfit
    rw [Il.pullupLoop, pullLoop, habs.ilid]
    split_ifs at hfit ⊢ with hold hgap
    · exact ih hrest hfit rq
    · exact ⟨.cons habs hrel, by simp⟩
    · obtain ⟨hbp, hfit⟩ := List.forall_mem_cons.mp hfit
      obtain ⟨b, bs, freed, htrim, hdata⟩ := trimblock_of_le (hl bp List.mem_cons_self) hbp
      obtain ⟨nb, hmsg, hnb⟩ := message_eq mem (mem 0) (List.cons_ne_nil b bs)
      have hmessage : p.data.take (p.illen - IL_HDRSIZE) = nb.data := by
        have hlen : bp.dlen.toNat = bp.illen - IL_HDRSIZE := by
          rw [Packet.dlen]
          omega
        rw [hnb, hdata, Packet.data, habs.data, habs.illen, hlen]
      obtain ⟨h1, h2⟩ := ih hrest hfit (rq ++ [p.data.take (p.illen - IL_HDRSIZE)])
      rw [htrim]
      dsimp only
      refine ⟨h1, ?_⟩
      rw [h2, hmsg, hmessage, List.map_append, List.append_assoc]
      rfl

/-! ### Runs -/

/-- The invariant: what is on the queue has passed the checks of `iliput`. -/
def Inv (c : Conv) : Prop := ∀ q ∈ c.outoforder, Checked q

theorem copes_ilpullup (hc : Inv c) (hp : Copes c) (hstate : c.state = .ilestablished)
    (hfit : ∀ bp ∈ taken c.outoforder c.recvd, IL_HDRSIZE ≤ bp.illen) :
    Copes (ilpullup mem c) ∧ Inv (ilpullup mem c) := by
  obtain ⟨hrun, htrims, hrq, hleft⟩ := @pullLoop_of_fits mem _ _ hc hfit
  rw [ilpullup, if_neg (not_not.mpr hstate)]
  refine ⟨⟨hrun, fun bp hbp => ?_, ?_⟩, fun q hq => hc q (hleft q hq)⟩
  · obtain hold | hnew := List.mem_append.mp hbp
    · exact hp.lens bp hold
    · rw [htrims] at hnew
      obtain ⟨hplen, hillen⟩ := hc bp (taken_subset hnew)
      have hlen := hfit bp hnew
      rw [Packet.dlen]
      omega
  · dsimp only
    rw [List.map_append, hp.rq, htrims, hrq, List.map_append]

theorem not_copes_ilpullup (hc : Inv c) (hstate : c.state = .ilestablished)
    (hshort : ¬∀ bp ∈ taken c.outoforder c.recvd, IL_HDRSIZE ≤ bp.illen) :
    ¬Copes (ilpullup mem c) := by
  simp only [not_forall, not_le] at hshort
  obtain ⟨q, hq, hlen⟩ := hshort
  intro h
  have hstop : (pullLoop mem c.outoforder c.recvd).stopped = true := pullLoop_of_short hc hq hlen
  have hrun := h.running
  rw [ilpullup, if_neg (not_not.mpr hstate)] at hrun
  exact Bool.false_ne_true (hrun.symm.trans hstop)

/-- Nothing but the control block has changed. -/
theorem Copes.setIlcb (h : Copes c) (ic : Ilcb) : Copes { c with toIlcb := ic } :=
  ⟨h.running, h.lens, h.rq⟩

/-- A step copes with the lengths of the packets that it pulls up just when none of them says less
than its header. -/
theorem copes_exec_iff {op : Op} {t : Conv} (hc : Inv c) (hp : Copes c)
    (hexec : exec mem ptclbsum c op = some t) :
    (Copes t ↔ Fits ptclbsum c op) ∧ (Fits ptclbsum c op → Inv t) := by
  unfold exec at hexec
  split_ifs at hexec
  cases op with
  | other ic ilfreeq =>
    obtain rfl := Option.some.inj hexec
    refine ⟨iff_of_true (hp.setIlcb _) trivial, fun _ q hq => ?_⟩
    cases ilfreeq with
    | false => exact hc q hq
    | true => exact absurd hq List.not_mem_nil
  | iliput start h =>
    obtain rfl := Option.some.inj hexec
    obtain ⟨ic, pulls, harr⟩ : ∃ ic pulls, arrive ptclbsum c.toIlcb start h = (ic, pulls) :=
      ⟨_, _, rfl⟩
    have harrive : Inv { c with toIlcb := ic } := by
      have hchecked := @checked_arrive ptclbsum h _ start hc
      rw [harr] at hchecked
      exact hchecked
    have hset := hp.setIlcb ic
    simp only [iliput, Fits, harr]
    cases pulls with
    | false => exact ⟨iff_of_true hset nofun, fun _ => harrive⟩
    | true =>
      by_cases hstate : ic.state = .ilestablished
      · simp only [hstate, forall_const, if_true]
        refine ⟨⟨fun h => ?_, fun h => (copes_ilpullup harrive hset hstate h).1⟩,
          fun h => (copes_ilpullup harrive hset hstate h).2⟩
        by_contra hshort
        exact not_copes_ilpullup harrive hstate hshort h
      · have hid : ilpullup mem { c with toIlcb := ic } = { c with toIlcb := ic } :=
          if_pos hstate
        rw [if_pos rfl, hid]
        exact ⟨iff_of_true hset fun _ h => absurd h hstate, fun _ => harrive⟩

end

/-- Whatever packets arrive at a new conversation, and whatever else happens to it, `ilpullup` copes
with every length just when no packet that it pulls up says less than its header. -/
theorem copes_iff (mem : ℕ → Mem) (ptclbsum : List UInt8 → UInt16) (ic : Ilcb)
    (ops : List Op) :
    (∀ t ∈ Run.states (exec mem ptclbsum) { toIlcb := { ic with outoforder := [] } } ops, Copes t) ↔
      Run.Meets (exec mem ptclbsum) (Fits ptclbsum)
        { toIlcb := { ic with outoforder := [] } } ops := by
  refine Run.forall_states_iff Inv ?_ ?_ (fun s op t hs hp hok hexec => ?_)
    (fun s op t hs hp hexec => ?_) ops
  · exact fun q hq => absurd hq List.not_mem_nil
  · exact ⟨rfl, fun bp hbp => absurd hbp List.not_mem_nil, rfl⟩
  · exact (copes_exec_iff hs hp hexec).2 hok
  · exact (copes_exec_iff hs hp hexec).1

/-! ### A packet that says less than its header -/

/-- The sum of the words of a block, the first byte of a word being the high one. -/
def words : List UInt8 → ℕ
  | a :: b :: p => a.toNat * 256 + b.toNat + words p
  | [a] => a.toNat * 256
  | [] => 0

/-- The sum with the carries added below. -/
def bsum (p : List UInt8) : UInt16 :=
  if words p = 0 then 0 else UInt16.ofNat ((words p - 1) % 65535 + 1)

/-- A packet without data: its checksum, length, type, id and acknowledgement. -/
def bare (hi lo illen iltype ilid ilack : UInt8) : Packet where
  bp :=
    { addr := 0
      data := List.replicate 20 0 ++
        [hi, lo, 0, illen, iltype, 0, 0, 0, 0, 0, 0, 0, 0, ilid, 0, 0, 0, ilack] }

/-- A connection is made, and a data packet comes in whose header says two bytes, the checksum. -/
def short : List Op :=
  [.iliput 1 (bare 0xff 0xe8 18 0 5 0), .iliput 1 (bare 0xfc 0xe7 18 3 5 1),
    .iliput 1 (bare 0xff 0xff 2 1 6 1)]

/-- `trimblock` runs off the end of the packet. -/
theorem not_copes_short :
    ¬∀ (mem : ℕ → Mem) (ptclbsum : List UInt8 → UInt16) (ic : Ilcb) (ops : List Op),
      ∀ t ∈ Run.states (exec mem ptclbsum) { toIlcb := { ic with outoforder := [] } } ops,
        Copes t := by
  intro h
  have hstop : (Run.states (exec (fun _ => ⟨0, 64, 0⟩) bsum)
      { toIlcb := { state := .illistening } } short).any Conv.stopped = true := by
    decide +kernel
  obtain ⟨t, ht, hstopped⟩ := List.any_eq_true.mp hstop
  have hcopes := h (fun _ => ⟨0, 64, 0⟩) bsum { state := .illistening } short t ht
  exact Bool.false_ne_true (hcopes.running.symm.trans hstopped)

end PlanNine.IlInput
