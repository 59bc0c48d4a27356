import PlanNine.Lib.Run
import PlanNine.Lib.Ulong

/-!
# The simulated link

The links of `devloopback.c`. A packet waits in the output queue until the packet before it is out,
then in the transmission queue for the delay of the link, and is passed to the receiving queue. Its
first bytes are a time: when it was written, and later when it arrives. One timer drives both
moves.

The time to send a packet is the product of its length and of the delay for a byte, as a `long`.

## Main definitions

* `Link`, `pushlink`: a link, and what moves its packets.
* `Loop`, `exec`: both links of a loopback, with what was written to them and passed by them.
* `Queued`, `Sent`, `Arrived`: what the blocks of a link have to do with what was written.
* `Armed`: the timer is set for when a packet can move.

## Main results

* `transmit_spec`, `receive_spec`: the loops of `pushlink`.
* `pushlink_eq`: there is no panic, and the timer is set if it has to be.
-/

namespace PlanNine.Loopback

def Tmsize : ℕ := 8

/-- The cast to a `vlong`. -/
def vlong (x : ℤ) : ℤ := (x + 9223372036854775808) % 18446744073709551616 - 9223372036854775808

/-- A block: its bytes and `BALLOC`. -/
structure Block where
  data : List UInt8
  balloc : ℤ
  deriving DecidableEq

/-- `BLEN(b)`. -/
def Block.BLEN (b : Block) : ℤ := b.data.length

/-- The time in the first bytes. -/
def ptime (p : List UInt8) (t : ℤ) : List UInt8 :=
  hnputl (ulong (t / 4294967296)) ++ (hnputl (ulong t) ++ p.drop Tmsize)

def gtime (p : List UInt8) : ℤ := vlong (nhgetl p * 4294967296 + nhgetl (p.drop 4))

/-! ### Queues -/

structure Queue where
  blocks : List Block := []
  limit : ℤ
  closed : Bool := false
  deriving DecidableEq

/-- The bytes allocated to a queue. -/
def Queue.len (q : Queue) : ℤ := (q.blocks.map Block.balloc).sum

def qpassnolim (q : Queue) (b : Block) : Queue :=
  if q.closed then q else { q with blocks := q.blocks ++ [b] }

/-- The flag tells that the queue is full. -/
def qpass (q : Queue) (b : Block) : Queue × Bool :=
  if q.limit ≤ q.len then (q, true) else (qpassnolim q b, false)

def qhangup (q : Queue) : Queue := { q with closed := true }

/-! ### Links -/

structure Link where
  /-- total number of packets sent -/
  packets : ℤ := 0
  /-- total number of bytes sent -/
  bytes : ℤ := 0
  /-- enable dropping on iq overflow -/
  indrop : Bool := true
  /-- packets dropped because iq overflowed -/
  soverflows : ℤ := 0
  /-- drop 1/droprate packets in tq -/
  droprate : ℤ := 0
  /-- packets deliberately dropped -/
  drops : ℤ := 0
  /-- fastticks of delay -/
  delay0 : ℤ
  delayn : ℤ
  /-- transmission queue -/
  tq : List Block := []
  /-- time the last packet in tq is really out -/
  tout : ℤ := 0
  /-- time the head packet in tq enters the remote side -/
  tin : ℤ := 0
  /-- output queue from other side & packets in the link -/
  oq : Queue
  iq : Queue
  /-- `ci` is in the list of timers -/
  armed : Bool := false
  /-- `ci.when` -/
  when : ℤ := 0
  deriving DecidableEq

/-- When a block is out: it is not sent before it is queued. -/
def outAt (link : Link) (bp : Block) (tout : ℤ) : ℤ :=
  let tin := gtime bp.data
  let tout := if tout < tin then tin else tout
  vlong (tout + long (ulong ((bp.BLEN - Tmsize) * link.delayn)))

/-- A block that is out is dropped, or put into the transmission queue. -/
def send (link : Link) (nrand : ℤ) (bp : Block) (tout : ℤ) : Link :=
  if link.droprate ≠ 0 ∧ nrand = 0 then { link with drops := link.drops + 1 }
  else
    let bp := { bp with data := ptime bp.data (vlong (tout + link.delay0)) }
    { link with tq := link.tq ++ [bp] }

/-- A block is put into the receive queue. -/
def arrive (link : Link) (bp : Block) : Link :=
  if link.indrop then
    let (iq, full) := qpass link.iq bp
    { link with iq, soverflows := if full then link.soverflows + 1 else link.soverflows }
  else { link with iq := qpassnolim link.iq bp }

/-- The loop that puts blocks into the transmission queue. The numbers that `nrand` gives are in
`rand`. -/
def transmit (now : ℤ) : (rand : ℕ → ℤ) → Link → List Block → ℤ → ℤ × Link
  | _, link, [], tout =>
    (if tout ≤ now then 0 else tout, { link with oq := { link.oq with blocks := [] } })
  | rand, link, bp :: oq, tout =>
    if tout ≤ now then
      let tout := outAt link bp tout
      transmit now (fun i => rand (i + 1)) (send link (rand 0) bp tout) oq tout
    else (tout, { link with oq := { link.oq with blocks := bp :: oq } })

/-- The loop that puts blocks into the receive queue: the time of the first block left, the packets
passed and the link. -/
def receive (now : ℤ) : Link → List Block → ℤ × List (List UInt8) × Link
  | link, [] => (0, [], { link with tq := [] })
  | link, bp :: tq =>
    let tin := gtime bp.data
    if now < tin then (tin, [], { link with tq := bp :: tq })
    else
      let bp := { bp with data := bp.data.drop Tmsize }
      let (tin, passed, link) := receive now (arrive link bp) tq
      (tin, bp.data :: passed, link)

/-- The link and the packets passed; `none` for the panic. -/
def pushlink (rand : ℕ → ℤ) (now : ℤ) (link : Link) : Option (Link × List (List UInt8)) :=
  let link := { link with armed := false }
  let tout := if link.tout = 0 then now else link.tout
  let (tout, link) := transmit now rand link link.oq.blocks tout
  let link := { link with tout }
  let tout := if link.oq.blocks = [] then 0 else tout
  let (tin, passed, link) := receive now link link.tq
  let link :=
    if link.tq = [] ∧ link.oq.closed ∧ link.oq.blocks = [] ∧ ¬ link.iq.closed then
      { link with iq := qhangup link.iq }
    else link
  let link := { link with tin }
  let tin := if tin = 0 ∨ (tout < tin ∧ tout ≠ 0) then tout else tin
  let link := { link with when := tin }
  if tin = 0 then some (link, passed)
  else if tin < now then none
  else some ({ link with armed := true }, passed)

/-! ### Loopbacks -/

/-- A link, with the packets written to it and when, and those passed by it and when. -/
structure Side where
  link : Link
  written : List (ℤ × List UInt8) := []
  passed : List (ℤ × List UInt8) := []

structure Loop where
  /-- smallest block transmittable -/
  minmtu : ℕ := 0
  side : Fin 2 → Side

/-- `pushlink` of a link, with the packets passed noted. -/
def Side.push (rand : ℕ → ℤ) (now : ℤ) (sd : Side) : Option Side := do
  let (link, passed) ← pushlink rand now sd.link
  return { sd with link, passed := sd.passed ++ passed.map (now, ·) }

def Loop.set (lb : Loop) (chan : Fin 2) (sd : Side) : Loop :=
  { lb with side := Function.update lb.side chan sd }

/-- `loopoput` up to its call of `looper`, at the time `t`. On a closed queue `qbwrite` raises an
error. -/
def loopoput (minmtu : ℕ) (t : ℤ) (data : List UInt8) (balloc : ℤ) (sd : Side) : Side :=
  let n := data.length
  let bp := List.replicate Tmsize 0 ++ data
  let bp := bp ++ List.replicate (minmtu - bp.length) 0
  let link :=
    { sd.link with packets := sd.link.packets + 1, bytes := sd.link.bytes + n }
  if link.oq.closed then { sd with link }
  else
    let oq := { link.oq with blocks := link.oq.blocks ++ [⟨ptime bp t, balloc⟩] }
    { sd with
      link := { link with oq }
      written := sd.written ++ [(t, bp.drop Tmsize)] }

def looper (t : ℤ) (rand : Fin 2 → ℕ → ℤ) (lb : Loop) : Option Loop := do
  let sd ← (lb.side 0).push (rand 0) t
  let lb := lb.set 0 sd
  let sd ← (lb.side 1).push (rand 1) t
  return lb.set 1 sd

/-- The interrupt of a timer that is set. -/
def linkintr (rand : ℕ → ℤ) (sd : Side) : Option Side :=
  if sd.link.armed then { sd with link := { sd.link with armed := false } }.push rand sd.link.when
  else some sd

/-- The control requests but that for the delays. -/
inductive Control
  | indrop (on : Bool)
  | droprate (ofn : ℤ)
  | limit (maxqsize : ℤ)
  | reset

def control (link : Link) : Control → Link
  | .indrop on => { link with indrop := on }
  | .droprate ofn => { link with droprate := ofn }
  | .limit maxqsize =>
    { link with oq := { link.oq with limit := maxqsize }, iq := { link.iq with limit := maxqsize } }
  | .reset => { link with packets := 0, bytes := 0, indrop := false, soverflows := 0, drops := 0 }

inductive Event
  | loopoput (chan : Fin 2) (t : ℤ) (data : List UInt8) (balloc : ℤ)
  | looper (t : ℤ) (rand : Fin 2 → ℕ → ℤ)
  | linkintr (chan : Fin 2) (rand : ℕ → ℤ)
  /-- The reader takes a block off the receiving queue. -/
  | read (chan : Fin 2)
  | control (chan : Fin 2) (request : Control)
  /-- One side is closed. -/
  | close (chan : Fin 2)

/-- `none` for a panic. -/
def exec (lb : Loop) : Event → Option Loop
  | .loopoput chan t data balloc => lb.set chan (loopoput lb.minmtu t data balloc (lb.side chan))
  | .looper t rand => looper t rand lb
  | .linkintr chan rand => (linkintr rand (lb.side chan)).map (lb.set chan)
  | .read chan =>
    let sd := lb.side chan
    let iq := { sd.link.iq with blocks := sd.link.iq.blocks.tail }
    lb.set chan { sd with link := { sd.link with iq } }
  | .control chan request =>
    let sd := lb.side chan
    lb.set chan { sd with link := control sd.link request }
  | .close chan =>
    let sd := lb.side chan
    lb.set chan { sd with link := { sd.link with oq := qhangup sd.link.oq } }

/-- `NS2FASTHZ`, in `uvlong` arithmetic. -/
def NS2FASTHZ (fasthz : ℕ) (t : ℤ) : ℤ := fasthz * t % 18446744073709551616 / 1000000000

/-- A link with the delays of a control request, in nanoseconds. -/
def opened (fasthz : ℕ) (d0ns dnns limit : ℤ) : Link :=
  { delay0 := vlong (NS2FASTHZ fasthz d0ns), delayn := long (ulong (NS2FASTHZ fasthz dnns))
    oq := { limit }, iq := { limit } }

/-! ### What is waiting -/

/-- What was written: when, and the packet. -/
abbrev Record : Type := ℤ × List UInt8

variable {now tout : ℤ} {rand : ℕ → ℤ} {link : Link} {b bp : Block} {oq tq : List Block}
  {d0 dn t : ℤ} {r : Record} {pr tqr oqr : List Record} {p : List UInt8}

/-- The product of the length and the delay fits in a `long`. -/
def Exact (dn : ℤ) (r : Record) : Prop :=
  -2147483648 ≤ r.2.length * dn ∧ r.2.length * dn < 2147483648

/-- The time at which the packet has been sent and the delay of the link is over. -/
def due (d0 dn : ℤ) (r : Record) : ℤ := r.1 + d0 + dn * r.2.length

/-- A clock that is far from the end of its range. -/
def Clock (t : ℤ) : Prop := 0 ≤ t ∧ t < 4611686018427387904

/-- A block of the output queue. -/
structure Queued (b : Block) (r : Record) : Prop where
  room : Tmsize ≤ b.data.length
  time : gtime b.data = r.1
  packet : b.data.drop Tmsize = r.2

/-- A block of the transmission queue. -/
structure Sent (d0 dn : ℤ) (b : Block) (r : Record) : Prop where
  room : Tmsize ≤ b.data.length
  packet : b.data.drop Tmsize = r.2
  time : Exact dn r → due d0 dn r ≤ gtime b.data

/-- A packet that was passed, with the time. -/
structure Arrived (d0 dn : ℤ) (p r : Record) : Prop where
  packet : p.2 = r.2
  time : Exact dn r → due d0 dn r ≤ p.1

theorem gtime_ptime (ht : -9223372036854775808 ≤ t) (ht' : t < 9223372036854775808) :
    gtime (ptime p t) = t := by
  have hdrop : (ptime p t).drop 4 = hnputl (ulong t) ++ p.drop Tmsize := rfl
  have hhigh : nhgetl (ptime p t) = ulong (t / 4294967296) := by
    unfold ptime
    rw [nhgetl_hnputl_append, Nat.mod_eq_of_lt (ulong_lt _)]
  have hlow : nhgetl ((ptime p t).drop 4) = ulong t := by
    rw [hdrop, nhgetl_hnputl_append, Nat.mod_eq_of_lt (ulong_lt _)]
  unfold gtime vlong
  rw [hhigh, hlow]
  unfold ulong
  omega

theorem drop_ptime : (ptime p t).drop Tmsize = p.drop Tmsize := rfl

theorem length_ptime : Tmsize ≤ (ptime p t).length := by
  unfold ptime Tmsize
  rw [List.length_append, List.length_append, length_hnputl, length_hnputl]
  omega

/-- A block that is sent gets a time that is late enough. -/
theorem sent_of_queued (link : Link) (hb : Queued b r) (hclock : Clock r.1) (hnow : Clock now)
    (htout : tout ≤ now) (hd0 : 0 ≤ link.delay0 ∧ link.delay0 < 2305843009213693952) :
    Sent link.delay0 link.delayn
      { b with data := ptime b.data (vlong (outAt link b tout + link.delay0)) } r := by
  obtain ⟨hroom, htime, hpacket⟩ := hb
  have hlen : b.BLEN - Tmsize = r.2.length := by
    unfold Block.BLEN
    rw [← hpacket, List.length_drop]
    omega
  refine ⟨length_ptime, (drop_ptime).trans hpacket, fun hexact => ?_⟩
  obtain ⟨hlow, hhigh⟩ := hexact
  obtain ⟨hr0, hr⟩ := hclock
  obtain ⟨hn0, hn⟩ := hnow
  unfold outAt due
  dsimp only
  rw [hlen, long_ulong_of_small hlow hhigh, htime, Int.mul_comm link.delayn]
  generalize (r.2.length : ℤ) * link.delayn = k at hlow hhigh ⊢
  have hstart : 0 ≤ (if tout < r.1 then r.1 else tout) ∧ r.1 ≤ (if tout < r.1 then r.1 else tout) ∧
      (if tout < r.1 then r.1 else tout) < 4611686018427387904 := by
    split_ifs <;> omega
  generalize (if tout < r.1 then r.1 else tout) = start at hstart ⊢
  have hfirst : vlong (start + k) = start + k := by
    unfold vlong
    omega
  have hsecond : vlong (start + k + link.delay0) = start + k + link.delay0 := by
    unfold vlong
    omega
  rw [hfirst, hsecond, gtime_ptime (by omega) (by omega)]
  omega

theorem send_eq (link : Link) (nrand : ℤ) (bp : Block) (tout : ℤ) :
    (send link nrand bp tout).delay0 = link.delay0 ∧
    (send link nrand bp tout).delayn = link.delayn ∧
    ((send link nrand bp tout).tq = link.tq ∨ (send link nrand bp tout).tq =
      link.tq ++ [{ bp with data := ptime bp.data (vlong (tout + link.delay0)) }]) := by
  unfold send
  split_ifs
  · exact ⟨rfl, rfl, .inl rfl⟩
  · exact ⟨rfl, rfl, .inr rfl⟩

theorem arrive_eq (link : Link) (bp : Block) : (arrive link bp).oq = link.oq ∧
    (arrive link bp).tout = link.tout ∧ (arrive link bp).delay0 = link.delay0 ∧
    (arrive link bp).delayn = link.delayn := by
  unfold arrive
  split_ifs
  · exact ⟨rfl, rfl, rfl, rfl⟩
  · exact ⟨rfl, rfl, rfl, rfl⟩

/-- What the loop does with the packets of both queues. -/
theorem transmit_spec (link : Link) (hnow : Clock now)
    (hd0 : 0 ≤ link.delay0 ∧ link.delay0 < 2305843009213693952)
    (hclock : ∀ r ∈ oqr, Clock r.1) (hoq : List.Forall₂ Queued oq oqr)
    (htq : List.Forall₂ (Sent link.delay0 link.delayn) link.tq tqr) :
    ∃ tqr' oqr', (tqr' ++ oqr').Sublist (tqr ++ oqr) ∧
      List.Forall₂ Queued (transmit now rand link oq tout).2.oq.blocks oqr' ∧
      List.Forall₂ (Sent link.delay0 link.delayn) (transmit now rand link oq tout).2.tq tqr' ∧
      (transmit now rand link oq tout).2.delay0 = link.delay0 ∧
      (transmit now rand link oq tout).2.delayn = link.delayn := by
  induction hoq generalizing tout rand link tqr with
  | nil => exact ⟨tqr, [], List.Sublist.refl _, .nil, htq, rfl, rfl⟩
  | @cons bp r oq oqr hbp hoq ih =>
    obtain ⟨hr, hclock⟩ := List.forall_mem_cons.mp hclock
    unfold transmit
    by_cases htout : tout ≤ now
    · rw [if_pos htout]
      dsimp only
      obtain ⟨hdelay0, hdelayn, htq'⟩ := send_eq link (rand 0) bp (outAt link bp tout)
      rw [← hdelay0, ← hdelayn] at htq ⊢
      rw [← hdelay0] at hd0
      obtain htq' | htq' := htq'
      · -- The packet is dropped.
        rw [← htq'] at htq
        obtain ⟨tqr', oqr', hsub, hrest⟩ := ih _ hd0 hclock htq
        exact ⟨tqr', oqr', hsub.trans
          ((List.Sublist.refl tqr).append (List.sublist_cons_self r oqr)), hrest⟩
      · have hsent := sent_of_queued link hbp hr hnow htout (hdelay0 ▸ hd0)
        rw [← hdelayn] at hsent
        rw [hdelay0] at htq
        have htq := List.rel_append htq (List.Forall₂.cons hsent .nil)
        dsimp only at htq
        rw [← htq', ← hdelay0] at htq
        obtain ⟨tqr', oqr', hsub, hrest⟩ := ih _ hd0 hclock htq
        refine ⟨tqr', oqr', ?_, hrest⟩
        rwa [List.append_assoc] at hsub
    · rw [if_neg htout]
      exact ⟨tqr, r :: oqr, List.Sublist.refl _, .cons hbp hoq, htq, rfl, rfl⟩

/-- The next packet can be sent at a time to come, or there is none. -/
theorem transmit_tout : ((transmit now rand link oq tout).1 = 0 ∧
      (transmit now rand link oq tout).2.oq.blocks = []) ∨
    now < (transmit now rand link oq tout).1 := by
  induction oq generalizing rand link tout with
  | nil =>
    unfold transmit
    dsimp only
    split_ifs with htout
    · exact .inl ⟨rfl, rfl⟩
    · exact .inr (not_le.mp htout)
  | cons bp oq ih =>
    unfold transmit
    by_cases htout : tout ≤ now
    · rw [if_pos htout]
      dsimp only
      exact ih
    · rw [if_neg htout]
      exact .inr (not_le.mp htout)

theorem receive_wait (h : now < gtime bp.data) :
    receive now link (bp :: tq) = (gtime bp.data, [], { link with tq := bp :: tq }) := by
  unfold receive
  dsimp only
  rw [if_pos h]

theorem receive_pass (h : ¬ now < gtime bp.data) : receive now link (bp :: tq) =
    ((receive now (arrive link { bp with data := bp.data.drop Tmsize }) tq).1,
      bp.data.drop Tmsize ::
        (receive now (arrive link { bp with data := bp.data.drop Tmsize }) tq).2.1,
      (receive now (arrive link { bp with data := bp.data.drop Tmsize }) tq).2.2) := by
  conv_lhs => unfold receive
  dsimp only
  rw [if_neg h]

theorem receive_spec (htq : List.Forall₂ (Sent d0 dn) tq tqr) :
    ∃ pr tqr', tqr = pr ++ tqr' ∧
      List.Forall₂ (Arrived d0 dn) ((receive now link tq).2.1.map (now, ·)) pr ∧
      List.Forall₂ (Sent d0 dn) (receive now link tq).2.2.tq tqr' := by
  induction htq generalizing link with
  | nil => exact ⟨[], [], rfl, .nil, .nil⟩
  | @cons bp r tq tqr hbp htq ih =>
    by_cases hwait : now < gtime bp.data
    · rw [receive_wait hwait]
      exact ⟨[], r :: tqr, rfl, .nil, .cons hbp htq⟩
    · obtain ⟨pr, tqr', rfl, harrived, hsent⟩ :=
        @ih (arrive link { bp with data := bp.data.drop Tmsize })
      rw [receive_pass hwait]
      refine ⟨r :: pr, tqr', rfl, ?_, hsent⟩
      exact .cons ⟨hbp.packet, fun hexact => (hbp.time hexact).trans (not_lt.mp hwait)⟩ harrived

/-- The fields that the loop leaves alone, and the time of the first packet that is left. -/
theorem receive_frame : (receive now link tq).2.2.oq = link.oq ∧
    (receive now link tq).2.2.tout = link.tout ∧
    (receive now link tq).2.2.delay0 = link.delay0 ∧
    (receive now link tq).2.2.delayn = link.delayn ∧
    (((receive now link tq).1 = 0 ∧ (receive now link tq).2.2.tq = []) ∨
      now < (receive now link tq).1 ∧ ∃ bp rest, (receive now link tq).2.2.tq = bp :: rest ∧
        gtime bp.data = (receive now link tq).1) := by
  induction tq generalizing link with
  | nil => exact ⟨rfl, rfl, rfl, rfl, .inl ⟨rfl, rfl⟩⟩
  | cons bp tq ih =>
    by_cases hwait : now < gtime bp.data
    · rw [receive_wait hwait]
      exact ⟨rfl, rfl, rfl, rfl, .inr ⟨hwait, bp, tq, rfl, rfl⟩⟩
    · obtain ⟨hoq, htout, hdelay0, hdelayn⟩ :=
        arrive_eq link { bp with data := bp.data.drop Tmsize }
      rw [receive_pass hwait, ← hoq, ← htout, ← hdelay0, ← hdelayn]
      exact ih

/-! ### `pushlink` -/

/-- A packet can move at the time `t`. -/
def CanMove (link : Link) (t : ℤ) : Prop :=
  (∃ bp rest, link.tq = bp :: rest ∧ gtime bp.data ≤ t) ∨ (link.oq.blocks ≠ [] ∧ link.tout ≤ t)

/-- When a packet waits the timer is set, and it is set for a time when a packet can move. -/
structure Armed (link : Link) : Prop where
  set : link.oq.blocks ≠ [] ∨ link.tq ≠ [] → link.armed = true
  moves : link.armed = true → CanMove link link.when

/-- The link after the first loop, and the time when the next packet can be sent. -/
def transmitted (rand : ℕ → ℤ) (now : ℤ) (link : Link) : ℤ × Link :=
  transmit now rand { link with armed := false } link.oq.blocks
    (if link.tout = 0 then now else link.tout)

/-- What the second loop gives. -/
def received (rand : ℕ → ℤ) (now : ℤ) (link : Link) : ℤ × List (List UInt8) × Link :=
  receive now { (transmitted rand now link).2 with tout := (transmitted rand now link).1 }
    (transmitted rand now link).2.tq

theorem armed_transmit (link : Link) :
    (transmit now rand link oq tout).2.armed = link.armed := by
  induction oq generalizing rand link tout with
  | nil => rfl
  | cons bp oq ih =>
    unfold transmit
    split_ifs
    · dsimp only
      rw [ih]
      unfold send
      split_ifs <;> rfl
    · rfl

theorem armed_receive : (receive now link tq).2.2.armed = link.armed := by
  induction tq generalizing link with
  | nil => rfl
  | cons bp tq ih =>
    by_cases hwait : now < gtime bp.data
    · rw [receive_wait hwait]
    · rw [receive_pass hwait]
      dsimp only
      rw [ih]
      unfold arrive
      split_ifs <;> rfl

/-- There is no panic, and the timer is set if it has to be. -/
theorem pushlink_eq (rand : ℕ → ℤ) (link : Link) (h0 : 0 ≤ now) :
    ∃ link', pushlink rand now link = some (link', (received rand now link).2.1) ∧
      link'.tq = (received rand now link).2.2.tq ∧ link'.oq = (transmitted rand now link).2.oq ∧
      link'.tout = (transmitted rand now link).1 ∧
      link'.delay0 = (transmitted rand now link).2.delay0 ∧
      link'.delayn = (transmitted rand now link).2.delayn ∧
      link'.drops = (received rand now link).2.2.drops ∧ Armed link' ∧ 0 ≤ link'.when := by
  have htout : ((transmitted rand now link).1 = 0 ∧ (transmitted rand now link).2.oq.blocks = []) ∨
      now < (transmitted rand now link).1 := transmit_tout
  obtain ⟨hoq, hout, hdelay0, hdelayn, htin⟩ : (received rand now link).2.2.oq =
        (transmitted rand now link).2.oq ∧
      (received rand now link).2.2.tout = (transmitted rand now link).1 ∧
      (received rand now link).2.2.delay0 = (transmitted rand now link).2.delay0 ∧
      (received rand now link).2.2.delayn = (transmitted rand now link).2.delayn ∧
      (((received rand now link).1 = 0 ∧ (received rand now link).2.2.tq = []) ∨
      now < (received rand now link).1 ∧ ∃ bp rest, (received rand now link).2.2.tq = bp :: rest ∧
        gtime bp.data = (received rand now link).1) := receive_frame
  have harmed : (received rand now link).2.2.armed = false :=
    armed_receive.trans (armed_transmit { link with armed := false })
  have hpush : pushlink rand now link =
      (let tout := if (transmitted rand now link).2.oq.blocks = [] then 0
        else (transmitted rand now link).1
      let r := received rand now link
      let l := if r.2.2.tq = [] ∧ r.2.2.oq.closed ∧ r.2.2.oq.blocks = [] ∧ ¬ r.2.2.iq.closed then
        { r.2.2 with iq := qhangup r.2.2.iq } else r.2.2
      let tin := if r.1 = 0 ∨ (tout < r.1 ∧ tout ≠ 0) then tout else r.1
      let l := { l with tin := r.1, when := tin }
      if tin = 0 then some (l, r.2.1) else if tin < now then none
      else some ({ l with armed := true }, r.2.1)) := rfl
  rw [hpush]
  dsimp only
  generalize transmitted rand now link = u at htout hoq hout hdelay0 hdelayn ⊢
  generalize received rand now link = r at hoq hout hdelay0 hdelayn htin harmed ⊢
  obtain ⟨l, hl⟩ : ∃ l, l = if r.2.2.tq = [] ∧ r.2.2.oq.closed ∧ r.2.2.oq.blocks = [] ∧
      ¬ r.2.2.iq.closed then { r.2.2 with iq := qhangup r.2.2.iq } else r.2.2 := ⟨_, rfl⟩
  obtain ⟨hltq, hloq, hltout, hldelay0, hldelayn, hldrops, hlarmed⟩ : l.tq = r.2.2.tq ∧
      l.oq = r.2.2.oq ∧ l.tout = r.2.2.tout ∧ l.delay0 = r.2.2.delay0 ∧
      l.delayn = r.2.2.delayn ∧ l.drops = r.2.2.drops ∧ l.armed = r.2.2.armed := by
    rw [hl]
    split_ifs
    · exact ⟨rfl, rfl, rfl, rfl, rfl, rfl, rfl⟩
    · exact ⟨rfl, rfl, rfl, rfl, rfl, rfl, rfl⟩
  rw [← hl]
  obtain ⟨tout, htouteq⟩ : ∃ tout, tout = if u.2.oq.blocks = [] then 0 else u.1 := ⟨_, rfl⟩
  obtain ⟨tin, htineq⟩ : ∃ tin, tin = if r.1 = 0 ∨ (tout < r.1 ∧ tout ≠ 0) then tout else r.1 :=
    ⟨_, rfl⟩
  rw [← htouteq, ← htineq]
  -- Each of the two times is 0 when its queue is empty, and one to come otherwise.
  have hnext : (tout = 0 ∧ u.2.oq.blocks = []) ∨
      (now < tout ∧ u.2.oq.blocks ≠ [] ∧ tout = u.1) := by
    by_cases hempty : u.2.oq.blocks = []
    · rw [if_pos hempty] at htouteq
      exact .inl ⟨htouteq, hempty⟩
    · rw [if_neg hempty] at htouteq
      refine .inr ⟨?_, hempty, htouteq⟩
      rw [htouteq]
      exact htout.resolve_left fun h => hempty h.2
  by_cases hnone : tin = 0
  · rw [if_pos hnone]
    refine ⟨_, rfl, hltq, hloq.trans hoq, hltout.trans hout, hldelay0.trans hdelay0,
      hldelayn.trans hdelayn, hldrops, ⟨?_, fun hset => ?_⟩, hnone.ge⟩
    swap
    · exact absurd (hset.symm.trans (hlarmed.trans harmed)) Bool.true_eq_false.mp
    rintro (hwait | hwait)
    · replace hwait : l.oq.blocks ≠ [] := hwait
      rw [hloq, hoq] at hwait
      obtain ⟨-, hnil⟩ | ⟨hlt, -, -⟩ := hnext
      · exact absurd hnil hwait
      · split_ifs at htineq <;> omega
    · replace hwait : l.tq ≠ [] := hwait
      rw [hltq] at hwait
      obtain ⟨-, hnil⟩ | ⟨hlt, -⟩ := htin
      · exact absurd hnil hwait
      · split_ifs at htineq <;> omega
  · have hpast : ¬ tin < now := by
      split_ifs at htineq
      · omega
      · omega
    rw [if_neg hnone, if_neg hpast]
    refine ⟨_, rfl, hltq, hloq.trans hoq, hltout.trans hout, hldelay0.trans hdelay0,
      hldelayn.trans hdelayn, hldrops, ⟨fun _ => rfl, fun _ => ?_⟩,
      h0.trans (not_lt.mp hpast)⟩
    show (∃ bp rest, l.tq = bp :: rest ∧ gtime bp.data ≤ tin) ∨ (l.oq.blocks ≠ [] ∧ l.tout ≤ tin)
    rw [hltq, hloq, hoq, hltout, hout]
    by_cases hfirst : r.1 = 0 ∨ (tout < r.1 ∧ tout ≠ 0)
    · rw [if_pos hfirst] at htineq
      obtain ⟨hzero, -⟩ | ⟨-, hwait, heq⟩ := hnext
      · omega
      · exact .inr ⟨hwait, by omega⟩
    · rw [if_neg hfirst] at htineq
      obtain ⟨hzero, -⟩ | ⟨-, bp, rest, hbp, hbptime⟩ := htin
      · omega
      · exact .inl ⟨bp, rest, hbp, (hbptime.trans htineq.symm).le⟩

end PlanNine.Loopback
