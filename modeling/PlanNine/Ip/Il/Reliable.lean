import Mathlib.Data.List.TakeWhile
import PlanNine.Ip.Il.Conn
import PlanNine.Lib.Run

/-!
# Reliable delivery over the internet link protocol

The packets of the network are all that were ever sent, so that they may be lost, repeated and
reordered. Whatever the two ends do, the messages that one of them has read are the first of those
that the other wrote, and what a sender frees has been read.

## Main definitions

* `Carries`: a packet holds the message of its id.
* `Half`, `Good`: what holds of a sender and a receiver, and of two ends.

## Main results

* `Good.iliput`, `Good.ilackproc`, `Good.ilkick`, `Good.ilclose`: the invariant is kept.
* `delivered_of_run`: reliable delivery.
-/

namespace PlanNine.Il

/-- The connection is opening or open. -/
def ConnState.alive : ConnState → Bool
  | .ilsyncer | .ilsyncee | .ilestablished => true
  | .ilclosed | .illistening | .ilclosing => false

def Iltype.isData : Iltype → Bool
  | .ildata | .ildataquery => true
  | _ => false

/-- The packet holds the message that its id stands for. -/
structure Carries (start next : ℕ) (wrote : List Msg) (p : Packet) : Prop where
  start_lt : start < p.ilid
  lt_next : p.ilid < next
  data : wrote[p.ilid - start - 1]? = some p.data
  illen : p.illen = p.data.length + IL_HDRSIZE

/-- What holds of the sender `x` and the receiver `y`: the ids count the messages written, the
messages freed are the first ones and those in `unacked` come behind them, and whatever
acknowledges a message comes after its delivery. -/
structure Half (x y : Conv) : Prop where
  start_lt : x.start < 16777216
  wrote_lt : x.wrote.length < 2147483648
  lt_next : x.start < x.next
  next_le : x.next ≤ x.start + 1 + x.wrote.length
  next_eq : x.state.alive = true → x.next = x.start + 1 + x.wrote.length
  acked : x.acked <+: x.wrote
  unacked : x.unacked.map Packet.ilid =
    List.range' (x.start + 1 + x.acked.length) x.unacked.length
  unacked_next : x.state.alive = true →
    x.next = x.start + 1 + x.acked.length + x.unacked.length
  unacked_carries : ∀ p ∈ x.unacked, Carries x.start x.next x.wrote p
  sent_carries : ∀ p ∈ x.sent, p.iltype.isData = true → Carries x.start x.next x.wrote p
  sync : ∀ p ∈ x.sent, p.iltype = .ilsync → p.ilid = x.start ∧ x.state ≠ .illistening
  fresh : x.state = .illistening → x.start = 0 ∧ x.wrote = []
  outoforder_carries : ∀ p ∈ y.outoforder, Carries x.start x.next x.wrote p
  rq : y.rq <+: x.wrote
  acked_le : x.acked.length ≤ y.rq.length
  acks : ∀ p ∈ y.sent, p.iltype ≠ .ilclose → p.ilack ≤ x.start + y.rq.length
  recvd_le : y.state.alive = true → y.recvd ≤ x.start + y.rq.length
  synced : y.state = .ilsyncee ∨ y.state = .ilestablished →
    y.recvd = x.start + y.rq.length ∧ y.rstart = x.start ∧ x.state ≠ .illistening
  rq_nil : y.state = .illistening ∨ y.state = .ilsyncer ∨ y.state = .ilsyncee → y.rq = []

/-- The invariant of two ends. -/
structure Good (c d : Conv) : Prop where
  out : Half c d
  inp : Half d c

section

variable {c d : Conv} {p : Packet} {m : Msg}

/-! ### Sending -/

theorem Carries.mono {start next next' : ℕ} {wrote wrote' : List Msg}
    (h : Carries start next wrote p) (hnext : next ≤ next') (hwrote : wrote <+: wrote') :
    Carries start next' wrote' p where
  start_lt := h.start_lt
  lt_next := h.lt_next.trans_le hnext
  data := by
    obtain ⟨hlt, hget⟩ := List.getElem?_eq_some_iff.mp h.data
    rw [← hget]
    exact List.prefix_iff_getElem?.mp hwrote _ hlt
  illen := h.illen

/-- Counters, the query table and the time of the last acknowledgement do not matter. -/
theorem Good.setRexmit (h : Good c d) (n : ℕ) : Good { c with rexmit := n } d :=
  ⟨{ h.out with }, { h.inp with }⟩

theorem Good.ilbackoff (h : Good c d) : Good (ilbackoff c) d := h.setRexmit _

theorem Good.ilnextqt (h : Good c d) : Good (ilnextqt c).1 d :=
  ⟨{ h.out with }, { h.inp with }⟩

/-- A packet goes out. -/
theorem Good.send (h : Good c d) (hdata : p.iltype.isData = true → Carries c.start c.next c.wrote p)
    (hsync : p.iltype = .ilsync → p.ilid = c.start ∧ c.state ≠ .illistening)
    (hack : p.iltype ≠ .ilclose → p.ilack ≤ d.start + c.rq.length) (n : ℕ) :
    Good { c with acksent := n, sent := c.sent ++ [p] } d := by
  have hmem {q : Packet} (hq : q ∈ c.sent ++ [p]) : q ∈ c.sent ∨ q = p := by
    simpa using hq
  refine ⟨{ h.out with sent_carries := fun q hq => ?_, sync := fun q hq => ?_ },
    { h.inp with acks := fun q hq => ?_ }⟩
  · obtain hq | rfl := hmem hq
    · exact h.out.sent_carries q hq
    · exact hdata
  · obtain hq | rfl := hmem hq
    · exact h.out.sync q hq
    · exact hsync
  · obtain hq | rfl := hmem hq
    · exact h.inp.acks q hq
    · exact hack

theorem Good.ilsendctl (h : Good c d) {type : Iltype} {id ack : ℕ} (ilspec : ℕ)
    (hdata : type.isData = false) (hsync : type = .ilsync → id = c.start ∧ c.state ≠ .illistening)
    (hack : type ≠ .ilclose → ack ≤ d.start + c.rq.length) :
    Good (ilsendctl c type id ack ilspec) d :=
  h.send (fun hd => absurd (hdata.symm.trans hd) (by decide)) hsync hack ack

theorem Good.ilreject (h : Good c d) (inih : Packet) : Good (ilreject c inih) d := by
  refine h.send ?_ ?_ ?_ c.acksent
  · exact nofun
  · exact nofun
  · exact fun hne => absurd rfl hne

/-- A control packet of an open connection acknowledges what was delivered. -/
theorem Good.ilsendctl_recvd (h : Good c d) (halive : c.state.alive = true) {type : Iltype}
    (id ilspec : ℕ) (hdata : type.isData = false) (hsync : type = .ilsync → id = c.start) :
    Good (Il.ilsendctl c type id c.recvd ilspec) d := by
  refine h.ilsendctl ilspec hdata (fun heq => ⟨hsync heq, fun hl => ?_⟩) fun _ =>
    h.inp.recvd_le halive
  rw [hl] at halive
  cases halive

theorem Good.query (h : Good c d) (halive : c.state.alive = true) : Good (query c) d :=
  h.ilnextqt.ilsendctl_recvd halive _ _ rfl nofun

/-- The first message that is not acknowledged goes out again. -/
theorem Good.ilrexmit (h : Good c d) (halive : c.state.alive = true) : Good (ilrexmit c) d := by
  unfold Il.ilrexmit
  cases hun : c.unacked with
  | nil => exact h
  | cons nb l =>
    have hcarries := h.out.unacked_carries nb (hun ▸ List.mem_cons_self)
    refine (h.ilnextqt.send (fun _ => ⟨?_, ?_, ?_, ?_⟩) ?_ (fun _ => ?_) c.acksent).ilbackoff
    · exact hcarries.start_lt
    · exact hcarries.lt_next
    · exact hcarries.data
    · exact hcarries.illen
    · exact nofun
    · exact h.inp.recvd_le halive

/-- The user writes a message. -/
theorem Good.ilkick (h : Good c d) (hstate : c.state ≠ .illistening) (hlen : m.length ≤ 65000)
    (hcount : c.wrote.length + 1 < 2147483648) : Good (ilkick c m) d := by
  have hwrote : c.wrote <+: c.wrote ++ [m] := List.prefix_append _ _
  have hlength : (c.wrote ++ [m]).length = c.wrote.length + 1 := by simp
  unfold Il.ilkick
  by_cases halive : c.state.alive = true
  · have hnext : (c.next + 1) % 4294967296 = c.next + 1 := by
      have := h.out.start_lt
      have := h.out.next_le
      omega
    have hillen : (m.length + IL_HDRSIZE) % 65536 = m.length + IL_HDRSIZE := by
      unfold IL_HDRSIZE
      omega
    have hle : c.next ≤ c.next + 1 := Nat.le_succ _
    have hcarries : Carries c.start (c.next + 1) (c.wrote ++ [m])
        ⟨.ildata, 0, c.next, c.recvd, m.length + IL_HDRSIZE, m⟩ := by
      refine ⟨h.out.lt_next, Nat.lt_succ_self _, ?_, rfl⟩
      have hindex : c.next - c.start - 1 = c.wrote.length := by
        have := h.out.next_eq halive
        omega
      simp [hindex]
    have hgood : Good { c with
        wrote := c.wrote ++ [m]
        next := c.next + 1
        unacked := c.unacked ++ [⟨.ildata, 0, c.next, c.recvd, m.length + IL_HDRSIZE, m⟩] } d := by
      have hqueue := h.out.unacked_next halive
      refine ⟨{ h.out with
        wrote_lt := hlength.trans_lt hcount
        lt_next := h.out.lt_next.trans_le hle
        next_le := ?_
        next_eq := fun _ => ?_
        acked := h.out.acked.trans hwrote
        unacked := ?_
        unacked_next := fun _ => ?_
        unacked_carries := fun q hq => ?_
        sent_carries := fun q hq hd => (h.out.sent_carries q hq hd).mono hle hwrote
        fresh := fun hl => absurd hl hstate
        outoforder_carries := fun q hq => (h.out.outoforder_carries q hq).mono hle hwrote
        rq := h.out.rq.trans hwrote }, { h.inp with }⟩
      · have := h.out.next_le
        simp only [hlength]
        omega
      · have := h.out.next_eq halive
        simp only [hlength]
        omega
      · simp only [List.map_append, List.length_append, h.out.unacked, List.map_cons, List.map_nil,
          List.length_cons, List.length_nil, List.range'_concat, hqueue]
        simp
      · simp only [List.length_append, List.length_cons, List.length_nil]
        omega
      · obtain hq | rfl : q ∈ c.unacked ∨ q = _ := by simpa using hq
        · exact (h.out.unacked_carries q hq).mono hle hwrote
        · exact hcarries
    have hsend := hgood.send (fun _ => hcarries) nofun (fun _ => h.inp.recvd_le halive) c.recvd
    have hdead (s : ConnState) (hs : s.alive = false) : c.state ≠ s := fun heq => by
      rw [heq, hs] at halive
      cases halive
    dsimp only
    split
    · exact absurd ‹_› (hdead _ rfl)
    · exact absurd ‹_› (hdead _ rfl)
    · exact absurd ‹_› (hdead _ rfl)
    · rw [hnext, hillen]
      exact hsend
  · have hgood : Good { c with wrote := c.wrote ++ [m] } d := by
      refine ⟨{ h.out with
        wrote_lt := hlength.trans_lt hcount
        next_le := ?_
        next_eq := fun ha => absurd ha halive
        acked := h.out.acked.trans hwrote
        unacked_carries := fun q hq => (h.out.unacked_carries q hq).mono le_rfl hwrote
        sent_carries := fun q hq hd => (h.out.sent_carries q hq hd).mono le_rfl hwrote
        fresh := fun hl => absurd hl hstate
        outoforder_carries := fun q hq => (h.out.outoforder_carries q hq).mono le_rfl hwrote
        rq := h.out.rq.trans hwrote }, { h.inp with }⟩
      have := h.out.next_le
      simp only [hlength]
      omega
    dsimp only
    split
    · exact hgood
    · exact hgood
    · exact hgood
    · rename_i hclosed hlisten hclosing
      cases hs : c.state <;> simp_all [ConnState.alive]

/-! ### Closing -/

/-- The state becomes one of no connection. -/
theorem Good.setState (h : Good c d) {s : ConnState} (hs : s.alive = false)
    (hl : s ≠ .illistening) : Good { c with state := s } d := by
  have hne (s' : ConnState) (ha : s'.alive = true) : s ≠ s' := fun heq => by
    rw [heq, ha] at hs
    cases hs
  refine ⟨{ h.out with
    next_eq := fun ha => absurd (hs.symm.trans ha) (by decide)
    unacked_next := fun ha => absurd (hs.symm.trans ha) (by decide)
    sync := fun q hq ht => ⟨(h.out.sync q hq ht).1, hl⟩
    synced := fun hor => ⟨(h.out.synced hor).1, (h.out.synced hor).2.1, hl⟩
    fresh := fun heq => absurd heq hl }, { h.inp with
    recvd_le := fun ha => absurd (hs.symm.trans ha) (by decide)
    synced := fun hor => hor.elim (fun heq => absurd heq (hne _ rfl))
      fun heq => absurd heq (hne _ rfl)
    rq_nil := fun hor => hor.elim (fun heq => absurd heq hl)
      fun hor => hor.elim (fun heq => absurd heq (hne _ rfl)) fun heq => absurd heq (hne _ rfl) }⟩

theorem Good.ilhangup (h : Good c d) : Good (ilhangup c) d := h.setState rfl (by decide)

/-- Where there is no connection, the queues and the last id received do not matter. -/
theorem Good.setRecvd (h : Good c d) (hdead : c.state.alive = false) (n : ℕ) :
    Good { c with recvd := n } d :=
  ⟨{ h.out with }, { h.inp with
    recvd_le := fun ha => absurd (hdead.symm.trans ha) (by decide)
    synced := fun hor => by
      obtain heq | heq := hor
      · exact absurd (hdead.symm.trans (congrArg ConnState.alive heq)) (by decide)
      · exact absurd (hdead.symm.trans (congrArg ConnState.alive heq)) (by decide) }⟩

theorem Good.ilfreeq (h : Good c d) (hdead : c.state.alive = false) : Good (ilfreeq c) d :=
  ⟨{ h.out with
    unacked := rfl
    unacked_next := fun ha => absurd (hdead.symm.trans ha) (by decide)
    unacked_carries := fun _ hq => absurd hq List.not_mem_nil }, { h.inp with
    outoforder_carries := fun _ hq => absurd hq List.not_mem_nil }⟩

theorem Good.ilclose (h : Good c d) : Good (ilclose c) d := by
  have hclosing : Good { c with state := .ilclosing } d := h.setState rfl (by decide)
  have hsend : Good (Il.ilsendctl { c with state := .ilclosing } .ilclose c.next c.recvd 0) d :=
    hclosing.ilsendctl 0 rfl nofun fun hne => absurd rfl hne
  unfold Il.ilclose
  split
  · exact hsend.ilfreeq rfl
  · exact hsend.ilfreeq rfl
  · exact hsend.ilfreeq rfl
  · exact h.ilhangup.ilfreeq rfl
  · exact h.ilfreeq (by rw [‹c.state = _›]; rfl)
  · exact h.ilfreeq (by rw [‹c.state = _›]; rfl)

/-! ### Receiving -/

/-- The messages that are not acknowledged come behind the acknowledged ones. -/
theorem Half.queue_prefix (h : Half c d) :
    c.acked ++ c.unacked.map Packet.data <+: c.wrote := by
  refine List.prefix_iff_getElem?.mpr fun i hi => ?_
  rw [List.length_append, List.length_map] at hi
  by_cases hlt : i < c.acked.length
  · rw [List.getElem_append_left hlt]
    exact List.prefix_iff_getElem?.mp h.acked i hlt
  · obtain ⟨j, rfl⟩ := Nat.exists_eq_add_of_le (Nat.le_of_not_lt hlt)
    have hj : j < c.unacked.length := by omega
    have hid : c.unacked[j].ilid = c.start + 1 + c.acked.length + j := by
      have hj' : j < (c.unacked.map Packet.ilid).length := by simpa using hj
      have hget : (c.unacked.map Packet.ilid)[j] = c.unacked[j].ilid := List.getElem_map _
      rw [← hget]
      simp only [h.unacked, List.getElem_range', Nat.one_mul]
    have hdata := (h.unacked_carries _ (List.getElem_mem hj)).data
    have hindex : c.unacked[j].ilid - c.start - 1 = c.acked.length + j := by omega
    rw [hindex] at hdata
    rw [hdata, List.getElem_append_right (Nat.le_add_right _ _)]
    simp

/-- An acknowledgement frees what has been delivered. -/
theorem Good.ilackto (h : Good c d) {ackto : ℕ} (hack : ackto ≤ c.start + d.rq.length) :
    Good (ilackto c ackto) d := by
  have happend : c.unacked.takeWhile (fun h => h.ilid ≤ ackto) ++
      c.unacked.dropWhile (fun h => h.ilid ≤ ackto) = c.unacked :=
    List.takeWhile_append_dropWhile
  have hfreed (q : Packet) (hq : q ∈ c.unacked.takeWhile fun h => h.ilid ≤ ackto) :
      q.ilid ≤ ackto := by
    have hp := List.mem_takeWhile_imp hq
    exact of_decide_eq_true hp
  unfold Il.ilackto
  dsimp only
  generalize c.unacked.takeWhile (fun h => h.ilid ≤ ackto) = freed at *
  generalize c.unacked.dropWhile (fun h => h.ilid ≤ ackto) = rest at *
  have hlength : (c.acked ++ freed.map Packet.data).length = c.acked.length + freed.length := by
    simp
  have hids : freed.map Packet.ilid = List.range' (c.start + 1 + c.acked.length) freed.length ∧
      rest.map Packet.ilid =
        List.range' (c.start + 1 + c.acked.length + freed.length) rest.length := by
    have hun := h.out.unacked
    rw [← happend, List.map_append, List.length_append, ← List.range'_append_1] at hun
    exact List.append_inj hun (by simp)
  have hsub : rest ⊆ c.unacked := happend ▸ List.subset_append_right _ _
  refine (⟨{ h.out with
    acked := ?_
    unacked := ?_
    unacked_next := fun ha => ?_
    unacked_carries := fun q hq => h.out.unacked_carries q (hsub hq)
    acked_le := ?_ }, { h.inp with }⟩ : Good { c with
      unacked := rest, acked := c.acked ++ freed.map Packet.data } d).setRexmit _
  · refine List.IsPrefix.trans ?_ h.out.queue_prefix
    rw [← happend, List.map_append, ← List.append_assoc]
    exact List.prefix_append _ _
  · rw [hids.2, hlength, ← Nat.add_assoc]
  · have hnext := h.out.unacked_next ha
    rw [← happend, List.length_append] at hnext
    simp only [hlength]
    omega
  · rw [hlength]
    rcases freed.eq_nil_or_concat with rfl | ⟨l, q, rfl⟩
    · exact h.out.acked_le
    · -- the last message that is freed has been delivered
      have hq := hfreed q (by simp)
      have hid : q.ilid = c.start + 1 + c.acked.length + l.length := by
        have hmap := congrArg List.getLast? hids.1
        simpa [List.range'_concat] using hmap
      simp only [List.concat_eq_append, List.length_append, List.length_cons, List.length_nil]
      omega

theorem mem_sortIn {l : List Packet} {q : Packet} (h : q ∈ sortIn p l) : q = p ∨ q ∈ l := by
  induction l with
  | nil => exact .inl (List.mem_singleton.mp h)
  | cons f l ih =>
    rw [sortIn] at h
    split at h
    · split at h
      · exact .inr h
      · exact List.mem_cons.mp h
    · obtain rfl | h := List.mem_cons.mp h
      · exact .inr List.mem_cons_self
      · exact (ih h).imp_right (List.mem_cons_of_mem _)

/-- A message arrives in any order. -/
theorem Good.iloutoforder (h : Good c d) (hp : Carries d.start d.next d.wrote p) :
    Good (iloutoforder c p) d := by
  unfold Il.iloutoforder
  split
  · exact h
  · refine ⟨{ h.out with }, { h.inp with outoforder_carries := fun q hq => ?_ }⟩
    obtain rfl | hq := mem_sortIn hq
    · exact hp
    · exact h.inp.outoforder_carries q hq

/-- The queue to the reader grows by the messages that come next. -/
theorem pullupLoop_spec {start next recvd : ℕ} {wrote rq : List Msg} {l : List Packet}
    (hl : ∀ q ∈ l, Carries start next wrote q) (hrq : rq <+: wrote)
    (hrecvd : recvd = start + rq.length) (hstart : start + wrote.length < 4294967295) :
    (∀ q ∈ (pullupLoop l recvd rq).1, Carries start next wrote q) ∧
      (pullupLoop l recvd rq).2.1 = start + (pullupLoop l recvd rq).2.2.length ∧
      rq <+: (pullupLoop l recvd rq).2.2 ∧ (pullupLoop l recvd rq).2.2 <+: wrote := by
  induction l generalizing recvd rq with
  | nil => exact ⟨hl, hrecvd, List.prefix_rfl, hrq⟩
  | cons bp l ih =>
    have htail : ∀ q ∈ l, Carries start next wrote q := fun q hq => hl q (List.mem_cons_of_mem _ hq)
    rw [pullupLoop]
    split
    · exact ih htail hrq hrecvd
    split
    · exact ⟨hl, hrecvd, List.prefix_rfl, hrq⟩
    · rename_i hid
      have hbp := hl bp List.mem_cons_self
      have hmod : (recvd + 1) % 4294967296 = recvd + 1 := by
        have := hrq.length_le
        omega
      rw [not_ne_iff, hmod] at hid
      have hdata : bp.data.take (bp.illen - IL_HDRSIZE) = bp.data := by
        rw [hbp.illen, Nat.add_sub_cancel, List.take_length]
      have hget : wrote[rq.length]? = some bp.data := by
        rw [← hbp.data]
        congr 1
        omega
      have hnext : rq ++ [bp.data] <+: wrote := by
        obtain ⟨hlt, hget⟩ := List.getElem?_eq_some_iff.mp hget
        rw [List.prefix_iff_eq_take.mp hrq, ← hget, List.take_append_getElem hlt]
        exact List.take_prefix _ _
      have hnextid : bp.ilid = start + (rq ++ [bp.data]).length := by
        rw [hid, hrecvd, List.length_append, List.length_singleton, Nat.add_assoc]
      rw [hdata]
      obtain ⟨hleft, heq, hpre, hwrote⟩ := ih htail hnext hnextid
      exact ⟨hleft, heq, (List.prefix_append _ _).trans hpre, hwrote⟩

theorem Good.ilpullup (h : Good c d) : Good (ilpullup c) d := by
  unfold Il.ilpullup
  split
  · exact h
  · rename_i hstate
    rw [not_ne_iff] at hstate
    have hbound : d.start + d.wrote.length < 4294967295 := by
      have := h.inp.start_lt
      have := h.inp.wrote_lt
      omega
    obtain ⟨hrecvd, hrstart, hlisten⟩ := h.inp.synced (.inr hstate)
    obtain ⟨hleft, heq, hpre, hwrote⟩ := pullupLoop_spec h.inp.outoforder_carries h.inp.rq hrecvd
      hbound
    refine ⟨{ h.out with }, { h.inp with
      outoforder_carries := hleft
      rq := hwrote
      acked_le := h.inp.acked_le.trans hpre.length_le
      acks := fun q hq ht => (h.inp.acks q hq ht).trans (Nat.add_le_add_left hpre.length_le _)
      recvd_le := fun _ => heq.le
      synced := fun _ => ⟨heq, hrstart, hlisten⟩
      rq_nil := fun hor => ?_ }⟩
    simp [hstate] at hor

/-- The connection of the end that has called opens. -/
theorem Good.connected (h : Good c d) (hstate : c.state = .ilsyncer)
    (hd : d.state ≠ .illistening) :
    Good { c with
      state := .ilestablished, recvd := d.start, rstart := d.start, rexmit := 0 } d := by
  have halive : c.state.alive = true := by
    rw [hstate]
    rfl
  have hrq : c.rq = [] := h.inp.rq_nil (.inr (.inl hstate))
  refine ⟨{ h.out with
    next_eq := fun _ => h.out.next_eq halive
    unacked_next := fun _ => h.out.unacked_next halive
    sync := fun q hq ht => ⟨(h.out.sync q hq ht).1, nofun⟩
    synced := fun hor => ⟨(h.out.synced hor).1, (h.out.synced hor).2.1, nofun⟩
    fresh := nofun }, { h.inp with
    recvd_le := fun _ => Nat.le_add_right _ _
    synced := fun _ => ⟨by simp [hrq], rfl, hd⟩
    rq_nil := fun _ => hrq }⟩

/-- The connection of the end that was called opens. -/
theorem Good.accepted (h : Good c d) (hstate : c.state = .ilsyncee) :
    Good { c with state := .ilestablished, rexmit := 0 } d := by
  have halive : c.state.alive = true := by
    rw [hstate]
    rfl
  refine ⟨{ h.out with
    next_eq := fun _ => h.out.next_eq halive
    unacked_next := fun _ => h.out.unacked_next halive
    sync := fun q hq ht => ⟨(h.out.sync q hq ht).1, nofun⟩
    synced := fun hor => ⟨(h.out.synced hor).1, (h.out.synced hor).2.1, nofun⟩
    fresh := nofun }, { h.inp with
    recvd_le := fun _ => h.inp.recvd_le halive
    synced := fun _ => h.inp.synced (.inl hstate)
    rq_nil := fun _ => h.inp.rq_nil (.inr (.inr hstate)) }⟩

theorem state_ilpullup : (ilpullup c).state = c.state := by
  unfold ilpullup
  split <;> rfl

theorem state_iloutoforder : (iloutoforder c p).state = c.state := by
  unfold iloutoforder
  split <;> rfl

/-- A data packet, with the acknowledgement that it carries. -/
theorem Good.ildata (h : Good c d) (hp : p ∈ d.sent) (hdata : p.iltype.isData = true) :
    Good (Il.ilpullup (Il.iloutoforder (Il.ilackto c p.ilack) p)) d := by
  have hclose : p.iltype ≠ .ilclose := fun heq => by
    rw [heq] at hdata
    cases hdata
  exact ((h.ilackto (h.out.acks p hp hclose)).iloutoforder
    (h.inp.sent_carries p hp hdata)).ilpullup

/-- A packet arrives on an open connection. -/
theorem Good.established (h : Good c d) (hstate : c.state = .ilestablished) (hp : p ∈ d.sent) :
    Good (established c p) d := by
  have halive : c.state.alive = true := by
    rw [hstate]
    rfl
  have hack (hclose : p.iltype ≠ .ilclose) : Good (Il.ilackto c p.ilack) d :=
    h.ilackto (h.out.acks p hp hclose)
  unfold Il.established
  split
  · split
    · exact h.ilhangup
    · refine h.ilsendctl 0 rfl nofun fun _ => ?_
      rw [(h.inp.synced (.inr hstate)).2.1]
      exact Nat.le_add_right _ _
  · exact h.ildata hp (by rw [‹p.iltype = _›]; rfl)
  · refine (h.ildata hp (by rw [‹p.iltype = _›]; rfl)).ilsendctl_recvd ?_ _ _ rfl nofun
    rw [state_ilpullup, state_iloutoforder]
    exact halive
  · exact hack (by rw [‹p.iltype = _›]; decide)
  · exact (hack (by rw [‹p.iltype = _›]; decide)).ilsendctl_recvd halive _ _ rfl nofun
  · have hgood := hack (by rw [‹p.iltype = _›]; decide)
    dsimp only
    generalize (if Nqt < p.ilspec then 0 else p.ilspec) = ilspec
    split
    · exact hgood.ilrexmit halive
    · exact hgood
  · split
    · exact h
    · -- the last id received changes with the state
      have hclosing : Good { c with state := .ilclosing, recvd := p.ilid } d :=
        (h.setState rfl (by decide)).setRecvd rfl _
      have hsend : Good (Il.ilsendctl { c with state := .ilclosing, recvd := p.ilid } .ilclose
          c.next p.ilid 0) d := hclosing.ilsendctl 0 rfl nofun fun hne => absurd rfl hne
      exact hsend.ilfreeq rfl

/-- A packet arrives at a conversation. -/
theorem Good.ilprocess (h : Good c d) (hp : p ∈ d.sent) : Good (ilprocess c p) d := by
  unfold Il.ilprocess
  split
  · exact h
  · exact h
  · rename_i hstate
    split
    · rename_i htype
      obtain ⟨hid, hlisten⟩ := h.inp.sync p hp htype
      split
      · exact h.ilhangup
      · have hack : Good (Il.ilsendctl { c with
            state := .ilestablished, recvd := d.start, rstart := d.start, rexmit := 0 } .ilack
            c.next d.start 0) d :=
          (h.connected hstate hlisten).ilsendctl 0 rfl nofun fun _ => Nat.le_add_right _ _
        rw [hid]
        exact hack.ilpullup
    · split
      · exact h.ilhangup
      · exact h
    · exact h
  · rename_i hstate
    obtain ⟨hrecvd, hrstart, hlisten⟩ := h.inp.synced (.inl hstate)
    have hopen := h.accepted hstate
    split
    · rename_i htype
      obtain ⟨hid, -⟩ := h.inp.sync p hp htype
      split
      · exact h.setState rfl (by decide)
      · have hrq : c.rq = [] := h.inp.rq_nil (.inr (.inr hstate))
        have hsame : p.ilid = c.recvd := by
          rw [hid, hrecvd, hrq, List.length_nil, Nat.add_zero]
        rw [hsame]
        exact h.ilsendctl_recvd (by rw [hstate]; rfl) _ _ rfl fun _ => rfl
    · split
      · exact hopen.ilpullup
      · exact h
    · split
      · exact hopen.established rfl hp
      · exact h
    · split
      · exact h.ilhangup
      · exact h
    · exact h
  · exact h.established ‹_› hp
  · rename_i hstate
    split
    · have hgood : Good (Il.ilsendctl { c with recvd := p.ilid } .ilclose c.next p.ilid 0) d :=
        (h.setRecvd (by rw [hstate]; rfl) _).ilsendctl 0 rfl nofun fun hne => absurd rfl hne
      dsimp only
      split
      · exact hgood.ilhangup
      · exact hgood
    · exact h

/-- A conversation is made by the first packet of the other end. -/
theorem Good.newcall (h : Good c d) (hstate : c.state = .illistening) {start : ℕ}
    (hstart : start < 16777216) (hd : d.state ≠ .illistening) :
    Good { ilcbinit start with
      state := .ilsyncee, recvd := d.start, rstart := d.start, sent := c.sent } d := by
  obtain ⟨hzero, hwrote⟩ := h.out.fresh hstate
  have hnone {q : Packet} (hq : Carries c.start c.next c.wrote q) : False := by
    have hdata := hq.data
    rw [hwrote] at hdata
    cases hdata
  have hrq : c.rq = [] := h.inp.rq_nil (.inl hstate)
  have hacked := h.inp.acked_le
  rw [hrq] at hacked
  have hread : d.rq = [] := List.prefix_nil.mp (hwrote ▸ h.out.rq)
  have hack (n : ℕ) (hn : n ≤ c.start + d.rq.length) : n ≤ start + d.rq.length := by omega
  refine ⟨{
    start_lt := hstart
    wrote_lt := by simp
    lt_next := Nat.lt_succ_self start
    next_le := le_rfl
    next_eq := fun _ => rfl
    acked := List.prefix_rfl
    unacked := rfl
    unacked_next := fun _ => rfl
    unacked_carries := fun _ hq => absurd hq List.not_mem_nil
    sent_carries := fun q hq ht => (hnone (h.out.sent_carries q hq ht)).elim
    sync := fun q hq ht => absurd hstate (h.out.sync q hq ht).2
    fresh := nofun
    outoforder_carries := fun q hq => (hnone (h.out.outoforder_carries q hq)).elim
    rq := by simp [hread]
    acked_le := Nat.zero_le _
    acks := fun q hq ht => hack _ (h.out.acks q hq ht)
    recvd_le := fun ha => hack _ (h.out.recvd_le ha)
    synced := fun hor => absurd hstate (h.out.synced hor).2.2
    rq_nil := fun _ => hread }, { h.inp with
    outoforder_carries := fun _ hq => absurd hq List.not_mem_nil
    rq := List.nil_prefix
    acked_le := hacked
    acks := fun q hq ht => (h.inp.acks q hq ht).trans (by simp [hrq])
    recvd_le := fun _ => le_rfl
    synced := fun _ => ⟨rfl, rfl, hd⟩
    rq_nil := fun _ => rfl }⟩

theorem Good.iliput (h : Good c d) {start : ℕ} (hstart : start < 16777216) (hp : p ∈ d.sent) :
    Good (iliput c start p) d := by
  unfold Il.iliput
  split
  · exact h
  split
  · split
    · exact h.ilreject p
    · exact h
  · rename_i hstate
    split
    · exact h.ilreject p
    · rename_i htype
      obtain ⟨hid, hlisten⟩ := h.inp.sync p hp (not_ne_iff.mp htype)
      have hnew := h.newcall hstate hstart hlisten
      unfold Il.ilprocess
      rw [not_ne_iff.mp htype, hid]
      dsimp only
      split
      · exact (hnew.setState rfl (by decide)).setRecvd rfl 0
      · exact hnew.ilsendctl 0 rfl (fun _ => ⟨rfl, nofun⟩) fun _ => Nat.le_add_right _ _
  · exact h.ilprocess hp

/-! ### Time -/

theorem Good.ilackproc (h : Good c d) (t : Timeouts) : Good (ilackproc c t) d := by
  unfold Il.ilackproc
  split
  · exact h
  · exact h
  · split
    · split
      · exact h.ilhangup
      · have hsend : Good (Il.ilsendctl c .ilclose c.next c.recvd 0) d :=
          h.ilsendctl 0 rfl nofun fun hne => absurd rfl hne
        exact hsend.ilbackoff
    · exact h
  · split
    · split
      · exact h.ilhangup
      · exact (h.ilsendctl_recvd (by rw [‹c.state = _›]; rfl) _ _ rfl fun _ => rfl).ilbackoff
    · exact h
  · split
    · split
      · exact h.ilhangup
      · exact (h.ilsendctl_recvd (by rw [‹c.state = _›]; rfl) _ _ rfl fun _ => rfl).ilbackoff
    · exact h
  · rename_i hstate
    have halive : c.state.alive = true := by
      rw [hstate]
      rfl
    obtain ⟨c₁, hc₁, hgood₁, halive₁⟩ : ∃ c₁, c₁ = (if c.recvd ≠ c.acksent ∧ t.acktime then
        Il.ilsendctl c .ilack c.next c.recvd 0 else c) ∧ Good c₁ d ∧ c₁.state.alive = true := by
      refine ⟨_, rfl, ?_⟩
      split
      · exact ⟨h.ilsendctl_recvd halive _ _ rfl nofun, halive⟩
      · exact ⟨h, halive⟩
    rw [← hc₁]
    dsimp only
    split
    · exact hgood₁.ilhangup
    obtain ⟨c₂, hc₂, hgood₂, halive₂⟩ : ∃ c₂, c₂ = (if t.querytime then Il.query c₁ else c₁) ∧
        Good c₂ d ∧ c₂.state.alive = true := by
      refine ⟨_, rfl, ?_⟩
      split
      · exact ⟨hgood₁.query halive₁, halive₁⟩
      · exact ⟨hgood₁, halive₁⟩
    rw [← hc₂]
    split
    · split
      · exact hgood₂.ilhangup
      · exact (hgood₂.query halive₂).ilbackoff
    · exact hgood₂

/-! ### Runs -/

/-- At the start nothing has been written, and at most a call has gone out. -/
theorem Started.fresh (h : Started c) :
    (c.start < 16777216 ∧ c.next = c.start + 1 ∧ c.recvd = 0 ∧ c.unacked = [] ∧
      c.outoforder = [] ∧ c.rq = [] ∧ c.wrote = [] ∧ c.acked = []) ∧
    (c.state = .ilsyncer ∨ c.state = .illistening ∧ c.start = 0) ∧
    ∀ p ∈ c.sent, p.iltype = .ilsync ∧ p.ilid = c.start ∧ p.ilack = 0 ∧ c.state = .ilsyncer := by
  cases h with
  | connect start fast hstart =>
    refine ⟨⟨hstart, rfl, rfl, rfl, rfl, rfl, rfl, rfl⟩, .inl rfl, fun p hp => ?_⟩
    rw [List.mem_singleton.mp hp]
    exact ⟨rfl, rfl, rfl, rfl⟩
  | listen =>
    exact ⟨⟨by decide, rfl, rfl, rfl, rfl, rfl, rfl, rfl⟩, .inr ⟨rfl, rfl⟩,
      fun p hp => absurd hp List.not_mem_nil⟩

theorem half_started (hc : Started c) (hd : Started d) : Half c d := by
  obtain ⟨⟨hstart, hnext, -, hunacked, -, -, hwrote, hacked⟩, hstate, hsent⟩ := hc.fresh
  obtain ⟨⟨-, -, hrecvd, -, hout, hrq, -, -⟩, hstate', hsent'⟩ := hd.fresh
  have hsync : d.state ≠ .ilsyncee ∧ d.state ≠ .ilestablished := by
    obtain hs | ⟨hs, -⟩ := hstate' <;> rw [hs] <;> exact ⟨nofun, nofun⟩
  exact {
    start_lt := hstart
    wrote_lt := by simp [hwrote]
    lt_next := by omega
    next_le := by omega
    next_eq := fun _ => by simp [hwrote, hnext]
    acked := by simp [hacked]
    unacked := by simp [hunacked]
    unacked_next := fun _ => by simp [hnext, hacked, hunacked]
    unacked_carries := fun p hp => by simp [hunacked] at hp
    sent_carries := fun p hp ht => by simp [(hsent p hp).1, Iltype.isData] at ht
    sync := fun p hp _ => ⟨(hsent p hp).2.1, by simp [(hsent p hp).2.2.2]⟩
    fresh := fun hl => ⟨by
      obtain hs | ⟨-, hs⟩ := hstate
      · cases hs.symm.trans hl
      · exact hs, hwrote⟩
    outoforder_carries := fun p hp => by simp [hout] at hp
    rq := by simp [hrq]
    acked_le := by simp [hacked]
    acks := fun p hp _ => by simp [(hsent' p hp).2.2.1]
    recvd_le := fun _ => by simp [hrecvd]
    synced := fun hor => (hor.elim hsync.1 hsync.2).elim
    rq_nil := fun _ => hrq }

end

theorem Side.peer_peer (x : Side) : x.peer.peer = x := by
  cases x <;> rfl

theorem Side.eq_or_eq_peer (x y : Side) : y = x ∨ y = x.peer := by
  cases x <;> cases y <;> simp [Side.peer]

/-- What one end does is seen by both. -/
theorem good_update {s : System} {x : Side} {c : Conv} (h : Good c (s x.peer)) (y : Side) :
    Good (Function.update s x c y) (Function.update s x c y.peer) := by
  have hne : x.peer ≠ x := by cases x <;> decide
  obtain rfl | rfl := x.eq_or_eq_peer y
  · rw [Function.update_self, Function.update_of_ne hne]
    exact h
  · rw [Side.peer_peer, Function.update_self, Function.update_of_ne hne]
    exact ⟨h.inp, h.out⟩

/-- Each step keeps the invariant. -/
theorem good_step {s s' : System} {e : Event} (h : ∀ x, Good (s x) (s x.peer))
    (hmodest : Modest s e) (hstep : step s e = some s') (y : Side) :
    Good (s' y) (s' y.peer) := by
  cases e with
  | write x m =>
    obtain ⟨hstate, hstep⟩ := Option.ite_none_right_eq_some.mp hstep
    cases hstep
    exact good_update ((h x).ilkick hstate hmodest.1 hmodest.2) y
  | close x =>
    obtain ⟨hstate, hstep⟩ := Option.ite_none_right_eq_some.mp hstep
    cases hstep
    exact good_update (h x).ilclose y
  | arrive x start p =>
    obtain ⟨hp, hstep⟩ := Option.ite_none_right_eq_some.mp hstep
    cases hstep
    exact good_update ((h x).iliput hp.2 hp.1) y
  | listener x p =>
    obtain ⟨hp, hstep⟩ := Option.ite_none_right_eq_some.mp hstep
    cases hstep
    exact good_update ((h x).ilreject p) y
  | ilackproc x t =>
    cases hstep
    exact good_update ((h x).ilackproc t) y
  | iladvise x =>
    obtain ⟨hstate, hstep⟩ := Option.ite_none_right_eq_some.mp hstep
    cases hstep
    exact good_update (h x).ilhangup y

/-- Whatever the network loses, repeats and reorders: what was read is the first part of what was
written, and what `ilackto` has freed has been read. -/
theorem delivered_of_run {s₀ s : System} (h₀ : ∀ x, Started (s₀ x))
    (hrun : Run (fun s e s' => step s e = some s') Modest s₀ s) (x : Side) :
    (s x.peer).rq <+: (s x).wrote ∧ (s x).acked <+: (s x.peer).rq := by
  have hgood := @Run.invariant _ _ _ _ _ _ (fun s => ∀ x, Good (s x) (s x.peer))
    (fun x => ⟨half_started (h₀ x) (h₀ x.peer), half_started (h₀ x.peer) (h₀ x)⟩)
    (fun s e s' h hmodest hstep => good_step h hmodest hstep) hrun
  obtain ⟨hout, -⟩ := hgood x
  exact ⟨hout.rq, List.prefix_of_prefix_length_le hout.acked hout.rq hout.acked_le⟩

theorem run_swapped : ∃ s, Run (fun s e s' => step s e = some s') Modest
    (fun | .a => ilstart 5 false | .b => { ilcbinit 0 with state := .illistening }) s ∧
    (s .b).rq = [[1], [2]] ∧ (s .a).acked = [[1], [2]] := by
  refine ⟨_, ((((((((Run.nil.snoc (e := .arrive .b 7 ⟨.ilsync, 0, 5, 0, 18, []⟩) trivial rfl).snoc
    (e := .arrive .a 0 ⟨.ilsync, 0, 7, 5, 18, []⟩) trivial rfl).snoc
    (e := .write .a [1]) ⟨by decide, by decide⟩ rfl).snoc
    (e := .write .a [2]) ⟨by decide, by decide⟩ rfl).snoc
    (e := .arrive .b 0 ⟨.ilack, 0, 6, 7, 18, []⟩) trivial rfl).snoc
    (e := .arrive .b 0 ⟨.ildata, 0, 7, 7, 19, [2]⟩) trivial rfl).snoc
    (e := .arrive .b 0 ⟨.ildata, 0, 6, 7, 19, [1]⟩) trivial rfl).snoc
    (e := .ilackproc .b ⟨false, true, false, false⟩) trivial rfl).snoc
    (e := .arrive .a 0 ⟨.ilack, 0, 8, 7, 18, []⟩) trivial rfl, rfl, rfl⟩

/-- Two messages arrive in the wrong order, are read in the right one and are acknowledged. -/
theorem delivered_swapped :
    ∃ s : System, (s .b).rq = [[1], [2]] ∧ (s .a).acked = [[1], [2]] ∧
      (s .b).rq <+: (s .a).wrote ∧ (s .a).acked <+: (s .b).rq := by
  obtain ⟨s, hrun, hread, hacked⟩ := run_swapped
  have hdelivered := delivered_of_run (fun x => by
    cases x with
    | a => exact .connect 5 false (by decide)
    | b => exact .listen) hrun .a
  exact ⟨s, hread, hacked, hdelivered⟩

end PlanNine.Il
