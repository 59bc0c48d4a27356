import PlanNine.Ip.RoundTrip

/-!
# Forwarding a datagram that was put together

A gateway whose outgoing interface asks for it puts the fragments of a datagram together before it
passes the datagram on. The packet then still has the flag of its first fragment, and the mark of
`ipiput4` for its type of service, and `ipoput4` does not touch these fields of a packet that it
passes on. A packet that was put together is therefore never sent as the datagram, nor as fragments
that can be put together again.

## Main definitions

* `Valid`: a packet is a fragment of the datagram.
* `Sent`, `Reunites`, `Reemits`: what is passed on is the datagram.

## Main results

* `mem_insertFrag`: the blocks of a queue after a fragment was put in its place.
* `mf_of_ipoput4`: the flag of a packet is in all that is sent for it.
* `none_of_more`: packets that all have the flag are never put together.
* `forward_reemits_iff`: what is passed on in a run is the datagram if and only if the packet that
  came was the whole datagram, with fields that need no restoring.
-/

namespace PlanNine.Ip

open Ip6 (Bwrite Input)

/-! ### What is passed on -/

/-- The packet is a fragment of the datagram, or the whole of it. -/
structure Valid (o : Datagram) (d : List UInt8) : Prop where
  header : Header o d
  fragment : Fragment o.payload (markfrag d)

/-- The packet is the datagram: its offset is zero and its flag for more fragments is clear. -/
structure Sent (o : Datagram) (ttl : ℕ) (d : List UInt8) : Prop where
  header : Header o d
  ttl : ip4ttl d = ttl
  length_eq : ip4length d = IP4HDR + o.payload.length
  frag : ip4frag d &&& (0xffff ^^^ IP_DF) = 0
  bytes : IP4HDR + o.payload.length ≤ d.length
  payload : (d.drop IP4HDR).take o.payload.length = o.payload

/-- The packets `l` are put together to the datagram, in whatever order they come. -/
def Reunites (o : Datagram) (l : List (List UInt8)) : Prop :=
  l ≠ [] ∧ ∀ (ip₀ ip : IP) (seen : List (List UInt8)) (e : Came),
    (∀ f ∈ ip₀.flisthead4, f.key ≠ o.key) →
    Run Step (fun _ e => e.pkt ∈ l) (ip₀, []) (ip, seen) → e.pkt ∈ l →
      ((ip.come e).2.isSome ↔ ∀ d ∈ l, d ∈ e.pkt :: seen) ∧
        ∀ c, (ip.come e).2 = some c → Reassembled o c

/-- What is sent is the datagram with the time to live `ttl`: one packet if it fits, else fragments
that are put together to it. -/
def Reemits (o : Datagram) (ttl : ℕ) (out : Bwrite) : Prop :=
  if ((IP4HDR + o.payload.length : ℕ) : ℤ) ≤ out.ifc.medialen then
    ∃ d, out.pkts = [d] ∧ Sent o ttl d
  else (∀ d ∈ out.pkts, Header o d ∧ ip4ttl d = ttl) ∧ Reunites o out.pkts

/-! ### Blocks after a fragment -/

section

variable {bp x y : Frag} {l l' : List Frag} {e : ℕ}

theorem ip4mf_moveup (x : Frag) (ovlap : ℕ) : ip4mf (x.moveup ovlap).data = ip4mf x.data := by
  have hget : (x.moveup ovlap).data[6]? = x.data[6]? := by
    have hdata : (x.moveup ovlap).data = x.data.take IP4HDR ++ x.data.drop (IP4HDR + ovlap) := rfl
    rw [hdata]
    by_cases hlen : IP4HDR ≤ x.data.length
    · rw [List.getElem?_append_left (by rw [List.length_take, Nat.min_eq_left hlen]; decide),
        List.getElem?_take_of_lt (by decide)]
    · rw [List.drop_eq_nil_of_le (by omega), List.append_nil, List.take_of_length_le (by omega)]
  rw [ip4mf, getD_congr hget, ip4mf]

/-- The blocks that `coverNext` leaves. -/
theorem mem_coverNext (hy : y ∈ coverNext e l) :
    y ∈ l ∨ ∃ x ∈ l, ∃ ovlap, 0 < ovlap ∧ ovlap < x.flen ∧ y = x.moveup ovlap := by
  induction l with
  | nil => exact .inl hy
  | cons x l ih =>
    rw [coverNext] at hy
    split_ifs at hy with hle hlt
    · exact .inl hy
    · obtain rfl | hy := List.mem_cons.mp hy
      · exact .inr ⟨x, List.mem_cons_self, _, Nat.sub_pos_of_lt (not_le.mp hle), hlt, rfl⟩
      · exact .inl (List.mem_cons_of_mem _ hy)
    · obtain hy | ⟨z, hz, hmoved⟩ := ih hy
      · exact .inl (List.mem_cons_of_mem _ hy)
      · exact .inr ⟨z, List.mem_cons_of_mem _ hz, hmoved⟩

/-- The blocks of a queue in which a fragment was put: they have their data, or have moved up. -/
theorem mem_insertFrag (h : insertFrag bp l = some l') (hy : y ∈ l') :
    y = bp ∨ (∃ x ∈ l, y.foff = x.foff ∧ y.data = x.data) ∨
      ∃ x ∈ l, ∃ ovlap, 0 < ovlap ∧ ovlap < x.flen ∧ y = x.moveup ovlap := by
  have hbefore {z : Frag} (hz : z ∈ l.takeWhile fun bl => bl.foff < bp.foff) : z ∈ l :=
    (List.takeWhile_sublist _).subset hz
  have hafter {z : Frag} (hz : z ∈ bp :: coverNext (bp.foff + bp.flen)
      (l.dropWhile fun bl => bl.foff < bp.foff)) :
      z = bp ∨ (∃ x ∈ l, z.foff = x.foff ∧ z.data = x.data) ∨
        ∃ x ∈ l, ∃ ovlap, 0 < ovlap ∧ ovlap < x.flen ∧ z = x.moveup ovlap := by
    obtain rfl | hz := List.mem_cons.mp hz
    · exact .inl rfl
    · obtain hz | ⟨x, hx, hmoved⟩ := mem_coverNext hz
      · exact .inr (.inl ⟨z, (List.dropWhile_sublist _).subset hz, rfl, rfl⟩)
      · exact .inr (.inr ⟨x, (List.dropWhile_sublist _).subset hx, hmoved⟩)
  obtain ⟨-, rfl⟩ | ⟨init, x, hinit, -, -, -, rfl⟩ := insertFrag_cases h
  · obtain hy | hy := List.mem_append.mp hy
    · exact .inr (.inl ⟨y, hbefore hy, rfl, rfl⟩)
    · exact hafter hy
  · have hx : x ∈ l := hbefore (hinit ▸ List.mem_append_right _ List.mem_cons_self)
    obtain hy | hy := List.mem_append.mp hy
    · exact .inr (.inl ⟨y, hbefore (hinit ▸ List.mem_append_left _ hy), rfl, rfl⟩)
    · obtain rfl | hy := List.mem_cons.mp hy
      · exact .inr (.inl ⟨x, hx, rfl, rfl⟩)
      · exact hafter hy

/-- A complete queue has a last fragment. -/
theorem exists_last {pos : ℕ} (h : complete pos l = true) : ∃ x ∈ l, ip4mf x.data = 0 := by
  induction l generalizing pos with
  | nil => cases h
  | cons x l ih =>
    rw [complete] at h
    split_ifs at h with hpos hmf
    · exact ⟨x, List.mem_cons_self, hmf⟩
    · obtain ⟨y, hy, hlast⟩ := ih h
      exact ⟨y, List.mem_cons_of_mem _ hy, hlast⟩

end

/-! ### Packets that all have the flag -/

/-- No block of a queue is a last fragment. -/
def AllMore (ip : IP) : Prop := ∀ f ∈ ip.flisthead4, ∀ x ∈ f.blist, ip4mf x.data ≠ 0

section

variable {o : Datagram} {d d' : List UInt8} {ip : IP} {e : Came} {l : List (List UInt8)}

theorem and_two_pow_ne_zero (x i : ℕ) : x &&& 2 ^ i ≠ 0 ↔ x / 2 ^ i % 2 = 1 := by
  have hpos : 0 < 2 ^ i := Nat.two_pow_pos i
  rw [Nat.and_two_pow, Nat.testBit_eq_decide_div_mod_eq]
  by_cases h : x / 2 ^ i % 2 = 1
  · simp only [h, decide_true, Bool.toNat_true, Nat.one_mul, iff_true]
    exact hpos.ne'
  · simp [h]

/-- The flag in the first byte of the field is the flag in the field. -/
theorem ip4mf_ne_zero : ip4mf d ≠ 0 ↔ ip4frag d &&& IP_MF ≠ 0 := by
  have hbyte : ((d.drop 6).getD 1 0).toNat < 256 := UInt8.toNat_lt _
  have hfirst : (d.drop 6).getD 0 0 = d.getD 6 0 := by
    rw [List.getD_eq_getElem?_getD, List.getElem?_drop, List.getD_eq_getElem?_getD]
  rw [ip4mf, show IP_MF >>> 8 = 2 ^ 5 from rfl, show IP_MF = 2 ^ 13 from rfl, and_two_pow_ne_zero,
    and_two_pow_ne_zero, ip4frag, nhgets, hfirst]
  omega

theorem ip4mf_congr (h : d[6]? = d'[6]?) : ip4mf d = ip4mf d' := by
  rw [ip4mf, getD_congr h, ip4mf]

/-- What the mark leaves of a packet, and of what is behind it. -/
theorem getElem?_markfrag (pad : List UInt8) {j : ℕ} (hlen : IP4HDR ≤ d.length) (hj : j < 20)
    (h1 : j ≠ 1) : (markfrag (d ++ pad))[j]? = d[j]? := by
  rw [markfrag, ip4settos, List.getElem?_set_ne h1.symm,
    List.getElem?_append_left (by simp only [IP4HDR] at hlen; omega)]

/-- A packet with the flag is kept, and no queue gets a last fragment. -/
theorem none_of_more (hip : AllMore ip) (hlen : IP4HDR ≤ e.pkt.length) (hmf : ip4mf e.pkt ≠ 0) :
    (ip.come e).2 = none ∧ AllMore (ip.come e).1 := by
  have hmf' : ip4mf (markfrag (e.pkt ++ e.pad)) ≠ 0 := by
    rwa [ip4mf_congr (getElem?_markfrag e.pad hlen (by decide) (by decide))]
  have hkeep (l l' : List Frag) (hl : ∀ x ∈ l, ip4mf x.data ≠ 0)
      (hins : insertFrag (mkFrag (ip4frag (markfrag (e.pkt ++ e.pad)))
        (markfrag (e.pkt ++ e.pad))) l = some l') : ∀ x ∈ l', ip4mf x.data ≠ 0 := by
    intro y hy
    obtain rfl | ⟨x, hx, -, hdata⟩ | ⟨x, hx, ovlap, -, -, rfl⟩ := mem_insertFrag hins hy
    · exact hmf'
    · rw [hdata]
      exact hl x hx
    · rw [ip4mf_moveup]
      exact hl x hx
  refine ⟨?_, ?_⟩
  · rcases hc : (ip.come e).2 with _ | c
    · rfl
    obtain ⟨⟨htos, -⟩, -⟩ | ⟨f, -, hf, -, l, hins, hcomp, -⟩ :=
      @arrive_some ip ⟨e.now, markfrag (e.pkt ++ e.pad)⟩ c hc
    · have hone : (markfrag (e.pkt ++ e.pad))[1]? = some (uchar 1) := by
        have hfrag : ip4frag (e.pkt ++ e.pad) &&& IP_MF ≠ 0 := by
          rw [← ip4mf_ne_zero, ip4mf_congr (List.getElem?_append_left
            (by simp only [IP4HDR] at hlen; omega))]
          exact hmf
        rw [markfrag, ip4settos, if_pos hfrag, List.getElem?_set_self]
        rw [List.length_append]
        simp only [IP4HDR] at hlen
        omega
      rw [ip4tos, List.getD_eq_getElem?_getD, hone] at htos
      exact absurd htos (by decide)
    · obtain ⟨x, hx, hlast⟩ := exists_last hcomp
      exact (hkeep _ _ (hip f hf) hins x hx hlast).elim
  · refine @queues_arrive (fun _ l => ∀ x ∈ l, ip4mf x.data ≠ 0) ip
      ⟨e.now, markfrag (e.pkt ++ e.pad)⟩ hip (fun _ x hx => ?_) fun _ => hkeep
    rw [List.mem_singleton.mp hx]
    exact hmf'

/-- Packets that all have the flag are never put together. -/
theorem not_reunites (hl : ∀ d ∈ l, IP4HDR ≤ d.length ∧ ip4mf d ≠ 0) : ¬ Reunites o l := by
  rintro ⟨hne, hall⟩
  have hrun (es : List (List UInt8)) (hes : es ⊆ l) :
      ∃ ip, Run Step (fun _ e => e.pkt ∈ l) (initfrag 1, []) (ip, es) ∧ AllMore ip := by
    induction es with
    | nil => exact ⟨_, .nil, fun _ hf => (List.not_mem_nil hf).elim⟩
    | cons d es ih =>
      obtain ⟨hd, hes⟩ := List.cons_subset.mp hes
      obtain ⟨ip, hrun, hip⟩ := ih hes
      obtain ⟨hnone, hip'⟩ := none_of_more (e := ⟨0, d, []⟩) hip (hl d hd).1 (hl d hd).2
      refine ⟨_, hrun.snoc (e := ⟨0, d, []⟩) hd ?_, hip'⟩
      rw [Step, hnone]
      rfl
  obtain ⟨d, l', rfl⟩ := List.exists_cons_of_ne_nil hne
  obtain ⟨ip, hrun, hip⟩ := hrun (d :: l') (List.Subset.refl _)
  obtain ⟨hlen, hmf⟩ := hl d List.mem_cons_self
  have hiff := (hall (initfrag 1) ip (d :: l') ⟨0, d, []⟩
    (fun _ hf => (List.not_mem_nil hf).elim) hrun
    List.mem_cons_self).1
  rw [(none_of_more (e := ⟨0, d, []⟩) hip hlen hmf).1] at hiff
  exact absurd (hiff.mpr fun c hc => List.mem_cons_of_mem _ hc) (by decide)

end

/-! ### What is sent -/

section

variable {o : Datagram} {d d' eh data : List UInt8} {lid seglen dlen fuel fragoff : ℕ}

/-- The fragments that the loop makes. -/
theorem mem_fragment4 (h : d ∈ fragment4 eh lid seglen dlen fuel fragoff data) :
    ∃ off frag n r, d = fillcksum (fraghdr eh frag (n + IP4HDR) lid ++ r) ∧
      (off = fragoff ∨ fragoff + seglen ≤ off) ∧ off < dlen ∧
      (frag = off >>> 3 ∧ dlen ≤ off + seglen ∨ frag = (off >>> 3) ||| IP_MF) := by
  induction fuel generalizing fragoff data with
  | zero => cases h
  | succ fuel ih =>
    rw [fragment4] at h
    by_cases hlt : fragoff < dlen
    · rw [if_pos hlt] at h
      by_cases hlast : dlen ≤ fragoff + seglen
      · simp only [if_pos hlast] at h
        have hnil : fragment4 eh lid (dlen - fragoff) dlen fuel (fragoff + (dlen - fragoff))
            (data.drop (dlen - fragoff)) = [] := by
          cases fuel with
          | zero => rfl
          | succ fuel => rw [fragment4, if_neg (by omega)]
        rw [hnil] at h
        split_ifs at h
        · cases h
        · rw [List.mem_singleton.mp h]
          exact ⟨fragoff, _, _, _, rfl, .inl rfl, hlt, .inl ⟨rfl, hlast⟩⟩
      · simp only [if_neg hlast] at h
        split_ifs at h
        · cases h
        · obtain rfl | h := List.mem_cons.mp h
          · exact ⟨fragoff, _, _, _, rfl, .inl rfl, hlt, .inr rfl⟩
          · obtain ⟨off, frag, n, r, heq, hoff, hrest⟩ := ih h
            exact ⟨off, frag, n, r, heq, .inr (by omega), hrest⟩
    · rw [if_neg hlt] at h
      cases h

/-- The fields of a fragment. -/
theorem fraghdr_append (hlen : IP4HDR ≤ eh.length) (frag len lid : ℕ) (r : List UInt8) :
    IP4HDR ≤ (fillcksum (fraghdr eh frag len lid ++ r)).length ∧
      ip4frag (fillcksum (fraghdr eh frag len lid ++ r)) = frag % 65536 ∧
      ip4ttl (fillcksum (fraghdr eh frag len lid ++ r)) = ip4ttl eh := by
  obtain ⟨hl, -, hfrag, -, hsame⟩ := fraghdr_spec eh hlen frag len lid r
  refine ⟨?_, hfrag, ?_⟩
  · rw [hl]
    omega
  · have h8 : (ip4setid eh lid)[8]? = eh[8]? :=
      getElem?_putshort (by simp only [IP4HDR] at hlen; omega) (by omega)
    rw [ip4ttl, getD_congr ((hsame 8 (by decide) (by omega)).trans h8), ip4ttl]

/-- A packet that is sent as it is, with another length. -/
theorem fillcksum_setlength (hlen : IP4HDR ≤ d.length) (len : ℕ) :
    (fillcksum (ip4setlength d len)).length = d.length ∧
      ip4length (fillcksum (ip4setlength d len)) = len % 65536 ∧
      (fillcksum (ip4setlength d len)).drop IP4HDR = d.drop IP4HDR ∧
      ∀ j, j < 2 ∨ 4 ≤ j ∧ j < 10 ∨ 12 ≤ j → (fillcksum (ip4setlength d len))[j]? = d[j]? := by
  have hset : ip4setlength d len = putshort d 2 len := rfl
  have hlenset : (putshort d 2 len).length = d.length :=
    length_putshort (by simp only [IP4HDR] at hlen; omega)
  have hge : IP4HDR ≤ (putshort d 2 len).length := hlenset ▸ hlen
  have hget (j : ℕ) (hj : j < 10 ∨ 12 ≤ j) : (fillcksum (putshort d 2 len))[j]? =
      (putshort d 2 len)[j]? := getElem?_fillcksum hge hj
  simp only [IP4HDR] at hlen
  rw [hset]
  refine ⟨(length_fillcksum hge).trans hlenset, ?_, ?_, fun j hj => ?_⟩
  · rw [ip4length, nhgets_congr (hget 2 (by omega)) (hget 3 (by omega)), nhgets_putshort (by omega)]
  · rw [drop_fillcksum hge, drop_putshort (by decide) (by omega)]
  · rw [hget j (by omega), getElem?_putshort (by omega) (by omega)]

theorem getElem?_setttl {ttl j : ℕ} (hj : j ≠ 8) : (ip4setttl d ttl)[j]? = d[j]? :=
  List.getElem?_set_ne hj.symm

theorem ip4ttl_setttl {ttl : ℕ} (hlen : IP4HDR ≤ d.length) (httl : ttl < 256) :
    ip4ttl (ip4setttl d ttl) = ttl := by
  have hself : (ip4setttl d ttl)[8]? = some (uchar ttl) :=
    List.getElem?_set_self (by simp only [IP4HDR] at hlen; omega)
  rw [ip4ttl, List.getD_eq_getElem?_getD, hself, Option.getD_some, toNat_uchar,
    Nat.mod_eq_of_lt httl]

/-- The flag is still there where the loop has counted it in the offset. -/
theorem frag_and_mf {off frag : ℕ} (hle : 65536 ≤ off) (hlt : off < 131072)
    (h : frag = off >>> 3 ∨ frag = (off >>> 3) ||| IP_MF) : frag % 65536 &&& IP_MF ≠ 0 := by
  have hbit : (off >>> 3).testBit 13 = true := by
    rw [Nat.testBit_eq_decide_div_mod_eq, Nat.shiftRight_eq_div_pow, decide_eq_true_eq]
    omega
  have hfrag : frag.testBit 13 = true := by
    obtain rfl | rfl := h
    · exact hbit
    · rw [Nat.testBit_or, hbit, Bool.true_or]
  have hmod : (frag % 2 ^ 16).testBit 13 = true := by
    rw [Nat.testBit_mod_two_pow, hfrag]
    rfl
  rw [show IP_MF = 2 ^ 13 from rfl, show 65536 = 2 ^ 16 from rfl, Nat.and_two_pow, hmod]
  decide

/-- The field of a first fragment that may be cut again. -/
theorem ip4frag_of_mf (hmf : ip4mf d ≠ 0) (hoffset : ip4offset d = 0)
    (hreserved : ip4frag d < 0x8000) (hdf : (d.getD 6 0).toNat &&& (IP_DF >>> 8) = 0) :
    ip4frag d = IP_MF := by
  have hbyte : ((d.drop 6).getD 1 0).toNat < 256 := UInt8.toNat_lt _
  have hfirst : (d.drop 6).getD 0 0 = d.getD 6 0 := by
    rw [List.getD_eq_getElem?_getD, List.getElem?_drop, List.getD_eq_getElem?_getD]
  have hmf' : (d.getD 6 0).toNat / 2 ^ 5 % 2 = 1 := (and_two_pow_ne_zero _ 5).mp hmf
  have hdf' : ¬ (d.getD 6 0).toNat / 2 ^ 6 % 2 = 1 := fun h =>
    (and_two_pow_ne_zero _ 6).mpr h hdf
  rw [ip4offset, Nat.shiftLeft_eq] at hoffset
  rw [ip4frag, nhgets, hfirst] at hoffset hreserved ⊢
  simp only [IP_MF]
  omega

/-- The flag of a packet with the offset zero is in all that is sent for it. -/
theorem mf_of_ipoput4 {fs : Fs} {id4 ttl tos : ℕ} {out : Bwrite} (hlen : IP4HDR ≤ d.length)
    (hmf : ip4mf d ≠ 0) (hoffset : ip4offset d = 0) (hreserved : ip4frag d < 0x8000)
    (h : ipoput4 fs id4 d true ttl tos = some out) :
    ∀ pkt ∈ out.pkts, IP4HDR ≤ pkt.length ∧ ip4mf pkt ≠ 0 := by
  obtain ⟨ifc, gate, hshort, hsend⟩ := ipoput4_gating h
  have hbyte : (ip4setttl d ttl)[6]? = d[6]? := getElem?_setttl (by decide)
  have hlen' : IP4HDR ≤ (ip4setttl d ttl).length := by
    rw [ip4setttl, List.length_set]
    exact hlen
  unfold send4 at hsend
  simp only [if_true] at hsend
  split_ifs at hsend with hfit hdf hseg
  · cases hsend
    intro pkt hpkt
    rw [List.mem_singleton.mp hpkt]
    obtain ⟨hl, -, -, hsame⟩ := fillcksum_setlength hlen' (ip4length d)
    rw [hl, ip4mf_congr ((hsame 6 (by omega)).trans hbyte)]
    exact ⟨hlen', hmf⟩
  · cases hsend
    intro pkt hpkt
    have hfrag : ip4frag (ip4setttl d ttl) = IP_MF := by
      have hsame : ip4frag (ip4setttl d ttl) = ip4frag d :=
        nhgets_congr hbyte (getElem?_setttl (by decide))
      rw [hsame]
      exact ip4frag_of_mf hmf hoffset hreserved
        (by rwa [not_not, getD_congr hbyte] at hdf)
    obtain ⟨off, frag, n, r, rfl, hoff, hlt, hcases⟩ := mem_fragment4 hpkt
    obtain ⟨hpktlen, hpktfrag, -⟩ := fraghdr_append hlen' frag (n + IP4HDR)
      (ip4id (ip4setttl d ttl)) r
    have hlength : ip4length d < 65536 := nhgets_lt _
    rw [hfrag] at hoff hlt
    simp only [IP_MF, IP4HDR, Nat.shiftLeft_eq] at hoff hlt
    rw [ip4mf_ne_zero, hpktfrag]
    exact ⟨hpktlen, frag_and_mf (by omega) (by omega) (hcases.imp_left fun hc => hc.1)⟩

/-- The field of a datagram that may be cut. -/
theorem ip4frag_of_sent (hfrag : ip4frag d &&& (0xffff ^^^ IP_DF) = 0)
    (hdf : (d.getD 6 0).toNat &&& (IP_DF >>> 8) = 0) : ip4frag d = 0 := by
  have hbyte : ((d.drop 6).getD 1 0).toNat < 256 := UInt8.toNat_lt _
  have hfirst : (d.drop 6).getD 0 0 = d.getD 6 0 := by
    rw [List.getD_eq_getElem?_getD, List.getElem?_drop, List.getD_eq_getElem?_getD]
  have hflag : ip4frag d &&& IP_DF = 0 := by
    by_contra hne
    have hbit : ip4frag d / 2 ^ 14 % 2 = 1 := (and_two_pow_ne_zero _ 14).mp hne
    refine (and_two_pow_ne_zero _ 6).mpr ?_ hdf
    rw [ip4frag, nhgets, hfirst] at hbit
    omega
  have hall : ip4frag d &&& 0xffff = ip4frag d := by
    rw [show 0xffff = 2 ^ 16 - 1 from rfl, Nat.and_two_pow_sub_one_eq_mod]
    exact Nat.mod_eq_of_lt (nhgets_lt _)
  rw [← hall, show 0xffff = (0xffff ^^^ IP_DF) ||| IP_DF from rfl, Nat.and_or_distrib_left, hfrag,
    hflag]
  rfl

/-- A datagram that is passed on as it came. -/
theorem Sent.reemits (hsize : IP4HDR + o.payload.length < 65536) {fs : Fs} {id4 ttl ttl' tos : ℕ}
    {out : Bwrite} (hd : Sent o ttl' d) (httl : ttl < 256)
    (h : ipoput4 fs id4 d true ttl tos = some out) : Reemits o ttl out := by
  obtain ⟨ifc, gate, hshort, hsend⟩ := ipoput4_gating h
  have hbytes := hd.bytes
  have hlen : IP4HDR ≤ d.length := by omega
  have hlen' : IP4HDR ≤ (ip4setttl d ttl).length := by
    rw [ip4setttl, List.length_set]
    exact hlen
  rw [hd.length_eq] at hsend
  unfold Reemits
  unfold send4 at hsend
  simp only [if_true] at hsend
  split_ifs at hsend with hfit hdf hseg
  · cases hsend
    rw [if_pos hfit]
    obtain ⟨hl, hlength, hdrop, hsame⟩ := fillcksum_setlength hlen' (IP4HDR + o.payload.length)
    have hget (j : ℕ) (hj : j < 2 ∨ 4 ≤ j ∧ j < 8 ∨ j = 9 ∨ 12 ≤ j) :
        (fillcksum (ip4setlength (ip4setttl d ttl) (IP4HDR + o.payload.length)))[j]? = d[j]? :=
      (hsame j (by omega)).trans (getElem?_setttl (by omega))
    refine ⟨_, rfl, hd.header.congr fun j _ hj => hget j (by omega), ?_, ?_, ?_, ?_, ?_⟩
    · rw [ip4ttl, getD_congr (hsame 8 (by omega))]
      exact ip4ttl_setttl hlen httl
    · rw [hlength, Nat.mod_eq_of_lt hsize]
    · rw [ip4frag, nhgets_congr (hget 6 (by omega)) (hget 7 (by omega))]
      exact hd.frag
    · rw [hl, ip4setttl, List.length_set]
      exact hbytes
    · rw [hdrop, ip4setttl, List.drop_set_of_lt (by decide)]
      exact hd.payload
  · cases hsend
    rw [if_neg hfit]
    -- the field of the packet is zero
    have hfrag : ip4frag d = 0 := by
      have hbyte : (ip4setttl d ttl)[6]? = d[6]? := getElem?_setttl (by decide)
      rw [not_not, getD_congr hbyte] at hdf
      exact ip4frag_of_sent hd.frag hdf
    have hwhole : Part o d 0 o.payload.length := by
      refine ⟨hd.header, by decide, .inr (Nat.zero_add _), (Nat.zero_add _).le, by omega,
        hd.length_eq, ?_, hbytes, ?_⟩
      · rw [hfrag, mf, if_neg (by omega)]
      · rw [hd.payload, slice_zero_left, List.take_length]
    have hsplit := split_ipoput4 hsize hwhole h
    rw [Nat.zero_add] at hsplit
    have hfrag' : ip4frag (ip4setttl d ttl) = 0 := (hwhole.setttl ttl).frag.trans
      (hwhole.frag.symm.trans hfrag)
    have hmem (pkt : List UInt8) (hpkt : pkt ∈ fragment4 (ip4setttl d ttl) (ip4id (ip4setttl d ttl))
        ((ifc.medialen - IP4HDR) / 8 * 8).toNat
        (IP4HDR + o.payload.length - IP4HDR + ip4frag (ip4setttl d ttl) <<< 3)
        (IP4HDR + o.payload.length - IP4HDR) (ip4frag (ip4setttl d ttl) <<< 3)
        ((ip4setttl d ttl).drop IP4HDR)) : ip4frag pkt ≠ 0 ∧ ip4ttl pkt = ttl := by
      obtain ⟨off, frag, n, r, rfl, hoff, hlt, hcases⟩ := mem_fragment4 hpkt
      obtain ⟨-, hpktfrag, hpktttl⟩ := fraghdr_append hlen' frag (n + IP4HDR)
        (ip4id (ip4setttl d ttl)) r
      refine ⟨?_, hpktttl.trans (ip4ttl_setttl hlen httl)⟩
      rw [hpktfrag]
      rw [hfrag', Nat.zero_shiftLeft] at hoff hlt
      simp only [IP4HDR] at hfit hseg hoff hlt hcases hsize
      obtain ⟨rfl, hlast⟩ | rfl := hcases
      · rw [Nat.shiftRight_eq_div_pow]
        rw [hfrag', Nat.zero_shiftLeft] at hlast
        omega
      · have hbit : (((off >>> 3) ||| IP_MF) % 2 ^ 16).testBit 13 = true := by
          rw [Nat.testBit_mod_two_pow, Nat.testBit_or, show IP_MF.testBit 13 = true by decide,
            Bool.or_true]
          rfl
        intro hzero
        rw [show 65536 = 2 ^ 16 from rfl] at hzero
        rw [hzero] at hbit
        cases hbit
    have hpos : 0 < o.payload.length := by
      simp only [IP4HDR] at hfit hseg
      omega
    refine ⟨fun pkt hpkt => ?_, fun hnil => ?_, fun ip₀ ip seen e h0 hrun he => ?_⟩
    · obtain ⟨a, n, hpart, -⟩ := hsplit.mem hpkt
      exact ⟨hpart.header, (hmem pkt hpkt).2⟩
    · rw [hnil] at hsplit
      generalize o.payload.length = len at hsplit hpos
      cases hsplit
      omega
    · exact come_of_run hsize hsplit (fun pkt hpkt => (hmem pkt hpkt).1) h0 hrun he

end

/-! ### Runs -/

/-- A packet that arrives: when, with the next value of the counter for packets, on which interface,
and whether this one has seen to the checksum. -/
structure Incoming where
  now : ℕ
  id4 : ℕ
  ifc : Ipifc
  ipck : Bool
  pkt : List UInt8

/-- What `ipiput4` does with a packet. -/
def IP.input (fs : Fs) (ip : IP) (e : Incoming) : IP × Input :=
  ipiput4 fs e.now e.id4 e.ifc e.ipck ip e.pkt

def Takes (fs : Fs) (ip : IP) (e : Incoming) (ip' : IP) : Prop := ip' = (ip.input fs e).1

/-- The blocks of a queue of the datagram are parts of it, and one at the offset zero has the
flag. -/
def Firsts (o : Datagram) (k : Key) (l : List Frag) : Prop :=
  k = o.key → Pieces o.payload l ∧ ∀ x ∈ l, x.foff = 0 →
    ip4mf x.data ≠ 0 ∧ ip4offset x.data = 0 ∧ ip4frag x.data < 0x8000

section

variable {o : Datagram} {fs : Fs} {ip : IP} {e : Incoming} {d : List UInt8} {out : Bwrite}

theorem ip4frag_markfrag : ip4frag (markfrag d) = ip4frag d :=
  nhgets_congr (List.getElem?_set_ne (by decide)) (List.getElem?_set_ne (by decide))

/-- A fragment at the offset zero that is not taken for a packet of its own has the flag. -/
theorem mf_of_not_whole {P : List UInt8} (h : Fragment P d) (hwhole : ¬ Whole d)
    (hoffset : ip4offset d = 0) : ip4mf d ≠ 0 := by
  intro hmf
  have htos := h.tos
  rw [if_pos hmf] at htos
  refine hwhole ⟨htos, ?_⟩
  have hbit : ¬ ip4frag d / 2 ^ 13 % 2 = 1 := fun hbit =>
    ip4mf_ne_zero.mpr ((and_two_pow_ne_zero _ 13).mpr hbit) hmf
  have hreserved := h.reserved
  rw [ip4offset, Nat.shiftLeft_eq] at hoffset
  obtain hzero | hdf : ip4frag d = 0 ∨ ip4frag d = 0x4000 := by omega
  · rw [hzero]
    rfl
  · rw [hdf]
    rfl

/-- The block of a fragment that is kept. -/
theorem first_mkFrag (hvalid : Valid o d) (hwhole : ¬ Whole (markfrag d))
    (hzero : (mkFrag (ip4frag (markfrag d)) (markfrag d)).foff = 0) :
    ip4mf (markfrag d) ≠ 0 ∧ ip4offset (markfrag d) = 0 ∧ ip4frag (markfrag d) < 0x8000 :=
  ⟨mf_of_not_whole hvalid.fragment hwhole hzero, hzero, hvalid.fragment.reserved⟩

/-- A fragment put in its place. -/
theorem Firsts.insert (hsize : IP4HDR + o.payload.length < 65536) (hvalid : Valid o d)
    (hwhole : ¬ Whole (markfrag d)) {k : Key} {l l' : List Frag} (hl : Firsts o k l)
    (hins : insertFrag (mkFrag (ip4frag (markfrag d)) (markfrag d)) l = some l') :
    Firsts o k l' := by
  intro hkey
  have hP : o.payload.length < 65536 := by omega
  obtain ⟨hpieces, hfirst⟩ := hl hkey
  refine ⟨pieces_insertFrag hP hpieces (piece_mkFrag hvalid.fragment) hins, fun y hy hzero => ?_⟩
  obtain rfl | ⟨x, hx, hfoff, hdata⟩ | ⟨x, hx, ovlap, hpos, hlt, rfl⟩ := mem_insertFrag hins hy
  · exact first_mkFrag hvalid hwhole hzero
  · rw [hdata]
    exact hfirst x hx (hfoff ▸ hzero)
  · obtain ⟨-, hmoved, -⟩ := (hpieces.piece x hx).moveup hP hpos hlt
    omega

theorem firsts_arrive (hsize : IP4HDR + o.payload.length < 65536) {now : ℕ} (hvalid : Valid o d)
    (h : ∀ f ∈ ip.flisthead4, Firsts o f.key f.blist) :
    ∀ f ∈ (ip.arrive ⟨now, markfrag d⟩).1.flisthead4, Firsts o f.key f.blist := by
  refine queues_arrive h (fun hwhole _ => ⟨?_, fun x hx hzero => ?_⟩)
    fun hwhole l l' hl hins => hl.insert hsize hvalid hwhole hins
  · exact ⟨by simpa using piece_mkFrag hvalid.fragment, List.pairwise_singleton ..⟩
  · obtain rfl := List.mem_singleton.mp hx
    exact first_mkFrag hvalid hwhole hzero

/-- What becomes of a packet does not change the queues. -/
theorem fst_handled {r : IP × Option (List (List UInt8))} {p : List (List UInt8) → Input}
    {ip ip' : IP} (hr : r.1 = ip ∨ r.1 = ip') :
    (match r.2 with
      | none => (r.1, Input.held)
      | some bp => (r.1, p bp)).1 = ip ∨
    (match r.2 with
      | none => (r.1, Input.held)
      | some bp => (r.1, p bp)).1 = ip' := by
  split <;> exact hr

/-- The queues after a packet without options. -/
theorem input_fst (ip : IP) (fs : Fs) (hvihl : ip4vihl e.pkt = IP_VER4 ||| IP_HLEN4) :
    (ip.input fs e).1 = ip ∨ (ip.input fs e).1 = (ip.arrive ⟨e.now, markfrag e.pkt⟩).1 := by
  have harrive : ip4reassemble e.now (ip4frag e.pkt) (markfrag e.pkt) ip =
      ip.arrive ⟨e.now, markfrag e.pkt⟩ := by
    rw [IP.arrive, ip4frag_markfrag]
  have hhl : (ip4vihl e.pkt &&& 0xf) <<< 2 = IP_HLEN4 <<< 2 := by
    rw [hvihl]
    rfl
  -- the queues change only where a fragment is handed to `ip4reassemble`
  have hifc (r : Route) : (if r.ifc.reassemble ≠ 0 ∧ ip4frag e.pkt ≠ 0 then
      ip.arrive ⟨e.now, markfrag e.pkt⟩ else (ip, some [e.pkt])).1 = ip ∨
      (if r.ifc.reassemble ≠ 0 ∧ ip4frag e.pkt ≠ 0 then
        ip.arrive ⟨e.now, markfrag e.pkt⟩ else (ip, some [e.pkt])).1 =
        (ip.arrive ⟨e.now, markfrag e.pkt⟩).1 := by
    split
    · exact .inr rfl
    · exact .inl rfl
  have hhere : (if ip4frag e.pkt ≠ 0 then
      ip.arrive ⟨e.now, markfrag e.pkt⟩ else (ip, some [e.pkt])).1 = ip ∨
      (if ip4frag e.pkt ≠ 0 then
        ip.arrive ⟨e.now, markfrag e.pkt⟩ else (ip, some [e.pkt])).1 =
        (ip.arrive ⟨e.now, markfrag e.pkt⟩).1 := by
    split
    · exact .inr rfl
    · exact .inl rfl
  unfold IP.input ipiput4
  simp only [harrive, hhl, if_true, lt_irrefl, if_false]
  by_cases hlen : e.pkt.length < IP4HDR
  · rw [if_pos hlen]
    exact .inl rfl
  rw [if_neg hlen]
  by_cases hsum : ¬ e.ipck = true ∧ ipcsum e.pkt ≠ 0
  · rw [if_pos hsum]
    exact .inl rfl
  rw [if_neg hsum]
  by_cases hforme : ¬ fs.ipforme ((e.pkt.drop 16).take 4) = true
  · rw [if_pos hforme]
    by_cases hrouting : ¬ fs.iprouting = true
    · rw [if_pos hrouting]
      exact .inl rfl
    rw [if_neg hrouting]
    rcases fs.v4lookup ((e.pkt.drop 16).take 4) with _ | r
    · exact .inl rfl
    dsimp only
    by_cases hsame : r.ifc.addr = e.ifc.addr
    · rw [if_pos hsame]
      exact .inl rfl
    rw [if_neg hsame]
    by_cases httl : ip4ttl e.pkt < 1
    · rw [if_pos httl]
      exact .inl rfl
    rw [if_neg httl]
    exact fst_handled (hifc r)
  · rw [if_neg hforme]
    exact fst_handled hhere

/-- What `ipiput4` passes on. -/
theorem input_forwarded (h : (ip.input fs e).2 = .forwarded (some out)) :
    IP4HDR ≤ e.pkt.length ∧ ∃ r bp, fs.v4lookup ((e.pkt.drop 16).take 4) = some r ∧
      (if r.ifc.reassemble ≠ 0 ∧ ip4frag e.pkt ≠ 0 then
        (ip.arrive ⟨e.now, markfrag e.pkt⟩).2 = some bp else bp = [e.pkt]) ∧
      ipoput4 fs e.id4 bp.flatten true (ip4ttl bp.flatten - 1) (ip4tos bp.flatten) = some out := by
  have harrive : ip4reassemble e.now (ip4frag e.pkt) (markfrag e.pkt) ip =
      ip.arrive ⟨e.now, markfrag e.pkt⟩ := by
    rw [IP.arrive, ip4frag_markfrag]
  unfold IP.input ipiput4 at h
  simp only [harrive] at h
  by_cases hlen : e.pkt.length < IP4HDR
  · rw [if_pos hlen] at h
    cases h
  rw [if_neg hlen] at h
  refine ⟨not_lt.mp hlen, ?_⟩
  by_cases hsum : ¬ e.ipck = true ∧ ipcsum e.pkt ≠ 0
  · rw [if_pos hsum] at h
    cases h
  rw [if_neg hsum] at h
  split at h
  · cases h
  by_cases hforme : ¬ fs.ipforme ((e.pkt.drop 16).take 4) = true
  · rw [if_pos hforme] at h
    by_cases hrouting : ¬ fs.iprouting = true
    · rw [if_pos hrouting] at h
      cases h
    rw [if_neg hrouting] at h
    rcases hlookup : fs.v4lookup ((e.pkt.drop 16).take 4) with _ | r
    · rw [hlookup] at h
      cases h
    rw [hlookup] at h
    dsimp only at h
    by_cases hsame : r.ifc.addr = e.ifc.addr
    · rw [if_pos hsame] at h
      cases h
    rw [if_neg hsame] at h
    by_cases httl : ip4ttl e.pkt < 1
    · rw [if_pos httl] at h
      cases h
    rw [if_neg httl] at h
    refine ⟨r, ?_⟩
    by_cases hre : r.ifc.reassemble ≠ 0 ∧ ip4frag e.pkt ≠ 0
    · simp only [if_pos hre] at h ⊢
      rcases hc : (ip.arrive ⟨e.now, markfrag e.pkt⟩).2 with _ | bp
      · rw [hc] at h
        cases h
      · rw [hc] at h
        exact ⟨bp, trivial, rfl, Input.forwarded.inj h⟩
    · simp only [if_neg hre] at h ⊢
      exact ⟨[e.pkt], trivial, rfl, Input.forwarded.inj h⟩
  · rw [if_neg hforme] at h
    split at h <;> cases h

/-- The header of a packet that was put together is the one of its first block. -/
theorem getElem?_pullup {P : List UInt8} {x : Frag} {l : List Frag} (h : Piece P x)
    (hzero : x.foff = 0) : IP4HDR ≤ (pullup (x :: l)).flatten.length ∧
      ∀ j, 4 ≤ j → j < 20 → (pullup (x :: l)).flatten[j]? = x.data[j]? := by
  obtain ⟨m, hlen, -, -, hbytes, -⟩ := h.first hzero
  have htake : (x.data.take (ip4length x.data)).length = IP4HDR + m := by
    rw [List.length_take, hlen, Nat.min_eq_left hbytes]
  have hset (len : ℕ) : ip4setlength (x.data.take (ip4length x.data)) len =
      putshort (x.data.take (ip4length x.data)) 2 len := rfl
  have hlenset (len : ℕ) :
      (putshort (x.data.take (ip4length x.data)) 2 len).length = IP4HDR + m := by
    rw [length_putshort (by rw [htake]; simp only [IP4HDR]; omega), htake]
  simp only [IP4HDR] at htake hlenset hlen ⊢
  unfold pullup
  rw [List.flatten_cons, hset]
  refine ⟨?_, fun j hj hj' => ?_⟩
  · rw [List.length_append, hlenset]
    omega
  · rw [List.getElem?_append_left (by rw [hlenset]; omega), getElem?_putshort (by omega) (by omega),
      List.getElem?_take_of_lt (by omega)]

theorem getElem?_mark {j : ℕ} (hj : j ≠ 1) : (markfrag d)[j]? = d[j]? :=
  List.getElem?_set_ne hj.symm

/-- A packet that arrives as the whole datagram. -/
theorem Valid.whole (hvalid : Valid o d) (hmf : ip4mf d = 0) (hoffset : ip4offset d = 0) :
    ip4length d = IP4HDR + o.payload.length ∧ IP4HDR + o.payload.length ≤ d.length ∧
      (d.drop IP4HDR).take o.payload.length = o.payload := by
  have hfragment := hvalid.fragment
  have hfrag : ip4frag (markfrag d) = ip4frag d := ip4frag_markfrag
  have hoffset' : ip4offset (markfrag d) = 0 := by
    rw [ip4offset, hfrag]
    exact hoffset
  have hmf' : ip4mf (markfrag d) = 0 := by
    rw [ip4mf_congr (getElem?_mark (by decide))]
    exact hmf
  have hlength : ip4length (markfrag d) = ip4length d :=
    nhgets_congr (getElem?_mark (by decide)) (getElem?_mark (by decide))
  have hend := hfragment.more.mp hmf'
  have hge := hfragment.length_ge
  have hbytes := hfragment.bytes
  have hpayload := hfragment.payload
  rw [hoffset', hlength, Nat.zero_add] at hend
  rw [hlength] at hge hbytes
  rw [markfrag, ip4settos, List.length_set] at hbytes
  rw [hoffset', hlength, hend, slice_zero_left, List.take_length, markfrag, ip4settos,
    List.drop_set_of_lt (by decide)] at hpayload
  exact ⟨by omega, by omega, hpayload⟩

/-- A packet that forbids fragments and comes as the whole datagram is marked as one without a type
of service. -/
theorem Valid.sent_markfrag (hvalid : Valid o d) (hlen : IP4HDR ≤ d.length)
    (hfrag : ip4frag d = IP_DF) :
    Sent { o with tos := 0 } (ip4ttl d) (markfrag d) := by
  have hmf : ip4mf d = 0 := by
    by_contra hne
    rw [← ne_eq, ip4mf_ne_zero, hfrag] at hne
    exact hne rfl
  have hoffset : ip4offset d = 0 := by
    rw [ip4offset, hfrag]
    rfl
  obtain ⟨hlength, hbytes, hpayload⟩ := hvalid.whole hmf hoffset
  have htos : ip4tos (markfrag d) = 0 := by
    have hself : (markfrag d)[1]? = some (uchar 0) := by
      rw [markfrag, hfrag, ip4settos, if_neg (by decide),
        List.getElem?_set_self (by simp only [IP4HDR] at hlen; omega)]
    rw [ip4tos, List.getD_eq_getElem?_getD, hself]
    rfl
  refine ⟨⟨?_, htos, ?_, ?_, ?_, ?_⟩, ?_, ?_, ?_, ?_, ?_⟩
  · rw [ip4vihl, getD_congr (getElem?_mark (by decide))]
    exact hvalid.header.vihl
  · rw [ip4id, nhgets_congr (getElem?_mark (by decide)) (getElem?_mark (by decide))]
    exact hvalid.header.id
  · rw [ip4proto, getD_congr (getElem?_mark (by decide))]
    exact hvalid.header.proto
  · rw [ip4src, nhgetl_congr fun k hk => getElem?_mark (by omega)]
    exact hvalid.header.src
  · rw [ip4dst, nhgetl_congr fun k hk => getElem?_mark (by omega)]
    exact hvalid.header.dst
  · rw [ip4ttl, getD_congr (getElem?_mark (by decide)), ip4ttl]
  · rw [ip4length, nhgets_congr (getElem?_mark (by decide)) (getElem?_mark (by decide))]
    exact hlength
  · rw [ip4frag_markfrag, hfrag]
    rfl
  · rw [markfrag, ip4settos, List.length_set]
    exact hbytes
  · rw [markfrag, ip4settos, List.drop_set_of_lt (by decide)]
    exact hpayload

/-- A packet that is taken for one of its own has no flag and no offset. -/
theorem Valid.frag_of_whole (hvalid : Valid o d) (hwhole : Whole (markfrag d)) :
    ip4frag d = 0 ∨ ip4frag d = IP_DF := by
  have hfragment := hvalid.fragment
  obtain ⟨hoffset, -, -⟩ := whole_of_tos hfragment hwhole
  have hmf : ip4mf (markfrag d) = 0 := by
    by_contra hne
    have htos := hfragment.tos
    rw [if_neg hne, hwhole.1] at htos
    cases htos
  have hbit : ¬ ip4frag d / 2 ^ 13 % 2 = 1 := fun hbit => by
    rw [← and_two_pow_ne_zero, ← ip4frag_markfrag] at hbit
    exact ip4mf_ne_zero.mpr hbit hmf
  have hreserved := hfragment.reserved
  rw [ip4frag_markfrag] at hreserved
  rw [ip4offset, Nat.shiftLeft_eq, ip4frag_markfrag] at hoffset
  simp only [IP_DF]
  omega

theorem Valid.whole_of_df (hvalid : Valid o d) (hdf : ip4frag d = IP_DF) : Whole (markfrag d) := by
  by_contra hwhole
  have hoffset : ip4offset (markfrag d) = 0 := by
    rw [ip4offset, ip4frag_markfrag, hdf]
    rfl
  have hmf := mf_of_not_whole hvalid.fragment hwhole hoffset
  rw [ip4mf_ne_zero, ip4frag_markfrag, hdf] at hmf
  exact hmf rfl

theorem Valid.keyOf_eq (hvalid : Valid o d) : keyOf (markfrag d) = o.key := by
  have hsrc : ip4src (markfrag d) = ip4src d := nhgetl_congr fun k hk => getElem?_mark (by omega)
  have hdst : ip4dst (markfrag d) = ip4dst d := nhgetl_congr fun k hk => getElem?_mark (by omega)
  have hid : ip4id (markfrag d) = ip4id d :=
    nhgets_congr (getElem?_mark (by decide)) (getElem?_mark (by decide))
  rw [keyOf, hsrc, hdst, hid, hvalid.header.src, hvalid.header.dst, hvalid.header.id]
  rfl

/-- What is sent has one type of service. -/
theorem Reemits.tos_eq {o' : Datagram} {ttl ttl' : ℕ} (h : Reemits o ttl out)
    (h' : Reemits o' ttl' out) (hpayload : o'.payload = o.payload) : o.tos = o'.tos := by
  unfold Reemits at h h'
  rw [hpayload] at h'
  split_ifs at h
  · rw [if_pos ‹_›] at h'
    obtain ⟨d, hd, hsent⟩ := h
    obtain ⟨d', hd', hsent'⟩ := h'
    obtain rfl : d = d' := by
      rw [hd] at hd'
      exact List.head_eq_of_cons_eq hd'
    exact hsent.header.tos.symm.trans hsent'.header.tos
  · rw [if_neg ‹_›] at h'
    obtain ⟨d, hd⟩ := List.exists_mem_of_ne_nil _ h.2.1
    exact (h.1 d hd).1.tos.symm.trans (h'.1 d hd).1.tos

/-- Packets that all have the flag are not the datagram. -/
theorem not_reemits {ttl : ℕ} (h : ∀ pkt ∈ out.pkts, IP4HDR ≤ pkt.length ∧ ip4mf pkt ≠ 0) :
    ¬ Reemits o ttl out := by
  unfold Reemits
  split_ifs
  · rintro ⟨d, hd, hsent⟩
    have hmf := (h d (by rw [hd]; exact List.mem_cons_self)).2
    rw [ip4mf_ne_zero] at hmf
    refine hmf ?_
    have hand := congrArg (· &&& IP_MF) hsent.frag
    simpa [Nat.and_assoc, IP_DF, IP_MF] using hand
  · exact fun hall => not_reunites h hall.2

/-- In every run of fragments of a datagram at a gateway that puts fragments together, a packet that
is passed on is the datagram if and only if it came as the whole datagram with a field for fragments
that is zero, or that only forbids them while the type of service is zero. -/
theorem forward_reemits_iff (hsize : o.payload.length ≤ 65515) {ip₀ : IP}
    (h0 : ∀ f ∈ ip₀.flisthead4, f.key ≠ o.key)
    (hrun : Run (Takes fs) (fun _ e => Valid o e.pkt) ip₀ ip) (hvalid : Valid o e.pkt)
    (hreassemble : ∀ r, fs.v4lookup ((e.pkt.drop 16).take 4) = some r → r.ifc.reassemble ≠ 0)
    (h : (ip.input fs e).2 = .forwarded (some out)) :
    Reemits o (ip4ttl e.pkt - 1) out ↔
      ip4frag e.pkt = 0 ∨ ip4frag e.pkt = IP_DF ∧ o.tos = 0 := by
  have hsize' : IP4HDR + o.payload.length < 65536 := by
    simp only [IP4HDR]
    omega
  have hstart : ∀ f ∈ ip₀.flisthead4, Firsts o f.key f.blist := fun f hf hkey =>
    (h0 f hf hkey).elim
  have hstep (s : IP) (e : Incoming) (s' : IP) (hs : ∀ f ∈ s.flisthead4, Firsts o f.key f.blist)
      (hvalid : Valid o e.pkt) (hstep : Takes fs s e s') :
      ∀ f ∈ s'.flisthead4, Firsts o f.key f.blist := by
    rw [hstep]
    obtain hsame | hnew := input_fst s fs hvalid.header.vihl
    · rw [hsame]
      exact hs
    · rw [hnew]
      exact firsts_arrive hsize' hvalid hs
  have hinv := @Run.invariant _ _ _ _ _ _ (fun s => ∀ f ∈ s.flisthead4, Firsts o f.key f.blist)
    hstart hstep hrun
  obtain ⟨hlen, r, bp, hroute, hbp, hout⟩ := input_forwarded h
  have hre := hreassemble r hroute
  have httl : ip4ttl e.pkt - 1 < 256 := by
    have : ip4ttl e.pkt < 256 := UInt8.toNat_lt _
    omega
  by_cases hfrag : ip4frag e.pkt = 0
  · -- the datagram comes whole
    rw [if_neg (by simp [hfrag])] at hbp
    rw [hbp, List.flatten_singleton] at hout
    refine iff_of_true ?_ (.inl hfrag)
    have hmf : ip4mf e.pkt = 0 := by
      by_contra hne
      rw [← ne_eq, ip4mf_ne_zero, hfrag] at hne
      exact hne rfl
    obtain ⟨hlength, hbytes, hpayload⟩ := hvalid.whole hmf (by rw [ip4offset, hfrag]; rfl)
    have hsent : Sent o (ip4ttl e.pkt) e.pkt :=
      ⟨hvalid.header, rfl, hlength, by rw [hfrag]; rfl, hbytes, hpayload⟩
    exact hsent.reemits hsize' httl hout
  rw [if_pos ⟨hre, hfrag⟩] at hbp
  obtain ⟨hwhole, rfl⟩ | ⟨f, hfound, hf, hwhole, l, hins, hcomp, rfl⟩ := arrive_some hbp
  · -- it comes whole, but goes through `ip4reassemble`
    have hdf : ip4frag e.pkt = IP_DF :=
      (hvalid.frag_of_whole hwhole).resolve_left hfrag
    have hsent := hvalid.sent_markfrag hlen hdf
    rw [List.flatten_singleton] at hout
    have httl' : ip4ttl (markfrag e.pkt) = ip4ttl e.pkt := hsent.ttl
    rw [httl'] at hout
    have hreemits : Reemits { o with tos := 0 } (ip4ttl e.pkt - 1) out :=
      Sent.reemits (o := { o with tos := 0 }) hsize' hsent httl hout
    refine ⟨fun hre => .inr ⟨hdf, hre.tos_eq hreemits rfl⟩, ?_⟩
    rintro (hzero | ⟨-, htos⟩)
    · exact (hfrag hzero).elim
    · rwa [show o = { o with tos := 0 } by rw [← htos]]
  · -- it was put together
    have hkey : f.key = o.key := (key_of_find hfound).trans hvalid.keyOf_eq
    obtain ⟨hpieces, hfirst⟩ := (hinv f hf).insert hsize' hvalid hwhole hins hkey
    cases l with
    | nil => cases hcomp
    | cons x l =>
      have hzero : x.foff = 0 := by
        by_contra hne
        simp [complete, hne] at hcomp
      obtain ⟨hmf, hoffset, hreserved⟩ := hfirst x List.mem_cons_self hzero
      obtain ⟨hlen', hget⟩ := getElem?_pullup (l := l) (hpieces.piece x List.mem_cons_self) hzero
      have hfield : ip4frag (pullup (x :: l)).flatten = ip4frag x.data :=
        nhgets_congr (hget 6 (by decide) (by decide)) (hget 7 (by decide) (by decide))
      have hall := mf_of_ipoput4 hlen'
        (by rwa [ip4mf_congr (hget 6 (by decide) (by decide))])
        (by rwa [ip4offset, hfield]) (by rwa [hfield]) hout
      refine iff_of_false (not_reemits hall) ?_
      rintro (hnone | ⟨hdf, -⟩)
      · exact hfrag hnone
      · exact hwhole (hvalid.whole_of_df hdf)

end

/-! ### Two fragments at a gateway -/

/-- A gateway whose outgoing interface asks for datagrams put together. -/
def joining : Fs where
  ipforme := fun _ => false
  iprouting := true
  v4lookup := fun _ => some ⟨⟨⟨1500, 14, 1, true, false⟩, 1⟩, [], true, false, true⟩

/-- A packet on its other interface. -/
def onOther (pkt : List UInt8) : Incoming :=
  ⟨0, 0, ⟨⟨1500, 14, 0, true, false⟩, 2⟩, true, pkt⟩

theorem valid_fives : Valid fivesDatagram fives ∧ Valid fivesDatagram fivesFirst ∧
    Valid fivesDatagram fivesLast := by
  refine ⟨⟨⟨?_, ?_, ?_, ?_, ?_, ?_⟩, ?_⟩, ⟨⟨?_, ?_, ?_, ?_, ?_, ?_⟩, ?_⟩,
    ⟨⟨?_, ?_, ?_, ?_, ?_, ?_⟩, ?_⟩⟩
  all_goals first
  | decide
  | constructor <;> decide

/-- After a fragment the whole datagram comes, and is passed on. -/
theorem forward_reemits_fives : ∃ ip out,
    (IP.input joining ip (onOther fives)).2 = .forwarded (some out) ∧
      Reemits fivesDatagram 63 out := by
  have hrun : Run (Takes joining) (fun _ e => Valid fivesDatagram e.pkt) (initfrag 1)
      ((initfrag 1).input joining (onOther fivesLast)).1 :=
    Run.nil.snoc (e := onOther fivesLast) valid_fives.2.2 rfl
  let pkt : List UInt8 := [69, 8, 0, 36, 0, 7, 0, 0, 63, 17, 0, 0, 0, 0, 0, 1, 0, 0, 0, 2] ++
    List.replicate 16 5
  let out : Bwrite := ⟨⟨1500, 14, 1, true, false⟩, [0, 0, 0, 2], [fillcksum pkt]⟩
  have hout : (((initfrag 1).input joining (onOther fivesLast)).1.input joining
      (onOther fives)).2 = .forwarded (some out) := by decide +kernel
  exact ⟨_, out, hout, (forward_reemits_iff (by decide)
    (fun _ hf => (List.not_mem_nil hf).elim) hrun
    valid_fives.1 (fun r hr => by cases hr; decide) hout).mpr (.inl (by decide))⟩

set_option maxRecDepth 4000 in
/-- The two fragments of a datagram come, and what is passed on has the flag of the first one, and
the mark for its type of service. -/
theorem not_reemits_fives : ∃ out,
    (((initfrag 1).input joining (onOther fivesFirst)).1.input joining (onOther fivesLast)).2 =
        .forwarded (some out) ∧
      Valid fivesDatagram fivesFirst ∧ Valid fivesDatagram fivesLast ∧
      ¬ Reemits fivesDatagram 62 out := by
  let pkt : List UInt8 := [69, 1, 0, 36, 0, 7, 32, 0, 62, 17, 92, 191, 0, 0, 0, 1, 0, 0, 0, 2] ++
    List.replicate 16 5
  refine ⟨⟨⟨1500, 14, 1, true, false⟩, [0, 0, 0, 2], [pkt]⟩, by decide +kernel, valid_fives.2.1,
    valid_fives.2.2, not_reemits fun p hp => ?_⟩
  rw [List.mem_singleton.mp hp]
  exact ⟨by decide, by decide⟩

end PlanNine.Ip
