import PlanNine.Ip.Ip6

/-!
# Forwarding of packets of version 6

A gateway that does not reassemble passes a packet on with a smaller hop limit. The walk over the
extension headers stores to the field that announces a fragment header, and the length that output
stores is not always the one that the packet came with.

## Main definitions

* `Plain`: the walk changes no byte of the packet.

## Main results

* `ipoput6_gated`: what output sends of a packet that fits.
* `forward_frame_iff`: a packet is passed on as it came if and only if it is plain and as long as it
  says.
* `not_forward_frame`: a packet with a fragment header.
-/

namespace PlanNine.Ip6

section

variable {d : List UInt8} {bp : Blk} {next : List (List UInt8)} {fs : Fs} {lid : ℕ}

/-- The chain of headers does not lead to a fragment header, unless this announces another fragment
header or lies behind the packet. -/
def Plain (bp : Blk) : Prop :=
  ∀ ufl q, unfragWalk bp.mem bp.mem.length IP6HDR 6 (proto bp.mem) = some (ufl, q, FH) →
    q < bp.data.length → bp.mem[ufl]? = some FH

/-! ### Stores to the header -/

theorem set_of_getElem? {q : ℕ} {v : UInt8} (h : d[q]? = some v) : d.set q v = d := by
  obtain ⟨hlt, rfl⟩ := List.getElem?_eq_some_iff.mp h
  exact List.set_getElem_self hlt

theorem ploadlen_eq (d : List UInt8) :
    ploadlen d = (d[4]?.getD 0).toNat * 256 + (d[5]?.getD 0).toNat := by
  simp only [ploadlen, nhgets, List.getD_eq_getElem?_getD, List.getElem?_drop]

theorem hop_eq (d : List UInt8) : hop d = (d[7]?.getD 0).toNat := by
  rw [hop, List.getD_eq_getElem?_getD]

theorem ploadlen_set {q : ℕ} {v : UInt8} (h4 : q ≠ 4) (h5 : q ≠ 5) :
    ploadlen (d.set q v) = ploadlen d := by
  rw [ploadlen_eq, ploadlen_eq, List.getElem?_set_ne h4, List.getElem?_set_ne h5]

theorem ploadlen_append {l : List UInt8} (h : 6 ≤ d.length) :
    ploadlen (d ++ l) = ploadlen d := by
  rw [ploadlen_eq, ploadlen_eq, List.getElem?_append_left (by omega),
    List.getElem?_append_left (by omega)]

theorem hop_append {l : List UInt8} (h : 8 ≤ d.length) : hop (d ++ l) = hop d := by
  rw [hop_eq, hop_eq, List.getElem?_append_left (by omega)]

theorem ploadlen_setploadlen {len : ℕ} (h : 6 ≤ d.length) :
    ploadlen (setploadlen d len) = len % 65536 := by
  have h4 : (setploadlen d len)[4]? = some (uchar (len >>> 8)) := by
    rw [setploadlen, List.getElem?_set_ne (by decide), List.getElem?_set_self (by omega)]
  have h5 : (setploadlen d len)[5]? = some (uchar len) := by
    rw [setploadlen, List.getElem?_set_self (by rw [List.length_set]; omega)]
  rw [ploadlen_eq, h4, h5, Option.getD_some, Option.getD_some, toNat_uchar, toNat_uchar,
    Nat.shiftRight_eq_div_pow]
  omega

/-- The length stored over itself. -/
theorem setploadlen_self {len : ℕ} (h : 6 ≤ d.length) (hlen : len = ploadlen d) :
    setploadlen d len = d := by
  have h4 : d[4]? = some d[4] := List.getElem?_eq_getElem (by omega)
  have h5 : d[5]? = some d[5] := List.getElem?_eq_getElem (by omega)
  have hbyte := d[5].toNat_lt
  have hbyte' := d[4].toNat_lt
  rw [ploadlen_eq, h4, h5, Option.getD_some, Option.getD_some] at hlen
  have hhigh : uchar (len >>> 8) = d[4] := by
    rw [Nat.shiftRight_eq_div_pow, show len / 2 ^ 8 = d[4].toNat by omega, uchar_toNat]
  have hlow : uchar len = d[5] := by
    refine UInt8.toNat_inj.mp ?_
    rw [toNat_uchar]
    omega
  rw [setploadlen, hhigh, hlow, List.set_getElem_self, List.set_getElem_self]

/-- A header with a field stored, a hop limit and a length is one with the hop limit only if and
only if the field and the length were there before. -/
theorem stores_eq_iff {q ttl len : ℕ} {v : UInt8} (h : 8 ≤ d.length) (hq : q = 6 ∨ IP6HDR ≤ q)
    (hlen : len < 65536) :
    setploadlen (setttl (d.set q v) ttl) len = setttl d ttl ↔
      d.set q v = d ∧ len = ploadlen d := by
  simp only [IP6HDR] at hq
  have hpload (d : List UInt8) : ploadlen (setttl d ttl) = ploadlen d :=
    ploadlen_set (by decide) (by decide)
  refine ⟨fun heq => ⟨?_, ?_⟩, fun ⟨hset, hlen⟩ => ?_⟩
  · refine List.ext_getElem? fun i => ?_
    by_cases hi : q = i
    · subst hi
      have h4 : 4 ≠ q := by omega
      have h5 : 5 ≠ q := by omega
      have h7 : 7 ≠ q := by omega
      have hget := congrArg (fun l => l[q]?) heq
      simp only [setploadlen, setttl] at hget
      rwa [List.getElem?_set_ne h5, List.getElem?_set_ne h4, List.getElem?_set_ne h7,
        List.getElem?_set_ne h7] at hget
    · exact List.getElem?_set_ne hi
  · have hload := congrArg ploadlen heq
    rw [ploadlen_setploadlen (by simp only [setttl, List.length_set]; omega), hpload] at hload
    omega
  · rw [hset]
    exact setploadlen_self (by simp only [setttl, List.length_set]; omega)
      (hlen.trans (hpload d).symm)

/-! ### The walk over the headers -/

/-- The last field is that of the first header or lies in an extension header, and it holds the
type that the walk ends with. -/
theorem unfragWalk_field {n p q ufl q' : ℕ} {nexthdr nexthdr' : UInt8} (hp : IP6HDR ≤ p)
    (hq : d[q]? = some nexthdr) (h : unfragWalk d n p q nexthdr = some (ufl, q', nexthdr')) :
    d[q']? = some nexthdr' ∧ (q' = q ∨ IP6HDR ≤ q') := by
  induction n generalizing p q nexthdr with
  | zero => cases h
  | succ n ih =>
    rw [unfragWalk] at h
    split at h
    · split at h
      · rename_i hnext hlen
        obtain ⟨hfield, hor⟩ := ih (hp.trans (Nat.le_add_right _ _)) hnext h
        refine ⟨hfield, .inr ?_⟩
        obtain rfl | hle := hor
        · exact hp
        · exact hle
      · cases h
    · cases h
      exact ⟨hq, .inl rfl⟩

/-- What `unfraglen` stores when it is not told to. -/
theorem unfraglen_false {ufl : ℕ} {nexthdr : UInt8} {mem : List UInt8}
    (h : unfraglen d false = some (ufl, nexthdr, mem)) :
    (∃ q v, unfragWalk d d.length IP6HDR 6 (proto d) = some (ufl, q, FH) ∧ d[ufl]? = some v ∧
      mem = d.set q v) ∨
    mem = d ∧ ∀ ufl q, unfragWalk d d.length IP6HDR 6 (proto d) ≠ some (ufl, q, FH) := by
  unfold unfraglen at h
  rcases hwalk : unfragWalk d d.length IP6HDR 6 (proto d) with _ | ⟨ufl', q, nexthdr'⟩
  · rw [hwalk] at h
    cases h
  rw [hwalk] at h
  dsimp only at h
  by_cases hFH : nexthdr' = FH
  · rw [if_pos hFH] at h
    rcases hv : d[ufl']? with _ | v
    · rw [hv] at h
      cases h
    rw [hv] at h
    cases h
    exact .inl ⟨q, v, by rw [hFH], hv, rfl⟩
  · rw [if_neg hFH] at h
    cases h
    refine .inr ⟨rfl, fun ufl q heq => hFH ?_⟩
    have := Option.some.inj heq
    exact (Prod.mk.inj (Prod.mk.inj this).2).2

/-! ### Output -/

theorem length_store {mem : List UInt8} (h : mem.length = bp.mem.length) :
    (bp.store mem).data.length = bp.data.length := by
  rw [Blk.store, List.length_take, h, Blk.mem, List.length_append]
  omega

theorem mem_store {mem : List UInt8} : (bp.store mem).mem = mem := List.take_append_drop _ _

theorem data_store_store {mem mem' : List UInt8} (h : mem.length = bp.mem.length) :
    ((bp.store mem).store mem').data = mem'.take bp.data.length := by
  rw [Blk.store, length_store h]

/-- A packet that fits goes out with the hop limit and the length that output stores. -/
theorem ipoput6_gated {ttl tos : ℕ} {out : Bwrite}
    (h : ipoput6 fs lid bp next true ttl tos = some out)
    (hfit : ((bp.data.length + next.flatten.length : ℕ) : ℤ) ≤ out.ifc.medialen) :
    sendlen bp.mem (bp.data.length + next.flatten.length) true < IP_MAX ∧
      out.pkts = [(setploadlen (setttl bp.mem ttl)
        (sendlen bp.mem (bp.data.length + next.flatten.length) true - IPV6HDR_LEN)).take
          bp.data.length ++ next.flatten] := by
  unfold ipoput6 at h
  dsimp only at h
  split at h
  · cases h
  split at h
  · cases h
  split at h
  · cases h
  rename_i hmax
  split at h
  · cases h
  split at h
  · cases h
  unfold send6 at h
  have hfill : fillhdr bp.mem true ttl tos = setttl bp.mem ttl := rfl
  have hlength : (setttl bp.mem ttl).length = bp.mem.length := List.length_set
  have hle : sendlen bp.mem (bp.data.length + next.flatten.length) true ≤
      bp.data.length + next.flatten.length := by
    unfold sendlen
    split
    · omega
    · exact le_rfl
  rw [hfill, mem_store, data_store_store hlength] at h
  split at h
  · cases h
    exact ⟨not_le.mp hmax, rfl⟩
  · rename_i hlen
    split at h
    · cases h
    split at h
    · cases h
    dsimp only at h
    split at h
    · cases h
    cases h
    dsimp only at hfit
    omega

/-! ### Forwarding -/

/-- A packet that is forwarded without reassembly goes through the walk over the headers and through
output. -/
theorem ipiput6_forwarded {now : ℕ} {ip : IP6} {behind : List UInt8} {bp' : Blk}
    {next' : List (List UInt8)} {out : Bwrite}
    (hpull : pullheader bp next behind = some (bp', next'))
    (hreassemble : ∀ r, fs.v6lookup (dst bp'.mem) = some r → r.ifc.reassemble = 0)
    (h : (ipiput6 fs now lid ip bp next behind).2 = .forwarded (some out)) :
    ∃ ufl nexthdr mem, unfraglen bp'.mem false = some (ufl, nexthdr, mem) ∧
      ipoput6 fs lid (bp'.store mem) next' true (hop mem - 1) (IPV6CLASS mem) = some out := by
  unfold ipiput6 at h
  rw [hpull] at h
  dsimp only at h
  split at h
  · cases h
  split at h
  · cases h
  split at h
  · split at h
    · cases h
    rename_i r hr
    split at h
    · cases h
    split at h
    · cases h
    have hplain : decide (r.ifc.reassemble ≠ 0) = false := by simp [hreassemble r hr]
    rw [hplain] at h
    unfold procxtns at h
    rcases hun : unfraglen bp'.mem false with _ | ⟨ufl, nexthdr, mem⟩
    · rw [hun] at h
      cases h
    · rw [hun] at h
      simp only [Bool.false_eq_true, and_false, if_false, mem_store] at h
      exact ⟨ufl, nexthdr, mem, rfl, Input.forwarded.inj h⟩
  · split at h <;> cases h

/-- The first block holds the header. -/
theorem pullheader_spec {behind : List UInt8} {bp' : Blk} {next' : List (List UInt8)}
    (hpull : pullheader bp next behind = some (bp', next')) :
    bp'.data ++ next'.flatten = bp.data ++ next.flatten ∧ IP6HDR ≤ bp'.data.length := by
  unfold pullheader at hpull
  dsimp only at hpull
  split at hpull
  · unfold pullupblock at hpull
    split at hpull
    · rename_i hle
      cases hpull
      refine ⟨rfl, ?_⟩
      simp only [IP6HDR] at hle ⊢
      omega
    split at hpull
    · cases hpull
    · rename_i hlen
      cases hpull
      refine ⟨by simp, ?_⟩
      rw [List.length_append, List.length_take]
      simp only [IP6HDR] at *
      omega
  · cases hpull
    exact ⟨rfl, by simp only [IP6HDR]; omega⟩

/-- A packet that a gateway forwards goes out as it came, with the hop limit one less, if and only
if no field was stored and it has the bytes that its header says. -/
theorem forward_frame_iff {now : ℕ} {ip : IP6} {behind : List UInt8} {bp' : Blk}
    {next' : List (List UInt8)} {out : Bwrite}
    (hpull : pullheader bp next behind = some (bp', next'))
    (hreassemble : ∀ r, fs.v6lookup (dst bp'.mem) = some r → r.ifc.reassemble = 0)
    (h : (ipiput6 fs now lid ip bp next behind).2 = .forwarded (some out))
    (hfit : ((bp.data ++ next.flatten).length : ℤ) ≤ out.ifc.medialen) :
    out.pkts = [setttl (bp.data ++ next.flatten) (hop (bp.data ++ next.flatten) - 1)] ↔
      Plain bp' ∧
        ploadlen (bp.data ++ next.flatten) + IPV6HDR_LEN ≤ (bp.data ++ next.flatten).length := by
  obtain ⟨ufl, nexthdr, mem, hun, hout⟩ := ipiput6_forwarded hpull hreassemble h
  obtain ⟨hbytes, hheader⟩ := pullheader_spec hpull
  rw [← hbytes] at hfit ⊢
  simp only [IP6HDR] at hheader
  have hmem : bp'.mem.take bp'.data.length = bp'.data := List.take_left
  have hfield : bp'.mem[6]? = some (proto bp'.mem) := by
    have hlt : 6 < bp'.mem.length := by
      rw [Blk.mem, List.length_append]
      omega
    rw [proto, List.getD_eq_getElem?_getD, List.getElem?_eq_getElem hlt, Option.getD_some]
  -- whatever was stored is a byte at a field `q` of the header
  obtain ⟨q, v, hq, hset, hplain⟩ : ∃ q v, (q = 6 ∨ IP6HDR ≤ q) ∧ mem = bp'.mem.set q v ∧
      (bp'.data.set q v = bp'.data ↔ Plain bp') := by
    obtain ⟨q, v, hwalk, hv, hset⟩ | ⟨hset, hnone⟩ := unfraglen_false hun
    · obtain ⟨hFH, hq⟩ := unfragWalk_field le_rfl hfield hwalk
      refine ⟨q, v, hq, hset, fun heq ufl' q' hwalk' hlt => ?_, fun hplain => ?_⟩
      · obtain ⟨rfl, hrest⟩ := Prod.mk.inj (Option.some.inj (hwalk.symm.trans hwalk'))
        obtain ⟨rfl, -⟩ := Prod.mk.inj hrest
        have hget := congrArg (fun l => l[q]?) heq
        simp only [List.getElem?_set_self hlt] at hget
        rw [Blk.mem, List.getElem?_append_left hlt] at hFH
        rw [hv, hget, hFH]
      · by_cases hlt : q < bp'.data.length
        · have hvFH : v = FH := Option.some.inj (hv.symm.trans (hplain ufl q hwalk hlt))
          rw [Blk.mem, List.getElem?_append_left hlt, List.getElem?_eq_getElem hlt] at hFH
          rw [hvFH, ← Option.some.inj hFH]
          exact List.set_getElem_self hlt
        · exact List.set_eq_of_length_le (not_lt.mp hlt)
    · refine ⟨6, proto bp'.mem, .inl rfl, ?_, iff_of_true ?_ fun ufl' q' hwalk' =>
        absurd hwalk' (hnone ufl' q')⟩
      · rw [hset]
        exact (set_of_getElem? hfield).symm
      · refine set_of_getElem? ?_
        rw [← hfield, Blk.mem, List.getElem?_append_left (by omega)]
  have hlength : mem.length = bp'.mem.length := by rw [hset, List.length_set]
  obtain ⟨hmax, hpkts⟩ := ipoput6_gated hout (by
    rw [length_store hlength, ← List.length_append]
    exact hfit)
  rw [mem_store, length_store hlength] at hpkts hmax
  have htake (ttl len : ℕ) : (setploadlen (setttl mem ttl) len).take bp'.data.length =
      setploadlen (setttl (bp'.data.set q v) ttl) len := by
    simp only [setploadlen, setttl, hset, List.take_set, hmem]
  have hne : q ≠ 4 ∧ q ≠ 5 ∧ q ≠ 7 := by
    simp only [IP6HDR] at hq
    omega
  have hhop : hop mem = hop (bp'.data ++ next'.flatten) := by
    rw [hop_append (by omega), hop_eq, hop_eq, hset, List.getElem?_set_ne hne.2.2, Blk.mem,
      List.getElem?_append_left (by omega)]
  have hload : ploadlen mem = ploadlen bp'.data := by
    rw [hset, ploadlen_set hne.1 hne.2.1, Blk.mem, ploadlen_append (by omega)]
  have httl (ttl : ℕ) : setttl (bp'.data ++ next'.flatten) ttl =
      setttl bp'.data ttl ++ next'.flatten :=
    List.set_append_left _ _ (by omega)
  rw [hpkts, htake, hhop, httl, List.singleton_inj, List.append_cancel_right_eq,
    ploadlen_append (by omega), stores_eq_iff (by omega) hq (by simp only [IP_MAX] at hmax; omega),
    hplain]
  refine and_congr_right fun _ => ?_
  rw [sendlen, hload, List.length_append]
  simp only [IPV6HDR_LEN, true_and]
  split <;> omega

end

/-! ### A fragment -/

/-- A gateway between two interfaces. -/
def gateway : Fs where
  ipforme _ := false
  iptentative _ := false
  iprouting := true
  v6lookup d := if d.getD 15 0 = 2 then
    some { addr := 0, ifc := { maxtu := 1500, hsize := 14 }, gate := [], toIfc := true
           toMany := false, uni := false } else none

/-- A packet of 64 bytes, in which the fields `proto` and the bytes behind the header are given. -/
def packet (proto : UInt8) (payload : List UInt8) : Blk where
  data := [0x60, 0, 0, 0] ++ hnputs 24 ++ [proto, 64] ++ List.replicate 15 0 ++ [1] ++
    List.replicate 15 0 ++ [2] ++ payload ++ List.replicate (24 - payload.length) 0

set_option maxRecDepth 4000 in
theorem forward_frame_udp : ∃ out,
    (ipiput6 gateway 0 1 { fragfree6 := 1 } (packet 17 []) [] []).2 = .forwarded (some out) ∧
      (out.pkts = [setttl ((packet 17 []).data ++ [].flatten) 63] ↔
        Plain (packet 17 []) ∧ ploadlen ((packet 17 []).data ++ [].flatten) + IPV6HDR_LEN ≤
          ((packet 17 []).data ++ [].flatten).length) := by
  have hout : ∃ out, (ipiput6 gateway 0 1 { fragfree6 := 1 } (packet 17 []) [] []).2 =
      .forwarded (some out) ∧ out.ifc.medialen = 1486 := ⟨_, rfl, rfl⟩
  obtain ⟨out, hout, hmedialen⟩ := hout
  refine ⟨out, hout, forward_frame_iff rfl (fun r hr => ?_) hout ?_⟩
  · cases hr
    rfl
  · rw [hmedialen]
    decide

set_option maxRecDepth 4000 in
/-- The fragment header of a fragment is no longer announced when the fragment goes out. -/
theorem not_forward_frame : ∃ out,
    (ipiput6 gateway 0 1 { fragfree6 := 1 } (packet 44 [17, 0, 0, 1, 0, 0, 0, 7]) [] []).2 =
        .forwarded (some out) ∧
      (∀ r, gateway.v6lookup (dst (packet 44 [17, 0, 0, 1, 0, 0, 0, 7]).mem) = some r →
        r.ifc.reassemble = 0) ∧
      out.pkts = [setttl (packet 17 [17, 0, 0, 1, 0, 0, 0, 7]).data 63] ∧
      out.pkts ≠ [setttl (packet 44 [17, 0, 0, 1, 0, 0, 0, 7]).data 63] :=
  ⟨_, rfl, fun r hr => by cases hr; rfl, by decide, by decide⟩

end PlanNine.Ip6
