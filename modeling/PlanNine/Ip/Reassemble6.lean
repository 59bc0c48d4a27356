import PlanNine.Ip.Forward6
import PlanNine.Lib.Run
import PlanNine.Lib.Segment
import PlanNine.Lib.Slice

/-!
# What reassembly makes of the fragments of a packet of version 6

A packet is cut into fragments behind its hop-by-hop and routing headers. The fragments arrive in
any order, repeated and overlapping. A queue holds segments of the packet; where a fragment covers
the beginning of a segment, the fragment header of the segment is lost, and where it covers the end
of the first one, this one is still taken as a whole. Without these two overlaps, and without a
packet that is one fragment, every packet handed up is the one that was cut.

## Main definitions

* `Chain`, `Original`: the headers in front of the fragmentable part, and packets to cut.
* `fragmentOf`, `IsRange`, `restored`: the fragments, and what the walk over their headers makes.
* `Piece6`, `Queue`: what the queue of the packet holds.
* `Cuts`, `Cut.Clean`: a fragment that cuts one of these two places, and one that does not.

## Main results

* `Original.unfraglen_fragmentOf`: the walk over the headers of a fragment.
* `Queue.insert`, `Queue.pullup6_eq`: one fragment, and the end of a packet.
* `Cut.arrive_spec`, `restored_of_run`: the packets handed up, and when they are.
* `Cut.arrive_whole`: a packet that is one fragment keeps its fragment header.
-/

namespace PlanNine.Ip6

/-! ### Packets and their fragments -/

/-- The headers of `d` up to `p` are the first one and hop-by-hop and routing headers; the field at
`q` announces a header of type `t` at `p`. -/
inductive Chain (d : List UInt8) : ℕ → ℕ → UInt8 → Prop
  | header {t : UInt8} (h : d[6]? = some t) : Chain d IP6HDR 6 t
  | extension {p q : ℕ} {t t' len : UInt8} (h : Chain d p q t) (ht : t = HBH ∨ t = RH)
      (hnext : d[p]? = some t') (hlen : d[p + 1]? = some len) :
      Chain d (p + (len.toNat + 1) * 8) p t'

/-- A packet whose unfragmentable part has the length `uflen`; the field at `q` announces the type
`nh` of the fragmentable part. -/
structure Original (d : List UInt8) (uflen q : ℕ) (nh : UInt8) : Prop where
  chain : Chain d uflen q nh
  stops : nh ≠ HBH ∧ nh ≠ RH
  within : uflen ≤ d.length
  length_eq : ploadlen d + IPV6HDR_LEN = d.length

/-- The flag of a fragment that is not the last one. -/
def moreflag (d : List UInt8) (uflen a n : ℕ) : ℕ := if uflen + a + n < d.length then 1 else 0

/-- The fragment header and the `n` bytes from the offset `a` on. -/
def fragpart (d : List UInt8) (uflen : ℕ) (nh : UInt8) (id a n : ℕ) : List UInt8 :=
  [nh, 0] ++ hnputs (a ||| moreflag d uflen a n) ++ hnputl id ++ slice d (uflen + a) n

/-- The fragment of the `n` bytes from the offset `a` on. -/
def fragmentOf (d : List UInt8) (uflen q : ℕ) (nh : UInt8) (id a n : ℕ) : List UInt8 :=
  setploadlen ((d.take uflen).set q FH) (uflen - IPV6HDR_LEN + IP6FHDR + n) ++
    fragpart d uflen nh id a n

/-- The range is one of a valid fragment: it is cut at multiples of eight, and the length of the
fragment fits in its field. -/
structure IsRange (d : List UInt8) (uflen a n : ℕ) : Prop where
  begins : 8 ∣ a
  within : uflen + a + n ≤ d.length
  ends : 8 ∣ n ∨ uflen + a + n = d.length
  fits : uflen - IPV6HDR_LEN + IP6FHDR + n < 65536

section

variable {d f : List UInt8} {uflen p q id a n : ℕ} {t nh : UInt8}

theorem Chain.field (h : Chain d p q t) :
    d[q]? = some t ∧ q < p ∧ (q = 6 ∨ IP6HDR ≤ q) ∧ IP6HDR ≤ p := by
  induction h with
  | header h => exact ⟨h, by decide, .inl rfl, le_rfl⟩
  | extension h ht hnext hlen ih =>
    exact ⟨hnext, by omega, .inr ih.2.2.2, by omega⟩

/-- The chain of a packet with another length and another type in the last field. -/
theorem Chain.congr (h : Chain d p q t) {t' : UInt8} (hf : f[q]? = some t')
    (hsame : ∀ i < p, i ≠ 4 → i ≠ 5 → i ≠ q → f[i]? = d[i]?) : Chain f p q t' := by
  induction h generalizing t' with
  | header h => exact .header hf
  | @extension p q t t'' len h ht hnext hlen ih =>
    obtain ⟨hfield, hlt, hor, hle⟩ := h.field
    simp only [IP6HDR] at hor hle
    have hlen' : f[p + 1]? = some len :=
      (hsame _ (by omega) (by omega) (by omega) (by omega)).trans hlen
    have hfield' : f[q]? = some t :=
      (hsame q (by omega) (by omega) (by omega) (by omega)).trans hfield
    refine .extension (ih hfield' fun i hi h4 h5 hiq => ?_) ht hf hlen'
    exact hsame i (by omega) h4 h5 (by omega)

/-- The walk follows the chain. -/
theorem Chain.walk (h : Chain d p q t) : ∃ k, IP6HDR + k * 8 ≤ p ∧ k < d.length ∧
    ∀ n, unfragWalk d (n + k) IP6HDR 6 (proto d) = unfragWalk d n p q t := by
  induction h with
  | header h =>
    have hlt := (List.getElem?_eq_some_iff.mp h).1
    refine ⟨0, le_rfl, by omega, fun n => ?_⟩
    rw [proto, List.getD_eq_getElem?_getD, h, Option.getD_some]
    rfl
  | @extension p q t t' len h ht hnext hlen ih =>
    obtain ⟨k, hk, -, hwalk⟩ := ih
    have hlt := (List.getElem?_eq_some_iff.mp hlen).1
    refine ⟨k + 1, by omega, by omega, fun n => ?_⟩
    rw [Nat.add_comm k 1, ← Nat.add_assoc, hwalk, unfragWalk, if_pos ht, hnext, hlen]

/-- The walk ends at the end of the chain. -/
theorem Chain.unfragWalk_eq (h : Chain d p q t) (hstop : t ≠ HBH ∧ t ≠ RH) :
    unfragWalk d d.length IP6HDR 6 (proto d) = some (p, q, t) := by
  obtain ⟨k, -, hk, hwalk⟩ := h.walk
  obtain ⟨n, hn⟩ : ∃ n, d.length = n + 1 + k := ⟨d.length - 1 - k, by omega⟩
  rw [hn, hwalk, unfragWalk, if_neg (not_or.mpr hstop)]

/-- A packet without a fragment header is not changed. -/
theorem unfraglen_of_chain (h : Chain d p q t) (hstop : t ≠ HBH ∧ t ≠ RH) (hFH : t ≠ FH) :
    unfraglen d false = some (p, t, d) := by
  rw [unfraglen, h.unfragWalk_eq hstop]
  dsimp only
  rw [if_neg hFH, if_neg (by decide)]

/-- The field that announces the fragment header gets the type that the fragment header names. -/
theorem unfraglen_of_fragment (h : Chain d p q FH) (hp : d[p]? = some nh) :
    unfraglen d false = some (p, FH, d.set q nh) := by
  rw [unfraglen, h.unfragWalk_eq (by decide)]
  dsimp only
  rw [if_pos rfl, hp]
  dsimp only
  rw [if_neg (by decide)]

/-! ### The bytes of a fragment -/

theorem length_setploadlen {len : ℕ} : (setploadlen d len).length = d.length := by
  rw [setploadlen, List.length_set, List.length_set]

theorem getElem?_setploadlen {len i : ℕ} (h4 : i ≠ 4) (h5 : i ≠ 5) :
    (setploadlen d len)[i]? = d[i]? := by
  rw [setploadlen, List.getElem?_set_ne h5.symm, List.getElem?_set_ne h4.symm]

/-- A fragment after the walk over its headers. -/
def restored (d : List UInt8) (uflen : ℕ) (nh : UInt8) (id a n : ℕ) : List UInt8 :=
  setploadlen (d.take uflen) (uflen - IPV6HDR_LEN + IP6FHDR + n) ++ fragpart d uflen nh id a n

namespace Original

variable (h : Original d uflen q nh)

include h

theorem uflen_ge : IP6HDR ≤ uflen := h.chain.field.2.2.2

theorem length_head {len : ℕ} : (setploadlen (d.take uflen) len).length = uflen := by
  rw [length_setploadlen, List.length_take, Nat.min_eq_left h.within]

/-- The walk over the headers of a fragment. -/
theorem unfraglen_fragmentOf (id a n : ℕ) (tail : List UInt8) :
    unfraglen (fragmentOf d uflen q nh id a n ++ tail) false =
      some (uflen, FH, restored d uflen nh id a n ++ tail) := by
  obtain ⟨hfield, hlt, hor, hge⟩ := h.chain.field
  simp only [IP6HDR] at hor hge
  have h4 : q ≠ 4 := by omega
  have h5 : q ≠ 5 := by omega
  have hin : q < (d.take uflen).length := by
    rw [List.length_take, Nat.min_eq_left h.within]
    exact hlt
  have hlen (len : ℕ) : (setploadlen ((d.take uflen).set q FH) len).length = uflen := by
    rw [length_setploadlen, List.length_set, List.length_take, Nat.min_eq_left h.within]
  have hrest : ∃ r, fragpart d uflen nh id a n ++ tail = nh :: r := ⟨_, rfl⟩
  rw [fragmentOf, restored, List.append_assoc, List.append_assoc]
  obtain ⟨r, hr⟩ := hrest
  rw [hr]
  have hchain : Chain (setploadlen ((d.take uflen).set q FH)
      (uflen - IPV6HDR_LEN + IP6FHDR + n) ++ nh :: r) uflen q FH := by
    refine h.chain.congr ?_ fun i hi h4' h5' hiq => ?_
    · rw [List.getElem?_append_left (by rw [hlen]; exact hlt), getElem?_setploadlen h4 h5,
        List.getElem?_set_self hin]
    · rw [List.getElem?_append_left (by rw [hlen]; exact hi), getElem?_setploadlen h4' h5',
        List.getElem?_set_ne (Ne.symm hiq), List.getElem?_take_of_lt hi]
  have hnext : (setploadlen ((d.take uflen).set q FH) (uflen - IPV6HDR_LEN + IP6FHDR + n) ++
      nh :: r)[uflen]? = some nh := by
    rw [List.getElem?_append_right (hlen _).le, hlen, Nat.sub_self]
    rfl
  rw [unfraglen_of_fragment hchain hnext]
  have hset : (setploadlen ((d.take uflen).set q FH) (uflen - IPV6HDR_LEN + IP6FHDR + n)).set q nh =
      setploadlen (d.take uflen) (uflen - IPV6HDR_LEN + IP6FHDR + n) := by
    have hsame : (d.take uflen).set q nh = d.take uflen :=
      set_of_getElem? (by rw [List.getElem?_take_of_lt hlt, hfield])
    simp only [setploadlen]
    rw [List.set_comm _ _ h5.symm, List.set_comm _ _ h4.symm, List.set_set, hsame]
  rw [List.set_append_left _ _ (by rw [hlen]; exact hlt), hset]

/-- The bytes behind the unfragmentable part. -/
theorem drop_restored (tail : List UInt8) : (restored d uflen nh id a n ++ tail).drop uflen =
    fragpart d uflen nh id a n ++ tail := by
  rw [restored, List.append_assoc]
  exact List.drop_left' h.length_head

theorem take_restored (tail : List UInt8) : (restored d uflen nh id a n ++ tail).take uflen =
    setploadlen (d.take uflen) (uflen - IPV6HDR_LEN + IP6FHDR + n) := by
  rw [restored, List.append_assoc]
  exact List.take_left' h.length_head

theorem getElem?_restored {i : ℕ} (hi : i < uflen) (h4 : i ≠ 4) (h5 : i ≠ 5)
    (tail : List UInt8) : (restored d uflen nh id a n ++ tail)[i]? = d[i]? := by
  rw [restored, List.append_assoc, List.getElem?_append_left (by rw [h.length_head]; exact hi),
    getElem?_setploadlen h4 h5, List.getElem?_take_of_lt hi]

theorem ploadlen_restored (hr : IsRange d uflen a n) (tail : List UInt8) :
    ploadlen (restored d uflen nh id a n ++ tail) = uflen - IPV6HDR_LEN + IP6FHDR + n := by
  have hge := h.uflen_ge
  simp only [IP6HDR] at hge
  have hlen : 6 ≤ (d.take uflen).length := by
    rw [List.length_take, Nat.min_eq_left h.within]
    omega
  rw [restored, List.append_assoc, ploadlen_append (by rw [h.length_head]; omega),
    ploadlen_setploadlen hlen, Nat.mod_eq_of_lt hr.fits]

theorem src_restored (tail : List UInt8) :
    src (restored d uflen nh id a n ++ tail) = src d ∧
      dst (restored d uflen nh id a n ++ tail) = dst d := by
  have hge := h.uflen_ge
  simp only [IP6HDR] at hge
  have hget (i : ℕ) (hi : 8 ≤ i) (hi' : i < 40) :
      (restored d uflen nh id a n ++ tail)[i]? = d[i]? :=
    h.getElem?_restored (by omega) (by omega) (by omega) tail
  refine ⟨List.ext_getElem? fun i => ?_, List.ext_getElem? fun i => ?_⟩
  · simp only [src, List.getElem?_take, List.getElem?_drop]
    split
    · exact hget _ (by omega) (by omega)
    · rfl
  · simp only [dst, List.getElem?_take, List.getElem?_drop]
    split
    · exact hget _ (by omega) (by omega)
    · rfl

theorem fragid_restored (hid : id < 4294967296) (tail : List UInt8) :
    fragid (restored d uflen nh id a n ++ tail) uflen = id := by
  have hlen : ([nh, 0] ++ hnputs (a ||| moreflag d uflen a n)).length = 4 := rfl
  rw [fragid, ← List.drop_drop, h.drop_restored, fragpart, List.append_assoc, List.append_assoc,
    List.drop_left' hlen, nhgetl_hnputl_append, Nat.mod_eq_of_lt hid]

omit h in
theorem moreflag_lt : moreflag d uflen a n < 2 := by
  unfold moreflag
  split <;> decide

/-- The offset of a range and its flag fit in a field. -/
theorem offset_lt (hr : IsRange d uflen a n) : a + 8 ≤ 65536 := by
  have hlt : Ip6.ploadlen d < 65536 := nhgets_lt _
  have hge := h.uflen_ge
  have hlen := h.length_eq
  have hwithin := hr.within
  have hdvd := hr.begins
  simp only [IP6HDR, IPV6HDR_LEN] at *
  omega

theorem offsetRM_restored (hr : IsRange d uflen a n) (tail : List UInt8) :
    offsetRM (restored d uflen nh id a n ++ tail) uflen = a + moreflag d uflen a n := by
  have hlen : ([nh, 0] : List UInt8).length = 2 := rfl
  have hflag : moreflag d uflen a n < 2 := moreflag_lt
  have hlt := h.offset_lt hr
  have hor : a ||| moreflag d uflen a n = a + moreflag d uflen a n := by
    obtain ⟨k, rfl⟩ := hr.begins
    exact (Nat.two_pow_add_eq_or_of_lt (show moreflag d uflen (8 * k) n < 2 ^ 3 by omega) k).symm
  rw [offsetRM, ← List.drop_drop, h.drop_restored, fragpart, List.append_assoc, List.append_assoc,
    List.append_assoc, List.drop_left' hlen, nhgets_hnputs_append, hor, Nat.mod_eq_of_lt (by omega)]

theorem more_restored (hr : IsRange d uflen a n) (tail : List UInt8) :
    more (restored d uflen nh id a n ++ tail) uflen = moreflag d uflen a n := by
  have hoff : offsetRM (restored d uflen nh id a n ++ tail) uflen = a + moreflag d uflen a n :=
    h.offsetRM_restored hr tail
  have hflag : moreflag d uflen a n < 2 := moreflag_lt
  obtain ⟨k, rfl⟩ := hr.begins
  rw [offsetRM, nhgets] at hoff
  simp only [List.getD_eq_getElem?_getD, List.getElem?_drop] at hoff
  rw [more, Nat.and_one_is_mod, List.getD_eq_getElem?_getD]
  have hplus : uflen + 2 + 1 = uflen + 3 := rfl
  rw [hplus] at hoff
  omega

end Original

end

/-! ### Segments of a packet -/

/-- The place of a block. -/
def Frag6.seg (x : Frag6) : Seg := ⟨x.foff, x.flen⟩

/-- A block of a queue holds a segment of the packet `d`. The one at the offset zero has the headers
of the packet, with its own length. -/
structure Piece6 (d : List UInt8) (uflen : ℕ) (x : Frag6) : Prop where
  within : uflen + x.foff + x.flen ≤ d.length
  bytes : uflen + IP6FHDR + x.flen ≤ x.mem.length
  payload : (x.mem.drop (uflen + IP6FHDR)).take x.flen = slice d (uflen + x.foff) x.flen
  more_iff : more x.mem uflen = 0 ↔ uflen + x.foff + x.flen = d.length
  first : x.foff = 0 → uflen - IPV6HDR_LEN + IP6FHDR + x.flen < 65536 ∧
    x.mem.take uflen = setploadlen (d.take uflen) (uflen - IPV6HDR_LEN + IP6FHDR + x.flen)

/-- A queue of the packet: sorted segments without overlaps. -/
structure Queue (d : List UInt8) (uflen : ℕ) (l : List Frag6) : Prop where
  pieces : ∀ x ∈ l, Piece6 d uflen x
  sorted : (l.map Frag6.seg).Pairwise Seg.Before

/-- The fragment at `b` covers the beginning of a block, whose headers move up without the fragment
header, or the end of the first block, which is taken as a whole. -/
def Cuts (b : Seg) (l : List Frag6) : Prop :=
  ∃ x ∈ l, b.off ≤ x.foff ∧ x.foff < b.off + b.len ∧ b.off + b.len < x.foff + x.flen ∨
    x.foff = 0 ∧ 0 < b.off ∧ b.off < x.flen ∧ x.flen < b.off + b.len

section

variable {d : List UInt8} {uflen q id a n e : ℕ} {nh : UInt8} {bp x : Frag6} {l l' : List Frag6}

theorem foff_lt (h : Original d uflen q nh) (hx : Piece6 d uflen x) : x.foff + x.flen < 65536 := by
  have hlt : Ip6.ploadlen d < 65536 := nhgets_lt _
  have hge := h.uflen_ge
  have hlen := h.length_eq
  have hwithin := hx.within
  simp only [IP6HDR, IPV6HDR_LEN] at *
  omega

/-- The low bits of an offset are taken off. -/
theorem and_offset {a m : ℕ} (ha : 8 ∣ a) (hm : m < 8) (hlt : a + m < 65536) :
    (a + m) &&& (0xffff ^^^ 7) = a := by
  have hdiv : ((a + m) &&& (0xffff ^^^ 7)) / 8 = a / 8 := by
    rw [show 8 = 2 ^ 3 from rfl, Nat.and_div_two_pow,
      show (0xffff ^^^ 7) / 2 ^ 3 = 2 ^ 13 - 1 by decide, Nat.and_two_pow_sub_one_eq_mod]
    omega
  have hmod : ((a + m) &&& (0xffff ^^^ 7)) % 8 = 0 := by
    rw [show 8 = 2 ^ 3 from rfl, Nat.and_mod_two_pow, show (0xffff ^^^ 7) % 2 ^ 3 = 0 by decide,
      Nat.and_zero]
  omega

/-- A block holds the segment of its fragment. -/
theorem piece_mkFrag6 (h : Original d uflen q nh) (hr : IsRange d uflen a n)
    (tail : List UInt8) : (mkFrag6 uflen (restored d uflen nh id a n ++ tail)).seg = ⟨a, n⟩ ∧
      Piece6 d uflen (mkFrag6 uflen (restored d uflen nh id a n ++ tail)) := by
  have hge := h.uflen_ge
  have hlt := h.offset_lt hr
  have hload : ploadlen (restored d uflen nh id a n ++ tail) = uflen - IPV6HDR_LEN + IP6FHDR + n :=
    h.ploadlen_restored hr tail
  have hflen : (mkFrag6 uflen (restored d uflen nh id a n ++ tail)).flen = n := by
    have hfits := hr.fits
    simp only [mkFrag6, hload]
    simp only [IP6HDR, IPV6HDR_LEN, IP6FHDR] at *
    omega
  have hfoff : (mkFrag6 uflen (restored d uflen nh id a n ++ tail)).foff = a := by
    have hflag : moreflag d uflen a n < 2 := Original.moreflag_lt
    simp only [mkFrag6, h.offsetRM_restored hr tail]
    exact and_offset hr.begins (by omega) (by omega)
  have hslice : (slice d (uflen + a) n).length = n := length_slice hr.within
  have hpart : (fragpart d uflen nh id a n).length = IP6FHDR + n := by
    simp only [fragpart, List.length_append, hslice]
    rfl
  have hfour : ([nh, 0] ++ hnputs (a ||| moreflag d uflen a n) ++ hnputl id).length = IP6FHDR := rfl
  refine ⟨?_, ?_, ?_, ?_, ?_, ?_⟩
  · rw [Frag6.seg, hfoff, hflen]
  · rw [hfoff, hflen]
    exact hr.within
  · rw [hflen]
    simp only [mkFrag6, restored, List.length_append, h.length_head, hpart]
    omega
  · rw [hfoff, hflen]
    simp only [mkFrag6]
    rw [← List.drop_drop, h.drop_restored, fragpart, List.append_assoc, List.drop_left' hfour]
    exact List.take_left' hslice
  · rw [hfoff, hflen]
    simp only [mkFrag6, h.more_restored hr tail, moreflag]
    have := hr.within
    split <;> omega
  · intro _
    rw [hflen]
    exact ⟨hr.fits, h.take_restored tail⟩

theorem coverNext6_eq (h : ∀ x ∈ l, x.foff + x.flen < 65536) :
    (coverNext6 uflen e l).map Frag6.seg = coverNext e (l.map Frag6.seg) := by
  induction l with
  | nil => rfl
  | cons x l ih =>
    have hx := h x List.mem_cons_self
    have hoff : x.seg.off = x.foff := rfl
    have hend : x.seg.off + x.seg.len = x.foff + x.flen := rfl
    rw [coverNext6, List.map_cons, coverNext, hend]
    by_cases hle : e ≤ x.foff
    · rw [if_pos hle, if_pos (show e ≤ x.seg.off from hle)]
      rfl
    rw [if_neg hle, if_neg (show ¬ e ≤ x.seg.off from hle)]
    by_cases hlt : e < x.foff + x.flen
    · have hseg : (x.moveup uflen (e - x.foff)).seg = ⟨e, x.foff + x.flen - e⟩ := by
        simp only [Frag6.moveup, Frag6.seg, Seg.mk.injEq]
        exact ⟨by omega, by omega⟩
      rw [if_pos hlt, if_pos (show e - x.foff < x.flen by omega), List.map_cons, hseg]
    · rw [if_neg hlt, if_neg (show ¬ e - x.foff < x.flen by omega)]
      exact ih fun y hy => h y (List.mem_cons_of_mem _ hy)

/-- The places of the blocks are those of the segments. -/
theorem insertFrag6_eq (h : ∀ x ∈ l, x.foff + x.flen < 65536) :
    (insertFrag6 uflen bp l).map (List.map Frag6.seg) = insertSeg bp.seg (l.map Frag6.seg) := by
  have htake : (l.map Frag6.seg).takeWhile (fun s => s.off < bp.seg.off) =
      (l.takeWhile fun bl => bl.foff < bp.foff).map Frag6.seg := by
    rw [List.takeWhile_map]
    rfl
  have hdrop : (l.map Frag6.seg).dropWhile (fun s => s.off < bp.seg.off) =
      (l.dropWhile fun bl => bl.foff < bp.foff).map Frag6.seg := by
    rw [List.dropWhile_map]
    rfl
  have hnext : (coverNext6 uflen (bp.foff + bp.flen)
      (l.dropWhile fun bl => bl.foff < bp.foff)).map Frag6.seg = coverNext (bp.foff + bp.flen)
        ((l.dropWhile fun bl => bl.foff < bp.foff).map Frag6.seg) :=
    coverNext6_eq fun x hx => h x ((List.dropWhile_sublist _).subset hx)
  unfold insertFrag6 insertSeg
  have hseg : bp.seg.off + bp.seg.len = bp.foff + bp.flen := rfl
  rw [htake, hdrop, hseg, ← hnext]
  dsimp only
  rw [List.getLast?_map]
  rcases hlast : (l.takeWhile fun bl => bl.foff < bp.foff).getLast? with _ | p
  · rw [hlast]
    rfl
  · have hp : p.foff < bp.foff := by
      have hmem := List.mem_takeWhile_imp (List.mem_of_getLast? hlast)
      exact of_decide_eq_true hmem
    have hpend : p.seg.off + p.seg.len = p.foff + p.flen := rfl
    have hoff : bp.seg.off = bp.foff := rfl
    rw [hlast]
    dsimp only [Option.map_some]
    rw [hpend, hoff]
    by_cases hover : bp.foff < p.foff + p.flen
    · rw [if_pos hover, if_pos (by omega)]
      by_cases hcover : bp.foff + bp.flen ≤ p.foff + p.flen
      · rw [if_pos hcover, if_pos (by omega)]
        rfl
      · rw [if_neg hcover, if_neg (by omega)]
        simp only [Option.map_some, List.map_append, List.map_cons, Frag6.seg, List.map_dropLast,
          Option.some.injEq]
        congr 3
        omega
    · rw [if_neg hover, if_neg (by omega)]
      simp only [Option.map_some, List.map_append, List.map_cons]

theorem foff_le_of_mem_dropWhile (hl : (l.map Frag6.seg).Pairwise Seg.Before)
    (hx : x ∈ l.dropWhile fun bl => bl.foff < bp.foff) : bp.foff ≤ x.foff := by
  have hmem : x.seg ∈ (l.map Frag6.seg).dropWhile fun s => s.off < bp.seg.off := by
    rw [List.dropWhile_map]
    exact List.mem_map_of_mem hx
  exact (takeWhile_spec hl).2.2.2 _ hmem

/-- A fragment that cuts nothing leaves the blocks behind it as they are. -/
theorem mem_coverNext6 {y : Frag6} (hcut : ∀ x ∈ l, ¬ (x.foff < e ∧ e < x.foff + x.flen))
    (hy : y ∈ coverNext6 uflen e l) : y ∈ l := by
  induction l with
  | nil => exact hy
  | cons x l ih =>
    rw [coverNext6] at hy
    split at hy
    · exact hy
    split at hy
    · exact absurd ⟨by omega, by omega⟩ (hcut x List.mem_cons_self)
    · exact List.mem_cons_of_mem _ (ih (fun z hz => hcut z (List.mem_cons_of_mem _ hz)) hy)

/-- The blocks after a fragment has been put in its place: the fragment, blocks from before, and one
whose end is cut. -/
theorem mem_insertFrag6 {y : Frag6} (hl : (l.map Frag6.seg).Pairwise Seg.Before)
    (hcut : ¬ Cuts bp.seg l) (hins : insertFrag6 uflen bp l = some l')
    (hy : y ∈ l') : y = bp ∨ y ∈ l ∨ ∃ x ∈ l, y = { x with flen := bp.foff - x.foff } ∧
      0 < x.foff ∧ x.foff < bp.foff ∧ bp.foff < x.foff + x.flen ∧
        x.foff + x.flen < bp.foff + bp.flen := by
  have hafter : y ∈ bp :: coverNext6 uflen (bp.foff + bp.flen)
      (l.dropWhile fun bl => bl.foff < bp.foff) → y = bp ∨ y ∈ l := fun hy => by
    obtain rfl | hy := List.mem_cons.mp hy
    · exact .inl rfl
    refine .inr ((List.dropWhile_sublist _).subset (mem_coverNext6 (fun x hx hin => ?_) hy))
    have hmem : x ∈ l := (List.dropWhile_sublist _).subset hx
    exact hcut ⟨x, hmem, .inl ⟨foff_le_of_mem_dropWhile hl hx, hin⟩⟩
  unfold insertFrag6 at hins
  dsimp only at hins
  rcases hlast : (l.takeWhile fun bl => bl.foff < bp.foff).getLast? with _ | p
  · rw [hlast] at hins
    cases hins
    exact (hafter hy).imp_right .inl
  rw [hlast] at hins
  dsimp only at hins
  have hmem : p ∈ l := (List.takeWhile_sublist _).subset (List.mem_of_getLast? hlast)
  have hp : p.foff < bp.foff := by
    have hmem := List.mem_takeWhile_imp (List.mem_of_getLast? hlast)
    exact of_decide_eq_true hmem
  split at hins
  · split at hins
    · cases hins
    cases hins
    obtain hy | hy := List.mem_append.mp hy
    · exact .inr (.inl ((List.takeWhile_sublist _).subset (List.mem_of_mem_dropLast hy)))
    obtain rfl | hy := List.mem_cons.mp hy
    · refine .inr (.inr ⟨p, hmem, ?_, ?_, hp, by omega, by omega⟩)
      · congr 1
        omega
      · have hoff : bp.seg.off = bp.foff := rfl
        have hlen : bp.seg.len = bp.flen := rfl
        by_contra hzero
        exact hcut ⟨p, hmem, .inr ⟨by omega, by omega, by omega, by omega⟩⟩
    · exact (hafter hy).imp_right .inl
  · cases hins
    obtain hy | hy := List.mem_append.mp hy
    · exact .inr (.inl ((List.takeWhile_sublist _).subset hy))
    · exact (hafter hy).imp_right .inl

/-- A fragment that cuts nothing is put in its place, or was covered. -/
theorem Queue.insert (h : Original d uflen q nh) (hl : Queue d uflen l) (hbp : Piece6 d uflen bp)
    (hcut : ¬ Cuts bp.seg l) :
    (insertFrag6 uflen bp l = none ∧
      ∀ x, bp.foff ≤ x → x < bp.foff + bp.flen → Covers (l.map Frag6.seg) x) ∨
    ∃ l', insertFrag6 uflen bp l = some l' ∧ Queue d uflen l' ∧
      ∀ x, Covers (l'.map Frag6.seg) x ↔
        Covers (l.map Frag6.seg) x ∨ (bp.foff ≤ x ∧ x < bp.foff + bp.flen) := by
  have heq : (insertFrag6 uflen bp l).map (List.map Frag6.seg) =
      insertSeg bp.seg (l.map Frag6.seg) :=
    insertFrag6_eq fun x hx => foff_lt h (hl.pieces x hx)
  rcases hins : insertFrag6 uflen bp l with _ | l'
  · rw [hins] at heq
    exact .inl ⟨rfl, fun x hle hlt => covers_of_insertSeg_none hl.sorted heq.symm ⟨hle, hlt⟩⟩
  rw [hins] at heq
  refine .inr ⟨l', rfl, ⟨fun y hy => ?_, pairwise_insertSeg hl.sorted heq.symm⟩,
    fun x => covers_insertSeg hl.sorted heq.symm⟩
  obtain rfl | hy | ⟨x, hx, rfl, hpos, hlt, hin, hout⟩ :=
    mem_insertFrag6 hl.sorted hcut hins hy
  · exact hbp
  · exact hl.pieces y hy
  · have hpiece := hl.pieces x hx
    have hwithin := hpiece.within
    have hbytes := hpiece.bytes
    have hend := hbp.within
    refine ⟨?_, ?_, ?_, ?_, fun hzero => ?_⟩
    · dsimp only
      omega
    · dsimp only
      omega
    · dsimp only
      rw [← take_slice (show bp.foff - x.foff ≤ x.flen by omega), ← hpiece.payload, List.take_take,
        min_eq_left (by omega)]
    · refine iff_of_false (fun hmore => ?_) (by dsimp only; omega)
      have := hpiece.more_iff.mp hmore
      omega
    · exact absurd hzero hpos.ne'

/-! ### Complete packets -/

/-- The segment that a block holds. -/
def Frag6.body (uflen : ℕ) (x : Frag6) : List UInt8 := (x.mem.drop (uflen + IP6FHDR)).take x.flen

/-- The flag tells the last segment. -/
theorem complete6_eq (hl : ∀ x ∈ l, Piece6 d uflen x) (pos : ℕ) :
    complete6 uflen pos l = full (d.length - uflen) pos (l.map Frag6.seg) := by
  induction l generalizing pos with
  | nil => rfl
  | cons x l ih =>
    have hx := hl x List.mem_cons_self
    have hwithin := hx.within
    have hmore : more x.mem uflen = 0 ↔ x.seg.off + x.seg.len = d.length - uflen := by
      rw [hx.more_iff]
      simp only [Frag6.seg]
      omega
    have hoff : x.seg.off = x.foff := rfl
    have hend : x.seg.off + x.seg.len = x.foff + x.flen := rfl
    rw [complete6, List.map_cons, full]
    simp only [hmore]
    rw [ih fun y hy => hl y (List.mem_cons_of_mem _ hy)]
    by_cases hpos : x.foff = pos
    · rw [if_neg (not_not_intro hpos), if_neg (not_not_intro (hoff.trans hpos)), hend, hpos]
    · rw [if_pos hpos, if_pos (hoff ▸ hpos)]

theorem Queue.tail (h : Queue d uflen (x :: l)) : Queue d uflen l :=
  ⟨fun y hy => h.pieces y (List.mem_cons_of_mem _ hy), (List.pairwise_cons.mp h.sorted).2⟩

/-- Behind the last byte of the packet the blocks are empty. -/
theorem Queue.bodies_of_end (h : Queue d uflen l) (hend : ∀ y ∈ l, d.length ≤ uflen + y.foff) :
    (l.map (Frag6.body uflen)).flatten = [] ∧ (l.map Frag6.flen).sum = 0 := by
  induction l with
  | nil => exact ⟨rfl, rfl⟩
  | cons x l ih =>
    have hx := (h.pieces x List.mem_cons_self).within
    have hfoff := hend x List.mem_cons_self
    have hflen : x.flen = 0 := by omega
    obtain ⟨hbody, hsum⟩ := ih h.tail fun y hy => hend y (List.mem_cons_of_mem _ hy)
    simp [Frag6.body, hflen, hbody, hsum]

/-- The blocks of a complete packet make up the rest of the packet. -/
theorem Queue.bodies (h : Queue d uflen l) {pos : ℕ}
    (hc : full (d.length - uflen) pos (l.map Frag6.seg) = true) :
    (l.map (Frag6.body uflen)).flatten = d.drop (uflen + pos) ∧
      uflen + pos + (l.map Frag6.flen).sum = d.length := by
  induction l generalizing pos with
  | nil => cases hc
  | cons x l ih =>
    have hx := h.pieces x List.mem_cons_self
    have hbody : x.body uflen = slice d (uflen + x.foff) x.flen := hx.payload
    have hwithin := hx.within
    have hbehind (y : Frag6) (hy : y ∈ l) : x.foff + x.flen ≤ y.foff :=
      (List.pairwise_cons.mp h.sorted).1 y.seg (List.mem_map_of_mem hy)
    rw [List.map_cons, full] at hc
    split at hc
    · cases hc
    rename_i hpos
    have hpos : x.foff = pos := not_not.mp hpos
    split at hc
    · rename_i hend
      have hend : x.foff + x.flen = d.length - uflen := hend
      obtain ⟨hrest, hsum⟩ := h.tail.bodies_of_end fun y hy => by
        have := hbehind y hy
        omega
      rw [List.map_cons, List.flatten_cons, hrest, List.append_nil, hbody, hpos,
        slice_eq_drop (by omega), List.map_cons, List.sum_cons, hsum]
      exact ⟨rfl, by omega⟩
    · obtain ⟨hrest, hsum⟩ := ih h.tail hc
      have hsum : uflen + (x.foff + x.flen) + (l.map Frag6.flen).sum = d.length := hsum
      have hrest : (l.map (Frag6.body uflen)).flatten = d.drop (uflen + (x.foff + x.flen)) := hrest
      rw [List.map_cons, List.flatten_cons, hrest, hbody, hpos, List.map_cons, List.sum_cons]
      have hdrop : d.drop (uflen + (pos + x.flen)) = (d.drop (uflen + pos)).drop x.flen := by
        rw [List.drop_drop, Nat.add_assoc]
      rw [slice, hdrop, List.take_append_drop]
      exact ⟨rfl, by omega⟩

theorem setploadlen_append {l r : List UInt8} {len : ℕ} (h : 6 ≤ l.length) :
    setploadlen (l ++ r) len = setploadlen l len ++ r := by
  rw [setploadlen, setploadlen, List.set_append_left _ _ (by omega),
    List.set_append_left _ _ (by rw [List.length_set]; omega)]

theorem setploadlen_setploadlen {len len' : ℕ} :
    setploadlen (setploadlen d len) len' = setploadlen d len' := by
  simp only [setploadlen]
  rw [List.set_comm _ _ (by decide), List.set_set, List.set_comm _ _ (by decide), List.set_set]

/-- The blocks of a complete packet are the packet. -/
theorem Queue.pullup6_eq (h : Original d uflen q nh) (hl : Queue d uflen l)
    (hc : full (d.length - uflen) 0 (l.map Frag6.seg) = true) :
    ∃ bp next, pullup6 uflen l = some (bp, next) ∧ bp.data ++ next.flatten = d ∧
      ∃ r, bp.mem = d.take uflen ++ r := by
  cases l with
  | nil => cases hc
  | cons x l =>
    have hge := h.uflen_ge
    have hlen := h.length_eq
    simp only [IP6HDR, IPV6HDR_LEN] at hge hlen
    have hfoff : x.foff = 0 := by
      by_contra hne
      rw [List.map_cons, full, if_pos (show x.seg.off ≠ 0 from hne)] at hc
      cases hc
    obtain ⟨hbodies, hsum⟩ := hl.bodies hc
    obtain ⟨hfits, hhead⟩ := (hl.pieces x List.mem_cons_self).first hfoff
    rw [List.map_cons, List.sum_cons] at hsum
    have htake : (d.take uflen).length = uflen := by
      rw [List.length_take, Nat.min_eq_left h.within]
    have hlenh (len : ℕ) : (setploadlen (d.take uflen) len).length = uflen :=
      length_setploadlen.trans htake
    have hload : ploadlen (x.mem.take uflen ++ x.mem.drop (uflen + IP6FHDR)) =
        uflen - IPV6HDR_LEN + IP6FHDR + x.flen := by
      rw [hhead, ploadlen_append (by rw [hlenh]; omega), ploadlen_setploadlen (by omega),
        Nat.mod_eq_of_lt hfits]
    have hloadd : ploadlen (d.take uflen) = ploadlen d := by
      conv_rhs => rw [← List.take_append_drop uflen d]
      exact (ploadlen_append (by omega)).symm
    have hmem : setploadlen (x.mem.take uflen ++ x.mem.drop (uflen + IP6FHDR))
        (uflen - IPV6HDR_LEN + IP6FHDR + x.flen - IP6FHDR + (l.map Frag6.flen).sum) =
        d.take uflen ++ x.mem.drop (uflen + IP6FHDR) := by
      rw [hhead, setploadlen_append (by rw [hlenh]; omega), setploadlen_setploadlen,
        setploadlen_self (by omega)]
      rw [hloadd]
      simp only [IPV6HDR_LEN, IP6FHDR]
      omega
    have hcut : uflen - IPV6HDR_LEN + IP6FHDR + x.flen - IP6FHDR + IP6HDR = uflen + x.flen := by
      simp only [IPV6HDR_LEN, IP6FHDR, IP6HDR]
      omega
    refine ⟨_, _, rfl, ?_, x.mem.drop (uflen + IP6FHDR), ?_⟩
    · rw [hload, hmem, hcut]
      have hdata : (d.take uflen ++ x.mem.drop (uflen + IP6FHDR)).take (uflen + x.flen) =
          d.take uflen ++ x.body uflen := by
        rw [List.take_append, htake, Nat.add_sub_cancel_left, List.take_of_length_le (by omega)]
        rfl
      have hrest : d.take uflen ++ ((x :: l).map (Frag6.body uflen)).flatten = d := by
        rw [hbodies, Nat.add_zero, List.take_append_drop]
      rw [hdata]
      rw [List.map_cons, List.flatten_cons, ← List.append_assoc] at hrest
      exact hrest
    · dsimp only [Blk.mem]
      rw [hload, hmem]
      exact List.take_append_drop _ _

/-- Something is missing in a queue that is not complete. -/
theorem Queue.exists_open (hl : Queue d uflen l) (hpos : 0 < d.length - uflen)
    (hc : complete6 uflen 0 l = false) :
    ∃ x < d.length - uflen, ¬ Covers (l.map Frag6.seg) x := by
  by_contra hall
  push Not at hall
  have hle (s : Seg) (hs : s ∈ l.map Frag6.seg) : s.off + s.len ≤ d.length - uflen := by
    obtain ⟨y, hy, rfl⟩ := List.mem_map.mp hs
    have hwithin := (hl.pieces y hy).within
    simp only [Frag6.seg]
    omega
  have hfull := full_of_covers hl.sorted hpos (fun _ _ => Nat.zero_le _) hle
    fun x _ hx => hall x hx
  rw [← complete6_eq hl.pieces 0, hc] at hfull
  cases hfull

/-- The walk over the headers of a packet that has those of `d`, with any length. -/
theorem Original.unfraglen_of_head (h : Original d uflen q nh) (hFH : nh ≠ FH) {m : List UInt8}
    (hm : ∀ i < uflen, i ≠ 4 → i ≠ 5 → m[i]? = d[i]?) :
      unfraglen m false = some (uflen, nh, m) := by
  obtain ⟨hfield, hlt, hor, -⟩ := h.chain.field
  simp only [IP6HDR] at hor
  have hfield' : m[q]? = some nh := (hm q hlt (by omega) (by omega)).trans hfield
  exact unfraglen_of_chain (h.chain.congr hfield' fun i hi h4 h5 _ => hm i hi h4 h5) h.stops hFH

/-- A packet that begins with the unfragmentable part has its headers. -/
theorem Original.getElem?_head (h : Original d uflen q nh) {r : List UInt8} {i : ℕ}
    (hi : i < uflen) : (d.take uflen ++ r)[i]? = d[i]? := by
  rw [List.getElem?_append_left (by rw [List.length_take, Nat.min_eq_left h.within]; exact hi),
    List.getElem?_take_of_lt hi]

theorem store_mem (bp : Blk) : bp.store bp.mem = bp := by
  simp [Blk.store, Blk.mem]

end

/-! ### Runs -/

/-- A fragment that arrives: when, its range, what comes behind the packet in its block, and behind
the block in memory. -/
structure Arrival6 where
  now : ℕ
  range : Seg
  pad : List UInt8 := []
  behind : List UInt8 := []

/-- The fragments of a packet: the packet, the length of its unfragmentable part, the last field of
this part and its value, and the identification. -/
structure Cut where
  packet : List UInt8
  uflen : ℕ
  q : ℕ
  nh : UInt8
  id : ℕ

namespace Cut

/-- What `procxtns` does with a fragment. -/
def arrive (c : Cut) (ip : IP6) (e : Arrival6) :
    Option (IP6 × Option (Blk × List (List UInt8))) :=
  procxtns e.now ip
    ⟨fragmentOf c.packet c.uflen c.q c.nh c.id e.range.off e.range.len ++ e.pad, e.behind⟩ [] true

/-- The queue is the one of the packet. -/
def Keyed (c : Cut) (f : Fragment6) : Prop :=
  f.src = src c.packet ∧ f.dst = dst c.packet ∧ f.id = c.id

/-- The fragment is a valid one, not the whole packet, and cuts nothing in the queue. -/
def Clean (c : Cut) (ip : IP6) (e : Arrival6) : Prop :=
  IsRange c.packet c.uflen e.range.off e.range.len ∧
    (0 < e.range.off ∨ c.uflen + e.range.len < c.packet.length) ∧
    ∀ f ∈ ip.flisthead6, c.Keyed f → ¬ Cuts e.range f.blist

/-- A step: the fragments since a packet was handed up are kept beside the queues. -/
def Step (c : Cut) (s : IP6 × List Seg) (e : Arrival6) (s' : IP6 × List Seg) : Prop :=
  ∃ r, c.arrive s.1 e = some (s'.1, r) ∧ s'.2 = if r.isSome then [] else e.range :: s.2

/-- The queue of the packet, if there is one, is the first one, covers what has arrived, and is not
complete. -/
structure Inv (c : Cut) (s : IP6 × List Seg) : Prop where
  queue : (∀ f ∈ s.1.flisthead6, ¬ c.Keyed f) ∧ s.2 = [] ∨
    ∃ f fs, s.1.flisthead6 = f :: fs ∧ c.Keyed f ∧ (∀ g ∈ fs, ¬ c.Keyed g) ∧
      Queue c.packet c.uflen f.blist ∧
      (∀ x, Covers s.2 x → Covers (f.blist.map Frag6.seg) x) ∧
      ∃ x < c.packet.length - c.uflen, ¬ Covers (f.blist.map Frag6.seg) x

end Cut

theorem findFrag6_none (now : ℕ) {uflen : ℕ} {d : List UInt8} {l : List Fragment6}
    (h : ∀ f ∈ l, f.holds uflen d = false) :
    ∃ before n, findFrag6 now uflen d l = (before, none, n) ∧ before ⊆ l := by
  induction l with
  | nil => exact ⟨[], 0, rfl, List.Subset.refl _⟩
  | cons f l ih =>
    obtain ⟨before, n, heq, hsub⟩ := ih fun g hg => h g (List.mem_cons_of_mem _ hg)
    rw [findFrag6, if_neg (by rw [h f List.mem_cons_self]; decide), heq]
    dsimp only
    split
    · exact ⟨before, n + 1, rfl, List.Subset.trans hsub (List.subset_cons_self _ _)⟩
    · exact ⟨f :: before, n, rfl, List.cons_subset_cons _ hsub⟩

theorem findFrag6_cons {now uflen : ℕ} {d : List UInt8} {f : Fragment6} {fs : List Fragment6}
    (h : f.holds uflen d = true) : findFrag6 now uflen d (f :: fs) = ([], some (f, fs), 0) := by
  rw [findFrag6, if_pos h]

/-- A fragment without a queue gets one. -/
theorem ip6reassemble_new {now uflen : ℕ} {bp : Blk} {ip : IP6}
    (hoff : offsetRM bp.mem uflen ≠ 0)
    (h : ∀ f ∈ ip.flisthead6, f.holds uflen bp.mem = false) :
    ∃ ip' f fs, ip6reassemble now uflen bp ip = (ip', none) ∧ ip'.flisthead6 = f :: fs ∧
      f.blist = [mkFrag6 uflen bp.mem] ∧ f.holds uflen bp.mem = true ∧ fs ⊆ ip.flisthead6 := by
  obtain ⟨before, n, hfind, hsub⟩ := findFrag6_none now h
  unfold ip6reassemble
  dsimp only
  rw [hfind]
  dsimp only
  rw [if_neg hoff]
  dsimp only [ipfragallo6]
  split
  · exact ⟨_, _, _, rfl, rfl, rfl, by simp [Fragment6.holds],
      List.Subset.trans (List.dropLast_subset _) hsub⟩
  · exact ⟨_, _, _, rfl, rfl, rfl, by simp [Fragment6.holds], hsub⟩

/-- A fragment goes to the queue at the head. -/
theorem ip6reassemble_cons (now : ℕ) {uflen : ℕ} {bp : Blk} {ip : IP6} {f : Fragment6}
    {fs : List Fragment6} (hoff : offsetRM bp.mem uflen ≠ 0) (hlist : ip.flisthead6 = f :: fs)
    (h : f.holds uflen bp.mem = true) :
    (insertFrag6 uflen (mkFrag6 uflen bp.mem) f.blist = none →
      ∃ ip', ip6reassemble now uflen bp ip = (ip', none) ∧ ip'.flisthead6 = f :: fs) ∧
    ∀ l, insertFrag6 uflen (mkFrag6 uflen bp.mem) f.blist = some l →
      (complete6 uflen 0 l = true →
        ∃ ip', ip6reassemble now uflen bp ip = (ip', pullup6 uflen l) ∧ ip'.flisthead6 = fs) ∧
      (complete6 uflen 0 l = false →
        ∃ ip', ip6reassemble now uflen bp ip = (ip', none) ∧
          ip'.flisthead6 = { f with blist := l } :: fs) := by
  unfold ip6reassemble
  dsimp only
  rw [hlist, findFrag6_cons h]
  dsimp only
  rw [if_neg hoff]
  refine ⟨fun hnone => ?_, fun l hl => ⟨fun hc => ?_, fun hc => ?_⟩⟩
  · rw [hnone]
    exact ⟨_, rfl, rfl⟩
  · rw [hl]
    dsimp only
    rw [if_pos hc]
    exact ⟨_, rfl, rfl⟩
  · rw [hl]
    dsimp only
    rw [hc]
    exact ⟨_, rfl, rfl⟩

section

variable {c : Cut} {ip : IP6} {seen : List Seg} {e : Arrival6}

/-- The memory of a fragment after the walk over its headers. -/
def Cut.mem (c : Cut) (e : Arrival6) : List UInt8 :=
  restored c.packet c.uflen c.nh c.id e.range.off e.range.len ++ (e.pad ++ e.behind)

theorem Cut.holds_iff (h : Original c.packet c.uflen c.q c.nh) (hid : c.id < 4294967296)
    (f : Fragment6) : f.holds c.uflen (c.mem e) = true ↔ c.Keyed f := by
  have hsrc : src (c.mem e) = src c.packet ∧ dst (c.mem e) = dst c.packet := h.src_restored _
  have hfragid : fragid (c.mem e) c.uflen = c.id := h.fragid_restored hid _
  simp only [Fragment6.holds, hsrc, hfragid, Bool.and_eq_true, decide_eq_true_eq, Cut.Keyed,
    and_assoc]

/-- `procxtns` hands a fragment to `ip6reassemble`, and goes on with the packet. -/
theorem Cut.arrive_eq (ip : IP6) (e : Arrival6) (h : Original c.packet c.uflen c.q c.nh) :
    ∃ bp : Blk, bp.mem = c.mem e ∧
    bp.data = restored c.packet c.uflen c.nh c.id e.range.off e.range.len ++ e.pad ∧
    c.arrive ip e = match ip6reassemble e.now c.uflen bp ip with
      | (ip, none) => some (ip, none)
      | (ip, some (bp, next)) =>
        (unfraglen bp.mem false).map fun r => (ip, some (bp.store r.2.2, next)) := by
  have hun := h.unfraglen_fragmentOf c.id e.range.off e.range.len (e.pad ++ e.behind)
  refine ⟨(⟨fragmentOf c.packet c.uflen c.q c.nh c.id e.range.off e.range.len ++ e.pad,
    e.behind⟩ : Blk).store (c.mem e), mem_store, ?_, ?_⟩
  · have hlen :
        (fragmentOf c.packet c.uflen c.q c.nh c.id e.range.off e.range.len ++ e.pad).length =
        (restored c.packet c.uflen c.nh c.id e.range.off e.range.len ++ e.pad).length := by
      simp only [fragmentOf, restored, List.length_append, length_setploadlen, List.length_set]
    dsimp only [Blk.store, Cut.mem]
    rw [hlen, ← List.append_assoc, List.take_left]
  have hmem : (⟨fragmentOf c.packet c.uflen c.q c.nh c.id e.range.off e.range.len ++ e.pad,
      e.behind⟩ : Blk).mem = fragmentOf c.packet c.uflen c.q c.nh c.id e.range.off e.range.len ++
        (e.pad ++ e.behind) := List.append_assoc _ _ _
  unfold Cut.arrive procxtns
  rw [hmem, hun]
  dsimp only
  rw [if_pos ⟨rfl, rfl⟩, List.flatten_nil, List.append_nil]
  rfl

/-- What one fragment does: a packet that is handed up is the one that was cut, and one is handed
up when everything has arrived. -/
theorem Cut.arrive_spec (h : Original c.packet c.uflen c.q c.nh) (hFH : c.nh ≠ FH)
    (hid : c.id < 4294967296) (hinv : c.Inv (ip, seen)) (hclean : c.Clean ip e) :
    ∃ ip' r, c.arrive ip e = some (ip', r) ∧
      (∀ bp next, r = some (bp, next) → bp.data ++ next.flatten = c.packet) ∧
      c.Inv (ip', if r.isSome then [] else e.range :: seen) ∧
      ((∀ x < c.packet.length - c.uflen, Covers (e.range :: seen) x) → r.isSome) := by
  obtain ⟨hrange, hpart, hcut⟩ := hclean
  obtain ⟨bp, hmem, -, harrive⟩ := Cut.arrive_eq ip e h
  obtain ⟨hseg, hpiece⟩ : (mkFrag6 c.uflen (c.mem e)).seg = e.range ∧
      Piece6 c.packet c.uflen (mkFrag6 c.uflen (c.mem e)) := piece_mkFrag6 h hrange _
  have hoffset : offsetRM (c.mem e) c.uflen ≠ 0 := by
    have hoff : offsetRM (c.mem e) c.uflen = e.range.off +
        moreflag c.packet c.uflen e.range.off e.range.len := h.offsetRM_restored hrange _
    have hwithin := hrange.within
    rw [hoff, moreflag]
    split <;> omega
  -- one fragment is not the whole packet
  have hnotall : ∃ x < c.packet.length - c.uflen, ¬ Covers [e.range] x := by
    have hwithin := hrange.within
    by_cases hoff : e.range.off = 0
    · refine ⟨e.range.len, by omega, fun hcov => ?_⟩
      obtain ⟨s, hs, -, hlt⟩ := hcov
      rw [List.mem_singleton.mp hs] at hlt
      omega
    · refine ⟨0, by omega, fun hcov => ?_⟩
      obtain ⟨s, hs, hle, -⟩ := hcov
      rw [List.mem_singleton.mp hs] at hle
      omega
  rw [← hmem] at hoffset hseg hpiece
  have hholds (f : Fragment6) : f.holds c.uflen bp.mem = true ↔ c.Keyed f := by
    rw [hmem]
    exact Cut.holds_iff h hid f
  rw [harrive]
  obtain ⟨hnone, hseen⟩ | ⟨f, fs, hlist, hkeyed, hother, hqueue, hcov, hopen⟩ := hinv.queue
  · dsimp only at hnone hseen
    have hnot (f : Fragment6) (hf : f ∈ ip.flisthead6) : f.holds c.uflen bp.mem = false :=
      Bool.eq_false_iff.mpr fun hh => hnone f hf ((hholds f).mp hh)
    obtain ⟨ip', f, fs, hre, hlist, hblist, hf, hsub⟩ := ip6reassemble_new hoffset hnot
    rw [hre]
    refine ⟨ip', none, rfl, nofun, ⟨.inr ⟨f, fs, hlist, (hholds f).mp hf,
      fun g hg => hnone g (hsub hg), ?_, ?_, ?_⟩⟩, ?_⟩
    · rw [hblist]
      exact ⟨by simpa using hpiece, by simp⟩
    · rw [hblist, hseen, List.map_singleton, hseg]
      exact fun x hx => hx
    · rw [hblist, List.map_singleton, hseg]
      exact hnotall
    · rw [hseen]
      intro hall
      obtain ⟨x, hx, hnx⟩ := hnotall
      exact (hnx (hall x hx)).elim
  · dsimp only at hlist hcov
    obtain ⟨hcovered, hinserted⟩ := ip6reassemble_cons e.now hoffset hlist
      ((hholds f).mpr hkeyed)
    have hclean : ¬ Cuts (mkFrag6 c.uflen bp.mem).seg f.blist := by
      rw [hseg]
      exact hcut f (by rw [hlist]; exact List.mem_cons_self) hkeyed
    have hin (x : ℕ) : (mkFrag6 c.uflen bp.mem).foff ≤ x ∧
        x < (mkFrag6 c.uflen bp.mem).foff + (mkFrag6 c.uflen bp.mem).flen ↔
          e.range.off ≤ x ∧ x < e.range.off + e.range.len := by
      rw [← hseg]
      rfl
    obtain ⟨hins, hold⟩ | ⟨l, hins, hl, hnew⟩ := hqueue.insert h hpiece hclean
    · obtain ⟨ip', hre, hlist'⟩ := hcovered hins
      have hboth (x : ℕ) (hx : Covers (e.range :: seen) x) :
          Covers (f.blist.map Frag6.seg) x :=
        (covers_cons.mp hx).elim (fun hr => hold x ((hin x).mpr hr).1 ((hin x).mpr hr).2) (hcov x)
      rw [hre]
      refine ⟨ip', none, rfl, nofun,
        ⟨.inr ⟨f, fs, hlist', hkeyed, hother, hqueue, hboth, hopen⟩⟩, fun hall => ?_⟩
      obtain ⟨x, hx, hnx⟩ := hopen
      exact (hnx (hboth x (hall x hx))).elim
    · have hboth (x : ℕ) (hx : Covers (e.range :: seen) x) : Covers (l.map Frag6.seg) x :=
        (hnew x).mpr ((covers_cons.mp hx).elim (fun hr => .inr ((hin x).mpr hr))
          fun hs => .inl (hcov x hs))
      rcases hc : complete6 c.uflen 0 l with _ | _
      · obtain ⟨ip', hre, hlist'⟩ := (hinserted l hins).2 hc
        obtain ⟨y, hy, -⟩ := hopen
        have hopen' := hl.exists_open (Nat.zero_lt_of_lt hy) hc
        rw [hre]
        refine ⟨ip', none, rfl, nofun,
          ⟨.inr ⟨_, fs, hlist', hkeyed, hother, hl, hboth, hopen'⟩⟩, fun hall => ?_⟩
        obtain ⟨x, hx, hnx⟩ := hopen'
        exact (hnx (hboth x (hall x hx))).elim
      · obtain ⟨ip', hre, hlist'⟩ := (hinserted l hins).1 hc
        have hfull := (complete6_eq hl.pieces 0).symm.trans hc
        obtain ⟨bp', next, hpull, hdata, r, hr⟩ := hl.pullup6_eq h hfull
        rw [hre, hpull]
        have hun := h.unfraglen_of_head hFH fun i hi _ _ => hr ▸ h.getElem?_head hi
        dsimp only
        rw [hun]
        refine ⟨ip', some (bp', next), ?_, fun bp'' next' heq => ?_, ⟨.inl ⟨?_, rfl⟩⟩, fun _ => rfl⟩
        · dsimp only [Option.map_some]
          rw [store_mem]
        · cases heq
          exact hdata
        · dsimp only
          rw [hlist']
          exact hother

/-- In every run of clean fragments in any order, with repetitions and overlaps, a packet that is
handed up is the one that was cut, and it is handed up as soon as everything has arrived. -/
theorem restored_of_run {ip₀ : IP6} (h : Original c.packet c.uflen c.q c.nh) (hFH : c.nh ≠ FH)
    (hid : c.id < 4294967296) (hstart : ∀ f ∈ ip₀.flisthead6, ¬ c.Keyed f)
    (hrun : Run c.Step (fun s e => c.Clean s.1 e) (ip₀, []) (ip, seen)) (hclean : c.Clean ip e) :
    ∃ ip' r, c.arrive ip e = some (ip', r) ∧
      (∀ bp next, r = some (bp, next) → bp.data ++ next.flatten = c.packet) ∧
      ((∀ x < c.packet.length - c.uflen, Covers (e.range :: seen) x) → r.isSome) := by
  have hinv : c.Inv (ip, seen) := by
    refine hrun.invariant ⟨.inl ⟨hstart, rfl⟩⟩ fun s e s' hinv hclean hstep => ?_
    obtain ⟨r, harrive, hseen⟩ := hstep
    obtain ⟨ip', r', harrive', -, hinv', -⟩ := Cut.arrive_spec h hFH hid hinv hclean
    rw [harrive] at harrive'
    cases harrive'
    rw [← hseen] at hinv'
    exact hinv'
  obtain ⟨ip', r, harrive, hpacket, -, hdone⟩ := Cut.arrive_spec h hFH hid hinv hclean
  exact ⟨ip', r, harrive, hpacket, hdone⟩

/-- Two fragments of a packet arrive, the last one first and twice. -/
theorem restored_two :
    let c : Cut := ⟨[96, 0, 0, 0, 0, 16, 17, 64] ++ List.replicate 32 1 ++ List.replicate 16 2,
      40, 6, 17, 5⟩
    ∃ ip ip' r, Run c.Step (fun s e => c.Clean s.1 e) (⟨[], 4, 0, 0, 0, 0⟩, [])
        (ip, [⟨8, 8⟩, ⟨8, 8⟩]) ∧
      c.arrive ip { now := 3, range := ⟨0, 8⟩ } = some (ip', some r) ∧
      r.1.data ++ r.2.flatten = c.packet := by
  intro c
  have horiginal : Original c.packet c.uflen c.q c.nh :=
    ⟨.header rfl, by decide, by decide, by decide⟩
  have hlast : IsRange c.packet c.uflen 8 8 := ⟨by decide, by decide, by decide, by decide⟩
  have hfirst : IsRange c.packet c.uflen 0 8 := ⟨by decide, by decide, by decide, by decide⟩
  let e : Arrival6 := { now := 1, range := ⟨8, 8⟩ }
  let ip : IP6 :=
    { flisthead6 := [⟨[⟨8, 8, c.mem e⟩], List.replicate 16 1, List.replicate 16 1, 5, 30001⟩]
      fragfree6 := 3
      reasmReqds := 1 }
  have hcut (b : Seg) (hb : b.off + b.len ≤ 8 ∨ 16 ≤ b.off + b.len) (f : Fragment6)
      (hf : f ∈ ip.flisthead6) : ¬ Cuts b f.blist := by
    rw [List.mem_singleton.mp hf]
    rintro ⟨x, hx, hor⟩
    rw [List.mem_singleton.mp hx] at hor
    dsimp only at hor
    omega
  have hfst : c.arrive ⟨[], 4, 0, 0, 0, 0⟩ e = some (ip, none) := by decide +kernel
  have hsnd : c.arrive ip e = some (ip, none) := by decide +kernel
  have hrun₁ : Run c.Step (fun s e => c.Clean s.1 e) (⟨[], 4, 0, 0, 0, 0⟩, []) (ip, [⟨8, 8⟩]) :=
    Run.nil.snoc ⟨hlast, .inl (by decide), fun _ hf => (List.not_mem_nil hf).elim⟩ ⟨none, hfst, rfl⟩
  have hrun : Run c.Step (fun s e => c.Clean s.1 e) (⟨[], 4, 0, 0, 0, 0⟩, [])
      (ip, [⟨8, 8⟩, ⟨8, 8⟩]) :=
    hrun₁.snoc ⟨hlast, .inl (by decide), fun f hf _ => hcut _ (.inr (by decide)) f hf⟩
      ⟨none, hsnd, rfl⟩
  obtain ⟨ip', r, harrive, hpacket, hdone⟩ := restored_of_run (e := { now := 3, range := ⟨0, 8⟩ })
    horiginal (by decide) (by decide) (fun _ hf => (List.not_mem_nil hf).elim) hrun
    ⟨hfirst, .inr (by decide), fun f hf _ => hcut _ (.inl (by decide)) f hf⟩
  obtain ⟨r, rfl⟩ := Option.isSome_iff_exists.mp (hdone (by unfold Covers; decide))
  exact ⟨ip, ip', r, hrun, harrive, hpacket _ _ rfl⟩

/-- A fragment that is the whole packet is handed up with its fragment header. -/
theorem Cut.arrive_whole (h : Original c.packet c.uflen c.q c.nh) (hFH : c.nh ≠ FH)
    (hrange : IsRange c.packet c.uflen e.range.off e.range.len) (hoff : e.range.off = 0)
    (hlen : c.uflen + e.range.len = c.packet.length) :
    ∃ ip' bp, c.arrive ip e = some (ip', some (bp, [])) ∧
      bp.data = (restored c.packet c.uflen c.nh c.id 0 e.range.len ++ e.pad) := by
  obtain ⟨bp, hmem, hdata, harrive⟩ := Cut.arrive_eq ip e h
  have hzero : offsetRM bp.mem c.uflen = 0 := by
    have hoffset : offsetRM (c.mem e) c.uflen = e.range.off +
        moreflag c.packet c.uflen e.range.off e.range.len := h.offsetRM_restored hrange _
    rw [hmem, hoffset, moreflag, if_neg (by omega), hoff]
  have hun := h.unfraglen_of_head (m := bp.mem) hFH fun i hi h4 h5 =>
    hmem ▸ h.getElem?_restored hi h4 h5 _
  obtain ⟨ip', hre⟩ : ∃ ip', ip6reassemble e.now c.uflen bp ip = (ip', some (bp, [])) := by
    unfold ip6reassemble
    dsimp only
    rcases findFrag6 e.now c.uflen bp.mem ip.flisthead6 with ⟨before, r, n⟩
    dsimp only
    rw [if_pos hzero]
    rcases r with _ | ⟨f, after⟩
    · exact ⟨_, rfl⟩
    · exact ⟨_, rfl⟩
  rw [harrive, hre]
  dsimp only
  rw [hun]
  exact ⟨ip', bp, by rw [Option.map_some, store_mem], hoff ▸ hdata⟩

/-- The only fragment of a packet, whose header is left in. -/
theorem not_restored_whole :
    let c : Cut := ⟨[96, 0, 0, 0, 0, 16, 17, 64] ++ List.replicate 32 1 ++ List.replicate 16 2,
      40, 6, 17, 5⟩
    Original c.packet c.uflen c.q c.nh ∧ IsRange c.packet c.uflen 0 16 ∧
      ∃ ip bp, c.arrive ⟨[], 4, 0, 0, 0, 0⟩ { now := 1, range := ⟨0, 16⟩ } =
        some (ip, some (bp, []))
        ∧ bp.data = [96, 0, 0, 0, 0, 24, 17, 64] ++ List.replicate 32 1 ++
          [17, 0, 0, 0, 0, 0, 0, 5] ++ List.replicate 16 2 := by
  refine ⟨⟨.header rfl, by decide, by decide, by decide⟩,
    ⟨by decide, by decide, by decide, by decide⟩, ⟨[], 4, 0, 0, 0, 0⟩,
    ⟨[96, 0, 0, 0, 0, 24, 17, 64] ++ List.replicate 32 1 ++ [17, 0, 0, 0, 0, 0, 0, 5] ++
      List.replicate 16 2, []⟩, by decide +kernel, rfl⟩

end

end PlanNine.Ip6
