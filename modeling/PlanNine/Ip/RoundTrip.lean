import PlanNine.Ip.Path
import PlanNine.Lib.Run
import PlanNine.Lib.Segment
import Mathlib.Data.Nat.Bitwise

/-!
# Fragments of a path put together again

The packets at the end of a path are parts of the datagram that do not overlap. In whatever order
they arrive and however often each of them, `ip4reassemble` returns a packet exactly when all have
arrived since the last one, and it is the datagram, with the flag of its first fragment and with the
mark of `ipiput4` in its type of service.

## Main definitions

* `Datagram.mark`: the datagram with the mark.
* `Blocks`: what the queue of the datagram holds.
* `Came`, `Step`, `Inv`: the packets that have come since the last packet returned.
* `Reassembled`: a packet is the datagram.

## Main results

* `Part.mark`, `Part.fragment`: what `ipiput4` hands to `ip4reassemble`.
* `insertFrag_cell`: a part in its place.
* `arrive_spec`, `reassembled_of_run`: one packet that comes, and runs.
-/

namespace PlanNine.Ip

/-! ### Marked parts -/

/-- The datagram with the mark of a part that ends at `e`. -/
def Datagram.mark (o : Datagram) (e : ℕ) : Datagram :=
  { o with tos := if e < o.payload.length then 1 else 0 }

section

variable {o : Datagram} {d d' : List UInt8} {a n b e : ℕ}

theorem mf_le : mf o e ≤ 8192 := by
  unfold mf
  split <;> decide

theorem Part.begins_lt (hsize : IP4HDR + o.payload.length < 65536) (h : Part o d a n) :
    a / 8 < 8192 := by
  have hwithin := h.within
  simp only [IP4HDR] at hsize
  omega

/-- The flag in the field of a part. -/
theorem Part.frag_and (hsize : IP4HDR + o.payload.length < 65536) (h : Part o d a n) :
    ip4frag d &&& IP_MF ≠ 0 ↔ a + n < o.payload.length := by
  have hlt : a / 8 < 2 ^ 13 := h.begins_lt hsize
  have hbit : (a / 8).testBit 13 = false := Nat.testBit_lt_two_pow hlt
  rw [h.frag, mf, show IP_MF = 2 ^ 13 from rfl, Nat.and_two_pow]
  split
  · rename_i hmore
    rw [Nat.add_comm, Nat.testBit_two_pow_add_eq, hbit]
    exact iff_of_true (by decide) hmore
  · rename_i hmore
    rw [Nat.add_zero, hbit]
    exact iff_of_false (by decide) hmore

/-- A part with its mark. -/
theorem Part.mark (hsize : IP4HDR + o.payload.length < 65536) (h : Part o d a n) :
    Part (o.mark (a + n)) (markfrag d) a n ∧ ip4frag (markfrag d) = ip4frag d := by
  have hbytes := h.bytes
  simp only [IP4HDR] at hbytes
  have hget (j : ℕ) (hj : j ≠ 1) : (markfrag d)[j]? = d[j]? := List.getElem?_set_ne hj.symm
  have hfrag : ip4frag (markfrag d) = ip4frag d :=
    nhgets_congr (hget 6 (by decide)) (hget 7 (by decide))
  have htos : ip4tos (markfrag d) = (o.mark (a + n)).tos := by
    have hself : (markfrag d)[1]? = some (uchar (if ip4frag d &&& IP_MF ≠ 0 then 1 else 0)) :=
      List.getElem?_set_self (by omega)
    rw [ip4tos, List.getD_eq_getElem?_getD, hself, Option.getD_some, toNat_uchar, Datagram.mark]
    simp only [h.frag_and hsize]
    split <;> rfl
  refine ⟨⟨⟨?_, htos, ?_, ?_, ?_, ?_⟩, h.begins, h.ends, h.within, h.pos, ?_, hfrag.trans h.frag,
    ?_,
    ?_⟩, hfrag⟩
  · rw [ip4vihl, getD_congr (hget 0 (by decide))]
    exact h.header.vihl
  · rw [ip4id, nhgets_congr (hget 4 (by decide)) (hget 5 (by decide))]
    exact h.header.id
  · rw [ip4proto, getD_congr (hget 9 (by decide))]
    exact h.header.proto
  · rw [ip4src, nhgetl_congr fun k hk => hget (12 + k) (by omega)]
    exact h.header.src
  · rw [ip4dst, nhgetl_congr fun k hk => hget (16 + k) (by omega)]
    exact h.header.dst
  · rw [ip4length, nhgets_congr (hget 2 (by decide)) (hget 3 (by decide))]
    exact h.length_eq
  · rw [markfrag, ip4settos, List.length_set]
    exact h.bytes
  · rw [markfrag, ip4settos, List.drop_set_of_lt (by decide)]
    exact h.payload

/-- Bytes behind a part do not count. -/
theorem Part.append (h : Part o d a n) (pad : List UInt8) : Part o (d ++ pad) a n := by
  have hbytes := h.bytes
  simp only [IP4HDR] at hbytes
  have hget (j : ℕ) (hj : j < 20) : (d ++ pad)[j]? = d[j]? :=
    List.getElem?_append_left (by omega)
  refine ⟨h.header.congr fun j hj _ => hget j hj, h.begins, h.ends, h.within, h.pos, ?_, ?_, ?_, ?_⟩
  · rw [ip4length, nhgets_congr (hget 2 (by decide)) (hget 3 (by decide))]
    exact h.length_eq
  · rw [ip4frag, nhgets_congr (hget 6 (by decide)) (hget 7 (by decide))]
    exact h.frag
  · rw [List.length_append]
    simp only [IP4HDR]
    omega
  · rw [List.drop_append_of_le_length (by simp only [IP4HDR]; omega),
      List.take_append_of_le_length (by rw [List.length_drop]; simp only [IP4HDR]; omega)]
    exact h.payload

/-- The flag of a part in the first byte of its field. -/
theorem Part.mf_iff (hsize : IP4HDR + o.payload.length < 65536) (h : Part o d a n) :
    ip4mf d = 0 ↔ a + n = o.payload.length := by
  have hlt := h.begins_lt hsize
  have hfrag := h.frag
  have hwithin := h.within
  have hall : ∀ x < 64, (x &&& (IP_MF >>> 8) = 0 ↔ x < 32) := by decide
  rw [ip4frag, nhgets] at hfrag
  simp only [List.getD_eq_getElem?_getD, List.getElem?_drop, Nat.add_zero] at hfrag
  have hbyte : (d[6 + 1]?.getD 0).toNat < 256 := UInt8.toNat_lt _
  rw [ip4mf, List.getD_eq_getElem?_getD]
  rw [mf] at hfrag
  split at hfrag
  · simp only [IP_MF] at hfrag
    rw [hall _ (by omega)]
    omega
  · rw [hall _ (by omega)]
    omega

/-- A marked part is a fragment. -/
theorem Part.fragment (hsize : IP4HDR + o.payload.length < 65536) (h : Part o d a n)
    (htos : o.tos = if a + n < o.payload.length then 1 else 0) : Fragment o.payload d := by
  have hlt := h.begins_lt hsize
  have hlength : ip4length d - IP4HDR = n := by
    rw [h.length_eq, Nat.add_sub_cancel_left]
  have hoffset : ip4offset d = a := by
    have hbegins := h.begins
    rw [ip4offset, h.frag, Nat.shiftLeft_eq, mf]
    split
    · simp only [IP_MF]
      omega
    · omega
  have hmf := h.mf_iff hsize
  refine ⟨?_, ?_, ?_, ?_, ?_, ?_, ?_, ?_⟩
  · rw [h.length_eq]
    exact Nat.le_add_right _ _
  · rw [hoffset, hlength]
    exact h.within
  · rw [hoffset, hlength]
    have hbegins := h.begins
    have hends := h.ends
    omega
  · rw [hoffset, hlength]
    exact hmf
  · have hwithin := h.within
    rw [h.header.tos, htos]
    by_cases hmore : a + n < o.payload.length
    · rw [if_pos hmore, if_neg (by rw [hmf]; omega)]
    · rw [if_neg hmore, if_pos (by rw [hmf]; omega)]
  · have hle : mf o (a + n) ≤ 8192 := mf_le
    rw [h.frag]
    omega
  · rw [h.length_eq]
    exact h.bytes
  · rw [hoffset, hlength]
    exact h.payload

/-- A packet holds one range. -/
theorem Part.unique (hsize : IP4HDR + o.payload.length < 65536) (h : Part o d a n)
    (h' : Part o d b e) : a = b ∧ n = e := by
  have hn : n = e := by
    have hlen := h.length_eq
    rw [h'.length_eq] at hlen
    omega
  refine ⟨?_, hn⟩
  have hlt := h.begins_lt hsize
  have hlt' := h'.begins_lt hsize
  have hbegins := h.begins
  have hbegins' := h'.begins
  have hfrag := h.frag
  rw [h'.frag, mf, mf] at hfrag
  simp only [IP_MF] at hfrag
  split at hfrag <;> split at hfrag <;> omega

/-- Two packets of a path are the same one, or one ends before the other begins. -/
theorem Split.disjoint {l : List (List UInt8)} {s t m : ℕ}
    (hsize : IP4HDR + o.payload.length < 65536) (h : Split o s l t) (hd : d ∈ l) (hd' : d' ∈ l)
    (hpart : Part o d a n) (hpart' : Part o d' b m) : d = d' ∨ a + n ≤ b ∨ b + m ≤ a := by
  induction h with
  | nil => cases hd
  | @cons s k t c l hc hl ih =>
    have hbehind {c' : List UInt8} {a' n' : ℕ} (hc' : c' ∈ l) (hp : Part o c' a' n') :
        s + k ≤ a' := by
      obtain ⟨b', m', hp', hle, -⟩ := hl.mem hc'
      obtain ⟨rfl, -⟩ := hp.unique hsize hp'
      exact hle
    rcases List.mem_cons.mp hd with hc₁ | hd₁ <;> rcases List.mem_cons.mp hd' with hc₂ | hd₂
    · exact .inl (hc₁.trans hc₂.symm)
    · obtain ⟨rfl, rfl⟩ := hpart.unique hsize (hc₁ ▸ hc)
      exact .inr (.inl (hbehind hd₂ hpart'))
    · obtain ⟨rfl, rfl⟩ := hpart'.unique hsize (hc₂ ▸ hc)
      exact .inr (.inr (hbehind hd₁ hpart))
    · exact ih hd₁ hd₂

end

/-! ### Queues of parts -/

/-- The place of a block. -/
def Frag.seg (x : Frag) : Seg := ⟨x.foff, x.flen⟩

/-- The block `x` holds the part that `bp` holds, or ends before it or begins behind it. -/
def Apart (bp x : Frag) : Prop :=
  x.foff = bp.foff ∧ x.flen = bp.flen ∨ x.foff + x.flen ≤ bp.foff ∨ bp.foff + bp.flen ≤ x.foff

section

variable {o : Datagram} {bp x : Frag} {l l' : List Frag} {seen : List (List UInt8)}

/-- What comes behind a part stays, and the part itself is taken out. -/
theorem coverNext_apart (hpos : 0 < bp.flen)
    (h : ∀ y ∈ l, y.foff = bp.foff ∧ y.flen = bp.flen ∨ bp.foff + bp.flen ≤ y.foff) :
    (∀ y ∈ coverNext (bp.foff + bp.flen) l, y ∈ l) ∧
      ∀ y ∈ l, y ∈ coverNext (bp.foff + bp.flen) l ∨ y.seg = bp.seg := by
  induction l with
  | nil => exact ⟨by simp [coverNext], nofun⟩
  | cons x l ih =>
    have hx := h x List.mem_cons_self
    rw [coverNext]
    split
    · exact ⟨fun y hy => hy, fun y hy => .inl hy⟩
    · rename_i hlt
      obtain ⟨hfoff, hflen⟩ := hx.resolve_right hlt
      rw [if_neg (by omega)]
      obtain ⟨hsub, hkept⟩ := ih fun y hy => h y (List.mem_cons_of_mem _ hy)
      refine ⟨fun y hy => List.mem_cons_of_mem _ (hsub y hy), fun y hy => ?_⟩
      obtain rfl | hy := List.mem_cons.mp hy
      · refine .inr ?_
        rw [Frag.seg, hfoff, hflen]
        rfl
      · exact hkept y hy

theorem foff_le_of_dropWhile (hsort : l.Pairwise Before)
    (hx : x ∈ l.dropWhile fun bl => bl.foff < bp.foff) : bp.foff ≤ x.foff := by
  have hpair : (l.map Frag.seg).Pairwise Seg.Before := List.pairwise_map.mpr hsort
  refine (takeWhile_spec (b := bp.seg) hpair).2.2.2 x.seg ?_
  rw [List.dropWhile_map]
  exact List.mem_map_of_mem hx

/-- A part in its place: nothing is cut, and a block of the same part is replaced. -/
theorem insertFrag_apart (hpos : 0 < bp.flen) (hlpos : ∀ y ∈ l, 0 < y.flen)
    (h : ∀ y ∈ l, Apart bp y) (hsort : l.Pairwise Before) :
    ∃ l', insertFrag bp l = some l' ∧ bp ∈ l' ∧ (∀ y ∈ l', y = bp ∨ y ∈ l) ∧
      ∀ y ∈ l, y ∈ l' ∨ y.seg = bp.seg := by
  have hbefore (y : Frag) (hy : y ∈ l.takeWhile fun bl => bl.foff < bp.foff) : y ∈ l ∧
      y.foff + y.flen ≤ bp.foff := by
    have hlt := List.mem_takeWhile_imp hy
    have hlt : y.foff < bp.foff := of_decide_eq_true hlt
    have hmem := (List.takeWhile_sublist _).subset hy
    have hy := h y hmem
    unfold Apart at hy
    exact ⟨hmem, by omega⟩
  have hafter (y : Frag) (hy : y ∈ l.dropWhile fun bl => bl.foff < bp.foff) :
      y.foff = bp.foff ∧ y.flen = bp.flen ∨ bp.foff + bp.flen ≤ y.foff := by
    have hge := foff_le_of_dropWhile hsort hy
    have hmem := (List.dropWhile_sublist _).subset hy
    have hflen := hlpos y hmem
    have hy := h y hmem
    unfold Apart at hy
    omega
  obtain ⟨hsub, hkept⟩ := coverNext_apart hpos hafter
  have hins : insertFrag bp l = some ((l.takeWhile fun bl => bl.foff < bp.foff) ++
      bp :: coverNext (bp.foff + bp.flen) (l.dropWhile fun bl => bl.foff < bp.foff)) := by
    unfold insertFrag
    dsimp only
    rcases hlast : (l.takeWhile fun bl => bl.foff < bp.foff).getLast? with _ | prev
    · have hnil := List.getLast?_eq_none_iff.mp hlast
      simp only [hlast]
      rw [hnil, List.nil_append]
    · have hend := (hbefore prev (List.mem_of_getLast? hlast)).2
      simp only [hlast]
      rw [if_neg (by omega)]
  refine ⟨_, hins, by simp, fun y hy => ?_, fun y hy => ?_⟩
  · obtain hy | hy := List.mem_append.mp hy
    · exact .inr (hbefore y hy).1
    · obtain rfl | hy := List.mem_cons.mp hy
      · exact .inl rfl
      · exact .inr ((List.dropWhile_sublist _).subset (hsub y hy))
  · rw [← List.takeWhile_append_dropWhile (p := fun bl => bl.foff < bp.foff) (l := l)] at hy
    obtain hy | hy := List.mem_append.mp hy
    · exact .inl (List.mem_append_left _ hy)
    · refine (hkept y hy).imp_left fun hy => ?_
      exact List.mem_append_right _ (List.mem_cons_of_mem _ hy)

end

/-! ### Complete queues -/

/-- The queue holds the packets that have come, each at its place and with its mark. -/
structure Blocks (o : Datagram) (seen : List (List UInt8)) (l : List Frag) : Prop where
  parts : ∀ x ∈ l, ∃ d ∈ seen, Part o d x.foff x.flen ∧
    Part (o.mark (x.foff + x.flen)) x.data x.foff x.flen
  sorted : l.Pairwise Before
  holds : ∀ d ∈ seen, ∀ a n, Part o d a n → ∃ x ∈ l, x.foff = a ∧ x.flen = n

/-- The blocks `c` are the datagram, with the flag of a first fragment and with its mark. -/
structure Reassembled (o : Datagram) (c : List (List UInt8)) : Prop where
  exact : Exact o.payload c
  header : Header { o with tos := 1 } c.flatten
  frag : ip4frag c.flatten = IP_MF

section

variable {o : Datagram} {d : List UInt8} {a n : ℕ} {x : Frag} {l : List Frag}
  {seen frames : List (List UInt8)}

/-- The block of a part that comes. -/
theorem Part.mkFrag (hsize : IP4HDR + o.payload.length < 65536) (h : Part o d a n)
    (pad : List UInt8) : ∃ bp, mkFrag (ip4frag (markfrag (d ++ pad))) (markfrag (d ++ pad)) = bp ∧
      bp.foff = a ∧ bp.flen = n ∧ Part (o.mark (a + n)) bp.data a n := by
  obtain ⟨hmark, -⟩ := (h.append pad).mark hsize
  have hfragment : Fragment (o.mark (a + n)).payload (markfrag (d ++ pad)) :=
    hmark.fragment hsize rfl
  refine ⟨_, rfl, ?_, ?_, hmark⟩
  · have hlt := h.begins_lt hsize
    have hbegins := hmark.begins
    have hle : mf (o.mark (a + n)) (a + n) ≤ 8192 := mf_le
    change (ip4frag (markfrag (d ++ pad)) <<< 3) % 65536 = a
    rw [hmark.frag, Nat.shiftLeft_eq, mf]
    split
    · simp only [IP_MF]
      omega
    · omega
  · rw [mkFrag_flen hfragment, hmark.length_eq, Nat.add_sub_cancel_left]

/-- The block of a queue is a piece of the datagram. -/
theorem Blocks.pieces (hsize : IP4HDR + o.payload.length < 65536) (h : Blocks o seen l) :
    Pieces o.payload l := by
  refine ⟨fun x hx => ?_, h.sorted⟩
  obtain ⟨d, -, -, hpart⟩ := h.parts x hx
  have hlen := hpart.length_eq
  refine ⟨hpart.within, hpart.bytes, hpart.payload, 
    fun hmf => (Part.mf_iff (o := o.mark (x.foff + x.flen)) hsize hpart).mp hmf,
    fun hzero => ⟨x.flen, hlen, le_rfl, ?_, hpart.bytes, ?_⟩⟩
  · have := hpart.within
    simp only [Datagram.mark] at this
    omega
  · rw [hpart.payload, hzero, slice_zero_left]
    rfl

/-- The flag tells the last block. -/
theorem complete_eq (hsize : IP4HDR + o.payload.length < 65536)
    (h : ∀ x ∈ l, Part (o.mark (x.foff + x.flen)) x.data x.foff x.flen) (pos : ℕ) :
    complete pos l = full o.payload.length pos (l.map Frag.seg) := by
  induction l generalizing pos with
  | nil => rfl
  | cons x l ih =>
    have hmf : ip4mf x.data = 0 ↔ x.seg.off + x.seg.len = o.payload.length :=
      Part.mf_iff (o := o.mark (x.foff + x.flen)) hsize (h x List.mem_cons_self)
    have hoff : x.seg.off = x.foff := rfl
    have hend : x.seg.off + x.seg.len = x.foff + x.flen := rfl
    rw [complete, List.map_cons, full]
    simp only [hmf]
    rw [ih fun y hy => h y (List.mem_cons_of_mem _ hy)]
    by_cases hpos : x.foff = pos
    · rw [if_neg (not_not_intro hpos), if_neg (not_not_intro (hoff.trans hpos)), hend, hpos]
    · rw [if_pos hpos, if_pos (hoff ▸ hpos)]

/-- The queue is complete when all packets of the path have come, and not before. -/
theorem Blocks.complete_iff (hsize : IP4HDR + o.payload.length < 65536)
    (hpos : 0 < o.payload.length) (hframes : Split o 0 frames o.payload.length)
    (hseen : seen ⊆ frames) (h : Blocks o seen l) :
    complete 0 l = true ↔ ∀ d ∈ frames, d ∈ seen := by
  have hmark (x : Frag) (hx : x ∈ l) :
      Part (o.mark (x.foff + x.flen)) x.data x.foff x.flen := by
    obtain ⟨d, -, -, hpart⟩ := h.parts x hx
    exact hpart
  rw [complete_eq hsize hmark]
  constructor
  · intro hfull d hd
    obtain ⟨a, n, hpart, -, -⟩ := hframes.mem hd
    have hn : 0 < n := by
      have := hpart.pos
      omega
    have hwithin := hpart.within
    obtain ⟨s, hs, hle, hlt⟩ := covers_of_full hfull (Nat.zero_le a) (by omega)
    obtain ⟨x, hx, rfl⟩ := List.mem_map.mp hs
    obtain ⟨d', hd', hpart', -⟩ := h.parts x hx
    simp only [Frag.seg] at hle hlt
    obtain rfl | hout | hout := hframes.disjoint hsize hd (hseen hd') hpart hpart'
    · exact hd'
    · omega
    · omega
  · intro hall
    refine full_of_covers (List.pairwise_map.mpr h.sorted) hpos (fun _ _ => Nat.zero_le _)
      (fun s hs => ?_) fun x _ hx => ?_
    · obtain ⟨x, hx, rfl⟩ := List.mem_map.mp hs
      exact (hmark x hx).within
    · obtain ⟨d, hd, b, n, hpart, hle, hlt⟩ := hframes.covers (Nat.zero_le x) hx
      obtain ⟨y, hy, hfoff, hflen⟩ := h.holds d (hall d hd) b n hpart
      refine ⟨y.seg, List.mem_map_of_mem hy, ?_, ?_⟩
      · exact hfoff.le.trans hle
      · change x < y.foff + y.flen
        omega

/-- The packet made of a complete queue. -/
theorem Blocks.reassembled (hsize : IP4HDR + o.payload.length < 65536)
    (hfrag : ∀ d ∈ seen, ip4frag d ≠ 0) (h : Blocks o seen l) (hc : complete 0 l = true) :
    Reassembled o (pullup l) := by
  cases l with
  | nil => cases hc
  | cons x l =>
    have hfoff : x.foff = 0 := by
      by_contra hne
      simp [complete, hne] at hc
    obtain ⟨d, hd, hpart, hmark⟩ := h.parts x List.mem_cons_self
    have hbytes := hmark.bytes
    -- a first part that is not the last one
    have hmore : x.foff + x.flen < o.payload.length := by
      by_contra hlast
      refine hfrag d hd ?_
      rw [hpart.frag, hfoff, mf, if_neg (by omega)]
    have htake : IP4HDR + x.flen ≤ (x.data.take (ip4length x.data)).length := by
      rw [List.length_take, hmark.length_eq]
      omega
    have hget (j : ℕ) (hj : j < 2 ∨ 4 ≤ j) (hj' : j < 20) :
        (pullup (x :: l)).flatten[j]? = x.data[j]? := by
      have hset (len : ℕ) : ip4setlength (x.data.take (ip4length x.data)) len =
          putshort (x.data.take (ip4length x.data)) 2 len := rfl
      simp only [IP4HDR] at htake
      unfold pullup
      rw [List.flatten_cons, hset, List.getElem?_append_left (by rw [length_putshort] <;> omega),
        getElem?_putshort (by omega) (by omega), List.getElem?_take_of_lt]
      rw [hmark.length_eq]
      simp only [IP4HDR]
      omega
    refine ⟨(exact_pullup_iff hsize (h.pieces hsize) hc).mpr hmark.length_eq, ?_, ?_⟩
    · have hheader := hmark.header
      rw [Datagram.mark, if_pos hmore] at hheader
      exact hheader.congr fun j hj hor => hget j (by omega) hj
    · rw [ip4frag, nhgets_congr (hget 6 (by omega) (by omega)) (hget 7 (by omega) (by omega))]
      refine hmark.frag.trans ?_
      have hlt : 0 + x.flen < (o.mark (0 + x.flen)).payload.length := hfoff ▸ hmore
      rw [hfoff, mf, if_pos hlt, Nat.zero_div, Nat.zero_add]

end

/-! ### Runs -/

/-- A packet that comes: when, the packet, and what the medium has put behind it. -/
structure Came where
  now : ℕ
  pkt : List UInt8
  pad : List UInt8 := []

/-- `ipiput4` hands a fragment to `ip4reassemble`. -/
def IP.come (ip : IP) (e : Came) : IP × Option (List (List UInt8)) :=
  ip4reassemble e.now (ip4frag (markfrag (e.pkt ++ e.pad))) (markfrag (e.pkt ++ e.pad)) ip

/-- A step: the packets since one was returned are kept beside the queues. -/
def Step (s : IP × List (List UInt8)) (e : Came) (s' : IP × List (List UInt8)) : Prop :=
  s' = ((s.1.come e).1, if (s.1.come e).2.isSome then [] else e.pkt :: s.2)

/-- What names the datagram. -/
def Datagram.key (o : Datagram) : Key := ⟨o.src, o.dst, o.id⟩

/-- The queue of the datagram, if there is one, is the first one, holds what has come, and is not
complete. -/
def Inv (o : Datagram) (frames : List (List UInt8)) (s : IP × List (List UInt8)) : Prop :=
  s.2 ⊆ frames ∧
    ((∀ f ∈ s.1.flisthead4, f.key ≠ o.key) ∧ s.2 = [] ∨
      ∃ f fs, s.1.flisthead4 = f :: fs ∧ f.key = o.key ∧ (∀ g ∈ fs, g.key ≠ o.key) ∧
        Blocks o s.2 f.blist ∧ ¬ ∀ d ∈ frames, d ∈ s.2)

section

variable {o : Datagram} {d : List UInt8} {a n now : ℕ} {ip : IP} {f : Fragment4}
  {fs : List Fragment4} {seen frames : List (List UInt8)} {e : Came}

/-- A fragment without a queue gets one. -/
theorem ip4reassemble_new (now : ℕ) (hwhole : ¬ (ip4tos d = 0 ∧
      ip4frag d &&& (0xffff ^^^ (IP_MF ||| IP_DF)) = 0))
    (h : ∀ f ∈ ip.flisthead4, f.key ≠ keyOf d) :
    ∃ ip' f fs, ip4reassemble now (ip4frag d) d ip = (ip', none) ∧ ip'.flisthead4 = f :: fs ∧
      f.blist = [mkFrag (ip4frag d) d] ∧ f.key = keyOf d ∧ fs ⊆ ip.flisthead4 := by
  obtain ⟨hsub, -, hsome⟩ := findFrag_spec now d ip.flisthead4
  unfold ip4reassemble
  rcases hfind : findFrag now d ip.flisthead4 with ⟨before, _ | ⟨f, after⟩, n⟩
  · rw [hfind] at hsub
    dsimp only
    rw [if_neg hwhole]
    dsimp only [ipfragallo4]
    split
    · exact ⟨_, _, _, rfl, rfl, rfl, rfl,
        fun f hf => hsub f (List.mem_of_mem_dropLast hf)⟩
    · exact ⟨_, _, _, rfl, rfl, rfl, rfl, hsub⟩
  · rw [hfind] at hsome
    obtain ⟨hfound, hf, -⟩ := hsome f after rfl
    exact (h f hf (key_of_find hfound)).elim

/-- A fragment goes to the queue at the head. -/
theorem ip4reassemble_cons (now : ℕ) (hwhole : ¬ (ip4tos d = 0 ∧
      ip4frag d &&& (0xffff ^^^ (IP_MF ||| IP_DF)) = 0))
    (hlist : ip.flisthead4 = f :: fs) (h : f.key = keyOf d) {l : List Frag}
    (hins : insertFrag (mkFrag (ip4frag d) d) f.blist = some l) :
    (complete 0 l = true → ∃ ip', ip4reassemble now (ip4frag d) d ip = (ip', some (pullup l)) ∧
      ip'.flisthead4 = fs) ∧
    (complete 0 l = false → ∃ ip', ip4reassemble now (ip4frag d) d ip = (ip', none) ∧
      ip'.flisthead4 = { f with blist := l } :: fs) := by
  have hfind : findFrag now d (f :: fs) = ([], some (f, fs), 0) := by
    rw [findFrag, if_pos (holds_iff.mpr h)]
  unfold ip4reassemble
  rw [hlist, hfind]
  dsimp only
  rw [if_neg hwhole, hins]
  refine ⟨fun hc => ?_, fun hc => ?_⟩
  · dsimp only
    rw [if_pos hc]
    exact ⟨_, rfl, rfl⟩
  · dsimp only
    rw [hc]
    exact ⟨_, rfl, rfl⟩

/-- A packet of the path that is a fragment is not the whole datagram. -/
theorem Part.not_whole (h : Part o d a n) (hfrag : ip4frag d ≠ 0) :
    ¬ (a = 0 ∧ n = o.payload.length) := by
  rintro ⟨rfl, rfl⟩
  refine hfrag ?_
  rw [h.frag, mf, if_neg (by omega)]

/-- A part put in its place in a queue of the datagram. -/
theorem Blocks.insert (hsize : IP4HDR + o.payload.length < 65536) (hpos : 0 < o.payload.length)
    (hframes : Split o 0 frames o.payload.length) (hseen : seen ⊆ frames) {l : List Frag}
    (h : Blocks o seen l) (hd : d ∈ frames) (hpart : Part o d a n) {bp : Frag} (hfoff : bp.foff = a)
    (hflen : bp.flen = n) (hmark : Part (o.mark (a + n)) bp.data a n)
    (hpiece : Piece o.payload bp) :
    ∃ l', insertFrag bp l = some l' ∧ Blocks o (d :: seen) l' := by
  have hn (y : Frag) (hy : y ∈ l) : 0 < y.flen := by
    obtain ⟨d', -, hpart', -⟩ := h.parts y hy
    have := hpart'.pos
    omega
  have hapart (y : Frag) (hy : y ∈ l) : Apart bp y := by
    obtain ⟨d', hd', hpart', -⟩ := h.parts y hy
    unfold Apart
    obtain rfl | hout | hout := hframes.disjoint hsize hd (hseen hd') hpart hpart'
    · obtain ⟨heq, heq'⟩ := hpart.unique hsize hpart'
      omega
    · omega
    · omega
  have hbp : 0 < bp.flen := by
    have := hpart.pos
    omega
  obtain ⟨l', hins, hmem, hsub, hkept⟩ := insertFrag_apart hbp hn hapart h.sorted
  simp only [IP4HDR] at hsize
  refine ⟨l', hins, ⟨fun y hy => ?_,
    (pieces_insertFrag (by omega) (h.pieces (by simpa only [IP4HDR])) hpiece hins).sorted,
    fun d' hd' b m hpart' => ?_⟩⟩
  · obtain rfl | hy := hsub y hy
    · refine ⟨d, List.mem_cons_self, ?_, ?_⟩
      · rw [hfoff, hflen]
        exact hpart
      · rw [hfoff, hflen]
        exact hmark
    · obtain ⟨d', hd', hparts⟩ := h.parts y hy
      exact ⟨d', List.mem_cons_of_mem _ hd', hparts⟩
  · obtain rfl | hd' := List.mem_cons.mp hd'
    · obtain ⟨rfl, rfl⟩ := hpart.unique (by simpa only [IP4HDR]) hpart'
      exact ⟨bp, hmem, hfoff, hflen⟩
    · obtain ⟨y, hy, hyfoff, hyflen⟩ := h.holds d' hd' b m hpart'
      obtain hy | heq := hkept y hy
      · exact ⟨y, hy, hyfoff, hyflen⟩
      · obtain ⟨heq, heq'⟩ := Seg.mk.inj heq
        exact ⟨bp, hmem, heq ▸ hyfoff, heq' ▸ hyflen⟩

/-- One packet that comes: a packet is returned if and only if all have come since the last one, and
it is the datagram. -/
theorem come_spec (hsize : IP4HDR + o.payload.length < 65536)
    (hframes : Split o 0 frames o.payload.length) (hfrag : ∀ d ∈ frames, ip4frag d ≠ 0)
    (hinv : Inv o frames (ip, seen)) (he : e.pkt ∈ frames) :
    ((ip.come e).2.isSome ↔ ∀ d ∈ frames, d ∈ e.pkt :: seen) ∧
      (∀ c, (ip.come e).2 = some c → Reassembled o c) ∧
      Inv o frames ((ip.come e).1, if (ip.come e).2.isSome then [] else e.pkt :: seen) := by
  obtain ⟨hseen, hqueue⟩ := hinv
  dsimp only at hseen
  obtain ⟨a, n, hpart, -, -⟩ := hframes.mem he
  have hnot := hpart.not_whole (hfrag _ he)
  have hwithin := hpart.within
  have hpos : 0 < o.payload.length := by omega
  obtain ⟨bp, hbp, hfoff, hflen, hmark⟩ := hpart.mkFrag hsize e.pad
  obtain ⟨hpkt, -⟩ := (hpart.append e.pad).mark hsize
  have hfragment : Fragment o.payload (markfrag (e.pkt ++ e.pad)) :=
    Part.fragment (o := o.mark (a + n)) hsize hpkt rfl
  have hpiece : Piece o.payload bp := hbp ▸ piece_mkFrag hfragment
  have hwhole : ¬ (ip4tos (markfrag (e.pkt ++ e.pad)) = 0 ∧
      ip4frag (markfrag (e.pkt ++ e.pad)) &&& (0xffff ^^^ (IP_MF ||| IP_DF)) = 0) := by
    intro hwhole
    obtain ⟨-, hlen, -⟩ := whole_of_tos hfragment hwhole
    have := hpkt.length_eq
    omega
  have hkey : keyOf (markfrag (e.pkt ++ e.pad)) = o.key := by
    rw [keyOf, hpkt.header.src, hpkt.header.dst, hpkt.header.id]
    rfl
  have hseen' : e.pkt :: seen ⊆ frames := List.cons_subset.mpr ⟨he, hseen⟩
  obtain ⟨hnone, hnil⟩ | ⟨f, fs, hlist, hf, hother, hblocks, hopen⟩ := hqueue
  · dsimp only at hnone hnil
    obtain ⟨ip', f, fs, hre, hlist, hblist, hf, hsub⟩ := ip4reassemble_new e.now hwhole
      fun f hf => hkey ▸ hnone f hf
    have hcome : ip.come e = (ip', none) := hre
    have hempty : Blocks o [] [] := ⟨List.forall_mem_nil _, .nil, List.forall_mem_nil _⟩
    obtain ⟨l, hins, hblocks⟩ := hempty.insert hsize hpos hframes (List.nil_subset _) he hpart hfoff
      hflen hmark hpiece
    have hl : l = [bp] := by
      simpa [insertFrag, coverNext] using hins.symm
    have hmissing : ¬ ∀ d ∈ frames, d ∈ e.pkt :: seen := by
      rw [hnil]
      intro hall
      have hc := (hblocks.complete_iff hsize hpos hframes (hnil ▸ hseen')).mpr hall
      rw [hl, complete_eq hsize (by simpa [hfoff, hflen] using hmark)] at hc
      simp only [List.map_singleton, full, Frag.seg] at hc
      split at hc
      · cases hc
      · split at hc
        · omega
        · cases hc
    rw [hcome]
    refine ⟨iff_of_false Bool.false_ne_true hmissing, by rintro _ ⟨⟩, hseen', .inr ⟨f, fs, hlist, hf.trans hkey,
      fun g hg => hnone g (hsub hg), ?_, hmissing⟩⟩
    rw [hblist, hbp, ← hl, hnil]
    exact hblocks
  · dsimp only at hlist hblocks hopen
    obtain ⟨l, hins, hblocks'⟩ := hblocks.insert hsize hpos hframes hseen he hpart hfoff hflen hmark
      hpiece
    have hiff := hblocks'.complete_iff hsize hpos hframes hseen'
    obtain ⟨hdone, hmore⟩ := ip4reassemble_cons e.now hwhole hlist (hf.trans hkey.symm)
      (hbp.symm ▸ hins)
    rcases hc : complete 0 l with _ | _
    · obtain ⟨ip', hre, hlist'⟩ := hmore hc
      have hcome : ip.come e = (ip', none) := hre
      have hmissing : ¬ ∀ d ∈ frames, d ∈ e.pkt :: seen := fun hall => by
        rw [hiff.mpr hall] at hc
        cases hc
      rw [hcome]
      exact ⟨iff_of_false Bool.false_ne_true hmissing, by rintro _ ⟨⟩, hseen',
        .inr ⟨_, fs, hlist', hf, hother, hblocks', hmissing⟩⟩
    · obtain ⟨ip', hre, hlist'⟩ := hdone hc
      have hcome : ip.come e = (ip', some (pullup l)) := hre
      rw [hcome]
      refine ⟨iff_of_true rfl (hiff.mp hc), fun c hsome => ?_, List.nil_subset _, .inl ⟨?_, rfl⟩⟩
      · rw [← Option.some.inj hsome]
        exact hblocks'.reassembled hsize (fun d hd => hfrag d (hseen' hd)) hc
      · dsimp only
        rw [hlist']
        exact hother

/-- Runs in which fragments come that hold the datagram. -/
theorem come_of_run (hsize : IP4HDR + o.payload.length < 65536)
    (hframes : Split o 0 frames o.payload.length) (hfrag : ∀ d ∈ frames, ip4frag d ≠ 0) {ip₀ : IP}
    (h0 : ∀ f ∈ ip₀.flisthead4, f.key ≠ o.key)
    (hrun : Run Step (fun _ e => e.pkt ∈ frames) (ip₀, []) (ip, seen)) (he : e.pkt ∈ frames) :
    ((ip.come e).2.isSome ↔ ∀ d ∈ frames, d ∈ e.pkt :: seen) ∧
      ∀ c, (ip.come e).2 = some c → Reassembled o c := by
  have hinv : Inv o frames (ip, seen) := by
    refine hrun.invariant ⟨List.nil_subset _, .inl ⟨h0, rfl⟩⟩ fun s e s' hinv he hstep => ?_
    obtain ⟨-, -, hinv'⟩ := come_spec hsize hframes hfrag hinv he
    rw [hstep]
    exact hinv'
  obtain ⟨hiff, hdatagram, -⟩ := come_spec hsize hframes hfrag hinv he
  exact ⟨hiff, hdatagram⟩

/-- In every run in which the packets of a path come in any order and any number of times, a packet
is returned if and only if all of them have come since the last one was, and it is the datagram. -/
theorem reassembled_of_run (hsize : o.payload.length ≤ 65515) {l : List (List UInt8)}
    {hops : List Hop} (hl : Emitted o l) (hopen : ∀ h ∈ hops, h.Open o)
    (hfrag : ∀ d ∈ path hops l, ip4frag d ≠ 0) {ip₀ : IP} (h0 : ∀ f ∈ ip₀.flisthead4, f.key ≠ o.key)
    (hrun : Run Step (fun _ e => e.pkt ∈ path hops l) (ip₀, []) (ip, seen))
    (he : e.pkt ∈ path hops l) :
    ((ip.come e).2.isSome ↔ ∀ d ∈ path hops l, d ∈ e.pkt :: seen) ∧
      ∀ c, (ip.come e).2 = some c → Reassembled o c := by
  have hsize' : IP4HDR + o.payload.length < 65536 := by
    simp only [IP4HDR]
    omega
  exact come_of_run hsize' (hl.split.path hsize' hopen) hfrag h0 hrun he

end

/-! ### A datagram in two fragments -/

/-- A datagram of 16 fives with a type of service. -/
def fives : List UInt8 :=
  [0x45, 8] ++ hnputs 36 ++ hnputs 7 ++ hnputs 0 ++ [64, 17, 0, 0] ++ hnputl 1 ++ hnputl 2 ++
    List.replicate 16 5

def fivesDatagram : Datagram := ⟨8, 7, 17, 1, 2, List.replicate 16 5⟩

/-- A gateway that has one interface, which takes 28 bytes. -/
def narrow : Hop where
  fs :=
    { ipforme := fun _ => false
      iprouting := true
      v4lookup := fun _ => some ⟨⟨⟨28, 0, 0, true, false⟩, 0⟩, [], true, false, true⟩ }
  id4 := 0
  ttl := 63
  tos := 8

/-- What leaves the gateway. -/
def fivesFirst : List UInt8 :=
  [69, 8, 0, 28, 0, 7, 32, 0, 63, 17, 91, 192, 0, 0, 0, 1, 0, 0, 0, 2, 5, 5, 5, 5, 5, 5, 5, 5]

def fivesLast : List UInt8 :=
  [69, 8, 0, 28, 0, 7, 0, 1, 63, 17, 123, 191, 0, 0, 0, 1, 0, 0, 0, 2, 5, 5, 5, 5, 5, 5, 5, 5]

theorem path_fives : Emitted fivesDatagram [fives] ∧ (∀ h ∈ [narrow], h.Open fivesDatagram) ∧
    path [narrow] [fives] = [fivesFirst, fivesLast] := by
  refine ⟨.whole ⟨⟨by decide, by decide, by decide, by decide, by decide, by decide⟩, by decide,
    by decide, by decide, by decide, by decide, by decide, by decide, by decide⟩, fun h hh => ?_,
    by decide +kernel⟩
  rw [List.mem_singleton.mp hh]
  exact fun d _ => ⟨_, rfl, rfl, rfl, (by decide : (28 : ℤ) ≤ 28 - (0 : ℕ))⟩

/-- The last fragment comes first, and twice. -/
theorem reassembled_fives : ∃ ip c,
    (IP.come ip ⟨3, fivesFirst, []⟩).2 = some c ∧ Reassembled fivesDatagram c := by
  obtain ⟨hemitted, hopen, hpath⟩ := path_fives
  have hlast : fivesLast ∈ path [narrow] [fives] := by
    rw [hpath]
    decide
  have hstart : ∀ f ∈ (initfrag 1).flisthead4, f.key ≠ fivesDatagram.key :=
    fun _ hf => (List.not_mem_nil hf).elim
  let ip := ((initfrag 1).come ⟨1, fivesLast, []⟩).1
  have hrun₁ : Run Step (fun _ e => e.pkt ∈ path [narrow] [fives]) (initfrag 1, [])
      (ip, [fivesLast]) := Run.nil.snoc (e := ⟨1, fivesLast, []⟩) hlast rfl
  have hrun : Run Step (fun _ e => e.pkt ∈ path [narrow] [fives]) (initfrag 1, [])
      ((ip.come ⟨2, fivesLast, []⟩).1, [fivesLast, fivesLast]) :=
    hrun₁.snoc (e := ⟨2, fivesLast, []⟩) hlast rfl
  obtain ⟨hiff, hdatagram⟩ :=
    reassembled_of_run (e := ⟨3, fivesFirst, []⟩) (by decide) hemitted hopen
    (by rw [hpath]; decide) hstart hrun (by rw [hpath]; decide)
  obtain ⟨c, hc⟩ := Option.isSome_iff_exists.mp (hiff.mpr (by rw [hpath]; decide))
  exact ⟨_, c, hc, hdatagram c hc⟩

/-- The packet put together has the mark for its type of service and the flag of a fragment. -/
theorem not_tos_of_fives : Emitted fivesDatagram [fives] ∧ (∀ h ∈ [narrow], h.Open fivesDatagram) ∧
    path [narrow] [fives] = [fivesFirst, fivesLast] ∧
      ∃ c, (((initfrag 1).come ⟨1, fivesFirst, []⟩).1.come ⟨2, fivesLast, []⟩).2 = some c ∧
        ip4tos c.flatten = 1 ∧ fivesDatagram.tos = 8 ∧ ip4mf c.flatten ≠ 0 :=
  ⟨path_fives.1, path_fives.2.1, path_fives.2.2, _, rfl, by decide, rfl, by decide⟩

end PlanNine.Ip
