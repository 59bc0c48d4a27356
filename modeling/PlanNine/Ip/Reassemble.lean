import PlanNine.Ip.Frag4
import PlanNine.Lib.Run
import PlanNine.Lib.Slice
import Mathlib.Data.List.TakeWhile
import Mathlib.Data.List.GetD

/-!
# What reassembly makes of the fragments of a datagram

The fragments of one datagram arrive in any order, repeated and overlapping, among other packets. A
queue holds parts of the datagram that do not overlap. Only the first block of a packet that is
complete is taken at the length that its header says, and this is longer than its part when a later
fragment has cut off its tail.

## Main definitions

* `Fragment`: a packet is a fragment of a datagram.
* `Piece`, `Pieces`: the blocks of a queue are parts of a datagram that do not overlap.
* `HeadCut`: the tail of the first block is cut, or the fragment that arrives cuts it.
* `Exact`: a packet is the datagram.

## Main results

* `pieces_insertFrag`: a fragment put in its place leaves parts that do not overlap.
* `exact_pullup_iff`: a complete packet is the datagram if and only if its first block is not cut.
* `reassemble_exact_iff`: the packets returned in a run are the datagram if and only if the first
  block is not cut.
-/

namespace PlanNine.Ip

/-! ### Fragments of a datagram -/

/-- The offset that a header names, in bytes. -/
def ip4offset (d : List UInt8) : ℕ := (ip4frag d <<< 3) % 65536

/-- `d` is a fragment of the datagram with the payload `P`, as `ipiput4` hands it on: a range of
bytes that begins at a multiple of eight, as any offset does, and ends at one or with the payload,
with the flag `IP_MF` in its header and in its field `tos` unless it is the last one. -/
structure Fragment (P d : List UInt8) : Prop where
  length_ge : IP4HDR ≤ ip4length d
  within : ip4offset d + (ip4length d - IP4HDR) ≤ P.length
  ends : ip4offset d + (ip4length d - IP4HDR) = P.length ∨
    8 ∣ ip4offset d + (ip4length d - IP4HDR)
  more : ip4mf d = 0 ↔ ip4offset d + (ip4length d - IP4HDR) = P.length
  tos : ip4tos d = if ip4mf d = 0 then 0 else 1
  reserved : ip4frag d < 0x8000
  bytes : ip4length d ≤ d.length
  payload : (d.drop IP4HDR).take (ip4length d - IP4HDR) =
    slice P (ip4offset d) (ip4length d - IP4HDR)

/-- The chain of blocks `c` holds the datagram with the payload `P`: its header says the length, and
the bytes behind the header are the payload. -/
def Exact (P : List UInt8) (c : List (List UInt8)) : Prop :=
  ip4length c.flatten = IP4HDR + P.length ∧ (c.flatten.drop IP4HDR).take P.length = P

/-! ### Parts that do not overlap -/

/-- A block of a queue holds a part of `P`. The header of one at the offset zero may name more. -/
structure Piece (P : List UInt8) (x : Frag) : Prop where
  within : x.foff + x.flen ≤ P.length
  bytes : IP4HDR + x.flen ≤ x.data.length
  payload : (x.data.drop IP4HDR).take x.flen = slice P x.foff x.flen
  last : ip4mf x.data = 0 → x.foff + x.flen = P.length
  first : x.foff = 0 → ∃ m, ip4length x.data = IP4HDR + m ∧ x.flen ≤ m ∧ m ≤ P.length ∧
    IP4HDR + m ≤ x.data.length ∧ (x.data.drop IP4HDR).take m = P.take m

/-- The block `x` ends before `y` begins. -/
def Before (x y : Frag) : Prop := x.foff + x.flen ≤ y.foff

/-- The blocks are parts of `P` in order that do not overlap. -/
structure Pieces (P : List UInt8) (l : List Frag) : Prop where
  piece : ∀ x ∈ l, Piece P x
  sorted : l.Pairwise Before

section

variable {P : List UInt8} {x bp : Frag} {l l' : List Frag}

theorem Piece.moveup (hP : P.length < 65536) (h : Piece P x) {ovlap : ℕ} (hpos : 0 < ovlap)
    (hlt : ovlap < x.flen) :
    Piece P (x.moveup ovlap) ∧ (x.moveup ovlap).foff = x.foff + ovlap ∧
      (x.moveup ovlap).foff + (x.moveup ovlap).flen = x.foff + x.flen := by
  have hwithin := h.within
  have hbytes := h.bytes
  have hfoff : (x.moveup ovlap).foff = x.foff + ovlap := Nat.mod_eq_of_lt (by omega)
  have hflen : (x.moveup ovlap).flen = x.flen - ovlap := rfl
  have htake : (x.data.take IP4HDR).length = IP4HDR := by
    rw [List.length_take]
    omega
  have hmf : ip4mf (x.moveup ovlap).data = ip4mf x.data := by
    unfold ip4mf Frag.moveup
    dsimp only
    rw [List.getD_append _ _ _ _ (by rw [htake]; decide), List.getD_eq_getElem?_getD,
      List.getElem?_take_of_lt (by decide), List.getD_eq_getElem?_getD]
  refine ⟨⟨?_, ?_, ?_, ?_, ?_⟩, hfoff, ?_⟩
  · omega
  · simp only [Frag.moveup, List.length_append, htake, List.length_drop]
    omega
  · rw [hfoff, hflen]
    simp only [Frag.moveup]
    rw [List.drop_left' htake, ← List.drop_drop, ← List.drop_take, h.payload, drop_slice]
  · intro h0
    have := h.last (hmf ▸ h0)
    omega
  · intro h0
    omega
  · omega

/-- What a fragment that ends at `fend` leaves of those behind it. -/
theorem pieces_coverNext (hP : P.length < 65536) (fend : ℕ) (h : Pieces P l) :
    Pieces P (coverNext fend l) ∧ ∀ y ∈ coverNext fend l, fend ≤ y.foff := by
  induction l with
  | nil => exact ⟨h, by simp [coverNext]⟩
  | cons x l ih =>
      have hx := h.piece x (List.mem_cons_self ..)
      obtain ⟨hsort, hl⟩ := List.pairwise_cons.mp h.sorted
      have htail : Pieces P l := ⟨fun y hy => h.piece y (List.mem_cons_of_mem _ hy), hl⟩
      unfold coverNext
      split_ifs with hle hlt
      · refine ⟨h, fun y hy => ?_⟩
        rcases List.mem_cons.mp hy with rfl | hy
        · exact hle
        · have : x.foff + x.flen ≤ y.foff := hsort y hy
          omega
      · obtain ⟨hmoved, hfoff, hend⟩ := hx.moveup hP (Nat.sub_pos_of_lt (not_le.mp hle)) hlt
        refine ⟨⟨?_, List.pairwise_cons.mpr ⟨fun y hy => ?_, hl⟩⟩, fun y hy => ?_⟩
        · intro y hy
          rcases List.mem_cons.mp hy with rfl | hy
          · exact hmoved
          · exact htail.piece y hy
        · have : x.foff + x.flen ≤ y.foff := hsort y hy
          unfold Before
          omega
        · rcases List.mem_cons.mp hy with rfl | hy
          · omega
          · have : x.foff + x.flen ≤ y.foff := hsort y hy
            omega
      · exact ih htail

/-- The block before a fragment that begins inside it and ends behind it. -/
theorem Piece.cut (h : Piece P x) (hbp : Piece P bp) (hlo : x.foff < bp.foff)
    (hover : ¬ x.foff + x.flen ≤ bp.foff) (hcover : x.foff + x.flen < bp.foff + bp.flen) :
    Piece P { x with flen := bp.foff - x.foff } := by
  have hwithin := h.within
  have hbytes := h.bytes
  have hbp := hbp.within
  refine ⟨?_, ?_, ?_, ?_, ?_⟩
  · dsimp only
    omega
  · dsimp only
    omega
  · dsimp only
    rw [← take_slice (show bp.foff - x.foff ≤ x.flen by omega), ← h.payload, List.take_take,
      min_eq_left (by omega)]
  · intro h0
    have := h.last h0
    omega
  · intro h0
    obtain ⟨m, hlen, hle, hm⟩ := h.first h0
    exact ⟨m, hlen, by dsimp only; omega, hm⟩

/-- Pieces before a fragment, the fragment, and pieces behind it. -/
theorem Pieces.insert {before after : List Frag} (hb : Pieces P before) (hbp : Piece P bp)
    (ha : Pieces P after) (hlt : ∀ x ∈ before, x.foff + x.flen ≤ bp.foff)
    (hgt : ∀ y ∈ after, bp.foff + bp.flen ≤ y.foff) : Pieces P (before ++ bp :: after) := by
  refine ⟨fun x hx => ?_, ?_⟩
  · rcases List.mem_append.mp hx with hx | hx
    · exact hb.piece x hx
    · rcases List.mem_cons.mp hx with rfl | hx
      · exact hbp
      · exact ha.piece x hx
  · refine List.pairwise_append.mpr ⟨hb.sorted, List.pairwise_cons.mpr ⟨hgt, ha.sorted⟩, ?_⟩
    intro x hx y hy
    have hx := hlt x hx
    rcases List.mem_cons.mp hy with rfl | hy
    · exact hx
    · have := hgt y hy
      unfold Before
      omega

/-- What `insertFrag` makes of the blocks before the fragment. -/
theorem insertFrag_cases (h : insertFrag bp l = some l') :
    let before := l.takeWhile fun bl => bl.foff < bp.foff
    let after := bp :: coverNext (bp.foff + bp.flen) (l.dropWhile fun bl => bl.foff < bp.foff)
    (∀ x, before.getLast? = some x → x.foff + x.flen ≤ bp.foff) ∧ l' = before ++ after ∨
    ∃ init x, before = init ++ [x] ∧ x.foff < bp.foff ∧ bp.foff < x.foff + x.flen ∧
      x.foff + x.flen < bp.foff + bp.flen ∧
      l' = init ++ { x with flen := bp.foff - x.foff } :: after := by
  intro before after
  dsimp only [insertFrag] at h
  rcases hlast : before.getLast? with _ | x
  · rw [hlast] at h
    rw [List.getLast?_eq_none_iff] at hlast
    exact .inl ⟨by rintro _ ⟨⟩, by rw [hlast, List.nil_append]; exact (Option.some.inj h).symm⟩
  · rw [hlast] at h
    dsimp only at h
    have hbefore : before = before.dropLast ++ [x] := (List.dropLast_append_getLast? x hlast).symm
    have hx : x.foff < bp.foff := by
      have hmem : x ∈ before := List.mem_of_getLast? hlast
      simpa using List.mem_takeWhile_imp hmem
    split_ifs at h with hover hcover
    · refine .inr ⟨before.dropLast, x, hbefore, hx, by omega, by omega, ?_⟩
      rw [← Option.some.inj h]
      congr 3
      omega
    · refine .inl ⟨fun y hy => ?_, (Option.some.inj h).symm⟩
      obtain rfl := Option.some.inj hy
      omega

/-- A fragment put in its place leaves parts that do not overlap. -/
theorem pieces_insertFrag (hP : P.length < 65536) (hl : Pieces P l) (hbp : Piece P bp)
    (h : insertFrag bp l = some l') : Pieces P l' := by
  have hsplit : Pieces P (l.takeWhile (fun bl => bl.foff < bp.foff) ++
      l.dropWhile fun bl => bl.foff < bp.foff) := by rwa [List.takeWhile_append_dropWhile]
  obtain ⟨hsb, hsa, -⟩ := List.pairwise_append.mp hsplit.sorted
  have hb : Pieces P (l.takeWhile fun bl => bl.foff < bp.foff) :=
    ⟨fun x hx => hsplit.piece x (List.mem_append_left _ hx), hsb⟩
  have ha : Pieces P (l.dropWhile fun bl => bl.foff < bp.foff) :=
    ⟨fun x hx => hsplit.piece x (List.mem_append_right _ hx), hsa⟩
  obtain ⟨hnext, hgt⟩ := pieces_coverNext hP (bp.foff + bp.flen) ha
  obtain ⟨hlast, rfl⟩ | ⟨init, x, hinit, hlo, hin, hout, rfl⟩ := insertFrag_cases h
  · refine hb.insert hbp hnext (fun x hx => ?_) hgt
    rcases List.eq_nil_or_concat (l.takeWhile fun bl => bl.foff < bp.foff) with h0 | ⟨init, z, hz⟩
    · rw [h0] at hx
      cases hx
    · rw [List.concat_eq_append] at hz
      have hend := hlast z (by rw [hz, List.getLast?_append_of_ne_nil _ (by simp)]; rfl)
      rw [hz] at hx hsb
      rcases List.mem_append.mp hx with hx | hx
      · have hbef : x.foff + x.flen ≤ z.foff :=
          (List.pairwise_append.mp hsb).2.2 x hx z (List.mem_singleton.mpr rfl)
        omega
      · obtain rfl := List.mem_singleton.mp hx
        exact hend
  · rw [hinit] at hb
    have hx := hb.piece x (List.mem_append_right _ (List.mem_singleton.mpr rfl))
    obtain ⟨hsi, -, hcross⟩ := List.pairwise_append.mp hb.sorted
    have hxc := hx.cut hbp hlo (by omega) hout
    have hinit' : Pieces P init := ⟨fun y hy => hb.piece y (List.mem_append_left _ hy), hsi⟩
    have hcut : Pieces P (init ++ [{ x with flen := bp.foff - x.foff }]) :=
      hinit'.insert hxc ⟨by simp, .nil⟩
        (fun y hy => hcross y hy x (List.mem_singleton.mpr rfl)) (by simp)
    have := hcut.insert hbp hnext (fun y hy => ?_) hgt
    · simpa using this
    · rcases List.mem_append.mp hy with hy | hy
      · have hbef : y.foff + y.flen ≤ x.foff := hcross y hy x (List.mem_singleton.mpr rfl)
        omega
      · obtain rfl := List.mem_singleton.mp hy
        dsimp only
        omega

/-! ### Complete packets -/

/-- The part that a block holds. -/
def Frag.body (x : Frag) : List UInt8 := (x.data.drop IP4HDR).take x.flen

theorem Pieces.tail (h : Pieces P (x :: l)) : Pieces P l :=
  ⟨fun y hy => h.piece y (List.mem_cons_of_mem _ hy), (List.pairwise_cons.mp h.sorted).2⟩

/-- Behind the last byte of the datagram the blocks are empty. -/
theorem bodies_of_end (h : Pieces P l) (hend : ∀ y ∈ l, P.length ≤ y.foff) :
    (l.map Frag.body).flatten = [] ∧ (l.map Frag.flen).sum = 0 := by
  induction l with
  | nil => exact ⟨rfl, rfl⟩
  | cons x l ih =>
      have hx := (h.piece x (List.mem_cons_self ..)).within
      have hfoff := hend x (List.mem_cons_self ..)
      have hflen : x.flen = 0 := by omega
      obtain ⟨hbody, hsum⟩ := ih h.tail fun y hy => hend y (List.mem_cons_of_mem _ hy)
      simp [Frag.body, hflen, hbody, hsum]

/-- The blocks of a complete packet make up the rest of the datagram. -/
theorem bodies_of_complete (h : Pieces P l) {pos : ℕ} (hc : complete pos l = true) :
    (l.map Frag.body).flatten = P.drop pos ∧ pos + (l.map Frag.flen).sum = P.length := by
  induction l generalizing pos with
  | nil => simp [complete] at hc
  | cons x l ih =>
      have hx := h.piece x (List.mem_cons_self ..)
      have hbody : x.body = slice P x.foff x.flen := hx.payload
      have hwithin := hx.within
      unfold complete at hc
      split_ifs at hc with hpos hmf
      · rw [not_not] at hpos
        have hlast := hx.last hmf
        obtain ⟨hrest, hsum⟩ := bodies_of_end h.tail fun y hy => by
          have : x.foff + x.flen ≤ y.foff := (List.pairwise_cons.mp h.sorted).1 y hy
          omega
        rw [List.map_cons, List.flatten_cons, hrest, List.append_nil, hbody, hpos,
          slice_eq_drop (by omega), List.map_cons, List.sum_cons, hsum]
        exact ⟨rfl, by omega⟩
      · rw [not_not] at hpos
        obtain ⟨hrest, hsum⟩ := ih h.tail hc
        rw [List.map_cons, List.flatten_cons, hrest, hbody, hpos,
          List.map_cons, List.sum_cons]
        refine ⟨?_, by omega⟩
        rw [slice, ← List.drop_drop, List.take_append_drop]

theorem ip4length_setlength (d t : List UInt8) (h : 2 ≤ d.length) (len : ℕ) :
    ip4length (ip4setlength d len ++ t) = len % 65536 := by
  have htake : (d.take 2).length = 2 := by
    rw [List.length_take]
    omega
  unfold ip4length ip4setlength
  rw [List.append_assoc, List.append_assoc, List.drop_left' htake, nhgets_hnputs_append]

theorem drop_setlength (d : List UInt8) (h : IP4HDR ≤ d.length) (len : ℕ) :
    (ip4setlength d len).drop IP4HDR = d.drop IP4HDR := by
  have htake : (d.take 2 ++ hnputs len).length = 4 := by
    rw [List.length_append, List.length_take]
    simp only [IP4HDR] at h
    simp only [hnputs, List.length_cons, List.length_nil]
    omega
  unfold ip4setlength
  rw [show IP4HDR = 4 + 16 from rfl, ← List.drop_drop, List.drop_left' htake, List.drop_drop]

theorem length_setlength (d : List UInt8) (h : IP4HDR ≤ d.length) (len : ℕ) :
    (ip4setlength d len).length = d.length := by
  simp only [IP4HDR] at h
  simp only [ip4setlength, hnputs, List.length_append, List.length_take, List.length_cons,
    List.length_nil, List.length_drop]
  omega

/-- A complete packet is the datagram if and only if its first block is as long as its header
says. -/
theorem exact_pullup_iff (hP : IP4HDR + P.length < 65536) (h : Pieces P (x :: l))
    (hc : complete 0 (x :: l) = true) :
    Exact P (pullup (x :: l)) ↔ ip4length x.data = IP4HDR + x.flen := by
  have hx0 : x.foff = 0 := by
    by_contra hne
    simp [complete, hne] at hc
  obtain ⟨m, hlen, hle, hmP, hbytes, hm⟩ := (h.piece x (List.mem_cons_self ..)).first hx0
  obtain ⟨hbodies, hsum⟩ := bodies_of_complete h hc
  rw [List.map_cons, List.sum_cons, zero_add] at hsum
  have htake : IP4HDR ≤ (x.data.take (IP4HDR + m)).length := by
    rw [List.length_take]
    omega
  have hpull : (pullup (x :: l)).flatten =
      ip4setlength (x.data.take (IP4HDR + m)) (IP4HDR + m + (l.map Frag.flen).sum) ++
        (l.map Frag.body).flatten := by
    unfold pullup
    rw [List.flatten_cons, hlen]
    rfl
  have hlength : ip4length (pullup (x :: l)).flatten =
      (IP4HDR + m + (l.map Frag.flen).sum) % 65536 := by
    rw [hpull, ip4length_setlength _ _ (le_trans (by decide) htake)]
  unfold Exact
  rw [hlength, hlen]
  constructor
  · rintro ⟨hl, -⟩
    omega
  · intro heq
    obtain rfl : m = x.flen := by omega
    refine ⟨by rw [Nat.mod_eq_of_lt] <;> omega, ?_⟩
    have hbody : (x.data.take (IP4HDR + x.flen)).drop IP4HDR = x.body := by
      rw [List.drop_take, Nat.add_sub_cancel_left]
      rfl
    rw [hpull, List.drop_append_of_le_length (by rwa [length_setlength _ htake]),
      drop_setlength _ htake, hbody]
    rw [List.map_cons, List.flatten_cons, List.drop_zero] at hbodies
    rw [hbodies, List.take_length]

/-! ### The first block -/

/-- The tail of the first block of a queue has been cut off, or the fragment `bp`, which begins
inside it and ends behind it, cuts it off. -/
def Cut (l : List Frag) (bp : Frag) : Prop :=
  bp.foff ≠ 0 ∧ ∃ x rest, l = x :: rest ∧ x.foff = 0 ∧
    (ip4length x.data ≠ IP4HDR + x.flen ∨ bp.foff < x.flen ∧ x.flen < bp.foff + bp.flen)

/-- The first block of a complete packet is not as long as its header says if and only if it is
cut. -/
theorem head_insertFrag (hbp : ip4length bp.data = IP4HDR + bp.flen) (hl : Pieces P l)
    (h : insertFrag bp l = some l') (hc : complete 0 l' = true) :
    ∃ x rest, l' = x :: rest ∧ (ip4length x.data = IP4HDR + x.flen ↔ ¬ Cut l bp) := by
  have hhead {y : Frag} {ys : List Frag} (hy : l' = y :: ys) : y.foff = 0 := by
    by_contra hne
    rw [hy] at hc
    simp [complete, hne] at hc
  by_cases h0 : bp.foff = 0
  · have hbefore : (l.takeWhile fun bl => bl.foff < bp.foff) = [] := by
      cases l <;> simp [h0]
    obtain ⟨-, rfl⟩ | ⟨init, x, hinit, -⟩ := insertFrag_cases h
    · rw [hbefore] at hhead ⊢
      exact ⟨bp, _, rfl, iff_of_true hbp fun hcut => hcut.1 h0⟩
    · rw [hbefore] at hinit
      simp at hinit
  cases l with
  | nil =>
      obtain ⟨-, rfl⟩ | ⟨init, x, hinit, -⟩ := insertFrag_cases h
      · exact absurd (hhead rfl) h0
      · simp at hinit
  | cons x l =>
      have hsort := (List.pairwise_cons.mp hl.sorted).1
      have hbehind {z : Frag} (hz : z ∈ l.takeWhile fun bl => bl.foff < bp.foff) :
          x.foff + x.flen ≤ bp.foff := by
        have hxz : x.foff + x.flen ≤ z.foff := hsort z ((List.takeWhile_sublist _).subset hz)
        have : z.foff < bp.foff := by simpa using List.mem_takeWhile_imp hz
        omega
      -- the block stays the first one and the fragment begins behind it
      have hstays (hx0 : x.foff = 0) (hend : x.foff + x.flen ≤ bp.foff) :
          ip4length x.data = IP4HDR + x.flen ↔ ¬ Cut (x :: l) bp := by
        refine ⟨?_, fun hcut => ?_⟩
        · rintro heq ⟨-, y, rest, hy, -, hne | ⟨hlt, -⟩⟩ <;> obtain ⟨rfl, rfl⟩ := List.cons.inj hy
          · exact hne heq
          · omega
        · by_contra hne
          exact hcut ⟨h0, x, l, rfl, hx0, .inl hne⟩
      by_cases hx : x.foff < bp.foff
      · have htw : (x :: l).takeWhile (fun bl => bl.foff < bp.foff) =
            x :: l.takeWhile fun bl => bl.foff < bp.foff :=
          List.takeWhile_cons_of_pos (by simpa using hx)
        obtain ⟨hlast, rfl⟩ | ⟨init, z, hinit, hlo, hin, hout, rfl⟩ := insertFrag_cases h
        · rw [htw] at hhead hlast ⊢
          refine ⟨x, _, rfl, hstays (hhead rfl) ?_⟩
          rcases hrest : l.takeWhile (fun bl => bl.foff < bp.foff) with _ | ⟨z, zs⟩
          · exact hlast x (by rw [hrest]; rfl)
          · exact hbehind (hrest ▸ List.mem_cons_self ..)
        · rw [htw] at hinit
          cases init with
          | nil =>
              obtain ⟨rfl, -⟩ := List.cons.inj hinit
              have hx0 : x.foff = 0 :=
                show ({ x with flen := bp.foff - x.foff } : Frag).foff = 0 from hhead rfl
              obtain ⟨m, hlen, hle, -⟩ := (hl.piece x (List.mem_cons_self ..)).first hx0
              refine ⟨_, _, rfl, iff_of_false ?_ (not_not.mpr ?_)⟩
              · dsimp only
                omega
              · exact ⟨h0, x, l, rfl, hx0, .inr ⟨by omega, by omega⟩⟩
          | cons y init =>
              obtain ⟨rfl, hrest⟩ := List.cons.inj hinit
              have hz : z ∈ l.takeWhile fun bl => bl.foff < bp.foff := by
                rw [hrest]
                exact List.mem_append_right _ (List.mem_singleton.mpr rfl)
              exact ⟨x, _, rfl, hstays (hhead rfl) (hbehind hz)⟩
      · have htw : (x :: l).takeWhile (fun bl => bl.foff < bp.foff) = [] :=
          List.takeWhile_cons_of_neg (by simpa using hx)
        obtain ⟨-, rfl⟩ | ⟨init, z, hinit, -⟩ := insertFrag_cases h
        · rw [htw] at hhead
          exact absurd (hhead rfl) h0
        · rw [htw] at hinit
          simp at hinit

end

/-! ### Runs -/

/-- A packet that arrives, and when. -/
structure Arrival where
  now : ℕ
  pkt : List UInt8

/-- `ip4reassemble(ip, nhgets(h->frag), bp, h)`. -/
def IP.arrive (ip : IP) (e : Arrival) : IP × Option (List (List UInt8)) :=
  ip4reassemble e.now (ip4frag e.pkt) e.pkt ip

def Arrives (ip : IP) (e : Arrival) (ip' : IP) : Prop := ip' = (ip.arrive e).1

/-- What names a datagram: its addresses and its identification. -/
structure Key where
  src : ℕ
  dst : ℕ
  id : ℕ
  deriving DecidableEq

def keyOf (d : List UInt8) : Key := ⟨ip4src d, ip4dst d, ip4id d⟩

def Fragment4.key (f : Fragment4) : Key := ⟨f.src, f.dst, f.id⟩

theorem holds_iff {f : Fragment4} {d : List UInt8} : f.holds d = true ↔ f.key = keyOf d := by
  simp [Fragment4.holds, Fragment4.key, keyOf, and_assoc]

/-- The packets of the datagram `key` are fragments of it. -/
def OfDatagram (P : List UInt8) (key : Key) (e : Arrival) : Prop :=
  keyOf e.pkt = key → Fragment P e.pkt

/-- The queues of the datagram hold parts of it. -/
def Holds (P : List UInt8) (key : Key) (l : List Fragment4) : Prop :=
  ∀ f ∈ l, f.key = key → Pieces P f.blist

def IP.Inv (P : List UInt8) (key : Key) (ip : IP) : Prop := Holds P key ip.flisthead4

/-- The first block of the queue that a packet belongs to is cut, or the packet cuts it. -/
def HeadCut (ip : IP) (d : List UInt8) : Prop :=
  ∃ f, ip.flisthead4.find? (·.holds d) = some f ∧ Cut f.blist (mkFrag (ip4frag d) d)

section

variable {P : List UInt8} {key : Key} {d : List UInt8} {now : ℕ}

theorem mkFrag_flen (h : Fragment P d) :
    (mkFrag (ip4frag d) d).flen = ip4length d - IP4HDR := by
  have hlt : ip4length d < 65536 := nhgets_lt _
  have hge := h.length_ge
  simp only [mkFrag]
  omega

/-- The block of a fragment holds a part of the datagram. -/
theorem piece_mkFrag (h : Fragment P d) : Piece P (mkFrag (ip4frag d) d) := by
  have hflen := mkFrag_flen h
  have hge := h.length_ge
  have hwithin := h.within
  have hbytes := h.bytes
  have hfoff : (mkFrag (ip4frag d) d).foff = ip4offset d := rfl
  refine ⟨by omega, ?_, ?_, fun h0 => ?_, fun h0 => ⟨ip4length d - IP4HDR, ?_, by omega, by omega,
    ?_, ?_⟩⟩
  · rw [hflen]
    change IP4HDR + (ip4length d - IP4HDR) ≤ d.length
    omega
  · rw [hflen, hfoff]
    exact h.payload
  · rw [hflen, hfoff]
    exact h.more.mp h0
  · change ip4length d = _
    omega
  · change _ ≤ d.length
    omega
  · rw [hfoff] at h0
    have hpay := h.payload
    rwa [h0, slice_zero_left] at hpay

/-- What the search for a queue finds and keeps. -/
theorem findFrag_spec (now : ℕ) (d : List UInt8) (l : List Fragment4) :
    (∀ f ∈ (findFrag now d l).1, f ∈ l) ∧
      ((findFrag now d l).2.1 = none → l.find? (·.holds d) = none) ∧
      ∀ f after, (findFrag now d l).2.1 = some (f, after) →
        l.find? (·.holds d) = some f ∧ f ∈ l ∧ ∀ g ∈ after, g ∈ l := by
  induction l with
  | nil => simp [findFrag]
  | cons g l ih =>
      obtain ⟨hkept, hnone, hsome⟩ := ih
      unfold findFrag
      by_cases hg : g.holds d = true
      · rw [if_pos hg, List.find?_cons_of_pos (p := fun x : Fragment4 => x.holds d) hg]
        refine ⟨by simp, nofun, fun f after h => ?_⟩
        obtain ⟨rfl, rfl⟩ := Prod.mk.inj (Option.some.inj h)
        exact ⟨rfl, List.mem_cons_self .., fun _ => List.mem_cons_of_mem _⟩
      · rw [if_neg hg, List.find?_cons_of_neg (p := fun x : Fragment4 => x.holds d) hg]
        dsimp only
        refine ⟨?_, ?_, ?_⟩
        · intro f hf
          split_ifs at hf
          · exact List.mem_cons_of_mem _ (hkept f hf)
          · rcases List.mem_cons.mp hf with rfl | hf
            · exact List.mem_cons_self ..
            · exact List.mem_cons_of_mem _ (hkept f hf)
        · split_ifs <;> exact hnone
        · intro f after h
          have h' : (findFrag now d l).2.1 = some (f, after) := by
            split_ifs at h <;> exact h
          obtain ⟨h1, h2, h3⟩ := hsome f after h'
          exact ⟨h1, List.mem_cons_of_mem _ h2, fun g hg => List.mem_cons_of_mem _ (h3 g hg)⟩

theorem key_of_find {l : List Fragment4} {f : Fragment4} (h : l.find? (·.holds d) = some f) :
    f.key = keyOf d :=
  holds_iff.mp (List.find?_some (p := fun f : Fragment4 => f.holds d) h)

/-- A packet that is no fragment is the whole datagram. -/
theorem whole_of_tos (h : Fragment P d)
    (hwhole : ip4tos d = 0 ∧ ip4frag d &&& (0xffff ^^^ (IP_MF ||| IP_DF)) = 0) :
    ip4offset d = 0 ∧ ip4length d = IP4HDR + P.length ∧ (d.drop IP4HDR).take P.length = P := by
  obtain ⟨htos, hfrag⟩ := hwhole
  have hmf : ip4mf d = 0 := by
    have := h.tos
    split_ifs at this with h0
    · exact h0
    · omega
  have hlow : ip4frag d % 8192 = 0 := by
    have hand : ip4frag d &&& 8191 = 0 := by
      have := congrArg (· &&& 8191) hfrag
      simpa [Nat.and_assoc, IP_MF, IP_DF] using this
    rwa [show 8191 = 2 ^ 13 - 1 from rfl, Nat.and_two_pow_sub_one_eq_mod] at hand
  have hoff : ip4offset d = 0 := by
    simp only [ip4offset, Nat.shiftLeft_eq]
    omega
  have hend := h.more.mp hmf
  have hge := h.length_ge
  have hpay := h.payload
  rw [hoff] at hend hpay
  refine ⟨hoff, by omega, ?_⟩
  rw [show ip4length d - IP4HDR = P.length by omega, slice_zero_left, List.take_length] at hpay
  exact hpay

/-- A packet is taken for a datagram of its own. -/
def Whole (d : List UInt8) : Prop :=
  ip4tos d = 0 ∧ ip4frag d &&& (0xffff ^^^ (IP_MF ||| IP_DF)) = 0

/-- What holds of all queues and is kept by a fragment that is put in its place holds after a packet
has arrived. -/
theorem queues_arrive {Q : Key → List Frag → Prop} {ip : IP} {e : Arrival}
    (h : ∀ f ∈ ip.flisthead4, Q f.key f.blist)
    (hnew : ¬ Whole e.pkt → Q (keyOf e.pkt) [mkFrag (ip4frag e.pkt) e.pkt])
    (hins : ¬ Whole e.pkt → ∀ l l', Q (keyOf e.pkt) l →
      insertFrag (mkFrag (ip4frag e.pkt) e.pkt) l = some l' → Q (keyOf e.pkt) l') :
    ∀ f ∈ (ip.arrive e).1.flisthead4, Q f.key f.blist := by
  obtain ⟨hkept, -, hsome⟩ := findFrag_spec e.now e.pkt ip.flisthead4
  have happend {before after : List Fragment4} (hb : ∀ f ∈ before, Q f.key f.blist)
      (ha : ∀ f ∈ after, Q f.key f.blist) : ∀ f ∈ before ++ after, Q f.key f.blist :=
    fun f hf => (List.mem_append.mp hf).elim (hb f) (ha f)
  have hcons {g : Fragment4} {after : List Fragment4} (hg : Q g.key g.blist)
      (ha : ∀ f ∈ after, Q f.key f.blist) : ∀ f ∈ g :: after, Q f.key f.blist := by
    intro f hf
    rcases List.mem_cons.mp hf with rfl | hf
    · exact hg
    · exact ha f hf
  unfold IP.arrive ip4reassemble
  rcases hfind : findFrag e.now e.pkt ip.flisthead4 with ⟨before, r, n⟩
  rw [hfind] at hkept hsome
  have hb : ∀ f ∈ before, Q f.key f.blist := fun f hf => h f (hkept f hf)
  dsimp only
  split_ifs with hwhole
  · rcases r with _ | ⟨f, after⟩
    · exact hb
    · obtain ⟨-, -, hafter⟩ := hsome f after rfl
      exact happend hb fun g hg => h g (hafter g hg)
  · rcases r with _ | ⟨f, after⟩
    · dsimp only [ipfragallo4]
      split_ifs
      · exact hcons (hnew hwhole) fun g hg => hb g (List.mem_of_mem_dropLast hg)
      · exact hcons (hnew hwhole) hb
    · obtain ⟨hfound, hf, hafter⟩ := hsome f after rfl
      have hkey : f.key = keyOf e.pkt := key_of_find hfound
      have ha : ∀ g ∈ after, Q g.key g.blist := fun g hg => h g (hafter g hg)
      dsimp only
      cases hput : insertFrag (mkFrag (ip4frag e.pkt) e.pkt) f.blist with
      | none => exact happend hb (hcons (h f hf) ha)
      | some blist =>
          dsimp only
          split_ifs
          · exact happend hb ha
          · have hput : Q f.key blist := hkey ▸ hins hwhole f.blist blist (hkey ▸ h f hf) hput
            exact happend hb (hcons hput ha)

/-- A packet that is returned is one of its own, or is made of a queue that the
fragment completes. -/
theorem arrive_some {ip : IP} {e : Arrival} {c : List (List UInt8)}
    (hc : (ip.arrive e).2 = some c) : Whole e.pkt ∧ c = [e.pkt] ∨
      ∃ f, ip.flisthead4.find? (·.holds e.pkt) = some f ∧ f ∈ ip.flisthead4 ∧ ¬ Whole e.pkt ∧
        ∃ l, insertFrag (mkFrag (ip4frag e.pkt) e.pkt) f.blist = some l ∧ complete 0 l = true ∧
          c = pullup l := by
  obtain ⟨-, -, hsome⟩ := findFrag_spec e.now e.pkt ip.flisthead4
  unfold IP.arrive ip4reassemble at hc
  rcases hfind : findFrag e.now e.pkt ip.flisthead4 with ⟨before, r, n⟩
  rw [hfind] at hc hsome
  dsimp only at hc
  split_ifs at hc with hwhole
  · refine .inl ⟨hwhole, ?_⟩
    rcases r with _ | ⟨f, after⟩ <;> exact (Option.some.inj hc).symm
  · rcases r with _ | ⟨f, after⟩
    · simp at hc
    · obtain ⟨hfound, hf, -⟩ := hsome f after rfl
      refine .inr ⟨f, hfound, hf, hwhole, ?_⟩
      cases hput : insertFrag (mkFrag (ip4frag e.pkt) e.pkt) f.blist with
      | none => simp [hput] at hc
      | some blist =>
          simp only [hput] at hc
          split_ifs at hc with hcomp
          exact ⟨blist, rfl, hcomp, (Option.some.inj hc).symm⟩

/-- A packet that arrives leaves parts of the datagram in its queues. -/
theorem holds_arrive (hP : P.length < 65536) {ip : IP} {e : Arrival}
    (h : Holds P key ip.flisthead4) (hok : OfDatagram P key e) :
    Holds P key (ip.arrive e).1.flisthead4 := by
  refine queues_arrive (Q := fun k l => k = key → Pieces P l) h (fun _ hkey => ?_)
    fun _ l l' hl hins hkey => ?_
  · exact ⟨by simpa using piece_mkFrag (hok hkey), List.pairwise_singleton ..⟩
  · exact pieces_insertFrag hP (hl hkey) (piece_mkFrag (hok hkey)) hins

/-- A packet returned for a fragment of the datagram is the datagram if and only if the first block
of its queue is not cut. -/
theorem exact_arrive_iff (hP : IP4HDR + P.length < 65536) {ip : IP} {e : Arrival}
    (h : Holds P key ip.flisthead4) (hkey : keyOf e.pkt = key) (hfrag : Fragment P e.pkt)
    {c : List (List UInt8)} (hc : (ip.arrive e).2 = some c) :
    Exact P c ↔ ¬ HeadCut ip e.pkt := by
  obtain ⟨hwhole, rfl⟩ | ⟨f, hfound, hf, -, l, hins, hcomp, rfl⟩ := arrive_some hc
  · obtain ⟨hoff, hlen, hpay⟩ := whole_of_tos hfrag hwhole
    refine iff_of_true ?_ fun ⟨_, _, hne, _⟩ => hne hoff
    unfold Exact
    rw [List.flatten_singleton]
    exact ⟨hlen, hpay⟩
  · have hpieces := h f hf ((key_of_find hfound).trans hkey)
    have hbp : ip4length (mkFrag (ip4frag e.pkt) e.pkt).data =
        IP4HDR + (mkFrag (ip4frag e.pkt) e.pkt).flen := by
      have hge := hfrag.length_ge
      rw [mkFrag_flen hfrag]
      change ip4length e.pkt = _
      omega
    have hcut : HeadCut ip e.pkt ↔ Cut f.blist (mkFrag (ip4frag e.pkt) e.pkt) := by
      unfold HeadCut
      rw [hfound]
      exact ⟨fun ⟨g, hg, hcut⟩ => Option.some.inj hg ▸ hcut, fun hcut => ⟨f, rfl, hcut⟩⟩
    obtain ⟨x, rest, rfl, hiff⟩ := head_insertFrag hbp hpieces hins hcomp
    have hnew := pieces_insertFrag (by omega) hpieces (piece_mkFrag hfrag) hins
    rw [exact_pullup_iff hP hnew hcomp, hiff, hcut]

/-- In every run in which the packets of a datagram are fragments of it, a packet returned for one
of them is the datagram if and only if the first block of its queue is not cut. -/
theorem reassemble_exact_iff (hP : IP4HDR + P.length ≤ 65535) {ip₀ ip : IP}
    (h0 : ∀ f ∈ ip₀.flisthead4, f.key ≠ key)
    (h : Run Arrives (fun _ => OfDatagram P key) ip₀ ip) {e : Arrival} (hkey : keyOf e.pkt = key)
    (hfrag : Fragment P e.pkt) {c : List (List UInt8)} (hc : (ip.arrive e).2 = some c) :
    Exact P c ↔ ¬ HeadCut ip e.pkt := by
  have hstart : ip₀.Inv P key := fun f hf hkey => absurd hkey (h0 f hf)
  have hstep : ∀ ip e ip', ip.Inv P key → OfDatagram P key e → Arrives ip e ip' →
    ip'.Inv P key := by
    rintro ip e _ hip hok rfl
    exact holds_arrive (by omega) hip hok
  have hholds : ip.Inv P key := h.invariant hstart hstep
  exact exact_arrive_iff (by omega) hholds hkey hfrag hc

end

/-! ### A first fragment that is cut -/

/-- A fragment of the datagram of 24 zeros between two machines, as `ipiput4` hands it on. -/
def zeros (a b : ℕ) : List UInt8 :=
  let more := if b = 24 then 0 else 1
  [0x45, uchar more] ++ hnputs (20 + (b - a)) ++ hnputs 7 ++ hnputs (more * 0x2000 + a / 8) ++
    [64, 17, 0, 0] ++ hnputl 1 ++ hnputl 2 ++ List.replicate (b - a) 0

/-- What names that datagram. -/
def zerosKey : Key := ⟨1, 2, 7⟩

theorem fragment_zeros : Fragment (List.replicate 24 0) (zeros 0 16) ∧
    Fragment (List.replicate 24 0) (zeros 8 24) ∧ Fragment (List.replicate 24 0) (zeros 16 24) := by
  refine ⟨?_, ?_, ?_⟩ <;> constructor <;> decide

theorem reassemble_exact_iff_zeros :
    Exact (List.replicate 24 0) (pullup [⟨0, 16, zeros 0 16⟩, ⟨16, 8, zeros 16 24⟩]) ↔
      ¬ HeadCut ((initfrag 1).arrive ⟨0, zeros 0 16⟩).1 (zeros 16 24) :=
  reassemble_exact_iff (by decide)
    (show ∀ f ∈ (initfrag 1).flisthead4, f.key ≠ zerosKey from nofun)
    (.snoc .nil (e := ⟨0, zeros 0 16⟩) (fun _ => fragment_zeros.1) rfl)
    (e := ⟨0, zeros 16 24⟩) (by decide) fragment_zeros.2.2 (by decide)

/-- The fragment that completes the packet begins inside the first one: the bytes that both hold
are there twice. -/
theorem not_exact_overlap :
    Fragment (List.replicate 24 0) (zeros 0 16) ∧ Fragment (List.replicate 24 0) (zeros 8 24) ∧
      ∃ c, (((initfrag 1).arrive ⟨0, zeros 0 16⟩).1.arrive ⟨0, zeros 8 24⟩).2 = some c ∧
        ¬ Exact (List.replicate 24 0) c := by
  refine ⟨fragment_zeros.1, fragment_zeros.2.1, _, rfl, fun h => ?_⟩
  exact absurd h.1 (by decide)

end PlanNine.Ip
