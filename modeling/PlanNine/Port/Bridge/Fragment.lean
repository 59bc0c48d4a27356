import PlanNine.Port.Bridge.Mss
import PlanNine.Ip.Forward4

/-!
# Fragments for a tunnel

`fragment` and `etherwrite` of `devbridge.c`. A frame that is too long for a tunnel, and that
carries an IPv4 packet without options which may be fragmented, is written as several frames. The
frame is a list of blocks, of which the first holds the headers; what an access past the last block
reads is not modelled, such a call has no result.

## Main definitions

* `fragment`, `etherwrite`: the routines, the latter with the frames that it writes to the channel
  of the port.
* `copyup`, `segments`: its loops.
* `Carries`: the frame carries a packet that may be fragmented.
* `Partition`: the frames carry the packet in fragments.

## Main results

* `copyup_spec`: the data are copied whatever the blocks.
* `segments_spec`: the loop ends and makes the pieces of the rest of the payload.
* `etherwrite_partition`: a long frame is partitioned, any other is written as it is.
-/

namespace PlanNine.Bridge.Tunnel

open PlanNine.Ip

def TunnelMtu : ℕ := 1400

def IPHDR : ℕ := 20

/-- Whether a frame of `n` bytes, whose first block is `epkt`, is to be fragmented. -/
def fragment (epkt : List UInt8) (n : ℕ) : Bool :=
  if n ≤ TunnelMtu then false
  else if nhgets (epkt.drop 12) ≠ 0x800 then false
  else
    let iphdr := ip epkt
    let n := n - ETHERHDRSIZE
    if n < IPHDR then false
    else if ip4vihl iphdr ≠ (IP_VER4 ||| IP_HLEN4) then false
    else if (iphdr.getD 6 0).toNat &&& (IP_DF >>> 8) ≠ 0 then false
    else if n < ip4length iphdr then false
    else true

/-- The blocks from the byte at `offset` on. -/
def skip : ℕ → List (List UInt8) → Option (List (List UInt8))
  | _, [] => none
  | offset, xp :: next =>
    if offset ≠ 0 ∧ xp.length ≤ offset then skip (offset - xp.length) next
    else some (xp.drop offset :: next)

/-- Copy `chunk` bytes, with the blocks that are left. -/
def copyup : List (List UInt8) → ℕ → Option (List UInt8 × List (List UInt8))
  | xp, 0 => some ([], xp)
  | [], _ + 1 => none
  | xp :: next, chunk + 1 =>
    let blklen := min xp.length (chunk + 1)
    if xp.length = blklen then
      (copyup next (chunk + 1 - blklen)).map fun r => (xp.take blklen ++ r.1, r.2)
    else some (xp.take blklen, xp.drop blklen :: next)

/-- The frame of a segment. A short one gets as many bytes of its buffer as the least frame has. The
checksum is that of the header. -/
def segment (epkt : List UInt8) (buffer : ℕ → UInt8) (frag lid : ℕ) (data : List UInt8) :
    List UInt8 :=
  let small := (List.range (ETHERMINTU - (ETHERHDRSIZE + IPHDR + data.length))).map buffer
  epkt.take ETHERHDRSIZE ++
    fillcksum (fraghdr (ip epkt) frag (data.length + IPHDR) lid ++ (data ++ small))

/-- The loop over the segments, `fuel` being as much as their number. -/
def segments (epkt : List UInt8) (buffer : ℕ → ℕ → UInt8) (frag mf dlen lid : ℕ) :
    ℕ → ℕ → ℕ → List (List UInt8) → Option (List (List UInt8))
  | 0, _, _, _ => none
  | fuel + 1, fragoff, seglen, xp =>
    if fragoff < dlen then
      let f :=
        if dlen ≤ fragoff + seglen then ((frag + fragoff) >>> 3) ||| mf
        else ((frag + fragoff) >>> 3) ||| IP_MF
      let seglen := if dlen ≤ fragoff + seglen then dlen - fragoff else seglen
      match copyup xp seglen with
      | none => none
      | some (data, xp) =>
        (segments epkt buffer frag mf dlen lid fuel ((fragoff + seglen) % 65536) seglen xp).map
          (segment epkt (buffer fragoff) f lid data :: ·)
    else some []

/-- The frames written to the channel of a port. The buffers of the segments hold any bytes. -/
def etherwrite (type : PortType) (buffer : ℕ → ℕ → UInt8) (bp : List (List UInt8)) :
    Option (List (List UInt8)) :=
  let epkt := bp.headD []
  let n := bp.flatten.length
  if type ≠ .Ttun ∨ fragment epkt n = false then some [bp.flatten]
  else
    let seglen := (TunnelMtu - ETHERHDRSIZE - IPHDR) / 8 * 8
    let eh := ip epkt
    let len := ip4length eh
    let frag := ip4frag eh
    let mf := frag &&& IP_MF
    let frag := (frag <<< 3) % 65536
    let dlen := len - IPHDR
    (skip (ETHERHDRSIZE + IPHDR) bp).bind fun xp =>
      segments epkt buffer frag mf dlen (ip4id eh) (dlen + 1) 0 seglen xp

/-- The frame carries a packet without options, with a payload, which may be fragmented; the payload
ends where that of a datagram may. -/
structure Carries (p : List UInt8) : Prop where
  type : nhgets (p.drop 12) = 0x800
  vihl : ip4vihl (ip p) = IP_VER4 ||| IP_HLEN4
  pos : IPHDR < ip4length (ip p)
  bytes : ip4length (ip p) ≤ (ip p).length
  df : ip4frag (ip p) &&& IP_DF = 0
  ends : ip4offset (ip p) + (ip4length (ip p) - IPHDR) < IP_MAX

/-- The frame `q` has the header of a packet with the `n` bytes of the payload of `p` from
`a` on. -/
structure Piece (p : List UInt8) (a n : ℕ) (q : List UInt8) : Prop where
  fits : q.length ≤ TunnelMtu
  ether : q.take ETHERHDRSIZE = p.take ETHERHDRSIZE
  same : ∀ j < 20, j < 2 ∨ 4 ≤ j ∧ j < 6 ∨ 8 ≤ j ∧ j < 10 ∨ 12 ≤ j → (ip q)[j]? = (ip p)[j]?
  bytes : ip4length (ip q) ≤ (ip q).length
  cksum : ipcsum (ip q) = 0
  pos : 0 < n
  payload : ip4payload (ip q) = ((ip4payload (ip p)).drop a).take n
  within : a + n ≤ (ip4payload (ip p)).length
  begins : ip4offset (ip q) = ip4offset (ip p) + a

/-- The frames `l` are pieces of the payload of `p`, one behind the other, and only the last has the
flag of `p`. -/
structure Partition (p : List UInt8) (l : List (List UInt8)) : Prop where
  piece : ∀ q ∈ l, ∃ a n, Piece p a n q
  begins : ∀ l₁ q l₂, l = l₁ ++ q :: l₂ → ip4offset (ip q) =
    ip4offset (ip p) + (l₁.map fun q => ip4payload (ip q)).flatten.length
  whole : (l.map fun q => ip4payload (ip q)).flatten = ip4payload (ip p)
  more : ∀ l₁ q l₂, l = l₁ ++ q :: l₂ →
    (ip4frag (ip q) &&& IP_MF ≠ 0 ↔ l₂ ≠ [] ∨ ip4frag (ip p) &&& IP_MF ≠ 0)

/-! ### Blocks -/

section

variable {l : List (List UInt8)} {n : ℕ}

theorem skip_spec (h : n < l.flatten.length) :
    ∃ l', skip n l = some l' ∧ l'.flatten = l.flatten.drop n := by
  induction l generalizing n with
  | nil => cases h
  | cons xp next ih =>
    rw [List.flatten_cons, List.length_append] at h
    rw [skip, List.flatten_cons]
    by_cases hlong : n ≠ 0 ∧ xp.length ≤ n
    · obtain ⟨l', hskip, hl'⟩ := ih (n := n - xp.length) (by omega)
      refine ⟨l', by rw [if_pos hlong, hskip], ?_⟩
      rw [hl', List.drop_append, List.drop_eq_nil_of_le hlong.2, List.nil_append]
    · refine ⟨xp.drop n :: next, if_neg hlong, ?_⟩
      rw [List.flatten_cons, List.drop_append_of_le_length (by omega)]

/-- The bytes are copied, whatever the blocks are. -/
theorem copyup_spec (h : n ≤ l.flatten.length) :
    ∃ l', copyup l n = some (l.flatten.take n, l') ∧ l'.flatten = l.flatten.drop n := by
  induction l generalizing n with
  | nil =>
    obtain rfl : n = 0 := Nat.le_zero.mp h
    exact ⟨[], rfl, rfl⟩
  | cons xp next ih =>
    cases n with
    | zero => exact ⟨xp :: next, rfl, rfl⟩
    | succ n =>
      rw [List.flatten_cons, List.length_append] at h
      rw [copyup, List.flatten_cons]
      by_cases hall : xp.length ≤ n + 1
      · obtain ⟨l', hcopy, hl'⟩ := ih (n := n + 1 - xp.length) (by omega)
        refine ⟨l', ?_, ?_⟩
        · rw [min_eq_left hall, if_pos rfl, hcopy, Option.map_some, List.take_length,
            List.take_append, List.take_of_length_le hall]
        · rw [hl', List.drop_append, List.drop_eq_nil_of_le hall, List.nil_append]
      · refine ⟨xp.drop (n + 1) :: next, ?_, ?_⟩
        · rw [min_eq_right (by omega), if_neg (by omega),
            List.take_append_of_le_length (by omega)]
        · rw [List.flatten_cons, List.drop_append_of_le_length (by omega)]

end

/-! ### One frame -/

section

variable {p epkt : List UInt8} {a n field : ℕ}

/-- The header of the packet, in the first block. -/
theorem getElem?_ip (h : epkt.take (ETHERHDRSIZE + IPHDR) = p.take (ETHERHDRSIZE + IPHDR)) {j : ℕ}
    (hj : j < 20) : (ip epkt)[j]? = (ip p)[j]? := by
  have hlt : ETHERHDRSIZE + j < ETHERHDRSIZE + IPHDR := by simp only [IPHDR]; omega
  rw [ip, ip, List.getElem?_drop, List.getElem?_drop, ← List.getElem?_take_of_lt hlt, h,
    List.getElem?_take_of_lt hlt]

theorem Carries.ip4hl (h : Carries p) : ip4hl (ip p) = IPHDR := by
  rw [Ip.ip4hl, h.vihl]
  rfl

theorem Carries.length_ip4payload (h : Carries p) :
    (ip4payload (ip p)).length = ip4length (ip p) - IPHDR := by
  rw [ip4payload, List.length_drop, List.length_take, h.ip4hl, min_eq_left h.bytes]

/-- The frame of a segment is a piece. -/
theorem piece_segment (buffer : ℕ → UInt8) (hp : Carries p)
    (hlen : ETHERHDRSIZE + IPHDR ≤ epkt.length)
    (hhead : epkt.take (ETHERHDRSIZE + IPHDR) = p.take (ETHERHDRSIZE + IPHDR))
    (hfield : field % 8192 = (ip4offset (ip p) + a) / 8) (h8 : 8 ∣ a) (hpos : 0 < n)
    (hwithin : a + n ≤ (ip4payload (ip p)).length) (hn : n ≤ 1360) :
    Piece p a n (segment epkt buffer field (ip4id (ip epkt))
        (((ip4payload (ip p)).drop a).take n)) ∧
      ip4frag (ip (segment epkt buffer field (ip4id (ip epkt))
        (((ip4payload (ip p)).drop a).take n))) = field % 65536 := by
  have hdata : (((ip4payload (ip p)).drop a).take n).length = n := by
    rw [List.length_take, List.length_drop]
    omega
  have heh : IP4HDR ≤ (ip epkt).length := by
    rw [ip, List.length_drop]
    simp only [IP4HDR, IPHDR] at hlen ⊢
    omega
  have hether : (epkt.take ETHERHDRSIZE).length = ETHERHDRSIZE := by
    rw [List.length_take]
    omega
  rw [segment, hdata]
  generalize hsmall : (List.range (ETHERMINTU - (ETHERHDRSIZE + IPHDR + n))).map buffer = small
  have hsmalllen : small.length ≤ 26 - n := by
    rw [← hsmall, List.length_map, List.length_range]
    simp only [ETHERMINTU, ETHERHDRSIZE, IPHDR]
    omega
  generalize hd : ((ip4payload (ip p)).drop a).take n = data at hdata ⊢
  obtain ⟨hl, hlength, hfrag, hdrop, hsame⟩ := fraghdr_spec (ip epkt) heh field (n + IPHDR)
    (ip4id (ip epkt)) (data ++ small)
  have hid : ip4setid (ip epkt) (ip4id (ip epkt)) = ip epkt := by
    simp only [IP4HDR] at heh
    exact putshort_self (by omega)
  have hge : IP4HDR ≤
      (fraghdr (ip epkt) field (n + IPHDR) (ip4id (ip epkt)) ++ (data ++ small)).length := by
    rw [List.length_append, length_fraghdr heh]
    exact Nat.le_add_right _ _
  have hbyte := getD_congr (b := 0) (getElem?_fillcksum hge (j := 0) (by omega))
  generalize hpre : fraghdr (ip epkt) field (n + IPHDR) (ip4id (ip epkt)) ++ (data ++ small) = pre
    at hl hlength hfrag hdrop hsame hge hbyte ⊢
  rw [hid] at hsame
  have hip : ip (epkt.take ETHERHDRSIZE ++ fillcksum pre) = fillcksum pre :=
    List.drop_left' hether
  have hvihl : ip4vihl (fillcksum pre) = IP_VER4 ||| IP_HLEN4 := by
    rw [ip4vihl, getD_congr ((hsame 0 (by omega) (by omega)).trans (getElem?_ip hhead (by omega)))]
    exact hp.vihl
  have hhl : Ip.ip4hl (fillcksum pre) = IP4HDR := by
    rw [Ip.ip4hl, hvihl]
    rfl
  have hlen' : ip4length (fillcksum pre) = n + IPHDR := by
    rw [hlength]
    exact Nat.mod_eq_of_lt (by simp only [IPHDR]; omega)
  have htotal : (fillcksum pre).length = IPHDR + n + small.length := by
    rw [hl, List.length_append, hdata]
    simp only [IP4HDR, IPHDR]
    omega
  refine ⟨⟨?_, ?_, ?_, ?_, ?_, hpos, ?_, hwithin, ?_⟩, by rw [hip, hfrag]⟩
  · rw [List.length_append, hether, htotal]
    simp only [TunnelMtu, ETHERHDRSIZE, IPHDR]
    omega
  · have htake := congrArg (List.take ETHERHDRSIZE) hhead
    rw [List.take_take, List.take_take, min_eq_left (by omega)] at htake
    rw [List.take_left' hether, htake]
  · intro j hj hor
    rw [hip, hsame j hj hor, getElem?_ip hhead hj]
  · rw [hip, hlen', htotal]
    omega
  · rw [hip]
    refine ipcsum_fillcksum hge ?_
    have hsum : Ip.ip4hl pre = Ip.ip4hl (fillcksum pre) := by
      rw [Ip.ip4hl, Ip.ip4hl, ip4vihl, ip4vihl, hbyte]
    rw [hsum, hhl]
    decide
  · rw [hip, ip4payload, hhl, hlen', List.drop_take, hdrop, hd]
    exact List.take_left' (by rw [hdata]; simp only [IPHDR, IP4HDR]; omega)
  · have hend := hp.ends
    rw [← hp.length_ip4payload, IP_MAX] at hend
    have hmul : 8 ∣ ip4offset (ip p) := by
      rw [ip4offset, Nat.shiftLeft_eq]
      omega
    rw [hip, ip4offset, hfrag, Nat.shiftLeft_eq]
    omega

/-- The flag beside an offset. -/
theorem field_spec {y m : ℕ} (hy : y < 8192) (hm : m = 0 ∨ m = IP_MF) :
    (y ||| m) % 8192 = y ∧ ((y ||| m) % 65536 &&& IP_MF ≠ 0 ↔ m ≠ 0) := by
  have hbit (x : ℕ) : x &&& IP_MF ≠ 0 ↔ x / 8192 % 2 = 1 := and_two_pow_ne_zero x 13
  rcases hm with rfl | rfl
  · rw [Nat.or_zero, hbit]
    omega
  · have hor : y ||| IP_MF = IP_MF + y := by
      rw [Nat.or_comm]
      exact (Nat.two_pow_add_eq_or_of_lt (i := 13) hy 1).symm
    rw [hor, hbit, IP_MF]
    omega

end

/-! ### The loop -/

/-- Pieces from the byte `a` of the payload on, up to its end, one behind the other. -/
inductive Pieces (p : List UInt8) : ℕ → List (List UInt8) → Prop
  | nil : Pieces p (ip4payload (ip p)).length []
  | cons {a n : ℕ} {q : List UInt8} {l : List (List UInt8)} : Piece p a n q →
    (ip4frag (ip q) &&& IP_MF ≠ 0 ↔ l ≠ [] ∨ ip4frag (ip p) &&& IP_MF ≠ 0) →
    Pieces p (a + n) l → Pieces p a (q :: l)

section

variable {p epkt : List UInt8} {buffer : ℕ → ℕ → UInt8} {a fuel seglen : ℕ}
  {xp l : List (List UInt8)}

theorem and_mf (x : ℕ) : x &&& IP_MF = 0 ∨ x &&& IP_MF = IP_MF := by
  have hand : x &&& IP_MF = (x.testBit 13).toNat * 2 ^ 13 := Nat.and_two_pow x 13
  rw [hand]
  cases x.testBit 13
  · exact .inl (Nat.zero_mul _)
  · exact .inr (Nat.one_mul _)

/-- The loop ends, and makes the pieces of what is left of the payload. -/
theorem segments_spec (hp : Carries p) (hlen : ETHERHDRSIZE + IPHDR ≤ epkt.length)
    (hhead : epkt.take (ETHERHDRSIZE + IPHDR) = p.take (ETHERHDRSIZE + IPHDR))
    (hle : a ≤ (ip4payload (ip p)).length) (hfuel : (ip4payload (ip p)).length < a + fuel)
    (hseg : a < (ip4payload (ip p)).length → seglen = 1360 ∧ 8 ∣ a)
    (hxp : xp.flatten.take ((ip4payload (ip p)).length - a) = (ip4payload (ip p)).drop a) :
    ∃ l, segments epkt buffer (ip4offset (ip p)) (ip4frag (ip p) &&& IP_MF)
      (ip4payload (ip p)).length (ip4id (ip epkt)) fuel a seglen xp = some l ∧ Pieces p a l := by
  induction fuel generalizing a seglen xp with
  | zero => omega
  | succ fuel ih =>
    rw [segments]
    by_cases hlt : a < (ip4payload (ip p)).length
    swap
    · obtain rfl : a = (ip4payload (ip p)).length := by omega
      exact ⟨[], if_neg hlt, .nil⟩
    obtain ⟨rfl, h8⟩ := hseg hlt
    rw [if_pos hlt]
    dsimp only
    have hbound := hp.ends
    rw [← hp.length_ip4payload, IP_MAX] at hbound
    have hmul : 8 ∣ ip4offset (ip p) := by
      rw [ip4offset, Nat.shiftLeft_eq]
      omega
    have hy : (ip4offset (ip p) + a) >>> 3 < 8192 := by
      rw [Nat.shiftRight_eq_div_pow]
      omega
    have hshift : (ip4offset (ip p) + a) >>> 3 = (ip4offset (ip p) + a) / 8 :=
      Nat.shiftRight_eq_div_pow _ _
    have hlong : (ip4payload (ip p)).length - a ≤ xp.flatten.length := by
      have hcount := congrArg List.length hxp
      rw [List.length_take, List.length_drop] at hcount
      omega
    have hchunk {n : ℕ} (hn : a + n ≤ (ip4payload (ip p)).length) :
        xp.flatten.take n = ((ip4payload (ip p)).drop a).take n := by
      rw [← hxp, List.take_take, min_eq_left (by omega)]
    have hrest {n : ℕ} (hn : a + n ≤ (ip4payload (ip p)).length) (xp' : List (List UInt8))
        (hxp' : xp'.flatten = xp.flatten.drop n) :
        xp'.flatten.take ((ip4payload (ip p)).length - (a + n)) =
          (ip4payload (ip p)).drop (a + n) := by
      rw [hxp', ← List.drop_drop, ← hxp, List.drop_take, Nat.sub_sub]
    by_cases hlast : (ip4payload (ip p)).length ≤ a + 1360
    · obtain ⟨xp', hcopy, hxp'⟩ := copyup_spec
        (show (ip4payload (ip p)).length - a ≤ xp.flatten.length from hlong)
      have hend : a + ((ip4payload (ip p)).length - a) = (ip4payload (ip p)).length := by omega
      obtain ⟨hfield, hflag⟩ := field_spec hy (and_mf (ip4frag (ip p)))
      obtain ⟨hpiece, hfrag⟩ := piece_segment (buffer a) hp hlen hhead
        (hfield.trans hshift) h8 (n := (ip4payload (ip p)).length - a) (by omega) (by omega)
        (by omega)
      obtain ⟨l, hl, hpieces⟩ := @ih (ip4payload (ip p)).length
        ((ip4payload (ip p)).length - a) xp' le_rfl (by omega)
        (fun h => absurd h (lt_irrefl _)) (by
          have h := hrest (by omega) xp' hxp'
          rwa [hend] at h)
      rw [if_pos hlast, if_pos hlast, hcopy]
      dsimp only
      rw [hend, Nat.mod_eq_of_lt (by omega), hl, hchunk (by omega)]
      refine ⟨_, rfl, .cons hpiece ?_ (by rwa [hend])⟩
      cases hpieces with
      | nil => rw [hfrag, hflag]; simp
      | cons hpiece' =>
        have hpos := hpiece'.pos
        have hwithin := hpiece'.within
        omega
    · obtain ⟨xp', hcopy, hxp'⟩ := copyup_spec (show 1360 ≤ xp.flatten.length by omega)
      obtain ⟨hfield, hflag⟩ := field_spec hy (.inr rfl)
      obtain ⟨hpiece, hfrag⟩ := piece_segment (buffer a) hp hlen hhead
        (hfield.trans hshift) h8 (n := 1360) (by omega) (by omega) le_rfl
      obtain ⟨l, hl, hpieces⟩ := @ih (a + 1360) 1360 xp' (by omega)
        (by omega) (fun _ => ⟨rfl, by omega⟩) (hrest (by omega) xp' hxp')
      rw [if_neg hlast, if_neg hlast, hcopy]
      dsimp only
      rw [Nat.mod_eq_of_lt (by omega), hl, hchunk (by omega)]
      refine ⟨_, rfl, .cons hpiece ?_ hpieces⟩
      have hmore : l ≠ [] := by
        rintro rfl
        generalize hb : a + 1360 = b at hpieces
        cases hpieces
        omega
      rw [hfrag, hflag]
      exact iff_of_true (by decide) (.inl hmore)

/-- Pieces are a partition. -/
theorem Pieces.begins (h : Pieces p a l) : ∀ l₁ q l₂, l = l₁ ++ q :: l₂ → ip4offset (ip q) =
    ip4offset (ip p) + (a + (l₁.map fun q => ip4payload (ip q)).flatten.length) := by
  induction h with
  | nil =>
    intro l₁ q l₂ h
    cases l₁ <;> cases h
  | @cons a n q l hpiece _ _ ih =>
    intro l₁ q' l₂ h
    cases l₁ with
    | nil =>
      obtain ⟨rfl, -⟩ := List.cons.inj h
      exact hpiece.begins
    | cons q₁ l₁ =>
      obtain ⟨rfl, hrest⟩ := List.cons.inj h
      have hlong : (ip4payload (ip q)).length = n := by
        have hwithin := hpiece.within
        rw [hpiece.payload, List.length_take, List.length_drop]
        omega
      rw [ih l₁ q' l₂ hrest, List.map_cons, List.flatten_cons, List.length_append, hlong]
      omega

theorem Pieces.whole (h : Pieces p a l) :
    (l.map fun q => ip4payload (ip q)).flatten = (ip4payload (ip p)).drop a := by
  induction h with
  | nil => exact List.drop_length.symm
  | @cons a n q l hpiece _ _ ih =>
    rw [List.map_cons, List.flatten_cons, ih, hpiece.payload, ← List.drop_drop,
      List.take_append_drop]

theorem Pieces.more (h : Pieces p a l) : ∀ l₁ q l₂, l = l₁ ++ q :: l₂ →
    (ip4frag (ip q) &&& IP_MF ≠ 0 ↔ l₂ ≠ [] ∨ ip4frag (ip p) &&& IP_MF ≠ 0) := by
  induction h with
  | nil =>
    intro l₁ q l₂ h
    cases l₁ <;> cases h
  | cons _ hflag _ ih =>
    intro l₁ q' l₂ h
    cases l₁ with
    | nil =>
      obtain ⟨rfl, rfl⟩ := List.cons.inj h
      exact hflag
    | cons q₁ l₁ => exact ih l₁ q' l₂ (List.cons.inj h).2

theorem Pieces.piece (h : Pieces p a l) : ∀ q ∈ l, ∃ a n, Piece p a n q := by
  induction h with
  | nil => exact nofun
  | @cons a n q l hpiece _ _ ih => exact List.forall_mem_cons.mpr ⟨⟨a, n, hpiece⟩, ih⟩

theorem Pieces.partition (h : Pieces p 0 l) : Partition p l where
  piece := h.piece
  begins l₁ q l₂ hl := by rw [h.begins l₁ q l₂ hl, Nat.zero_add]
  whole := h.whole
  more := h.more

end

/-! ### The result -/

/-- A long frame that carries a packet is to be fragmented. -/
theorem fragment_eq_true {p epkt : List UInt8} (hp : Carries p)
    (hhead : epkt.take (ETHERHDRSIZE + IPHDR) = p.take (ETHERHDRSIZE + IPHDR))
    (hlong : TunnelMtu < p.length) : fragment epkt p.length = true := by
  have htype : nhgets (epkt.drop 12) = 0x800 := by
    have hbyte {j : ℕ} (hj : j < 14) : epkt[j]? = p[j]? := by
      have hlt : j < ETHERHDRSIZE + IPHDR := by simp only [ETHERHDRSIZE]; omega
      rw [← List.getElem?_take_of_lt hlt, hhead, List.getElem?_take_of_lt hlt]
    rw [nhgets_congr (hbyte (by omega)) (hbyte (by omega))]
    exact hp.type
  have hlength : ip4length (ip epkt) = ip4length (ip p) :=
    nhgets_congr (getElem?_ip hhead (by omega)) (getElem?_ip hhead (by omega))
  have hvihl : ip4vihl (ip epkt) = IP_VER4 ||| IP_HLEN4 := by
    rw [ip4vihl, getD_congr (getElem?_ip hhead (by omega))]
    exact hp.vihl
  have hdf : ((ip epkt).getD 6 0).toNat &&& (IP_DF >>> 8) = 0 := by
    by_contra hne
    have hbit := (and_two_pow_ne_zero _ 6).mp hne
    have hdf := mt (and_two_pow_ne_zero (ip4frag (ip p)) 14).mpr (not_not.mpr hp.df)
    have hlow := ((ip p).getD 7 0).toNat_lt
    rw [getD_congr (getElem?_ip hhead (by omega))] at hbit
    rw [ip4frag, nhgets_drop, show 6 + 1 = 7 from rfl] at hdf
    omega
  have hbytes := hp.bytes
  rw [ip, List.length_drop] at hbytes
  rw [fragment, if_neg (by omega), if_neg (not_not.mpr htype)]
  dsimp only
  rw [if_neg (by simp only [TunnelMtu, ETHERHDRSIZE, IPHDR] at hlong ⊢; omega),
    if_neg (not_not.mpr hvihl), if_neg (not_not.mpr hdf), hlength, if_neg (by rw [ip]; omega)]

/-- A frame that is too long for the tunnel is written as a partition of it, any other as it is. -/
theorem etherwrite_partition (buffer : ℕ → ℕ → UInt8) (bp : List (List UInt8))
    (hfirst : ETHERHDRSIZE + IPHDR ≤ (bp.headD []).length) (hp : Carries bp.flatten) :
    ∃ l, etherwrite .Ttun buffer bp = some l ∧
      if TunnelMtu < bp.flatten.length then Partition bp.flatten l else l = [bp.flatten] := by
  obtain ⟨epkt, next, rfl⟩ : ∃ epkt next, bp = epkt :: next := by
    cases bp with
    | nil => simp [ETHERHDRSIZE, IPHDR] at hfirst
    | cons epkt next => exact ⟨epkt, next, rfl⟩
  rw [List.headD_cons] at hfirst
  have hhead : epkt.take (ETHERHDRSIZE + IPHDR) =
      (epkt :: next).flatten.take (ETHERHDRSIZE + IPHDR) := by
    rw [List.flatten_cons, List.take_append_of_le_length hfirst]
  have hskip := skip_spec (l := epkt :: next) (n := ETHERHDRSIZE + IPHDR)
  generalize hq : (epkt :: next).flatten = p at *
  have hbyte {j : ℕ} (hj : j < 20) := getElem?_ip hhead hj
  have hlength : ip4length (ip epkt) = ip4length (ip p) :=
    nhgets_congr (hbyte (by omega)) (hbyte (by omega))
  have hfrag : ip4frag (ip epkt) = ip4frag (ip p) :=
    nhgets_congr (hbyte (by omega)) (hbyte (by omega))
  rw [etherwrite, hq, List.headD_cons]
  dsimp only
  by_cases hlong : TunnelMtu < p.length
  · have hpos := hp.pos
    have hbytes := hp.bytes
    have hpayload := hp.length_ip4payload
    rw [ip, List.length_drop, ← ip] at hbytes
    obtain ⟨xp, hskip, hxp⟩ := hskip (by omega)
    have hrest : xp.flatten.take (ip4payload (ip p)).length = ip4payload (ip p) := by
      rw [hpayload, hxp, ← List.drop_drop, ← ip, ← List.drop_take, ip4payload, hp.ip4hl]
    obtain ⟨l, hl, hpieces⟩ := @segments_spec p epkt buffer 0
      ((ip4payload (ip p)).length + 1) 1360 xp hp hfirst hhead
      (Nat.zero_le _) (by omega) (fun _ => ⟨rfl, dvd_zero 8⟩) (by rwa [Nat.sub_zero])
    have hyes := fragment_eq_true hp hhead hlong
    rw [if_neg (by rw [hyes]; simp), hskip, Option.bind_some, hlength, hfrag, ← hpayload]
    exact ⟨l, hl, by rw [if_pos hlong]; exact hpieces.partition⟩
  · have hno : fragment epkt p.length = false := by rw [fragment, if_pos (Nat.le_of_not_lt hlong)]
    rw [if_pos (.inr hno)]
    exact ⟨_, rfl, by rw [if_neg hlong]⟩

/-- A frame with a fragment of 2000 bytes. -/
def longFrame : List UInt8 :=
  [2, 0, 0, 0, 0, 1, 2, 0, 0, 0, 0, 2, 8, 0] ++
    [0x45, 0, 7, 0xe4, 0, 1, 0x20, 185, 64, 17, 0, 0, 10, 0, 0, 1, 10, 0, 0, 2] ++
    List.replicate 2000 7

theorem etherwrite_partition_longFrame :
    ∃ l, etherwrite .Ttun (fun _ _ => 0) [longFrame.take 100, longFrame.drop 100] = some l ∧
      if TunnelMtu < [longFrame.take 100, longFrame.drop 100].flatten.length then
        Partition [longFrame.take 100, longFrame.drop 100].flatten l
      else l = [[longFrame.take 100, longFrame.drop 100].flatten] :=
  etherwrite_partition _ _ (by decide +kernel)
    ⟨by decide +kernel, by decide +kernel, by decide +kernel, by decide +kernel,
      by decide +kernel, by decide +kernel⟩

end PlanNine.Bridge.Tunnel
