import PlanNine.Ip.Path

/-!
# Fragments of packets with options

`ipoput4` of `ip.c` where it passes on a packet that does not fit the interface. The fragments get
the first 20 bytes of the header, with the length of the header as it was, and the bytes behind
these 20.

## Main definitions

* `ip4hl`, `ip4payload`: the length of a header and the bytes behind it.
* `Wellformed`, `Fragmented`: a packet of version 4, and fragments that hold a packet between them.

## Main results

* `ipcsum_fillcksum`: the checksum that is filled in verifies.
* `flatten_fragment4`, `chunk_of_mem`: what the loop sends.
* `fragmented_iff`: a packet is fragmented well just when it has no options.
* `not_fragmented_option`: a packet with one option.
-/

namespace PlanNine.Ip

open Ip6 (Bwrite)

/-- The length of the header. -/
def ip4hl (d : List UInt8) : ℕ := (ip4vihl d &&& 0xf) <<< 2

/-- The bytes behind the header, up to the length of the packet. -/
def ip4payload (d : List UInt8) : List UInt8 := (d.take (ip4length d)).drop (ip4hl d)

/-- The header is of version 4, within the packet, and its checksum is right; the payload ends where
that of a datagram may. -/
structure Wellformed (d : List UInt8) : Prop where
  version : ip4vihl d &&& 0xf0 = IP_VER4
  le_hl : IP4HDR ≤ ip4hl d
  hl_le : ip4hl d ≤ ip4length d
  bytes : ip4length d ≤ d.length
  ends : ip4offset d + (ip4length d - ip4hl d) < IP_MAX
  cksum : ipcsum d = 0

instance (d : List UInt8) : Decidable (Wellformed d) :=
  decidable_of_iff (_ ∧ _ ∧ _ ∧ _ ∧ _ ∧ _)
    ⟨fun h => ⟨h.1, h.2.1, h.2.2.1, h.2.2.2.1, h.2.2.2.2.1, h.2.2.2.2.2⟩,
      fun h => ⟨h.version, h.le_hl, h.hl_le, h.bytes, h.ends, h.cksum⟩⟩

/-- The packets `l` are well formed, each holds a range of the payload of `d` that begins at its
offset, and they hold the payload one behind the other. -/
structure Fragmented (d : List UInt8) (l : List (List UInt8)) : Prop where
  wellformed : ∀ p ∈ l, Wellformed p
  begins : ∀ p ∈ l, ∃ k, ip4offset p = ip4offset d + k ∧ ip4payload p <+: (ip4payload d).drop k
  whole : (l.map ip4payload).flatten = ip4payload d

/-! ### The checksum -/

section

variable {d : List UInt8}

/-- A word that is stored changes the sum by itself. -/
theorem sumwords_putshort {n k v : ℕ} (hk : k < n) (hlen : 2 * k + 2 ≤ d.length) :
    sumwords n (putshort d (2 * k) v) + nhgets (d.drop (2 * k)) = sumwords n d + v % 65536 := by
  induction k generalizing n d with
  | zero =>
    obtain ⟨n, rfl⟩ := Nat.exists_eq_succ_of_ne_zero hk.ne'
    have hfirst := nhgets_putshort (d := d) (i := 0) (v := v) (Nat.zero_le _)
    have hrest := drop_putshort (d := d) (i := 0) (v := v) (k := 2) le_rfl (Nat.zero_le _)
    rw [List.drop_zero] at hfirst
    rw [Nat.mul_zero, List.drop_zero, sumwords, sumwords, hfirst, hrest]
    omega
  | succ k ih =>
    obtain ⟨n, rfl⟩ := Nat.exists_eq_succ_of_ne_zero (Nat.ne_zero_of_lt hk)
    have hfirst : nhgets (putshort d (2 * (k + 1)) v) = nhgets d := by
      have hcongr := nhgets_congr (i := 0)
        (getElem?_putshort (v := v) hlen (j := 0) (by omega)) (getElem?_putshort hlen (by omega))
      rwa [List.drop_zero, List.drop_zero] at hcongr
    have hrest : (putshort d (2 * (k + 1)) v).drop 2 = putshort (d.drop 2) (2 * k) v := by
      have htake : 2 ≤ (d.take (2 * (k + 1))).length := by
        rw [List.length_take, min_eq_left (by omega)]
        omega
      have hplace : 2 * (k + 1) - 2 = 2 * k := rfl
      have hbehind : 2 * (k + 1) + 2 = 2 + (2 * k + 2) := by ring
      rw [putshort, putshort, List.append_assoc, List.drop_append_of_le_length htake,
        List.drop_take, List.drop_drop, List.append_assoc, hplace, hbehind]
    have hih := ih (n := n) (d := d.drop 2) (by omega) (by rw [List.length_drop]; omega)
    rw [List.drop_drop] at hih
    rw [sumwords, sumwords, hfirst, hrest, show 2 * (k + 1) = 2 + 2 * k by omega]
    omega

theorem sumwords_le (n : ℕ) (d : List UInt8) : sumwords n d ≤ n * 65535 := by
  induction n generalizing d with
  | zero => exact le_rfl
  | succ n ih =>
    have h := nhgets_lt d
    have hrest := ih (d.drop 2)
    rw [sumwords]
    omega

/-- The carries are added, twice. -/
def fold (sum : ℕ) : ℕ :=
  let sum := (sum &&& 0xffff) + (sum >>> 16)
  (sum &&& 0xffff) + (sum >>> 16)

theorem fold_spec (sum : ℕ) (h : sum < 4294967296) :
    fold sum < 65536 ∧ fold sum ≤ sum ∧ fold sum % 65535 = sum % 65535 ∧
      (0 < sum → 0 < fold sum) := by
  have hand (x : ℕ) : x &&& 0xffff = x % 65536 := Nat.and_two_pow_sub_one_eq_mod x 16
  have hshift (x : ℕ) : x >>> 16 = x / 65536 := Nat.shiftRight_eq_div_pow x 16
  simp only [fold, hand, hshift]
  omega

theorem xor_ffff {x : ℕ} (h : x < 65536) : x ^^^ 0xffff = 65535 - x := by
  have hnot := congrArg BitVec.toNat (BitVec.xor_allOnes (x := BitVec.ofNat 16 x))
  rw [BitVec.toNat_xor, BitVec.toNat_not, BitVec.toNat_allOnes, BitVec.toNat_ofNat,
    Nat.mod_eq_of_lt h] at hnot
  exact hnot

theorem ip4hl_le (d : List UInt8) : ip4hl d ≤ 60 := by
  have hand : ip4vihl d &&& 0xf ≤ 15 := Nat.and_le_right
  rw [ip4hl, Nat.shiftLeft_eq]
  omega

theorem ipcsum_eq (d : List UInt8) : ipcsum d = 65535 - fold (sumwords (ip4hl d / 2) d) := by
  have hhl := ip4hl_le d
  have hsum := sumwords_le (ip4hl d / 2) d
  obtain ⟨hlt, -⟩ := fold_spec (sumwords (ip4hl d / 2) d) (by omega)
  have heq : ipcsum d = (fold (sumwords (ip4hl d / 2) d) ^^^ 0xffff) % 65536 := rfl
  rw [heq, xor_ffff hlt]
  omega

/-- The checksum that is filled in verifies. -/
theorem ipcsum_fillcksum (hlen : IP4HDR ≤ d.length) (hhl : 12 ≤ ip4hl d) :
    ipcsum (fillcksum d) = 0 := by
  simp only [IP4HDR] at hlen
  have hle := ip4hl_le d
  have hcleared : (putshort d 10 0).length = d.length := length_putshort (by omega)
  have hbyte {d : List UInt8} (v : ℕ) (h : 20 ≤ d.length) : ip4hl (putshort d 10 v) = ip4hl d :=
    congrArg (fun b : UInt8 => (b.toNat &&& 0xf) <<< 2)
      (getD_congr (getElem?_putshort (by omega) (by omega)))
  obtain ⟨e, he⟩ : ∃ e, e = putshort d 10 0 := ⟨_, rfl⟩
  have hhle : ip4hl e = ip4hl d := he ▸ hbyte 0 hlen
  have hfill : fillcksum d = putshort e 10 (ipcsum e) := he ▸ rfl
  have hzero : nhgets (e.drop 10) = 0 := he ▸ nhgets_putshort (by omega)
  have hsum := sumwords_putshort (d := e) (v := ipcsum e) (n := ip4hl d / 2) (k := 5) (by omega)
    (by rw [he, hcleared]; omega)
  rw [hzero, Nat.add_zero] at hsum
  have hbound := sumwords_le (ip4hl d / 2) e
  have hcksum := ipcsum_eq e
  rw [hhle] at hcksum
  obtain ⟨hlt, hfold, hmod, -⟩ := fold_spec (sumwords (ip4hl d / 2) e) (by omega)
  -- the sum and its complement add up to a multiple of 65535
  obtain ⟨hlt', -, hmod', hpos⟩ :=
    fold_spec (sumwords (ip4hl d / 2) e + ipcsum e % 65536) (by omega)
  rw [hfill, ipcsum_eq, hbyte _ (by rw [he, hcleared]; exact hlen), hhle, hsum]
  have hpos := hpos (by omega)
  omega

end

/-! ### What the loop sends -/

section

variable {eh d data p : List UInt8} {lid seglen dlen fuel fragoff : ℕ}

/-- A packet of the loop: the `n` bytes `k` behind the offset `fragoff`. -/
structure Chunk4 (eh data : List UInt8) (lid dlen fragoff : ℕ) (p : List UInt8) (k n : ℕ) :
    Prop where
  begins : 8 ∣ k
  pos : 0 < n
  within : fragoff + k + n ≤ dlen
  eq : ∃ frag, frag % 8192 = (fragoff + k) / 8 % 8192 ∧
    p = fillcksum (fraghdr eh frag (n + IP4HDR) lid ++ (data.drop k).take n)

/-- The bit `IP_MF` is none of the offset. -/
theorem or_mf_mod (x : ℕ) : (x ||| IP_MF) % 8192 = x % 8192 := by
  have hmod := Nat.or_mod_two_pow (a := x) (b := IP_MF) (n := 13)
  rw [show IP_MF % 2 ^ 13 = 0 from rfl, Nat.or_zero] at hmod
  exact hmod

theorem chunk_of_mem (hseg : 8 ∣ seglen) (hpos : 0 < seglen)
    (hp : p ∈ fragment4 eh lid seglen dlen fuel fragoff data) :
    ∃ k n, Chunk4 eh data lid dlen fragoff p k n := by
  induction fuel generalizing fragoff data with
  | zero => cases hp
  | succ fuel ih =>
    rw [fragment4] at hp
    by_cases hlt : fragoff < dlen
    · by_cases hend : dlen ≤ fragoff + seglen
      · simp only [if_pos hlt, if_pos hend] at hp
        have hnil (l : List UInt8) (fuel m : ℕ) :
            fragment4 eh lid m dlen fuel (fragoff + (dlen - fragoff)) l = [] := by
          cases fuel with
          | zero => rfl
          | succ fuel => rw [fragment4, if_neg (by omega)]
        split_ifs at hp
        · cases hp
        · rw [hnil, List.mem_singleton] at hp
          refine ⟨0, dlen - fragoff, dvd_zero 8, by omega, by omega, fragoff >>> 3, ?_, hp⟩
          rw [Nat.shiftRight_eq_div_pow]
          rfl
      · simp only [if_pos hlt, if_neg hend] at hp
        split_ifs at hp
        · cases hp
        obtain rfl | hp := List.mem_cons.mp hp
        · refine ⟨0, seglen, dvd_zero 8, hpos, by omega, (fragoff >>> 3) ||| IP_MF, ?_, rfl⟩
          rw [or_mf_mod, Nat.shiftRight_eq_div_pow]
          rfl
        · obtain ⟨k, n, hbegins, hn, hwithin, frag, hfrag, rfl⟩ := ih hp
          refine ⟨seglen + k, n, dvd_add hseg hbegins, hn, by omega, frag, ?_, ?_⟩
          · rw [hfrag, Nat.add_assoc]
          · rw [List.drop_drop]
    · rw [if_neg hlt] at hp
      cases hp

/-- The packets hold the bytes one behind the other. -/
theorem flatten_fragment4 (heh : IP4HDR ≤ eh.length) (hpos : 0 < seglen)
    (hfuel : dlen ≤ fragoff + fuel) (hdata : dlen ≤ fragoff + data.length) :
    ((fragment4 eh lid seglen dlen fuel fragoff data).map (·.drop IP4HDR)).flatten =
      data.take (dlen - fragoff) := by
  induction fuel generalizing fragoff data with
  | zero => rw [show dlen - fragoff = 0 by omega, List.take_zero, fragment4, List.map_nil,
      List.flatten_nil]
  | succ fuel ih =>
    have hdrop (frag len : ℕ) (r : List UInt8) :
        (fillcksum (fraghdr eh frag len lid ++ r)).drop IP4HDR = r :=
      (fraghdr_spec eh heh frag len lid r).2.2.2.1
    rw [fragment4]
    by_cases hlt : fragoff < dlen
    · by_cases hend : dlen ≤ fragoff + seglen
      · simp only [if_pos hlt, if_pos hend]
        rw [if_neg (by omega)]
        have hnil (l : List UInt8) (fuel m : ℕ) :
            fragment4 eh lid m dlen fuel (fragoff + (dlen - fragoff)) l = [] := by
          cases fuel with
          | zero => rfl
          | succ fuel => rw [fragment4, if_neg (by omega)]
        rw [hnil, List.map_singleton, List.flatten_singleton, hdrop]
      · simp only [if_pos hlt, if_neg hend]
        rw [if_neg (by omega), List.map_cons, List.flatten_cons, hdrop,
          ih (by omega) (by rw [List.length_drop]; omega), ← List.take_add]
        congr 1
        omega
    · rw [if_neg hlt, List.map_nil, List.flatten_nil, show dlen - fragoff = 0 by omega,
        List.take_zero]

/-- There is more than one when not all fits the first. -/
theorem two_le_length_fragment4 (hpos : 0 < seglen) (hlong : fragoff + seglen < dlen)
    (hfuel : dlen ≤ fragoff + fuel) (hdata : dlen ≤ fragoff + data.length) :
    2 ≤ (fragment4 eh lid seglen dlen fuel fragoff data).length := by
  obtain ⟨fuel, rfl⟩ := Nat.exists_eq_add_of_le (show 2 ≤ fuel by omega)
  rw [Nat.add_comm 2 fuel, fragment4]
  simp only [if_pos (show fragoff < dlen by omega), if_neg (show ¬dlen ≤ fragoff + seglen by omega)]
  rw [if_neg (by omega), fragment4, if_pos (by omega), if_neg, List.length_cons, List.length_cons]
  · omega
  · rw [List.length_drop]
    split_ifs <;> omega

theorem length_fraghdr (heh : IP4HDR ≤ eh.length) (frag len : ℕ) :
    (fraghdr eh frag len lid).length = IP4HDR := by
  have htake : (eh.take IP4HDR).length = 20 := by
    rw [List.length_take, min_eq_left heh]
    rfl
  have hfrag : (putshort (eh.take IP4HDR) 6 frag).length = 20 := by
    rw [length_putshort] <;> omega
  have hlen : (putshort (putshort (eh.take IP4HDR) 6 frag) 2 len).length = 20 := by
    rw [length_putshort] <;> omega
  have heq : fraghdr eh frag len lid =
      putshort (putshort (putshort (eh.take IP4HDR) 6 frag) 2 len) 4 lid := rfl
  rw [heq, length_putshort (by omega), hlen]
  rfl

/-- The header of a packet of the loop. -/
theorem Chunk4.header {k n : ℕ} (h : Chunk4 eh data lid dlen fragoff p k n)
    (heh : IP4HDR ≤ eh.length) (hdata : dlen ≤ fragoff + data.length) (hsize : n + IP4HDR < 65536) :
    p.length = n + IP4HDR ∧ ip4length p = n + IP4HDR ∧
      ip4offset p = (fragoff + k) / 8 * 8 % 65536 ∧ p.drop IP4HDR = (data.drop k).take n ∧
      ip4vihl p = ip4vihl eh ∧ (12 ≤ ip4hl eh → ipcsum p = 0) := by
  obtain ⟨-, -, hwithin, frag, hfrag, rfl⟩ := h
  obtain ⟨hl, hlength, hip, hdrop, hsame⟩ :=
    fraghdr_spec eh heh frag (n + IP4HDR) lid ((data.drop k).take n)
  have htake : ((data.drop k).take n).length = n := by
    rw [List.length_take, List.length_drop]
    omega
  have hbyte : ip4vihl (fillcksum (fraghdr eh frag (n + IP4HDR) lid ++ (data.drop k).take n)) =
      ip4vihl eh := by
    simp only [IP4HDR] at heh
    exact congrArg UInt8.toNat (getD_congr ((hsame 0 (by omega) (by omega)).trans
      (getElem?_putshort (by omega) (by omega))))
  refine ⟨by rw [hl, htake, Nat.add_comm], by rw [hlength, Nat.mod_eq_of_lt hsize], ?_, hdrop,
    hbyte, fun hhl => ?_⟩
  · rw [ip4offset, hip, Nat.shiftLeft_eq]
    omega
  · have hge : IP4HDR ≤
        (fraghdr eh frag (n + IP4HDR) lid ++ (data.drop k).take n).length := by
      rw [List.length_append, length_fraghdr heh]
      exact Nat.le_add_right _ _
    refine ipcsum_fillcksum hge ?_
    have hkeep : ip4vihl (fillcksum (fraghdr eh frag (n + IP4HDR) lid ++ (data.drop k).take n)) =
        ip4vihl (fraghdr eh frag (n + IP4HDR) lid ++ (data.drop k).take n) :=
      congrArg UInt8.toNat (getD_congr (getElem?_fillcksum hge (by omega)))
    rw [ip4hl, ← hkeep, hbyte]
    exact hhl

end

/-! ### Fragments of a packet -/

/-- Lists that are shorter by `c` each. -/
theorem length_flatten_add {α β : Type} {f g : α → List β} {c : ℕ} {l : List α}
    (h : ∀ x ∈ l, (f x).length + c = (g x).length) :
    (l.map f).flatten.length + l.length * c = (l.map g).flatten.length := by
  induction l with
  | nil => simp
  | cons x l ih =>
    have hx := h x List.mem_cons_self
    have hl := ih fun y hy => h y (List.mem_cons_of_mem x hy)
    rw [List.map_cons, List.map_cons, List.flatten_cons, List.flatten_cons, List.length_append,
      List.length_append, List.length_cons, Nat.add_mul, Nat.one_mul]
    omega

section

variable {d e : List UInt8} {lid seglen : ℕ}

/-- What the loop sends of the packet `d`, from a header `e` that gives the same length of a
header. -/
def pieces (d e : List UInt8) (lid seglen : ℕ) : List (List UInt8) :=
  fragment4 e lid seglen (ip4length d - IP4HDR + ip4frag d <<< 3) (ip4length d - IP4HDR)
    (ip4frag d <<< 3) (d.drop IP4HDR)

theorem Wellformed.pieces_spec (h : Wellformed d) (he : IP4HDR ≤ e.length)
    (hvihl : ip4vihl e = ip4vihl d) (hseg : 8 ∣ seglen) (hpos : 0 < seglen) {p : List UInt8}
    (hp : p ∈ pieces d e lid seglen) :
    ∃ k n, 0 < n ∧ IP4HDR + k + n ≤ ip4length d ∧ p.length = n + IP4HDR ∧
      ip4length p = n + IP4HDR ∧ (ip4hl d = IP4HDR → ip4offset p = ip4offset d + k) ∧
      p.drop IP4HDR = (d.drop (IP4HDR + k)).take n ∧ ip4vihl p = ip4vihl d ∧ ipcsum p = 0 := by
  have hlength : ip4length d < 65536 := nhgets_lt _
  have hle := h.le_hl.trans h.hl_le
  obtain ⟨k, n, hchunk⟩ := chunk_of_mem hseg hpos hp
  have hwithin := hchunk.within
  have hbegins := hchunk.begins
  have hdata : ip4length d - IP4HDR + ip4frag d <<< 3 ≤
      ip4frag d <<< 3 + (d.drop IP4HDR).length := by
    have hbytes := h.bytes
    rw [List.length_drop]
    omega
  obtain ⟨hl, hlen, hoffset, hdrop, hbyte, hcksum⟩ := hchunk.header he hdata (by omega)
  have hhl : ip4hl e = ip4hl d := congrArg (fun b => (b &&& 0xf) <<< 2) hvihl
  refine ⟨k, n, hchunk.pos, by omega, hl, hlen, fun h20 => ?_, ?_, hbyte.trans hvihl,
    hcksum ?_⟩
  · have hends := h.ends
    rw [ip4offset, Nat.shiftLeft_eq, h20] at hends
    rw [hoffset, ip4offset, Nat.shiftLeft_eq]
    simp only [IP_MAX] at hends
    omega
  · rw [hdrop, List.drop_drop]
  · have hle_hl := h.le_hl
    simp only [IP4HDR] at hle_hl
    omega

/-- Without options, a fragment behind the first 20 bytes is the payload. -/
theorem ip4payload_of_length {p : List UInt8} (hhl : ip4hl p = IP4HDR)
    (hlen : p.length = ip4length p) : ip4payload p = p.drop IP4HDR := by
  rw [ip4payload, ← hlen, List.take_length, hhl]

theorem fragmented_pieces_iff (h : Wellformed d) (he : IP4HDR ≤ e.length)
    (hvihl : ip4vihl e = ip4vihl d) (hseg : 8 ∣ seglen) (hpos : 0 < seglen)
    (hlong : IP4HDR + seglen < ip4length d) :
    Fragmented d (pieces d e lid seglen) ↔ ip4hl d = IP4HDR := by
  have hbytes := h.bytes
  have hle := h.le_hl.trans h.hl_le
  have hdata : ip4length d - IP4HDR + ip4frag d <<< 3 ≤
      ip4frag d <<< 3 + (d.drop IP4HDR).length := by
    rw [List.length_drop]
    omega
  have hwhole : ((pieces d e lid seglen).map (·.drop IP4HDR)).flatten =
      (d.drop IP4HDR).take (ip4length d - IP4HDR) := by
    rw [pieces, flatten_fragment4 he hpos (by omega) hdata, Nat.add_sub_cancel]
  have hbyte {p : List UInt8} (hp : p ∈ pieces d e lid seglen) : ip4hl p = ip4hl d := by
    obtain ⟨k, n, -, -, -, -, -, -, hbyte, -⟩ := h.pieces_spec he hvihl hseg hpos hp
    exact congrArg (fun b => (b &&& 0xf) <<< 2) hbyte
  constructor
  · intro hfragmented
    -- every fragment holds as many bytes less as there are options
    have hless : ∀ p ∈ pieces d e lid seglen,
        (ip4payload p).length + (ip4hl d - IP4HDR) = (p.drop IP4HDR).length := by
      intro p hp
      obtain ⟨k, n, -, -, hl, hlen, -⟩ := h.pieces_spec he hvihl hseg hpos hp
      have hge := (hfragmented.wellformed p hp).hl_le
      have hle_hl := h.le_hl
      rw [hbyte hp] at hge
      rw [ip4payload, hbyte hp, List.length_drop, List.length_take, List.length_drop]
      omega
    have hsum := length_flatten_add hless
    have htwo : 2 ≤ (pieces d e lid seglen).length :=
      two_le_length_fragment4 hpos (by omega) (by omega) hdata
    have hmul := Nat.mul_le_mul_right (ip4hl d - IP4HDR) htwo
    have hle_hl := h.le_hl
    have hhl_le := h.hl_le
    rw [hfragmented.whole, hwhole, ip4payload, List.length_drop, List.length_take, List.length_take,
      List.length_drop] at hsum
    omega
  · intro h20
    have hpayload : ∀ p ∈ pieces d e lid seglen, ip4payload p = p.drop IP4HDR := by
      intro p hp
      obtain ⟨k, n, -, -, hl, hlen, -⟩ := h.pieces_spec he hvihl hseg hpos hp
      exact ip4payload_of_length ((hbyte hp).trans h20) (hl.trans hlen.symm)
    have hself : ip4payload d = (d.drop IP4HDR).take (ip4length d - IP4HDR) := by
      rw [ip4payload, h20, List.drop_take]
    refine ⟨fun p hp => ?_, fun p hp => ?_, ?_⟩
    · obtain ⟨k, n, hn, hwithin, hl, hlen, hoffset, -, hvihl', hcksum⟩ :=
        h.pieces_spec he hvihl hseg hpos hp
      have hends := h.ends
      refine ⟨?_, ?_, ?_, ?_, ?_, hcksum⟩
      · rw [hvihl']
        exact h.version
      · rw [hbyte hp, h20]
      · rw [hbyte hp, h20, hlen]
        exact Nat.le_add_left _ _
      · rw [hl, hlen]
      · rw [hoffset h20, hlen, hbyte hp]
        omega
    · obtain ⟨k, n, hn, hwithin, hl, hlen, hoffset, hdrop, -⟩ :=
        h.pieces_spec he hvihl hseg hpos hp
      refine ⟨k, hoffset h20, ?_⟩
      rw [hpayload p hp, hdrop, hself, List.drop_take, List.drop_drop]
      exact List.take_prefix_take_left (by omega)
    · rw [List.map_congr_left hpayload, hwhole, hself]

/-- What `ipoput4` sends of a packet that it passes on and that does not fit the interface. -/
theorem ipoput4_pieces {fs : Fs} {id4 ttl tos : ℕ} {out : Bwrite}
    (h : ipoput4 fs id4 d true ttl tos = some out) (hlong : out.ifc.medialen < ip4length d) :
    ∃ seglen, 8 ∣ seglen ∧ 0 < seglen ∧ IP4HDR + seglen < ip4length d ∧
      out.pkts = pieces d (ip4setttl d ttl) (ip4id d) seglen := by
  have hget {j : ℕ} (hj : j ≠ 8) : (ip4setttl d ttl)[j]? = d[j]? :=
    List.getElem?_set_ne (fun h => hj h.symm)
  have hid : ip4id (ip4setttl d ttl) = ip4id d :=
    nhgets_congr (hget (by decide)) (hget (by decide))
  have hfrag : ip4frag (ip4setttl d ttl) = ip4frag d :=
    nhgets_congr (hget (by decide)) (hget (by decide))
  have hdrop : (ip4setttl d ttl).drop IP4HDR = d.drop IP4HDR := List.drop_set_of_lt (by decide)
  obtain ⟨ifc, gate, -, hsend⟩ := ipoput4_gating h
  unfold send4 at hsend
  simp only [if_true] at hsend
  split_ifs at hsend with hfit hdf hseg
  · cases hsend
    exact absurd hfit (not_le.mpr hlong)
  · cases hsend
    obtain ⟨s, hs⟩ := Int.eq_ofNat_of_zero_le (a := (ifc.medialen - IP4HDR) / 8 * 8) (by omega)
    have hs' : ((ifc.medialen - IP4HDR) / 8 * 8).toNat = s := by omega
    refine ⟨s, ?_, ?_, ?_, ?_⟩
    · omega
    · omega
    · change (ifc.medialen : ℤ) < ip4length d at hlong
      omega
    · rw [hs', hid, hfrag, hdrop]
      rfl

/-- A packet that is passed on to an interface that it does not fit is fragmented well just when its
header has no options. -/
theorem fragmented_iff {fs : Fs} {id4 ttl tos : ℕ} {out : Bwrite} (hd : Wellformed d)
    (hout : ipoput4 fs id4 d true ttl tos = some out) (hlong : out.ifc.medialen < ip4length d) :
    Fragmented d out.pkts ↔ ip4hl d = IP4HDR := by
  have hlen : IP4HDR ≤ d.length := (hd.le_hl.trans hd.hl_le).trans hd.bytes
  obtain ⟨seglen, hseg, hpos, hsize, hpkts⟩ := ipoput4_pieces hout hlong
  rw [hpkts]
  refine fragmented_pieces_iff hd ?_ ?_ hseg hpos hsize
  · rw [ip4setttl, List.length_set]
    exact hlen
  · exact congrArg UInt8.toNat (getD_congr (List.getElem?_set_ne (by decide)))

end

/-! ### A packet with one option -/

/-- A stack with one route, to an interface that takes 44 bytes. -/
def narrowRoute : Fs where
  ipforme _ := false
  iprouting := true
  v4lookup _ := some
    { ifc := { maxtu := 58, hsize := 14, addr := 0 }
      gate := [], toIfc := true, toMany := false, uni := true }

/-- A packet of 48 bytes without options. -/
def plain : List UInt8 :=
  fillcksum ([0x45, 0, 0, 48, 0, 1, 0, 0, 64, 17, 0, 0, 10, 0, 0, 1, 10, 0, 0, 2] ++
    List.replicate 28 7)

/-- A packet of 48 bytes with four bytes of options. -/
def optioned : List UInt8 :=
  fillcksum ([0x46, 0, 0, 48, 0, 1, 0, 0, 64, 17, 0, 0, 10, 0, 0, 1, 10, 0, 0, 2, 1, 1, 1, 0] ++
    List.replicate 24 7)

theorem fragmented_plain :
    ∃ out, ipoput4 narrowRoute 0 plain true 63 0 = some out ∧ Fragmented plain out.pkts := by
  have hany : (ipoput4 narrowRoute 0 plain true 63 0).any
      (fun out => decide (out.ifc.medialen < (ip4length plain : ℤ))) = true := by decide +kernel
  obtain ⟨out, hout, hlong⟩ := Option.any_eq_true _ _ |>.mp hany
  exact ⟨out, hout, (fragmented_iff (by decide +kernel) hout (of_decide_eq_true hlong)).mpr
    (by decide +kernel)⟩

/-- The second fragment of a packet with an option says that its first four bytes are options; they
are bytes of the payload. -/
theorem not_fragmented_option :
    ¬∀ d id4 ttl tos out, Wellformed d → ipoput4 narrowRoute id4 d true ttl tos = some out →
      out.ifc.medialen < ip4length d → Fragmented d out.pkts := by
  intro h
  have hany : (ipoput4 narrowRoute 0 optioned true 63 0).any
      (fun out => decide (out.ifc.medialen < (ip4length optioned : ℤ) ∧
        (out.pkts.map ip4payload).flatten ≠ ip4payload optioned)) = true := by decide +kernel
  obtain ⟨out, hout, hbad⟩ := Option.any_eq_true _ _ |>.mp hany
  obtain ⟨hlong, hne⟩ := of_decide_eq_true hbad
  exact hne (h optioned 0 63 0 out (by decide +kernel) hout hlong).whole

end PlanNine.Ip
