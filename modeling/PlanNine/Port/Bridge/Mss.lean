import PlanNine.Port.Bridge.Forward
import PlanNine.Ip.Options4

/-!
# The limit on segment sizes

`tcpmsshack` of `devbridge.c` rewrites the option for the maximal segment size in a frame that goes
over a bridge, and makes up for it in the checksum. The checksum of a TCP segment is right whatever
part of the segment the packet holds: it may be the first fragment, the rest coming in others.

## Main definitions

* `First`: the first option for the segment size among the options of a header.
* `Segment`: the frame carries a TCP segment with SYN set, or its first part.
* `Valid`: the checksum of a segment is right.
* `Clamped`: only the value of the option and the checksum differ, and the checksum is right if and
  only if it was.

## Main results

* `mssLoop_iff`: the search comes to the first option for the segment size.
* `clamped_of_offers`: a header that lies in its packet is rewritten so.
* `clamps_iff`: when the routine leaves a frame as it is or rewrites it so.
* `not_clamps_fragment`: the data of a later fragment is rewritten.
-/

namespace PlanNine.Bridge

open PlanNine.Ip

/-- The packet in a frame. -/
def ip (p : List UInt8) : List UInt8 := p.drop ETHERHDRSIZE

/-- The offset of the header behind that of the packet. -/
def tcp (p : List UInt8) : ℕ := ETHERHDRSIZE + ip4hl (ip p)

/-- The length of a TCP header by its own field. -/
def thl (p : List UInt8) : ℕ := ((p.getD (tcp p + 12) 0).toNat &&& 0xf0) >>> 2

/-- From the place `o` on, the first option for the segment size stands at `x`, before the end of
the options at `stop`. -/
inductive First (p : List UInt8) (stop : ℕ) : ℕ → ℕ → Prop
  | here {o : ℕ} : (p.getD o 0).toNat = 2 → (p.getD (o + 1) 0).toNat = 4 → o + 4 ≤ stop →
    First p stop o o
  | noop {o x : ℕ} : o < stop → (p.getD o 0).toNat = 1 → First p stop (o + 1) x → First p stop o x
  | other {o x : ℕ} : o < stop → (p.getD o 0).toNat ≠ 0 → (p.getD o 0).toNat ≠ 1 →
    2 ≤ (p.getD (o + 1) 0).toNat → o + (p.getD (o + 1) 0).toNat ≤ stop →
    ¬((p.getD o 0).toNat = 2 ∧ (p.getD (o + 1) 0).toNat = 4) →
    First p stop (o + (p.getD (o + 1) 0).toNat) x → First p stop o x

/-- What the routine takes for a frame with a TCP segment in which SYN is set. -/
structure Looks (p : List UInt8) : Prop where
  type : nhgets (p.drop 12) = 0x800
  header : ETHERHDRSIZE + 20 ≤ p.length
  version : ip4vihl (ip p) &&& 0xf0 = 0x40
  hl : 20 ≤ ip4hl (ip p)
  proto : (ip4proto (ip p)).toNat = 6
  tcphdr : tcp p + 20 ≤ p.length
  syn : (p.getD (tcp p + 13) 0).toNat &&& 0x02 ≠ 0
  options : tcp p + thl p ≤ p.length

/-- The frame looks so, and the first option for the segment size, at `o`, asks for too much. -/
structure Offers (p : List UInt8) (o : ℕ) : Prop extends Looks p where
  first : First p (tcp p + thl p) (tcp p + 20) o
  large : TcpMssMax < nhgets (p.drop (o + 2))

/-- The frame carries a packet that is not fragmented, or a first fragment, and holds the header of
a TCP segment with SYN set. -/
structure Segment (p : List UInt8) : Prop where
  type : nhgets (p.drop 12) = 0x800
  version : ip4vihl (ip p) &&& 0xf0 = 0x40
  hl : 20 ≤ ip4hl (ip p)
  whole : ip4length (ip p) ≤ (ip p).length
  proto : (ip4proto (ip p)).toNat = 6
  start : ip4offset (ip p) = 0
  holds : ip4hl (ip p) + 20 ≤ ip4length (ip p) ∧ ip4hl (ip p) + thl p ≤ ip4length (ip p)
  syn : (p.getD (tcp p + 13) 0).toNat &&& 0x02 ≠ 0

/-- The sum over the pseudo header and the segment, of which `rest` comes in other packets. -/
def tcpsum (p rest : List UInt8) : ℕ :=
  let seg := ip4payload (ip p) ++ rest
  nhgets ((ip p).drop 12) + nhgets ((ip p).drop 14) + nhgets ((ip p).drop 16) +
    nhgets ((ip p).drop 18) + (ip4proto (ip p)).toNat + seg.length +
    sumwords ((seg.length + 1) / 2) seg

/-- The sum, with its carries added, is all ones. -/
def Valid (p rest : List UInt8) : Prop := 65535 ∣ tcpsum p rest

/-- The frame `q` differs from `p`, which has a segment with SYN set, in the value of its option for
the segment size, which was too large, and in the checksum of the segment. -/
structure Clamped (p q : List UInt8) : Prop where
  segment : Segment p
  differs : ∃ o, First p (tcp p + thl p) (tcp p + 20) o ∧ TcpMssMax < nhgets (p.drop (o + 2)) ∧
    nhgets (q.drop (o + 2)) = TcpMssMax ∧ q.length = p.length ∧
    ∀ i, i ≠ tcp p + 16 → i ≠ tcp p + 17 → i ≠ o + 2 → i ≠ o + 3 → q[i]? = p[i]?
  valid : ∀ rest, Valid q rest ↔ Valid p rest

/-- What a header that offers too much must be: one at the start of a segment, all of which lies in
the packet, which lies in the frame. -/
def Meets (p : List UInt8) : Prop :=
  ∀ o, Offers p o → ip4offset (ip p) = 0 ∧ ip4hl (ip p) + thl p ≤ ip4length (ip p) ∧
    ip4length (ip p) ≤ (ip p).length

/-! ### The search -/

section

variable {p : List UInt8} {stop o x y fuel n : ℕ}

/-- The search ends, and comes to the first option for the segment size. -/
theorem mssLoop_iff (hfuel : n ≤ fuel) :
    mssLoop p fuel n o = some x ↔ First p (o + n) o x := by
  have hend : ∀ {o : ℕ}, ¬First p o o x := by
    intro o h
    cases h <;> omega
  induction fuel generalizing n o with
  | zero =>
    obtain rfl : n = 0 := by omega
    exact iff_of_false (by rw [mssLoop]; nofun) hend
  | succ fuel ih =>
    rw [mssLoop]
    dsimp only
    by_cases hn : n = 0
    · subst hn
      rw [if_pos (.inl rfl)]
      exact iff_of_false nofun hend
    by_cases h0 : (p.getD o 0).toNat = 0
    · rw [if_pos (.inr h0)]
      refine iff_of_false nofun fun h => ?_
      cases h <;> omega
    rw [if_neg (by omega)]
    by_cases h1 : (p.getD o 0).toNat = 1
    · have hrest := ih (n := n - 1) (o := o + 1) (by omega)
      rw [show o + 1 + (n - 1) = o + n by omega] at hrest
      rw [if_pos h1]
      refine hrest.trans ⟨?_, ?_⟩
      · exact fun h => .noop (by omega) h1 h
      · intro h
        cases h with
        | here h2 => omega
        | noop _ _ h => exact h
        | other _ _ hne => exact absurd h1 hne
    rw [if_neg h1]
    by_cases hlen : (p.getD (o + 1) 0).toNat < 2 ∨ n < (p.getD (o + 1) 0).toNat
    · rw [if_pos hlen]
      refine iff_of_false nofun fun h => ?_
      cases h <;> omega
    rw [if_neg hlen]
    by_cases hmss : (p.getD o 0).toNat = 2 ∧ (p.getD (o + 1) 0).toNat = 4
    · rw [if_pos hmss, Option.some.injEq]
      constructor
      · rintro rfl
        exact .here hmss.1 hmss.2 (by omega)
      · intro h
        cases h with
        | here => rfl
        | noop _ h _ => exact absurd h h1
        | other _ _ _ _ _ hne => exact absurd hmss hne
    · have hstop : o + (p.getD (o + 1) 0).toNat + (n - (p.getD (o + 1) 0).toNat) = o + n := by
        omega
      have hrest := ih (n := n - (p.getD (o + 1) 0).toNat) (o := o + (p.getD (o + 1) 0).toNat)
        (by omega)
      rw [hstop] at hrest
      rw [if_neg hmss]
      refine hrest.trans ⟨?_, ?_⟩
      · exact fun h => .other (by omega) h0 h1 (by omega) (by omega) hmss h
      · intro h
        cases h with
        | here h2 h4 => exact absurd ⟨h2, h4⟩ hmss
        | noop _ h _ => exact absurd h h1
        | other _ _ _ _ _ _ h => exact h

/-- The option lies among the options. -/
theorem First.bounds (h : First p stop o x) : o ≤ x ∧ x + 4 ≤ stop := by
  induction h with
  | here _ _ hle => exact ⟨le_rfl, hle⟩
  | noop _ _ _ ih => exact ⟨by omega, ih.2⟩
  | other _ _ _ _ _ _ _ ih => exact ⟨by omega, ih.2⟩

end

/-! ### The routine -/

section

variable {p : List UInt8} {o : ℕ}

theorem getD_drop (p : List UInt8) (i j : ℕ) : (p.drop i).getD j 0 = p.getD (i + j) 0 := by
  rw [List.getD_eq_getElem?_getD, List.getElem?_drop, ← List.getD_eq_getElem?_getD]

/-- The checksum that makes up for the option at `o`. -/
def fitted (p : List UInt8) (o : ℕ) : ℕ :=
  if (o - tcp p) % 2 = 1 then
    let c := usub (nhgets (p.drop (tcp p + 16)) + nhgets (p.drop (o + 1)))
      ((p.getD (o + 1) 0).toNat <<< 8 ||| TcpMssMax >>> 8)
    let c := (c + c >>> 16) &&& 0xffff
    let c := usub (c + nhgets (p.drop (o + 3)))
      ((TcpMssMax &&& 0xff) <<< 8 ||| (p.getD (o + 4) 0).toNat)
    c + c >>> 16
  else
    let c := usub (nhgets (p.drop (tcp p + 16)) + nhgets (p.drop (o + 2))) TcpMssMax
    c + c >>> 16

theorem ip4vihl_ip (p : List UInt8) : ip4vihl (ip p) = (p.getD ETHERHDRSIZE 0).toNat := by
  rw [ip4vihl, ip, getD_drop, Nat.add_zero]

theorem tcp_eq (p : List UInt8) :
    tcp p = ETHERHDRSIZE + ((p.getD ETHERHDRSIZE 0).toNat &&& 0xf) <<< 2 := by
  rw [tcp, ip4hl, ip4vihl_ip]

theorem looks_iff : Looks p ↔
    ¬(nhgets (p.drop 12) ≠ 0x800 ∨ p.length < ETHERHDRSIZE + 20 ∨
      (p.getD ETHERHDRSIZE 0).toNat &&& 0xf0 ≠ 0x40 ∨ tcp p - ETHERHDRSIZE < 20 ∨
      (p.getD (ETHERHDRSIZE + 9) 0).toNat ≠ 6 ∨
      p.length - ETHERHDRSIZE - (tcp p - ETHERHDRSIZE) < 20 ∨
      (p.getD (tcp p + 13) 0).toNat &&& 0x02 = 0 ∨
      p.length - ETHERHDRSIZE - (tcp p - ETHERHDRSIZE) < thl p) := by
  have hhl : ip4hl (ip p) = tcp p - ETHERHDRSIZE := by rw [tcp]; omega
  have hle : ETHERHDRSIZE ≤ tcp p := by rw [tcp]; omega
  have hproto : ip4proto (ip p) = p.getD (ETHERHDRSIZE + 9) 0 := getD_drop ..
  constructor
  · rintro ⟨h1, h2, h3, h4, h5, h6, h7, h8⟩
    rw [ip4vihl_ip] at h3
    rw [hhl] at h4
    rw [hproto] at h5
    omega
  · intro h
    refine ⟨by omega, by omega, ?_, by omega, ?_, by omega, by omega, by omega⟩
    · rw [ip4vihl_ip]
      omega
    · rw [hproto]
      omega

theorem tcpmsshack_eq (p : List UInt8) : tcpmsshack p =
    if nhgets (p.drop 12) ≠ 0x800 ∨ p.length < ETHERHDRSIZE + 20 ∨
      (p.getD ETHERHDRSIZE 0).toNat &&& 0xf0 ≠ 0x40 ∨ tcp p - ETHERHDRSIZE < 20 ∨
      (p.getD (ETHERHDRSIZE + 9) 0).toNat ≠ 6 ∨
      p.length - ETHERHDRSIZE - (tcp p - ETHERHDRSIZE) < 20 ∨
      (p.getD (tcp p + 13) 0).toNat &&& 0x02 = 0 ∨
      p.length - ETHERHDRSIZE - (tcp p - ETHERHDRSIZE) < thl p then p
    else
      match mssLoop p (thl p - 20) (thl p - 20) (tcp p + 20) with
      | none => p
      | some o =>
        if nhgets (p.drop (o + 2)) ≤ TcpMssMax then p
        else putshort (putshort p (tcp p + 16) (fitted p o)) (o + 2) TcpMssMax := by
  have hhl : tcp p - ETHERHDRSIZE = ((p.getD ETHERHDRSIZE 0).toNat &&& 0xf) <<< 2 := by
    rw [tcp_eq]
    omega
  rw [tcpmsshack]
  dsimp only
  rw [← tcp_eq, ← hhl]
  rfl

theorem tcpmsshack_of_offers (h : Offers p o) : tcpmsshack p =
    putshort (putshort p (tcp p + 16) (fitted p o)) (o + 2) TcpMssMax := by
  have hbounds := h.first.bounds
  have hfirst : mssLoop p (thl p - 20) (thl p - 20) (tcp p + 20) = some o := by
    refine (mssLoop_iff le_rfl).mpr ?_
    rw [show tcp p + 20 + (thl p - 20) = tcp p + thl p by omega]
    exact h.first
  rw [tcpmsshack_eq, if_neg (looks_iff.mp h.toLooks), hfirst]
  exact if_neg (Nat.not_le.mpr h.large)

theorem tcpmsshack_of_not (h : ∀ o, ¬Offers p o) : tcpmsshack p = p := by
  rw [tcpmsshack_eq]
  by_cases hlooks : Looks p
  · rw [if_neg (looks_iff.mp hlooks)]
    cases hfirst : mssLoop p (thl p - 20) (thl p - 20) (tcp p + 20) with
    | none => rfl
    | some o =>
      have hat := (mssLoop_iff le_rfl).mp hfirst
      have hbounds := hat.bounds
      rw [show tcp p + 20 + (thl p - 20) = tcp p + thl p by omega] at hat
      dsimp only
      by_cases hlarge : nhgets (p.drop (o + 2)) ≤ TcpMssMax
      · exact if_pos hlarge
      · exact absurd ⟨hlooks, hat, Nat.not_le.mp hlarge⟩ (h o)
  · rw [if_pos (not_not.mp (mt looks_iff.mpr hlooks))]

end

/-! ### The checksum -/

/-- The weight of a byte in a sum of words. -/
def weight (j : ℕ) : ℕ := if j % 2 = 0 then 256 else 1

section

variable {d p : List UInt8} {b : UInt8} {n j o : ℕ}

/-- A byte that is stored changes the sum by its weight. -/
theorem sumwords_set (hj : j < 2 * n) (hlen : j < d.length) :
    sumwords n (d.set j b) + weight j * (d.getD j 0).toNat = sumwords n d + weight j * b.toNat := by
  induction n generalizing d j with
  | zero => omega
  | succ n ih =>
    match j, d with
    | 0, x :: t =>
      have hweight : weight 0 = 256 := rfl
      simp only [sumwords, nhgets, hweight, List.set_cons_zero, List.getD_cons_zero,
        List.getD_cons_succ, List.drop_succ_cons]
      omega
    | 1, x :: y :: t =>
      have hweight : weight 1 = 1 := rfl
      simp only [sumwords, nhgets, hweight, List.set_cons_zero, List.set_cons_succ,
        List.getD_cons_zero, List.getD_cons_succ, List.drop_succ_cons, List.drop_zero]
      omega
    | j + 2, x :: y :: t =>
      have hrest := ih (d := t) (j := j) (by omega) (by
        simp only [List.length_cons] at hlen
        omega)
      have hweight : weight (j + 2) = weight j := by rw [weight, Nat.add_mod_right, weight]
      rw [hweight, List.set_cons_succ, List.set_cons_succ, List.getD_cons_succ,
        List.getD_cons_succ, sumwords, sumwords]
      have hfirst : nhgets (x :: y :: t.set j b) = nhgets (x :: y :: t) := rfl
      rw [hfirst]
      show nhgets (x :: y :: t) + sumwords n (t.set j b) + _ =
        nhgets (x :: y :: t) + sumwords n t + _
      omega

theorem putshort_eq_set {i v : ℕ} (h : i + 2 ≤ d.length) :
    putshort d i v = (d.set i (uchar (v >>> 8))).set (i + 1) (uchar v) := by
  have hdrop : d.drop i = d.getD i 0 :: d.getD (i + 1) 0 :: d.drop (i + 2) := by
    rw [List.drop_eq_getElem_cons (by omega), List.drop_eq_getElem_cons (by omega),
      List.getD_eq_getElem _ _ (by omega), List.getD_eq_getElem _ _ (by omega)]
  have hsplit : d = d.take i ++ d.getD i 0 :: d.getD (i + 1) 0 :: d.drop (i + 2) := by
    rw [← hdrop, List.take_append_drop]
  have htake : (d.take i).length = i := by rw [List.length_take]; omega
  rw [putshort, List.append_assoc]
  generalize d.getD i 0 = x, d.getD (i + 1) 0 = y, d.drop (i + 2) = r, d.take i = l at *
  subst htake
  rw [hsplit, List.set_append_right _ _ le_rfl, List.set_append_right _ _ (by omega)]
  simp [hnputs]

theorem ip_set (hj : ETHERHDRSIZE ≤ j) : ip (p.set j b) = (ip p).set (j - ETHERHDRSIZE) b := by
  rw [ip, List.drop_set, if_neg (by omega), ip]

/-- A byte behind the header leaves its fields alone. -/
theorem getD_ip_set {i : ℕ} (hi : i < 20) (hj : ETHERHDRSIZE + 20 ≤ j) :
    (ip (p.set j b)).getD i 0 = (ip p).getD i 0 := by
  rw [ip_set (by omega), List.getD_eq_getElem?_getD, List.getElem?_set_ne (by omega),
    ← List.getD_eq_getElem?_getD]

theorem nhgets_ip_set {i : ℕ} (hi : i + 1 < 20) (hj : ETHERHDRSIZE + 20 ≤ j) :
    nhgets ((ip (p.set j b)).drop i) = nhgets ((ip p).drop i) := by
  simp only [nhgets, getD_drop]
  rw [getD_ip_set (by omega) hj, getD_ip_set (by omega) hj]

theorem tcp_set (hj : ETHERHDRSIZE + 20 ≤ j) : tcp (p.set j b) = tcp p := by
  rw [tcp, ip4hl, ip4vihl, getD_ip_set (by omega) hj]
  rfl

theorem ip4length_set (hj : ETHERHDRSIZE + 20 ≤ j) :
    ip4length (ip (p.set j b)) = ip4length (ip p) := nhgets_ip_set (by omega) hj

/-- A byte of the segment in the packet. -/
theorem ip4payload_set (hj : ETHERHDRSIZE + 20 ≤ j) (ht : tcp p ≤ j) :
    ip4payload (ip (p.set j b)) = (ip4payload (ip p)).set (j - tcp p) b := by
  have hhl : ip4hl (ip (p.set j b)) = ip4hl (ip p) := by
    rw [ip4hl, ip4vihl, getD_ip_set (by omega) hj]
    rfl
  have hplace : j - ETHERHDRSIZE - ip4hl (ip p) = j - tcp p := by rw [tcp]; omega
  have hbehind : ¬j - ETHERHDRSIZE < ip4hl (ip p) := by
    rw [tcp] at ht
    omega
  rw [ip4payload, ip4length_set hj, hhl, ip_set (by omega), List.take_set, List.drop_set,
    if_neg hbehind, hplace, ip4payload]

/-- A byte of the segment that is stored changes the sum over it by its weight. -/
theorem tcpsum_set (rest : List UInt8) (hj : ETHERHDRSIZE + 20 ≤ j) (ht : tcp p ≤ j)
    (hlen : j < p.length) (hin : j < ETHERHDRSIZE + ip4length (ip p)) :
    tcpsum (p.set j b) rest + weight (j - tcp p) * (p.getD j 0).toNat =
      tcpsum p rest + weight (j - tcp p) * b.toNat := by
  have hseg : j - tcp p < (ip4payload (ip p)).length := by
    rw [tcp] at ht ⊢
    rw [ip4payload, ip, List.length_drop, List.length_take, List.length_drop]
    rw [ip] at hin ht
    omega
  have hbyte : ((ip4payload (ip p) ++ rest).getD (j - tcp p) 0) = p.getD j 0 := by
    have hget : (ip4payload (ip p)).getD (j - tcp p) 0 = p.getD j 0 := by
      have hplace : ETHERHDRSIZE + (ip4hl (ip p) + (j - tcp p)) = j := by
        rw [tcp] at ht ⊢
        omega
      rw [ip4payload, getD_drop, List.getD_eq_getElem?_getD, List.getElem?_take_of_lt (by omega),
        ← List.getD_eq_getElem?_getD, ip, getD_drop]
      rw [ip] at hplace
      rw [hplace]
    rw [List.getD_append _ _ _ _ hseg, hget]
  have hlong : (ip4payload (ip p) ++ rest).length =
      (ip4payload (ip p)).length + rest.length := List.length_append
  have hsum := sumwords_set (d := ip4payload (ip p) ++ rest) (b := b)
    (n := ((ip4payload (ip p) ++ rest).length + 1) / 2) (j := j - tcp p) (by omega) (by omega)
  have hproto : ip4proto (ip (p.set j b)) = ip4proto (ip p) := getD_ip_set (by omega) hj
  rw [hbyte, List.set_append_left _ _ hseg] at hsum
  simp only [tcpsum, ip4payload_set hj ht, hproto, nhgets_ip_set (i := 12) (by omega) hj,
    nhgets_ip_set (i := 14) (by omega) hj, nhgets_ip_set (i := 16) (by omega) hj,
    nhgets_ip_set (i := 18) (by omega) hj, List.length_append, List.length_set] at hsum ⊢
  omega

theorem nhgets_drop (p : List UInt8) (i : ℕ) :
    nhgets (p.drop i) = (p.getD i 0).toNat * 256 + (p.getD (i + 1) 0).toNat := by
  rw [nhgets, getD_drop, getD_drop, Nat.add_zero]

theorem usub_of_le {x y : ℕ} (h : y ≤ x) (hx : x < 4294967296) : usub x y = x - y := by
  rw [usub]
  omega

/-- A carry that is added keeps the rest modulo 65535. -/
theorem carry_mod {c : ℕ} (h : c < 131071) : (c + c >>> 16) % 65536 % 65535 = c % 65535 := by
  rw [Nat.shiftRight_eq_div_pow]
  by_cases hc : c < 65536
  · rw [show c / 2 ^ 16 = 0 by omega]
    omega
  · rw [show c / 2 ^ 16 = 1 by omega]
    omega

/-- The same where a difference is taken that may be negative. -/
theorem carry_usub_mod {x y : ℕ} (hx : x < 131071) (hy : y < 65536) :
    ((usub x y + usub x y >>> 16) % 65536 + y) % 65535 = x % 65535 := by
  by_cases hle : y ≤ x
  · rw [usub_of_le hle (by omega)]
    have hcarry := carry_mod (c := x - y) (by omega)
    omega
  · have hneg : usub x y = 4294967296 - (y - x) := by
      rw [usub]
      omega
    have hhigh : (4294967296 - (y - x)) >>> 16 = 65535 := by
      rw [Nat.shiftRight_eq_div_pow]
      omega
    rw [hneg, hhigh]
    omega

/-- The new checksum makes up for the new value, modulo 65535. -/
theorem fitted_spec (hlarge : TcpMssMax < nhgets (p.drop (o + 2))) (ho : tcp p ≤ o) :
    (fitted p o % 65536 + weight (o + 2 - tcp p) * 5 + weight (o + 3 - tcp p) * 20) % 65535 =
      (nhgets (p.drop (tcp p + 16)) + weight (o + 2 - tcp p) * (p.getD (o + 2) 0).toNat +
        weight (o + 3 - tcp p) * (p.getD (o + 3) 0).toNat) % 65535 := by
  have hcks := nhgets_lt (p.drop (tcp p + 16))
  have hmss := nhgets_lt (p.drop (o + 2))
  have h1 := (p.getD (o + 1) 0).toNat_lt
  have h2 := (p.getD (o + 2) 0).toNat_lt
  have h3 := (p.getD (o + 3) 0).toNat_lt
  have h4 := (p.getD (o + 4) 0).toNat_lt
  have hvalue := nhgets_drop p (o + 2)
  rw [show o + 2 + 1 = o + 3 from rfl] at hvalue
  rw [TcpMssMax] at hlarge
  generalize hck : nhgets (p.drop (tcp p + 16)) = ck at *
  by_cases hodd : (o - tcp p) % 2 = 1
  · have hw : weight (o + 2 - tcp p) = 1 := if_neg (by omega)
    have hw' : weight (o + 3 - tcp p) = 256 := if_pos (by omega)
    have hor : (p.getD (o + 1) 0).toNat <<< 8 ||| TcpMssMax >>> 8 =
        (p.getD (o + 1) 0).toNat * 256 + 5 := by
      rw [← Nat.shiftLeft_add_eq_or_of_lt (by decide), Nat.shiftLeft_eq]
      rfl
    have hor' : (TcpMssMax &&& 0xff) <<< 8 ||| (p.getD (o + 4) 0).toNat =
        5120 + (p.getD (o + 4) 0).toNat := by
      rw [← Nat.shiftLeft_add_eq_or_of_lt (by omega)]
      rfl
    have hhigh : usub (ck + ((p.getD (o + 1) 0).toNat * 256 + (p.getD (o + 2) 0).toNat))
        ((p.getD (o + 1) 0).toNat * 256 + 5) = ck + (p.getD (o + 2) 0).toNat - 5 := by
      rw [usub_of_le (by omega) (by omega)]
      omega
    have hand (x : ℕ) : x &&& 0xffff = x % 65536 := Nat.and_two_pow_sub_one_eq_mod x 16
    rw [fitted, if_pos hodd, hw, hw', hck]
    dsimp only
    rw [hor, hor', nhgets_drop p (o + 1), nhgets_drop p (o + 3),
      show o + 1 + 1 = o + 2 from rfl, show o + 3 + 1 = o + 4 from rfl, hhigh, hand]
    -- the high byte of the value, with its carry, and then the low one
    have hfirst := carry_mod (c := ck + (p.getD (o + 2) 0).toNat - 5) (by omega)
    have hsecond := carry_usub_mod (y := 5120 + (p.getD (o + 4) 0).toNat)
      (x := (ck + (p.getD (o + 2) 0).toNat - 5 + (ck + (p.getD (o + 2) 0).toNat - 5) >>> 16) %
        65536 + ((p.getD (o + 3) 0).toNat * 256 + (p.getD (o + 4) 0).toNat))
      (by omega) (by omega)
    generalize (ck + (p.getD (o + 2) 0).toNat - 5 +
      (ck + (p.getD (o + 2) 0).toNat - 5) >>> 16) % 65536 = c at hfirst hsecond ⊢
    generalize usub (c + ((p.getD (o + 3) 0).toNat * 256 + (p.getD (o + 4) 0).toNat))
      (5120 + (p.getD (o + 4) 0).toNat) = z at hsecond ⊢
    omega
  · have hw : weight (o + 2 - tcp p) = 256 := if_pos (by omega)
    have hw' : weight (o + 3 - tcp p) = 1 := if_neg (by omega)
    have hsum := carry_usub_mod (x := ck + nhgets (p.drop (o + 2))) (y := TcpMssMax)
      (by omega) (by decide)
    rw [fitted, if_neg hodd, hw, hw', hck]
    dsimp only
    rw [TcpMssMax] at hsum ⊢
    omega

theorem getD_set_ne {i : ℕ} (h : i ≠ j) : (p.set i b).getD j 0 = p.getD j 0 := by
  rw [List.getD_eq_getElem?_getD, List.getElem?_set_ne h, ← List.getD_eq_getElem?_getD]

/-- The sum over a segment in which the checksum and the option are new. -/
theorem tcpsum_rewrite (rest : List UInt8) (ho : tcp p + 20 ≤ o + 2) (hhl : 20 ≤ ip4hl (ip p))
    (hin : o + 4 ≤ ETHERHDRSIZE + ip4length (ip p)) (hlen : o + 4 ≤ p.length)
    (hlarge : TcpMssMax < nhgets (p.drop (o + 2))) :
    tcpsum (putshort (putshort p (tcp p + 16) (fitted p o)) (o + 2) TcpMssMax) rest % 65535 =
      tcpsum p rest % 65535 := by
  have htcp : ETHERHDRSIZE + 20 ≤ tcp p := by rw [tcp]; omega
  have hspec := fitted_spec hlarge (by omega)
  generalize hf : fitted p o = f at hspec ⊢
  have hq : putshort (putshort p (tcp p + 16) f) (o + 2) TcpMssMax =
      (((p.set (tcp p + 16) (uchar (f >>> 8))).set (tcp p + 17) (uchar f)).set (o + 2) 5).set
        (o + 3) 20 := by
    rw [putshort_eq_set (by rw [length_putshort (by omega)]; omega), putshort_eq_set (by omega)]
    rfl
  rw [hq]
  generalize hp₁ : p.set (tcp p + 16) (uchar (f >>> 8)) = p₁
  generalize hp₂ : p₁.set (tcp p + 17) (uchar f) = p₂
  generalize hp₃ : p₂.set (o + 2) 5 = p₃
  have htcp₁ : tcp p₁ = tcp p := hp₁ ▸ tcp_set (by omega)
  have htcp₂ : tcp p₂ = tcp p := hp₂ ▸ (tcp_set (by omega)).trans htcp₁
  have htcp₃ : tcp p₃ = tcp p := hp₃ ▸ (tcp_set (by omega)).trans htcp₂
  have hlen₁ : p₁.length = p.length := hp₁ ▸ List.length_set
  have hlen₂ : p₂.length = p.length := hp₂ ▸ List.length_set.trans hlen₁
  have hlen₃ : p₃.length = p.length := hp₃ ▸ List.length_set.trans hlen₂
  have hlong₁ : ip4length (ip p₁) = ip4length (ip p) := hp₁ ▸ ip4length_set (by omega)
  have hlong₂ : ip4length (ip p₂) = ip4length (ip p) :=
    hp₂ ▸ (ip4length_set (by omega)).trans hlong₁
  have hlong₃ : ip4length (ip p₃) = ip4length (ip p) :=
    hp₃ ▸ (ip4length_set (by omega)).trans hlong₂
  have hget₁ : p₁.getD (tcp p + 17) 0 = p.getD (tcp p + 17) 0 := hp₁ ▸ getD_set_ne (by omega)
  have hget₂ : p₂.getD (o + 2) 0 = p.getD (o + 2) 0 := by
    rw [← hp₂, getD_set_ne (by omega), ← hp₁, getD_set_ne (by omega)]
  have hget₃ : p₃.getD (o + 3) 0 = p.getD (o + 3) 0 := by
    rw [← hp₃, getD_set_ne (by omega), ← hp₂, getD_set_ne (by omega), ← hp₁,
      getD_set_ne (by omega)]
  have hsum₁ := tcpsum_set (p := p) (b := uchar (f >>> 8)) (j := tcp p + 16) rest
    (by omega) (by omega) (by omega) (by omega)
  have hsum₂ := tcpsum_set (p := p₁) (b := uchar f) (j := tcp p + 17) rest
    (by omega) (by omega) (by omega) (by omega)
  have hsum₃ := tcpsum_set (p := p₂) (b := 5) (j := o + 2) rest
    (by omega) (by omega) (by omega) (by omega)
  have hsum₄ := tcpsum_set (p := p₃) (b := 20) (j := o + 3) rest
    (by omega) (by omega) (by omega) (by omega)
  have hw : weight (tcp p + 16 - tcp p) = 256 := by rw [Nat.add_sub_cancel_left]; rfl
  have hw' : weight (tcp p + 17 - tcp p) = 1 := by rw [Nat.add_sub_cancel_left]; rfl
  have h5 : (5 : UInt8).toNat = 5 := rfl
  have h20 : (20 : UInt8).toNat = 20 := rfl
  have hbytes : f % 65536 = 256 * ((f >>> 8) % 256) + f % 256 := by
    rw [Nat.shiftRight_eq_div_pow]
    omega
  rw [hp₁, hw, toNat_uchar] at hsum₁
  rw [htcp₁, hp₂, hget₁, hw', toNat_uchar] at hsum₂
  rw [htcp₂, hp₃, hget₂, h5] at hsum₃
  rw [htcp₃, hget₃, h20] at hsum₄
  rw [nhgets_drop, show tcp p + 16 + 1 = tcp p + 17 from rfl, hbytes] at hspec
  clear hbytes
  generalize (f >>> 8) % 256 = a, f % 256 = c at *
  omega

/-- A header that offers too much and lies in its packet is rewritten as it should be. -/
theorem clamped_of_offers (h : Offers p o) (hstart : ip4offset (ip p) = 0)
    (hholds : ip4hl (ip p) + thl p ≤ ip4length (ip p)) (hwhole : ip4length (ip p) ≤ (ip p).length) :
    Clamped p (tcpmsshack p) := by
  have hbounds := h.first.bounds
  have hin : o + 4 ≤ ETHERHDRSIZE + ip4length (ip p) := by
    have htcp : tcp p = ETHERHDRSIZE + ip4hl (ip p) := rfl
    omega
  have hlen : o + 4 ≤ p.length := by
    have hoptions := h.options
    omega
  refine ⟨⟨h.type, h.version, h.hl, hwhole, h.proto, hstart, ⟨by omega, hholds⟩, h.syn⟩, ?_, ?_⟩
  · rw [tcpmsshack_of_offers h]
    refine ⟨o, h.first, h.large, ?_, ?_, ?_⟩
    · rw [nhgets_putshort (by rw [length_putshort (by omega)]; omega)]
      rfl
    · rw [length_putshort (by rw [length_putshort (by omega)]; omega), length_putshort (by omega)]
    · intro i h16 h17 h2 h3
      rw [getElem?_putshort (by rw [length_putshort (by omega)]; omega) (by omega),
        getElem?_putshort (by omega) (by omega)]
  · intro rest
    have hsum := tcpsum_rewrite rest (by omega) h.hl hin hlen h.large
    rw [Valid, Valid, tcpmsshack_of_offers h]
    omega

end

/-! ### The result -/

/-- The search for the option ends, however much fuel it has; and a frame stays as it is, or is
rewritten only as it should be, just when a header that offers too much is one at the start of a
segment and lies in the packet. -/
theorem clamps_iff (p : List UInt8) :
    (∀ fuel n o, n ≤ fuel → mssLoop p fuel n o = mssLoop p n n o) ∧
      ((tcpmsshack p = p ∨ Clamped p (tcpmsshack p)) ↔ Meets p) := by
  refine ⟨?_, ?_, ?_⟩
  · intro fuel n o hfuel
    refine Option.ext fun x => ?_
    exact (mssLoop_iff hfuel).trans (mssLoop_iff le_rfl).symm
  · intro h o hoffers
    have hbounds := hoffers.first.bounds
    have hoptions := hoffers.options
    rcases h with hsame | hclamped
    · have hvalue : nhgets ((tcpmsshack p).drop (o + 2)) = TcpMssMax := by
        rw [tcpmsshack_of_offers hoffers,
          nhgets_putshort (by rw [length_putshort (by omega)]; omega)]
        rfl
      have hlarge := hoffers.large
      rw [hsame] at hvalue
      omega
    · exact ⟨hclamped.segment.start, hclamped.segment.holds.2, hclamped.segment.whole⟩
  · intro hmeets
    by_cases hoffers : ∃ o, Offers p o
    · obtain ⟨o, hoffers⟩ := hoffers
      obtain ⟨hstart, hholds, hwhole⟩ := hmeets o hoffers
      exact .inr (clamped_of_offers hoffers hstart hholds hwhole)
    · exact .inl (tcpmsshack_of_not (not_exists.mp hoffers))

/-- A frame with a fragment at the offset 1480, whose data looks like a header that offers segments
of 65535 bytes. -/
def fragmentFrame : List UInt8 :=
  [2, 0, 0, 0, 0, 1, 2, 0, 0, 0, 0, 2, 8, 0] ++
    [0x45, 0, 0, 44, 0, 1, 0, 185, 64, 6, 0x65, 0xdf, 10, 0, 0, 1, 10, 0, 0, 2] ++
    [0, 80, 0, 80, 0, 0, 0, 0, 0, 0, 0, 0, 0x60, 2, 0, 0, 0, 0, 0, 0, 2, 4, 255, 255, 0, 0]

/-- The data of a later fragment is rewritten. -/
theorem not_clamps_fragment : ¬∀ p, tcpmsshack p = p ∨ Clamped p (tcpmsshack p) := by
  intro h
  rcases h fragmentFrame with hsame | hclamped
  · revert hsame
    decide +kernel
  · have hstart := hclamped.segment.start
    revert hstart
    decide +kernel

end PlanNine.Bridge
