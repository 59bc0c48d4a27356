import PlanNine.Ip.Ip4
import PlanNine.Ip.Reassemble

/-!
# Fragments along a path

A datagram that does not fit an interface leaves it in fragments, and each of these may be cut again
further on. Whatever the interfaces of the path take, the packets that arrive at its end are parts
of the datagram one behind the other, with the addresses, the protocol, the identification and the
type of service of the datagram.

## Main definitions

* `Datagram`, `Part`: a datagram, and a packet that holds a range of it.
* `Split`: packets that hold contiguous ranges.
* `Hop`, `Emitted`, `Path`: interfaces on the way, what the first one sends, and what arrives.

## Main results

* `split_fragment4`, `split_ipoput4`: the packets sent for a part hold it between them.
* `Emitted.split`, `Split.path`: the packets at the end of a path hold the datagram.
* `Hop.sends`: nothing is dropped where at least 28 bytes fit.
-/

namespace PlanNine.Ip

open Ip6 (Bwrite)

/-! ### Fields of a header -/

section

variable {d d' : List UInt8} {i j v n : ℕ}

theorem length_putshort (h : i + 2 ≤ d.length) : (putshort d i v).length = d.length := by
  simp only [putshort, hnputs, List.length_append, List.length_take, List.length_drop,
    List.length_cons, List.length_nil]
  omega

theorem getElem?_putshort (h : i + 2 ≤ d.length) (hj : j < i ∨ i + 2 ≤ j) :
    (putshort d i v)[j]? = d[j]? := by
  have htake : (d.take i).length = i := by
    rw [List.length_take]
    omega
  have hlen : (d.take i ++ hnputs v).length = i + 2 := by
    rw [List.length_append, htake]
    rfl
  rw [putshort]
  obtain hj | hj := hj
  · rw [List.append_assoc, List.getElem?_append_left (by omega), List.getElem?_take_of_lt hj]
  · rw [List.getElem?_append_right (by omega), hlen, List.getElem?_drop,
      Nat.add_sub_cancel' hj]

theorem getElem?_putshort_self (h : i ≤ d.length) (h' : i ≤ d'.length) (hj : i ≤ j)
    (hj' : j < i + 2) : (putshort d i v)[j]? = (putshort d' i v)[j]? := by
  have hget {d : List UInt8} (h : i ≤ d.length) : (putshort d i v)[j]? = (hnputs v)[j - i]? := by
    have htake : (d.take i).length = i := by
      rw [List.length_take]
      omega
    have hlen : (hnputs v).length = 2 := rfl
    rw [putshort, List.append_assoc, List.getElem?_append_right (by omega), htake,
      List.getElem?_append_left (by omega)]
  rw [hget h, hget h']

theorem nhgets_putshort (h : i ≤ d.length) : nhgets ((putshort d i v).drop i) = v % 65536 := by
  have htake : (d.take i).length = i := by
    rw [List.length_take]
    omega
  rw [putshort, List.append_assoc, List.drop_left' htake, nhgets_hnputs_append]

/-- A field that is stored again. -/
theorem putshort_self (h : i + 2 ≤ d.length) : putshort d i (nhgets (d.drop i)) = d := by
  obtain ⟨b₀, b₁, r, hr⟩ : ∃ b₀ b₁ r, d.drop i = b₀ :: b₁ :: r := by
    have hlen : 2 ≤ (d.drop i).length := by
      rw [List.length_drop]
      omega
    rcases hdrop : d.drop i with _ | ⟨b₀, _ | ⟨b₁, r⟩⟩
    · simp [hdrop] at hlen
    · simp [hdrop] at hlen
    · exact ⟨b₀, b₁, r, rfl⟩
  have hshort : hnputs (nhgets (b₀ :: b₁ :: r)) = [b₀, b₁] := by
    have h₁ : (b₀.toNat * 256 + b₁.toNat) >>> 8 = b₀.toNat := by
      have := b₁.toNat_lt
      rw [Nat.shiftRight_eq_div_pow]
      omega
    have h₀ : uchar (b₀.toNat * 256 + b₁.toNat) = b₁ := by
      refine UInt8.toNat.inj ?_
      have := b₁.toNat_lt
      rw [toNat_uchar]
      omega
    change [uchar ((b₀.toNat * 256 + b₁.toNat) >>> 8), uchar (b₀.toNat * 256 + b₁.toNat)] = _
    rw [h₁, h₀, uchar_toNat]
  have hdrop : d.drop (i + 2) = r := by
    rw [← List.drop_drop, hr]
    rfl
  rw [putshort, hr, hshort, hdrop, List.append_assoc]
  change d.take i ++ b₀ :: b₁ :: r = d
  rw [← hr, List.take_append_drop]

theorem nhgets_congr (h : d[i]? = d'[i]?) (h' : d[i + 1]? = d'[i + 1]?) :
    nhgets (d.drop i) = nhgets (d'.drop i) := by
  simp only [nhgets, List.getD_eq_getElem?_getD, List.getElem?_drop, Nat.add_zero, h, h']

theorem nhgetl_congr (h : ∀ k < 4, d[i + k]? = d'[i + k]?) :
    nhgetl (d.drop i) = nhgetl (d'.drop i) := by
  simp only [nhgetl, List.getD_eq_getElem?_getD, List.getElem?_drop, h 0 (by decide),
    h 1 (by decide), h 2 (by decide), h 3 (by decide)]

theorem getD_congr {b : UInt8} (h : d[i]? = d'[i]?) : d.getD i b = d'.getD i b := by
  rw [List.getD_eq_getElem?_getD, List.getD_eq_getElem?_getD, h]

theorem length_fillcksum (h : IP4HDR ≤ d.length) : (fillcksum d).length = d.length := by
  simp only [IP4HDR] at h
  have hclear : (putshort d 10 0).length = d.length := length_putshort (by omega)
  simp only [fillcksum, ip4setcksum]
  rw [length_putshort (by omega), hclear]

theorem drop_putshort {k : ℕ} (h : i + 2 ≤ k) (hlen : i ≤ d.length) :
    (putshort d i v).drop k = d.drop k := by
  have htake : (d.take i ++ hnputs v).length = i + 2 := by
    rw [List.length_append, List.length_take, min_eq_left hlen]
    rfl
  rw [putshort, List.drop_append, htake, List.drop_drop, List.drop_eq_nil_of_le (by omega),
    List.nil_append]
  congr 1
  omega

theorem drop_fillcksum (h : IP4HDR ≤ d.length) : (fillcksum d).drop IP4HDR = d.drop IP4HDR := by
  simp only [IP4HDR] at h
  simp only [fillcksum, ip4setcksum, IP4HDR]
  rw [drop_putshort (by omega) (by rw [length_putshort] <;> omega),
    drop_putshort (by omega) (by omega)]

/-- The checksum is the only field that changes. -/
theorem getElem?_fillcksum (h : IP4HDR ≤ d.length) (hj : j < 10 ∨ 12 ≤ j) :
    (fillcksum d)[j]? = d[j]? := by
  simp only [IP4HDR] at h
  simp only [fillcksum, ip4setcksum]
  rw [getElem?_putshort (by rw [length_putshort] <;> omega) hj, getElem?_putshort (by omega) hj]

end

/-! ### Parts of a datagram -/

/-- A datagram with a header of 20 bytes. -/
structure Datagram where
  tos : ℕ
  id : ℕ
  proto : UInt8
  src : ℕ
  dst : ℕ
  payload : List UInt8

/-- The header is one of the datagram. -/
structure Header (o : Datagram) (d : List UInt8) : Prop where
  vihl : ip4vihl d = IP_VER4 ||| IP_HLEN4
  tos : ip4tos d = o.tos
  id : ip4id d = o.id
  proto : ip4proto d = o.proto
  src : ip4src d = o.src
  dst : ip4dst d = o.dst

/-- The flag of a part that is not the last one. -/
def mf (o : Datagram) (e : ℕ) : ℕ := if e < o.payload.length then IP_MF else 0

/-- The packet `d` holds the `n` bytes of the datagram from `a` on. -/
structure Part (o : Datagram) (d : List UInt8) (a n : ℕ) : Prop where
  header : Header o d
  begins : 8 ∣ a
  ends : 8 ∣ n ∨ a + n = o.payload.length
  within : a + n ≤ o.payload.length
  pos : 0 < n ∨ o.payload.length = 0
  length_eq : ip4length d = IP4HDR + n
  frag : ip4frag d = a / 8 + mf o (a + n)
  bytes : IP4HDR + n ≤ d.length
  payload : (d.drop IP4HDR).take n = slice o.payload a n

/-- The packets hold the bytes from `a` up to `e` one behind the other. -/
inductive Split (o : Datagram) : ℕ → List (List UInt8) → ℕ → Prop
  | nil (a : ℕ) : Split o a [] a
  | cons {a n e : ℕ} {d : List UInt8} {l : List (List UInt8)} (hd : Part o d a n)
      (hl : Split o (a + n) l e) : Split o a (d :: l) e

section

variable {o : Datagram} {d d' eh data : List UInt8} {a n e b : ℕ} {l l' : List (List UInt8)}

theorem Header.congr (h : Header o d)
    (hsame : ∀ j < 20, j < 2 ∨ 4 ≤ j ∧ j < 6 ∨ j = 9 ∨ 12 ≤ j → d'[j]? = d[j]?) : Header o d' := by
  refine ⟨?_, ?_, ?_, ?_, ?_, ?_⟩
  · rw [ip4vihl, getD_congr (hsame 0 (by omega) (by omega))]
    exact h.vihl
  · rw [ip4tos, getD_congr (hsame 1 (by omega) (by omega))]
    exact h.tos
  · rw [ip4id, nhgets_congr (hsame 4 (by omega) (by omega)) (hsame 5 (by omega) (by omega))]
    exact h.id
  · rw [ip4proto, getD_congr (hsame 9 (by omega) (by omega))]
    exact h.proto
  · rw [ip4src, nhgetl_congr fun k hk => hsame (12 + k) (by omega) (by omega)]
    exact h.src
  · rw [ip4dst, nhgetl_congr fun k hk => hsame (16 + k) (by omega) (by omega)]
    exact h.dst

theorem Split.append (h : Split o a l e) (h' : Split o e l' b) : Split o a (l ++ l') b := by
  induction h with
  | nil => exact h'
  | cons hd _ ih => exact .cons hd (ih h')

theorem Split.le (h : Split o a l e) : a ≤ e := by
  induction h with
  | nil => exact le_rfl
  | cons _ _ ih => omega

/-- The places of the packets. -/
theorem Split.mem (h : Split o a l e) (hd : d ∈ l) : ∃ b n, Part o d b n ∧ a ≤ b ∧ b + n ≤ e := by
  induction h with
  | nil => cases hd
  | @cons a n e d' l hd' hl ih =>
    obtain rfl | hd := List.mem_cons.mp hd
    · exact ⟨a, n, hd', le_rfl, hl.le⟩
    · obtain ⟨b, n', hpart, hle, hend⟩ := ih hd
      exact ⟨b, n', hpart, by omega, hend⟩

/-- Every byte is in one of the packets. -/
theorem Split.covers (h : Split o a l e) {x : ℕ} (hle : a ≤ x) (hlt : x < e) :
    ∃ d ∈ l, ∃ b n, Part o d b n ∧ b ≤ x ∧ x < b + n := by
  induction h with
  | nil => omega
  | @cons a n e d l hd hl ih =>
    by_cases hx : x < a + n
    · exact ⟨d, List.mem_cons_self, a, n, hd, hle, hx⟩
    · obtain ⟨d', hd', hpart⟩ := ih (by omega) hlt
      exact ⟨d', List.mem_cons_of_mem _ hd', hpart⟩

/-! ### Output -/

theorem mf_add (h : a < 65536) (h8 : 8 ∣ a) :
    ((a + mf o e * 8) >>> 3 = a / 8 + mf o e) ∧
      ((a + mf o e * 8) >>> 3) ||| IP_MF = a / 8 + IP_MF := by
  have hor : a / 8 ||| IP_MF = a / 8 + IP_MF := by
    have hlt : a / 8 < 2 ^ 13 := by omega
    rw [Nat.or_comm, Nat.add_comm]
    exact (Nat.two_pow_add_eq_or_of_lt hlt 1).symm
  have hshift : (a + mf o e * 8) >>> 3 = a / 8 + mf o e := by
    rw [Nat.shiftRight_eq_div_pow]
    omega
  refine ⟨hshift, ?_⟩
  rw [hshift, mf]
  split
  · rw [← hor, Nat.or_assoc, Nat.or_self]
  · rw [Nat.add_zero, hor]

/-- The header of a fragment, which is the one of the packet but for some fields. -/
theorem fraghdr_spec (eh : List UInt8) (hlen : IP4HDR ≤ eh.length) (frag len lid : ℕ)
    (r : List UInt8) :
    (fillcksum (fraghdr eh frag len lid ++ r)).length = IP4HDR + r.length ∧
      ip4length (fillcksum (fraghdr eh frag len lid ++ r)) = len % 65536 ∧
      ip4frag (fillcksum (fraghdr eh frag len lid ++ r)) = frag % 65536 ∧
      (fillcksum (fraghdr eh frag len lid ++ r)).drop IP4HDR = r ∧
      ∀ j < 20, j < 2 ∨ 4 ≤ j ∧ j < 6 ∨ 8 ≤ j ∧ j < 10 ∨ 12 ≤ j →
        (fillcksum (fraghdr eh frag len lid ++ r))[j]? = (ip4setid eh lid)[j]? := by
  simp only [IP4HDR] at hlen
  have htake : (eh.take IP4HDR).length = 20 := by
    rw [List.length_take]
    simp only [IP4HDR]
    omega
  have hfrag : (putshort (eh.take IP4HDR) 6 frag).length = 20 := by
    rw [length_putshort] <;> omega
  have hlength : (putshort (putshort (eh.take IP4HDR) 6 frag) 2 len).length = 20 := by
    rw [length_putshort] <;> omega
  have heq : fraghdr eh frag len lid =
      putshort (putshort (putshort (eh.take IP4HDR) 6 frag) 2 len) 4 lid := rfl
  have hid : (fraghdr eh frag len lid).length = 20 := by
    rw [heq, length_putshort] <;> omega
  have hge : IP4HDR ≤ (fraghdr eh frag len lid ++ r).length := by
    rw [List.length_append, hid]
    exact Nat.le_add_right _ _
  have hget (j : ℕ) (hj : j < 10 ∨ 12 ≤ j) (hlt : j < 20) :
      (fillcksum (fraghdr eh frag len lid ++ r))[j]? =
        (putshort (putshort (putshort (eh.take IP4HDR) 6 frag) 2 len) 4 lid)[j]? :=
    (getElem?_fillcksum hge hj).trans (List.getElem?_append_left (by rw [hid]; exact hlt))
  have hget' (j : ℕ) (hj : j < 4 ∨ 6 ≤ j ∧ j < 10 ∨ 12 ≤ j) (hlt : j < 20) :
      (fillcksum (fraghdr eh frag len lid ++ r))[j]? =
        (putshort (putshort (eh.take IP4HDR) 6 frag) 2 len)[j]? :=
    (hget j (by omega) hlt).trans (getElem?_putshort (by omega) (by omega))
  refine ⟨?_, ?_, ?_, ?_, fun j hj hor => ?_⟩
  · rw [length_fillcksum hge, List.length_append, hid]
    rfl
  · rw [ip4length, nhgets_congr (hget' 2 (by omega) (by omega)) (hget' 3 (by omega) (by omega)),
      nhgets_putshort (by omega)]
  · rw [ip4frag, nhgets_congr
      ((hget' 6 (by omega) (by omega)).trans (getElem?_putshort (by omega) (by omega)))
      ((hget' 7 (by omega) (by omega)).trans (getElem?_putshort (by omega) (by omega))),
      nhgets_putshort (by omega)]
  · rw [drop_fillcksum hge]
    exact List.drop_left' hid
  · rw [hget j (by omega) hj, ip4setid]
    by_cases hj4 : 4 ≤ j ∧ j < 6
    · exact getElem?_putshort_self (by omega) (by omega) hj4.1 (by omega)
    · rw [getElem?_putshort (by omega) (by omega), getElem?_putshort (by omega) (by omega),
        getElem?_putshort (by omega) (by omega), getElem?_putshort (by omega) (by omega),
        List.getElem?_take_of_lt (show j < IP4HDR from hj)]

/-- One fragment. -/
theorem part_fraghdr {lid : ℕ} (hh : Header o (ip4setid eh lid)) (hlen : IP4HDR ≤ eh.length)
    (hsize : IP4HDR + o.payload.length < 65536) (hbegins : 8 ∣ a)
    (hends : 8 ∣ n ∨ a + n = o.payload.length) (hwithin : a + n ≤ o.payload.length)
    (hpos : 0 < n) (hn : n ≤ data.length) (hdata : data.take n = slice o.payload a n) :
    Part o (fillcksum (fraghdr eh (a / 8 + mf o (a + n)) (n + IP4HDR) lid ++ data.take n)) a n := by
  obtain ⟨hl, hlength, hfrag, hdrop, hsame⟩ :=
    fraghdr_spec eh hlen (a / 8 + mf o (a + n)) (n + IP4HDR) lid (data.take n)
  have hmf : mf o (a + n) ≤ 8192 := by
    unfold mf
    split <;> decide
  have htake : (data.take n).length = n := by
    rw [List.length_take]
    omega
  refine ⟨hh.congr fun j hj hor => hsame j hj (by omega), hbegins, hends, hwithin,
    .inl hpos, ?_, ?_, ?_, ?_⟩
  · rw [hlength, Nat.mod_eq_of_lt (by omega), Nat.add_comm]
  · refine hfrag.trans (Nat.mod_eq_of_lt ?_)
    simp only [IP4HDR] at hsize
    omega
  · rw [hl, htake]
  · rw [hdrop, List.take_take, Nat.min_self, hdata]

/-- The fragments of a range. -/
theorem split_fragment4 {lid seglen fuel m : ℕ} (hh : Header o (ip4setid eh lid))
    (hlen : IP4HDR ≤ eh.length) (hsize : IP4HDR + o.payload.length < 65536) (hseg : 8 ∣ seglen)
    (hseg8 : 8 ≤ seglen) (hfuel : e ≤ a + fuel) (hm : m = mf o e * 8) (hbegins : 8 ∣ a)
    (hends : 8 ∣ e ∨ e = o.payload.length) (hae : a ≤ e) (hwithin : e ≤ o.payload.length)
    (hn : e ≤ a + data.length) (hdata : data.take (e - a) = slice o.payload a (e - a)) :
    Split o a (fragment4 eh lid seglen (e + m) fuel (a + m) data) e := by
  induction fuel generalizing a data with
  | zero =>
    obtain rfl : a = e := by omega
    exact .nil a
  | succ fuel ih =>
    have hsize' := hsize
    simp only [IP4HDR] at hsize
    rw [fragment4]
    by_cases hlt : a + m < e + m
    · rw [if_pos hlt]
      obtain ⟨hlast, hmore⟩ := mf_add (o := o) (e := e) (a := a) (by omega) hbegins
      rw [← hm] at hlast hmore
      by_cases hend : e + m ≤ a + m + seglen
      · simp only [if_pos hend]
        have hrest : e + m - (a + m) = e - a := by omega
        rw [hrest, if_neg (by omega), hlast]
        have hpart := part_fraghdr hh hlen hsize' hbegins (by omega) (by omega) (by omega)
          (show e - a ≤ data.length by omega) hdata
        rw [show a + (e - a) = e by omega] at hpart
        refine .cons hpart ?_
        have hnil (f : ℕ) : fragment4 eh lid (e - a) (e + m) f (a + m + (e - a))
            (data.drop (e - a)) = [] := by
          cases f with
          | zero => rfl
          | succ f => rw [fragment4, if_neg (by omega)]
        rw [hnil, show a + (e - a) = e by omega]
        exact .nil e
      · simp only [if_neg hend]
        rw [if_neg (by omega), hmore]
        have hmf : mf o (a + seglen) = IP_MF := if_pos (by omega)
        have htake : data.take seglen = slice o.payload a seglen := by
          have htake := congrArg (List.take seglen) hdata
          rwa [List.take_take, take_slice (by omega), min_eq_left (by omega)] at htake
        have hdrop : (data.drop seglen).take (e - (a + seglen)) =
            slice o.payload (a + seglen) (e - (a + seglen)) := by
          have hdrop := congrArg (List.drop seglen) hdata
          rw [List.drop_take, drop_slice] at hdrop
          rwa [show e - (a + seglen) = e - a - seglen by omega]
        have hpart := part_fraghdr hh hlen hsize' hbegins (.inl hseg) (by omega) (by omega)
          (show seglen ≤ data.length by omega) htake
        rw [hmf] at hpart
        refine .cons hpart ?_
        rw [show a + m + seglen = a + seglen + m by omega]
        exact ih (by omega) (by omega) (by omega) (by rw [List.length_drop]; omega) hdrop
    · rw [if_neg hlt]
      obtain rfl : a = e := by omega
      exact .nil a

/-- A packet with the same range in another header of the datagram. -/
theorem Part.congr (h : Part o d a n) (hlength : ip4length d' = IP4HDR + n)
    (hbytes : d'.length = d.length) (hdrop : d'.drop IP4HDR = d.drop IP4HDR)
    (hsame : ∀ j < 20, j < 2 ∨ 4 ≤ j ∧ j < 8 ∨ j = 9 ∨ 12 ≤ j → d'[j]? = d[j]?) :
    Part o d' a n := by
  refine ⟨h.header.congr fun j hj hor => hsame j hj (by omega), h.begins, h.ends, h.within, h.pos,
    hlength, ?_, hbytes ▸ h.bytes, hdrop ▸ h.payload⟩
  rw [ip4frag, nhgets_congr (hsame 6 (by omega) (by omega)) (hsame 7 (by omega) (by omega))]
  exact h.frag

/-- What `send4` sends of a part that a gateway passes on. -/
theorem split_send4 (hsize : IP4HDR + o.payload.length < 65536) {id4 : ℕ} {ifc : Ipifc}
    {gate : List UInt8} {out : Bwrite} (hpart : Part o d a n)
    (h : send4 id4 (IP4HDR + n) d true ifc gate = some out) : Split o a out.pkts (a + n) := by
  have hbytes := hpart.bytes
  have hwithin := hpart.within
  have hlen : IP4HDR ≤ d.length := by omega
  have hid : ip4id d < 65536 := nhgets_lt _
  unfold send4 at h
  simp only [if_true] at h
  split_ifs at h with hfit hdf hseg
  · cases h
    have hset : ip4setlength d (IP4HDR + n) = putshort d 2 (IP4HDR + n) := rfl
    have hlenset : (putshort d 2 (IP4HDR + n)).length = d.length :=
      length_putshort (by simp only [IP4HDR] at hlen; omega)
    have hge : IP4HDR ≤ (putshort d 2 (IP4HDR + n)).length := hlenset ▸ hlen
    have hget (j : ℕ) (hj : j < 10 ∨ 12 ≤ j) : (fillcksum (putshort d 2 (IP4HDR + n)))[j]? =
        (putshort d 2 (IP4HDR + n))[j]? := getElem?_fillcksum hge hj
    simp only [IP4HDR] at hlen
    have hpart' : Part o (fillcksum (putshort d 2 (IP4HDR + n))) a n := by
      refine hpart.congr ?_ ?_ ?_ fun j hj hor => ?_
      · rw [ip4length, nhgets_congr (hget 2 (by omega)) (hget 3 (by omega)),
          nhgets_putshort (by omega), Nat.mod_eq_of_lt (by omega)]
      · rw [length_fillcksum hge, hlenset]
      · rw [drop_fillcksum hge, drop_putshort (by decide) (by omega)]
      · rw [hget j (by omega), getElem?_putshort (by omega) (by omega)]
    rw [hset]
    exact .cons hpart' (.nil _)
  · cases h
    have hselfid : Header o (ip4setid d (ip4id d)) := by
      rw [ip4setid, ip4id, putshort_self (by simp only [IP4HDR] at hlen; omega)]
      exact hpart.header
    have hshift : ip4frag d <<< 3 = a + mf o (a + n) * 8 := by
      have hbegins := hpart.begins
      rw [hpart.frag, Nat.shiftLeft_eq]
      omega
    dsimp only
    rw [hshift]
    have hrest : IP4HDR + n - IP4HDR = n := by omega
    rw [hrest, show n + (a + mf o (a + n) * 8) = a + n + mf o (a + n) * 8 by omega]
    refine split_fragment4 hselfid hlen hsize ?_ ?_ (by omega) rfl hpart.begins ?_ (by omega)
      (by omega) ?_ ?_
    · omega
    · omega
    · have hbegins := hpart.begins
      have hends := hpart.ends
      omega
    · rw [List.length_drop]
      omega
    · rw [Nat.add_sub_cancel_left]
      exact hpart.payload

/-- A new time to live changes nothing that a part says. -/
theorem Part.setttl (h : Part o d a n) (ttl : ℕ) : Part o (ip4setttl d ttl) a n := by
  have hget (j : ℕ) (hj : j ≠ 8) : (ip4setttl d ttl)[j]? = d[j]? := List.getElem?_set_ne hj.symm
  refine h.congr ?_ List.length_set (List.drop_set_of_lt (by decide)) fun j _ hj =>
    hget j (by omega)
  rw [ip4length, nhgets_congr (hget 2 (by decide)) (hget 3 (by decide))]
  exact h.length_eq

/-- What `ipoput4` hands to `send4` of a packet that a gateway passes on. -/
theorem ipoput4_gating {fs : Fs} {id4 ttl tos : ℕ} {out : Bwrite}
    (h : ipoput4 fs id4 d true ttl tos = some out) :
    ∃ ifc gate, ip4length d ≤ d.length ∧
      send4 id4 (ip4length d) (ip4setttl d ttl) true ifc gate = some out := by
  unfold ipoput4 at h
  by_cases hlong : d.length < ip4length d
  · rw [if_pos ⟨rfl, hlong⟩] at h
    cases h
  have hlen : (if ip4length d < d.length then ip4length d else d.length) = ip4length d := by
    split <;> omega
  simp only [true_and, hlen, if_neg hlong] at h
  split_ifs at h
  rcases hroute : fs.v4lookup ((d.drop 16).take 4) with _ | r
  · simp [hroute] at h
  · simp only [hroute] at h
    split_ifs at h
    exact ⟨_, _, not_lt.mp hlong, h⟩

/-- What `ipoput4` sends of a part that a gateway passes on. -/
theorem split_ipoput4 (hsize : IP4HDR + o.payload.length < 65536) {fs : Fs} {id4 ttl tos : ℕ}
    {out : Bwrite} (hpart : Part o d a n) (h : ipoput4 fs id4 d true ttl tos = some out) :
    Split o a out.pkts (a + n) := by
  obtain ⟨ifc, gate, -, hsend⟩ := ipoput4_gating h
  rw [hpart.length_eq] at hsend
  exact split_send4 hsize (hpart.setttl ttl) hsend

/-- The datagram that a machine of its own sends for the bytes `d`, which have a protocol and
addresses. -/
def datagram (d : List UInt8) (id4 tos : ℕ) : Datagram where
  tos := tos % 256
  id := id4 % 65536
  proto := ip4proto d
  src := ip4src d
  dst := ip4dst d
  payload := d.drop IP4HDR

/-- The header that output fills out, with an identification, is one of the datagram. -/
theorem header_fillhdr (hlen : IP4HDR ≤ d.length) (id4 ttl tos : ℕ) :
    Header (datagram d id4 tos) (ip4setid (fillhdr d false ttl tos) id4) ∧
      (fillhdr d false ttl tos).length = d.length ∧
      (fillhdr d false ttl tos).drop IP4HDR = d.drop IP4HDR := by
  simp only [IP4HDR] at hlen ⊢
  have hfill : fillhdr d false ttl tos =
      ((d.set 0 (uchar (IP_VER4 ||| IP_HLEN4))).set 8 (uchar ttl)).set 1 (uchar tos) := rfl
  have hlength : (fillhdr d false ttl tos).length = d.length := by
    rw [hfill, List.length_set, List.length_set, List.length_set]
  have hget (j : ℕ) (h0 : j ≠ 0) (h1 : j ≠ 1) (h4 : j < 4 ∨ 6 ≤ j) (h8 : j ≠ 8) :
      (ip4setid (fillhdr d false ttl tos) id4)[j]? = d[j]? := by
    rw [ip4setid, getElem?_putshort (by omega) (by omega), hfill, List.getElem?_set_ne h1.symm,
      List.getElem?_set_ne h8.symm, List.getElem?_set_ne h0.symm]
  refine ⟨⟨?_, ?_, ?_, ?_, ?_, ?_⟩, hlength, ?_⟩
  · have hvihl : (ip4setid (fillhdr d false ttl tos) id4)[0]? =
        some (uchar (IP_VER4 ||| IP_HLEN4)) := by
      rw [ip4setid, getElem?_putshort (by omega) (by omega), hfill,
        List.getElem?_set_ne (by decide),
        List.getElem?_set_ne (by decide), List.getElem?_set_self (by omega)]
    rw [ip4vihl, List.getD_eq_getElem?_getD, hvihl]
    rfl
  · have htos : (ip4setid (fillhdr d false ttl tos) id4)[1]? = some (uchar tos) := by
      rw [ip4setid, getElem?_putshort (by omega) (by omega), hfill,
        List.getElem?_set_self (by rw [List.length_set, List.length_set]; omega)]
    rw [ip4tos, List.getD_eq_getElem?_getD, htos, Option.getD_some, toNat_uchar]
    rfl
  · rw [ip4id, ip4setid, nhgets_putshort (by omega)]
    rfl
  · rw [ip4proto, getD_congr (hget 9 (by decide) (by decide) (by decide) (by decide))]
    rfl
  · rw [ip4src, nhgetl_congr fun k hk => hget (12 + k) (by omega) (by omega) (by omega) (by omega)]
    rfl
  · rw [ip4dst, nhgetl_congr fun k hk => hget (16 + k) (by omega) (by omega) (by omega) (by omega)]
    rfl
  · rw [hfill, List.drop_set_of_lt (by decide), List.drop_set_of_lt (by decide),
      List.drop_set_of_lt (by decide)]

/-- What `ipoput4` sends of a datagram of the machine itself. -/
theorem split_output {fs : Fs} {id4 ttl tos : ℕ} {out : Bwrite} (hlen : IP4HDR ≤ d.length)
    (h : ipoput4 fs id4 d false ttl tos = some out) :
    Split (datagram d id4 tos) 0 out.pkts (datagram d id4 tos).payload.length := by
  obtain ⟨hheader, hlength, hdrop⟩ := header_fillhdr hlen id4 ttl tos
  have hpayload : (datagram d id4 tos).payload = (fillhdr d false ttl tos).drop IP4HDR := hdrop.symm
  have hP : (datagram d id4 tos).payload.length = d.length - IP4HDR := List.length_drop
  unfold ipoput4 at h
  simp only [Bool.false_eq_true, false_and, if_false] at h
  split_ifs at h with hmax
  rcases hroute : fs.v4lookup ((d.drop 16).take 4) with _ | r
  · simp [hroute] at h
  simp only [hroute] at h
  split_ifs at h
  have hmf : mf (datagram d id4 tos) (datagram d id4 tos).payload.length = 0 :=
    if_neg (lt_irrefl _)
  generalize fillhdr d false ttl tos = eh at *
  simp only [IP_MAX, IP4HDR] at hmax hlen hP
  unfold send4 at h
  simp only [Bool.false_eq_true, if_false] at h
  split_ifs at h with hfit hdf hseg
  · cases h
    have hl₁ : (putshort eh 4 id4).length = d.length := by
      rw [length_putshort] <;> omega
    have hl₂ : (putshort (putshort eh 4 id4) 2 d.length).length = d.length := by
      rw [length_putshort] <;> omega
    have hl₃ : (putshort (putshort (putshort eh 4 id4) 2 d.length) 6 0).length = d.length := by
      rw [length_putshort] <;> omega
    have hge : IP4HDR ≤ (putshort (putshort (putshort eh 4 id4) 2 d.length) 6 0).length := by
      rw [hl₃]
      exact hlen
    have hset : fillcksum (ip4setfrag (ip4setlength (ip4setid eh id4) d.length) 0) =
        fillcksum (putshort (putshort (putshort eh 4 id4) 2 d.length) 6 0) := rfl
    have hget (j : ℕ) (hj : j < 10 ∨ 12 ≤ j) :
        (fillcksum (putshort (putshort (putshort eh 4 id4) 2 d.length) 6 0))[j]? =
          (putshort (putshort (putshort eh 4 id4) 2 d.length) 6 0)[j]? :=
      getElem?_fillcksum hge hj
    have hget' (j : ℕ) (hj : j < 6 ∨ 8 ≤ j ∧ j < 10 ∨ 12 ≤ j) :
        (fillcksum (putshort (putshort (putshort eh 4 id4) 2 d.length) 6 0))[j]? =
          (putshort (putshort eh 4 id4) 2 d.length)[j]? :=
      (hget j (by omega)).trans (getElem?_putshort (by omega) (by omega))
    have hdrop' : (fillcksum (putshort (putshort (putshort eh 4 id4) 2 d.length) 6 0)).drop IP4HDR =
        eh.drop IP4HDR := by
      rw [drop_fillcksum hge, drop_putshort (by decide) (by omega),
        drop_putshort (by decide) (by omega), drop_putshort (by decide) (by omega)]
    rw [hset]
    refine .cons (n := (datagram d id4 tos).payload.length) ⟨hheader.congr fun j hj hor => ?_,
      by decide, .inr (Nat.zero_add _), (Nat.zero_add _).le, by omega, ?_, ?_, ?_, ?_⟩ ?_
    · rw [hget' j (by omega), getElem?_putshort (by omega) (by omega)]
      rfl
    · rw [ip4length, nhgets_congr (hget' 2 (by omega)) (hget' 3 (by omega)),
        nhgets_putshort (by omega), Nat.mod_eq_of_lt (by omega)]
      simp only [IP4HDR]
      omega
    · rw [ip4frag, nhgets_congr (hget 6 (by omega)) (hget 7 (by omega)),
        nhgets_putshort (by omega), Nat.zero_add (datagram d id4 tos).payload.length, hmf]
    · rw [length_fillcksum hge, hl₃]
      simp only [IP4HDR]
      omega
    · rw [hdrop', ← hpayload, slice_zero_left]
    · rw [Nat.zero_add]
      exact .nil _
  · cases h
    have hrest : d.length - IP4HDR + 0 = (datagram d id4 tos).payload.length + 0 := by
      simp only [IP4HDR]
      omega
    dsimp only
    rw [hrest]
    refine split_fragment4 hheader ?_ ?_ (by omega) (by omega) ?_ (by rw [hmf]) (by decide)
      (.inr rfl) (Nat.zero_le _) le_rfl ?_ ?_
    · simp only [IP4HDR]
      omega
    · simp only [IP4HDR]
      omega
    · simp only [IP4HDR]
      omega
    · rw [← hpayload, Nat.zero_add]
    · rw [← hpayload, Nat.sub_zero, slice_zero_left]

end

/-! ### Paths -/

/-- A gateway on the way, with what it hands to `ipoput4`. -/
structure Hop where
  fs : Fs
  id4 : ℕ
  ttl : ℕ
  tos : ℕ

/-- What leaves the gateway for a packet. -/
def Hop.out (h : Hop) (d : List UInt8) : List (List UInt8) :=
  ((ipoput4 h.fs h.id4 d true h.ttl h.tos).map Bwrite.pkts).getD []

/-- The gateway has a route for the datagram, over an interface that is up and takes at least 28
bytes. -/
def Hop.Open (o : Datagram) (h : Hop) : Prop :=
  ∀ d, Header o d → ∃ r, h.fs.v4lookup ((d.drop 16).take 4) = some r ∧
    (h.fs.way d r).1.locked = false ∧ (h.fs.way d r).1.m = true ∧ 28 ≤ (h.fs.way d r).1.medialen

/-- What arrives at the end of a path for the packets `l` sent at its beginning. -/
def path (hops : List Hop) (l : List (List UInt8)) : List (List UInt8) :=
  hops.foldl (fun l h => l.flatMap h.out) l

/-- What the first stack sends of a datagram: one of its own, or one that comes from elsewhere. -/
inductive Emitted : Datagram → List (List UInt8) → Prop
  | whole {o : Datagram} {d : List UInt8} (h : Part o d 0 o.payload.length) : Emitted o [d]
  | output {fs : Fs} {id4 ttl tos : ℕ} {d : List UInt8} {out : Bwrite} (hlen : IP4HDR ≤ d.length)
      (h : ipoput4 fs id4 d false ttl tos = some out) : Emitted (datagram d id4 tos) out.pkts

section

variable {o : Datagram} {d : List UInt8} {a n e : ℕ} {l : List (List UInt8)} {h : Hop}

/-- Nothing of a part is dropped where at least 28 bytes fit. -/
theorem Hop.sends (hsize : IP4HDR + o.payload.length < 65536) (hopen : h.Open o)
    (hpart : Part o d a n) : ∃ out, ipoput4 h.fs h.id4 d true h.ttl h.tos = some out := by
  have hbytes := hpart.bytes
  have hlength := hpart.length_eq
  have hwithin := hpart.within
  obtain ⟨r, hroute, hlocked, hm, hmedia⟩ := hopen d hpart.header
  have hlen : (if ip4length d < d.length then ip4length d else d.length) = IP4HDR + n := by
    split <;> omega
  -- the flag that forbids fragments is not set
  have hdf : ((ip4setttl d h.ttl).getD 6 0).toNat &&& (IP_DF >>> 8) = 0 := by
    have hfrag := (hpart.setttl h.ttl).frag
    have hmf : mf o (a + n) ≤ 8192 := by
      unfold mf
      split <;> decide
    have hlt : ((ip4setttl d h.ttl).getD 6 0).toNat < 64 := by
      rw [ip4frag, nhgets] at hfrag
      simp only [List.getD_eq_getElem?_getD, List.getElem?_drop, Nat.add_zero] at hfrag ⊢
      simp only [IP4HDR] at hsize
      omega
    have hall : ∀ x < 64, x &&& (IP_DF >>> 8) = 0 := by decide
    exact hall _ hlt
  unfold ipoput4
  simp only [true_and, hlen, hroute, hlocked, hm]
  rw [if_neg (by omega), if_neg (by simp only [IP_MAX]; omega), if_neg (by decide)]
  unfold send4
  simp only [fillhdr, if_true, hdf]
  split
  · exact ⟨_, rfl⟩
  · rw [if_neg (by decide), if_neg (by simp only [IP4HDR]; omega)]
    exact ⟨_, rfl⟩

/-- The packets that leave a gateway hold what came to it. -/
theorem split_hop (hsize : IP4HDR + o.payload.length < 65536) (hopen : h.Open o)
    (hl : Split o a l e) : Split o a (l.flatMap h.out) e := by
  induction hl with
  | nil a => exact .nil a
  | cons hd _ ih =>
    obtain ⟨out, hout⟩ := Hop.sends hsize hopen hd
    have hsent := split_ipoput4 hsize hd hout
    rw [List.flatMap_cons, Hop.out, hout]
    exact hsent.append ih

/-- What the first stack sends holds the datagram. -/
theorem Emitted.split (hl : Emitted o l) : Split o 0 l o.payload.length := by
  cases hl with
  | whole h =>
    refine .cons h ?_
    rw [Nat.zero_add]
    exact .nil _
  | output hlen h => exact split_output hlen h

/-- The packets at the end of a path hold what was sent at its beginning. -/
theorem Split.path (hsize : IP4HDR + o.payload.length < 65536) {hops : List Hop}
    (hopen : ∀ h ∈ hops, h.Open o) (hl : Split o a l e) : Split o a (path hops l) e := by
  induction hops generalizing l with
  | nil => exact hl
  | cons h hops ih =>
    exact ih (fun h' hh => hopen h' (List.mem_cons_of_mem _ hh))
      (split_hop hsize (hopen h List.mem_cons_self) hl)

end

end PlanNine.Ip
