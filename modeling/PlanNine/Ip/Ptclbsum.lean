import PlanNine.Ip.Ptclcsum
import PlanNine.Lib.Onessum

/-!
# The sum of the bytes of a block

`ptclbsum` of `ptclbsum.c`, and `ptclcsum` over it with the words of the machine. `ptclbsum` adds
up the short words at even addresses, in the byte order of the machine, and keeps the bytes that
are left at both ends apart. `ptclcsum` keeps apart the sums of the blocks that begin at an odd
place of the data. In both the second sum is added in with its bytes exchanged.

## Main definitions

* `ptclbsum`: the sum of the bytes at an address, on a machine of either byte order.
* `ptclcsum`: the checksum of a string of blocks, each at an address of its own.
* `cksum`: the Internet checksum of bytes.

## Main results

* `ptclbsum_eq`: the sum is that of the big-endian words, wherever the bytes are.
* `ptclcsum_eq`: nothing overflows, and the checksum is that of `Ipaux`.
* `ptclcsum_eq_cksum`: the checksum does not depend on how the bytes are cut.
-/

namespace PlanNine.Ptclbsum

open Qio Onessum

variable (little : Bool)

/-- `*(ushort*)(addr + i)`. -/
def short (p : List UInt8) (i : ℕ) : UInt32 :=
  if little then (p.getD i 0).toUInt32 + 256 * (p.getD (i + 1) 0).toUInt32
  else 256 * (p.getD i 0).toUInt32 + (p.getD (i + 1) 0).toUInt32

/-- The loop over sixteen bytes: what it leaves, and `mdsum`. -/
def sixteens (p : List UInt8) (mdsum : UInt32) : List UInt8 × UInt32 :=
  if 16 ≤ p.length then
    let t := short little p
    sixteens (p.drop 16)
      (mdsum + t 0 + t 2 + t 4 + t 6 + t 8 + t 10 + t 12 + t 14)
  else (p, mdsum)
termination_by p.length

/-- The loop over two bytes. -/
def twos (p : List UInt8) (mdsum : UInt32) : List UInt8 × UInt32 :=
  if 2 ≤ p.length then twos (p.drop 2) (mdsum + short little p 0) else (p, mdsum)
termination_by p.length

/-- `addr[0]`, if there is a byte. -/
def first (p : List UInt8) : UInt32 := (p.headD 0).toUInt32

/-- The end of both routines: `hisum` is added in with its bytes exchanged, and the carries above
16 bits are added below. -/
def addsums (losum hisum : UInt32) : UInt16 :=
  .ofNat (Ipaux.foldsum (losum + hisum >>> 8 + (hisum &&& 0xff) <<< 8).toNat)

def ptclbsum (addr : ℕ) (p : List UInt8) : UInt16 :=
  if addr % 2 = 1 then
    let hisum := first p
    let (p, mdsum) := sixteens little (p.drop 1) 0
    let (p, mdsum) := twos little p mdsum
    let losum := first p
    if little then addsums (losum + mdsum) hisum else addsums losum (hisum + mdsum)
  else
    let (p, mdsum) := sixteens little p 0
    let (p, mdsum) := twos little p mdsum
    let hisum := first p
    if little then addsums 0 (hisum + mdsum) else addsums mdsum hisum

variable (rp : Block → ℕ)

/-- The loop to the front of the data: the address and the bytes there, and the blocks behind. -/
def csumFront : List Block → ℕ → Option ((ℕ × List UInt8) × List Block)
  | [], _ => none
  | b :: bs, offset =>
    if offset ≠ 0 ∧ b.BLEN ≤ offset then csumFront bs (offset - b.BLEN)
    else some ((rp b + offset, b.data.drop offset), bs)

/-- The loop over the blocks. -/
def csumLoop : List (ℕ × List UInt8) → ℕ → Bool → UInt32 → UInt32 → UInt32 × UInt32
  | [], _, _, losum, hisum => (losum, hisum)
  | (addr, p) :: ps, len, odd, losum, hisum =>
    if len = 0 then (losum, hisum)
    else
      let x := min p.length len
      let csum := (ptclbsum little addr (p.take x)).toUInt32
      let odd' := xor odd (x % 2 == 1)
      if odd then csumLoop ps (len - x) odd' losum (hisum + csum)
      else csumLoop ps (len - x) odd' (losum + csum) hisum

/-- The checksum of blocks whose bytes begin at the addresses `rp`. -/
def ptclcsum (bp : List Block) (offset len : ℕ) : UInt16 :=
  match csumFront rp bp offset with
  | none => 0
  | some ((addr, p), []) => ~~~ptclbsum little addr (p.take len)
  | some (q, b :: bs) =>
    let (losum, hisum) :=
      csumLoop little (q :: (b :: bs).map fun b => (rp b, b.data)) len false 0 0
    ~~~addsums losum hisum

/-- The Internet checksum: the complement of the ones' complement sum of the big-endian words. -/
def cksum (p : List UInt8) : UInt16 := ~~~.ofNat (onessum p)

variable {little : Bool} {rp : Block → ℕ} {p q : List UInt8} {m losum hisum : UInt32} {n i : ℕ}

/-! ### Sums of words of the machine -/

theorem toNat_add_of_lt {x y : UInt32} (h : x.toNat + y.toNat < 4294967296) :
    (x + y).toNat = x.toNat + y.toNat := by
  rw [UInt32.toNat_add, Nat.mod_eq_of_lt h]

theorem toNat_short (little : Bool) (p : List UInt8) (i : ℕ) :
    (short little p i).toNat = wordsum little [p.getD i 0, p.getD (i + 1) 0] := by
  have ha := (p.getD i 0).toNat_lt
  have hb := (p.getD (i + 1) 0).toNat_lt
  have h256 : (256 : UInt32).toNat = 256 := rfl
  cases little with
  | false =>
    simp only [short, wordsum, weight, Bool.not_false, if_true, Bool.false_eq_true, if_false,
      UInt32.toNat_add, UInt32.toNat_mul, UInt8.toNat_toUInt32, h256]
    omega
  | true =>
    simp only [short, wordsum, weight, Bool.not_true, if_true, Bool.false_eq_true, if_false,
      UInt32.toNat_add, UInt32.toNat_mul, UInt8.toNat_toUInt32, h256]
    omega

theorem wordsum_append_of_even (odd : Bool) (h : p.length % 2 = 0) :
    wordsum odd (p ++ q) = wordsum odd p + wordsum odd q := by
  rw [wordsum_append, h]
  simp

/-- A short word of the data is added. -/
theorem toNat_add_short {m₀ : UInt32} (hroom : m₀.toNat + 65280 * p.length < 4294967296)
    (hn : 2 * n + 2 ≤ p.length) (hm : m.toNat = m₀.toNat + wordsum little (p.take (2 * n))) :
    (m + short little p (2 * n)).toNat = m₀.toNat + wordsum little (p.take (2 * n + 2)) := by
  have htake : p.take (2 * n + 2) =
      p.take (2 * n) ++ [p.getD (2 * n) 0, p.getD (2 * n + 1) 0] := by
    rw [List.take_add_one, List.take_add_one, List.append_assoc,
      List.getElem?_eq_getElem (by omega), List.getElem?_eq_getElem (by omega),
      List.getD_eq_getElem _ _ (by omega), List.getD_eq_getElem _ _ (by omega)]
    rfl
  have hlen : (p.take (2 * n)).length % 2 = 0 := by
    rw [List.length_take]
    omega
  have hsum : wordsum little (p.take (2 * n + 2)) =
      wordsum little (p.take (2 * n)) + (short little p (2 * n)).toNat := by
    rw [htake, wordsum_append_of_even little hlen, toNat_short]
  have hle := wordsum_le little (p.take (2 * n + 2))
  have hlen' : (p.take (2 * n + 2)).length ≤ p.length := List.length_take_le' _ _
  rw [toNat_add_of_lt (by omega), hm, hsum, Nat.add_assoc]

/-- Of the data `p` with the sum `m` before it, `q` is left with the sum `m'`. -/
structure Takes (little : Bool) (p : List UInt8) (m : UInt32) (r : List UInt8 × UInt32) :
    Prop where
  taken : ∃ l, p = l ++ r.1 ∧ l.length % 2 = 0 ∧ r.2.toNat = m.toNat + wordsum little l

theorem Takes.refl (little : Bool) (p : List UInt8) (m : UInt32) : Takes little p m (p, m) :=
  ⟨[], rfl, rfl, rfl⟩

theorem Takes.room {r : List UInt8 × UInt32} (h : Takes little p m r)
    (hroom : m.toNat + 65280 * p.length < 4294967296) :
    r.2.toNat + 65280 * r.1.length < 4294967296 := by
  obtain ⟨l, hp, -, hm⟩ := h.taken
  have hle := wordsum_le little l
  rw [hp, List.length_append] at hroom
  omega

theorem Takes.trans {r r' : List UInt8 × UInt32} (h : Takes little p m r)
    (h' : Takes little r.1 r.2 r') : Takes little p m r' := by
  obtain ⟨l, hp, hl, hm⟩ := h.taken
  obtain ⟨l', hp', hl', hm'⟩ := h'.taken
  refine ⟨l ++ l', ?_, ?_, ?_⟩
  · rw [hp, hp', List.append_assoc]
  · rw [List.length_append]
    omega
  · rw [hm', hm, wordsum_append_of_even little hl, Nat.add_assoc]

/-- A round that takes an even number of bytes. -/
theorem Takes.drop {m' : UInt32} (hn : n % 2 = 0) (hle : n ≤ p.length)
    (hm : m'.toNat = m.toNat + wordsum little (p.take n)) :
    Takes little p m (p.drop n, m') := by
  refine ⟨p.take n, (List.take_append_drop n p).symm, ?_, hm⟩
  rw [List.length_take]
  omega

theorem takes_sixteens (little : Bool) (hroom : m.toNat + 65280 * p.length < 4294967296) :
    Takes little p m (sixteens little p m) := by
  induction p, m using sixteens.induct little with
  | case1 p m hlen t ih =>
    have h0 : m.toNat = m.toNat + wordsum little (p.take (2 * 0)) := rfl
    have h1 := toNat_add_short hroom (by omega) h0
    have h2 := toNat_add_short (n := 1) hroom (by omega) h1
    have h3 := toNat_add_short (n := 2) hroom (by omega) h2
    have h4 := toNat_add_short (n := 3) hroom (by omega) h3
    have h5 := toNat_add_short (n := 4) hroom (by omega) h4
    have h6 := toNat_add_short (n := 5) hroom (by omega) h5
    have h7 := toNat_add_short (n := 6) hroom (by omega) h6
    have h8 := toNat_add_short (n := 7) hroom (by omega) h7
    have hround := Takes.drop (by decide) hlen h8
    rw [sixteens, if_pos hlen]
    exact hround.trans (ih (hround.room hroom))
  | case2 p m hlen =>
    rw [sixteens, if_neg hlen]
    exact .refl little p m

theorem takes_twos (little : Bool) (hroom : m.toNat + 65280 * p.length < 4294967296) :
    Takes little p m (twos little p m) ∧ (twos little p m).1.length < 2 := by
  induction p, m using twos.induct little with
  | case1 p m hlen ih =>
    have h0 : m.toNat = m.toNat + wordsum little (p.take (2 * 0)) := rfl
    have hm := toNat_add_short hroom hlen h0
    have hround := Takes.drop (by decide) hlen hm
    obtain ⟨htakes, hlt⟩ := ih (hround.room hroom)
    rw [twos, if_pos hlen]
    exact ⟨hround.trans htakes, hlt⟩
  | case2 p m hlen =>
    rw [twos, if_neg hlen]
    exact ⟨.refl little p m, not_le.mp hlen⟩

/-- Both loops leave at most one byte. -/
theorem takes_loops (little : Bool) (hroom : 65280 * p.length < 4294967296) :
    ∃ l b m, p = l ++ b ∧ l.length % 2 = 0 ∧ b.length < 2 ∧ m.toNat = wordsum little l ∧
      twos little (sixteens little p 0).1 (sixteens little p 0).2 = (b, m) := by
  have hroom₀ : (0 : UInt32).toNat + 65280 * p.length < 4294967296 := by
    rwa [UInt32.toNat_zero, Nat.zero_add]
  have h₁ := takes_sixteens little hroom₀
  obtain ⟨h₂, hlt⟩ := takes_twos little (h₁.room hroom₀)
  obtain ⟨l, hp, hl, hm⟩ := (h₁.trans h₂).taken
  rw [UInt32.toNat_zero, Nat.zero_add] at hm
  exact ⟨l, _, _, hp, hl, hlt, hm, rfl⟩

/-! ### The sum of a block -/

theorem stands_foldsum (n : ℕ) : Stands (Ipaux.foldsum n) n := by
  induction n using Ipaux.foldsum.induct with
  | case1 n hlt =>
    rw [Ipaux.foldsum, if_pos hlt]
    exact ⟨hlt, rfl, Iff.rfl⟩
  | case2 n hle ih =>
    rw [Ipaux.foldsum, if_neg hle]
    have hmod := ih.mod
    have hzero := ih.zero
    exact ⟨ih.lt, by omega, by omega⟩

/-- Nothing overflows at the end. -/
theorem addsums_eq_foldsum (hroom : losum.toNat + hisum.toNat + 65280 < 4294967296) :
    addsums losum hisum = .ofNat (Ipaux.foldsum
      (losum.toNat + hisum.toNat / 256 + hisum.toNat % 256 * 256)) := by
  have hshift : (hisum >>> 8).toNat = hisum.toNat / 256 := by
    rw [UInt32.toNat_shiftRight, Nat.shiftRight_eq_div_pow]
    rfl
  have hand : (hisum &&& 0xff).toNat = hisum.toNat % 256 := by
    rw [UInt32.toNat_and]
    exact Nat.and_two_pow_sub_one_eq_mod _ 8
  have hleft : ((hisum &&& 0xff) <<< 8).toNat = hisum.toNat % 256 * 256 := by
    have h8 : 2 ^ (UInt32.toNat 8 % 32) = 256 := rfl
    rw [UInt32.toNat_shiftLeft, hand, Nat.shiftLeft_eq, h8]
    exact Nat.mod_eq_of_lt (by omega)
  have hfirst : (losum + hisum >>> 8).toNat = losum.toNat + hisum.toNat / 256 := by
    rw [toNat_add_of_lt (by omega), hshift]
  unfold addsums
  rw [toNat_add_of_lt (by omega), hfirst, hleft]

/-- The second sum counts 256 times. -/
theorem foldsum_eq {lo hi : ℕ} (hmod : (lo + 256 * hi) % 65535 = wordsum false p % 65535)
    (hzero : lo + hi = 0 ↔ wordsum false p = 0) :
    Ipaux.foldsum (lo + hi / 256 + hi % 256 * 256) = onessum p :=
  (stands_foldsum _).unique (stands_onessum p) (by omega) (by omega)

theorem addsums_eq (hroom : losum.toNat + hisum.toNat + 65280 < 4294967296)
    (hmod : (losum.toNat + 256 * hisum.toNat) % 65535 = wordsum false p % 65535)
    (hzero : losum.toNat + hisum.toNat = 0 ↔ wordsum false p = 0) :
    addsums losum hisum = .ofNat (onessum p) := by
  rw [addsums_eq_foldsum hroom, foldsum_eq hmod hzero]

theorem toNat_first (p : List UInt8) : (first p).toNat = (p.headD 0).toNat :=
  UInt8.toNat_toUInt32 _

/-- At most one byte counts with its weight. -/
theorem wordsum_of_length_lt_two (odd : Bool) (h : p.length < 2) :
    wordsum odd p = weight odd * (first p).toNat := by
  rw [toNat_first]
  cases p with
  | nil => rfl
  | cons a p =>
    rw [List.length_cons] at h
    rw [List.length_eq_zero_iff.mp (by omega : p.length = 0)]
    rfl

/-- The sum `m` of the short words of `p` and the byte `f` behind them, with the sums `w` of the
short words in both byte orders. -/
theorem exists_sums (little : Bool) (hlen : p.length ≤ 65575) :
    ∃ b m, ∃ w : Bool → ℕ, twos little (sixteens little p 0).1 (sixteens little p 0).2 = (b, m) ∧
      m.toNat = w little ∧ w little + 65280 ≤ 65280 * (p.length + 1) ∧ (first b).toNat < 256 ∧
      (∀ odd, wordsum odd p = w odd + weight odd * (first b).toNat) ∧
      256 * w little % 65535 = w (!little) % 65535 ∧ (w true = 0 ↔ w false = 0) := by
  obtain ⟨l, b, m, rfl, hl, hb, hm, hrun⟩ := takes_loops (p := p) little (by omega)
  have hle := wordsum_le little l
  refine ⟨b, m, fun odd => wordsum odd l, hrun, hm, ?_, ?_, fun odd => ?_, wordsum_not little l, ?_⟩
  · dsimp only
    rw [List.length_append]
    omega
  · rw [toNat_first]
    exact UInt8.toNat_lt _
  · rw [wordsum_append_of_even odd hl, wordsum_of_length_lt_two odd hb]
  · exact (wordsum_eq_zero_iff true l).trans (wordsum_eq_zero_iff false l).symm

/-- The sum is that of the big-endian words, in either byte order and at every address. -/
theorem ptclbsum_eq (little : Bool) (addr : ℕ) (hlen : p.length ≤ 65575) :
    ptclbsum little addr p = .ofNat (onessum p) := by
  have hfalse : weight false = 256 := rfl
  have htrue : weight true = 1 := rfl
  unfold ptclbsum
  by_cases hodd : addr % 2 = 1
  · have hdrop : (p.drop 1).length ≤ 65575 := by
      rw [List.length_drop]
      omega
    obtain ⟨b, m, w, hrun, hm, hle, hb, hword, hnot, hzero⟩ := exists_sums little hdrop
    have hp : wordsum false p = 256 * (first p).toNat + wordsum true (p.drop 1) := by
      rw [toNat_first]
      cases p <;> rfl
    have hfirst : (first p).toNat < 256 := by
      rw [toNat_first]
      exact UInt8.toNat_lt _
    rw [hword, htrue] at hp
    rw [if_pos hodd]
    dsimp only
    rw [hrun]
    dsimp only
    cases little with
    | false =>
      rw [if_neg Bool.false_ne_true]
      have hadd : (first p + m).toNat = (first p).toNat + w false := by
        rw [toNat_add_of_lt (by omega), hm]
      rw [Bool.not_false] at hnot
      refine addsums_eq ?_ ?_ ?_
      all_goals rw [hadd]; omega
    | true =>
      rw [if_pos rfl]
      have hadd : (first b + m).toNat = (first b).toNat + w true := by
        rw [toNat_add_of_lt (by omega), hm]
      refine addsums_eq ?_ ?_ ?_
      all_goals rw [hadd]; omega
  · obtain ⟨b, m, w, hrun, hm, hle, hb, hword, hnot, hzero⟩ := exists_sums little hlen
    have hp := hword false
    rw [hfalse] at hp
    rw [if_neg hodd]
    dsimp only
    rw [hrun]
    dsimp only
    cases little with
    | false =>
      rw [if_neg Bool.false_ne_true]
      refine addsums_eq ?_ ?_ ?_
      all_goals rw [hm]; omega
    | true =>
      rw [if_pos rfl]
      have hadd : (first b + m).toNat = (first b).toNat + w true := by
        rw [toNat_add_of_lt (by omega), hm]
      rw [Bool.not_true] at hnot
      refine addsums_eq ?_ ?_ ?_
      all_goals rw [hadd, UInt32.toNat_zero]; omega

/-! ### The sum of the blocks -/

/-- The sum of one block as a word. -/
def blocksum (p : List UInt8) : UInt16 := .ofNat (onessum p)

theorem toNat_blocksum (p : List UInt8) : (blocksum p).toNat = onessum p :=
  UInt16.toNat_ofNat_of_lt' (stands_onessum p).lt

theorem onessum_le (p : List UInt8) : onessum p ≤ 65280 * p.length :=
  (stands_onessum p).le.trans (wordsum_le false p)

/-- Nothing overflows in the loop over the blocks. -/
theorem csumLoop_toNat (little : Bool) (ps : List (ℕ × List UInt8)) (len : ℕ) (odd : Bool)
    (losum hisum : UInt32) (hlen : (ps.map fun q => q.2.length).sum ≤ 65575)
    (hroom : losum.toNat + hisum.toNat + 65280 * (ps.map fun q => q.2.length).sum < 4294967296) :
    let r := csumLoop little ps len odd losum hisum
    (r.1.toNat, r.2.toNat) =
      Ipaux.csumLoop blocksum (ps.map Prod.snd) len odd losum.toNat hisum.toNat := by
  induction ps generalizing len odd losum hisum with
  | nil => rfl
  | cons q ps ih =>
    obtain ⟨addr, p⟩ := q
    rw [List.map_cons, List.sum_cons] at hlen hroom
    rw [List.map_cons, csumLoop, Ipaux.csumLoop]
    dsimp only at hlen hroom ⊢
    by_cases h0 : len = 0
    · rw [if_pos h0, if_pos h0]
    · rw [if_neg h0, if_neg h0]
      have htake : (p.take (min p.length len)).length ≤ p.length := List.length_take_le' _ _
      have hsum : (ptclbsum little addr (p.take (min p.length len))).toUInt32.toNat =
          (blocksum (p.take (min p.length len))).toNat := by
        rw [UInt16.toNat_toUInt32, ptclbsum_eq little addr (by omega)]
        rfl
      have hle := onessum_le (p.take (min p.length len))
      rw [← toNat_blocksum, ← hsum] at hle
      cases odd with
      | false =>
        have hadd := toNat_add_of_lt (x := losum)
          (y := (ptclbsum little addr (p.take (min p.length len))).toUInt32) (by omega)
        rw [if_neg Bool.false_ne_true, if_neg Bool.false_ne_true, ih _ _ _ _ (by omega) (by omega),
          hadd, hsum]
      | true =>
        have hadd := toNat_add_of_lt (x := hisum)
          (y := (ptclbsum little addr (p.take (min p.length len))).toUInt32) (by omega)
        rw [if_pos rfl, if_pos rfl, ih _ _ _ _ (by omega) (by omega), hadd, hsum]

/-- What the sums of the blocks stand for. -/
theorem csumLoop_spec (qs : List (List UInt8)) (len : ℕ) (odd : Bool) (lo hi : ℕ) :
    let r := Ipaux.csumLoop blocksum qs len odd lo hi
    (r.1 + 256 * r.2) % 65535 = (lo + 256 * hi + wordsum odd (qs.flatten.take len)) % 65535 ∧
      (r.1 + r.2 = 0 ↔ lo + hi + wordsum odd (qs.flatten.take len) = 0) ∧
      r.1 + r.2 ≤ lo + hi + 65280 * (qs.map List.length).sum := by
  induction qs generalizing len odd lo hi with
  | nil => simp [Ipaux.csumLoop]
  | cons p qs ih =>
    rw [Ipaux.csumLoop]
    dsimp only
    by_cases h0 : len = 0
    · rw [if_pos h0, h0, List.take_zero]
      exact ⟨rfl, Iff.rfl, by omega⟩
    rw [if_neg h0]
    have hx : (p.take (min p.length len)).length = min p.length len := by
      rw [List.length_take]
      omega
    have hcut : (p :: qs).flatten.take len =
        p.take (min p.length len) ++ qs.flatten.take (len - min p.length len) := by
      rw [List.flatten_cons, List.take_append]
      congr 1
      · obtain h | h := Nat.le_total p.length len
        · rw [min_eq_left h, List.take_length, List.take_of_length_le h]
        · rw [min_eq_right h]
      · congr 1
        omega
    have hword := wordsum_append odd (p.take (min p.length len))
      (qs.flatten.take (len - min p.length len))
    rw [← hcut, hx] at hword
    have hstands := stands_onessum (p.take (min p.length len))
    have hle := onessum_le (p.take (min p.length len))
    rw [← toNat_blocksum] at hstands hle
    have hmod := hstands.mod
    have hz := hstands.zero
    rw [List.map_cons, List.sum_cons, hword]
    cases odd with
    | false =>
      rw [if_neg Bool.false_ne_true]
      obtain ⟨ih₁, ih₂, ih₃⟩ := ih (len - min p.length len)
        (xor false (min p.length len % 2 == 1))
        (lo + (blocksum (p.take (min p.length len))).toNat) hi
      refine ⟨?_, ?_, ?_⟩
      · rw [ih₁]
        omega
      · rw [ih₂]
        omega
      · omega
    | true =>
      rw [if_pos rfl]
      obtain ⟨ih₁, ih₂, ih₃⟩ := ih (len - min p.length len)
        (xor true (min p.length len % 2 == 1))
        lo (hi + (blocksum (p.take (min p.length len))).toNat)
      have hnot := wordsum_not false (p.take (min p.length len))
      rw [Bool.not_false] at hnot
      have hzero := (wordsum_eq_zero_iff true (p.take (min p.length len))).trans
        (wordsum_eq_zero_iff false _).symm
      refine ⟨?_, ?_, ?_⟩
      · rw [ih₁]
        omega
      · rw [ih₂]
        omega
      · omega

/-! ### The checksum -/

variable {bp bs : List Block} {offset len : ℕ}

/-- The front of the data is the same with its address. -/
theorem map_csumFront (rp : Block → ℕ) (bp : List Block) (offset : ℕ) :
    (csumFront rp bp offset).map (fun r => (r.1.2, r.2)) = Ipaux.csumFront bp offset := by
  induction bp generalizing offset with
  | nil => rfl
  | cons b bs ih =>
    rw [csumFront, Ipaux.csumFront]
    split_ifs
    · exact ih _
    · rfl

/-- The front holds the data from the offset on. -/
theorem csumFront_bytes (h : Ipaux.csumFront bp offset = some (p, bs)) :
    (bytes bp).drop offset = p ++ bytes bs := by
  induction bp generalizing offset with
  | nil => cases h
  | cons b bp ih =>
    rw [Ipaux.csumFront] at h
    rw [bytes_cons]
    split_ifs at h with hfar
    · rw [← ih h, List.drop_append, List.drop_of_length_le hfar.2, List.nil_append]
      rfl
    · cases h
      rw [List.drop_append]
      congr 1
      have hzero : offset - b.data.length = 0 := by
        unfold Block.BLEN at hfar
        omega
      rw [hzero, List.drop_zero]

theorem exists_csumFront (h : offset < blocklen bp) :
    ∃ p bs, Ipaux.csumFront bp offset = some (p, bs) := by
  induction bp generalizing offset with
  | nil => cases h
  | cons b bp ih =>
    rw [blocklen_cons] at h
    rw [Ipaux.csumFront]
    split_ifs with hfar
    · exact ih (by omega)
    · exact ⟨_, _, rfl⟩

/-- No sum overflows, and the addresses and the byte order do not matter. -/
theorem ptclcsum_eq (little : Bool) (rp : Block → ℕ) (hlen : blocklen bp ≤ 65575) :
    ptclcsum little rp bp offset len = Ipaux.ptclcsum blocksum bp offset len := by
  have hfront := map_csumFront rp bp offset
  unfold ptclcsum Ipaux.ptclcsum
  cases hrun : csumFront rp bp offset with
  | none =>
    rw [hrun] at hfront
    rw [← hfront]
    rfl
  | some r =>
    obtain ⟨⟨addr, p⟩, bs⟩ := r
    rw [hrun] at hfront
    rw [← hfront]
    have hbytes := Ipaux.csumFront_some hfront.symm
    dsimp only [Option.map_some] at hbytes ⊢
    cases bs with
    | nil =>
      dsimp only
      have htake : (p.take len).length ≤ p.length := List.length_take_le' _ _
      rw [ptclbsum_eq little addr (by omega)]
      rfl
    | cons b bs =>
      dsimp only
      have hsum : (((addr, p) :: (b :: bs).map fun b => (rp b, b.data)).map
          fun q => q.2.length).sum = p.length + blocklen (b :: bs) := by
        rw [List.map_cons, List.sum_cons, List.map_map]
        rfl
      have hsnd : ((addr, p) :: (b :: bs).map fun b => (rp b, b.data)).map Prod.snd =
          p :: (b :: bs).map Block.data := by
        rw [List.map_cons, List.map_map]
        rfl
      have hzero : (0 : UInt32).toNat = 0 := rfl
      have hnat := csumLoop_toNat little ((addr, p) :: (b :: bs).map fun b => (rp b, b.data)) len
        false 0 0 (by rw [hsum]; omega) (by rw [hsum, hzero]; omega)
      obtain ⟨-, -, hle⟩ := csumLoop_spec (p :: (b :: bs).map Block.data) len false 0 0
      have hlength : ((p :: (b :: bs).map Block.data).map List.length).sum =
          p.length + blocklen (b :: bs) := by
        rw [List.map_cons, List.sum_cons, List.map_map]
        rfl
      rw [hsnd, hzero] at hnat
      rw [hlength, ← hnat] at hle
      rw [← hnat, addsums_eq_foldsum (by omega)]

/-- The checksum of bytes that were cut into blocks. -/
theorem ipaux_ptclcsum_eq (len : ℕ) (h : offset < blocklen bp) :
    Ipaux.ptclcsum blocksum bp offset len = cksum (((bytes bp).drop offset).take len) := by
  obtain ⟨p, bs, hfront⟩ := exists_csumFront h
  unfold Ipaux.ptclcsum
  rw [csumFront_bytes hfront, hfront]
  cases bs with
  | nil =>
    rw [bytes_nil, List.append_nil]
    rfl
  | cons b bs =>
    have hflat : (p :: (b :: bs).map Block.data).flatten = p ++ bytes (b :: bs) := by
      rw [List.flatten_cons, bytes, List.flatMap_def]
    obtain ⟨hmod, hzero, -⟩ := csumLoop_spec (p :: (b :: bs).map Block.data) len false 0 0
    rw [hflat, Nat.zero_add] at hmod hzero
    dsimp only
    rw [foldsum_eq hmod hzero]
    rfl

/-- The checksum is that of the bytes, however they are cut and wherever they are. -/
theorem ptclcsum_eq_cksum (little : Bool) (rp : Block → ℕ) (bp : List Block) (offset len : ℕ)
    (hlen : blocklen bp ≤ 65575) (hoffset : offset < blocklen bp) :
    ptclcsum little rp bp offset len = cksum (((bytes bp).drop offset).take len) := by
  rw [ptclcsum_eq little rp hlen, ipaux_ptclcsum_eq len hoffset]

/-- Three blocks of odd lengths, the second of which is at an odd address. -/
theorem ptclcsum_three_blocks :
    ptclcsum true Block.addr [⟨0, 0, [1, 2, 3], 0⟩, ⟨5, 0, [4], 0⟩, ⟨8, 0, [5, 6, 7], 0⟩] 1 9 =
      cksum [2, 3, 4, 5, 6, 7] :=
  ptclcsum_eq_cksum true Block.addr _ 1 9 (by decide) (by decide)

end PlanNine.Ptclbsum
