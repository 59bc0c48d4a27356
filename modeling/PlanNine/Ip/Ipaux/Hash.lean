import Mathlib.Data.List.Basic
import Mathlib.Tactic

/-!
# The table of conversations

`iphash`, `iphtadd`, `iphtrem` and `iphtlook` of `ipaux.c`. In `iphash` the bytes of the addresses
and the ports are promoted to `int` before they are shifted, so that the sum has a sign and the
remainder is a signed one; the index is that remainder as an `ulong`. The words of the memory are
numbered by such an index, and the table is the first `Nipht` of them; a word outside is taken to
hold `nil` at the start and to be used by nothing else. The lock of the table is left out.

## Main definitions

* `Conv`, `Iphash`, `Ipht`: a conversation's addresses and ports, an entry and the table.
* `iphash`, `iphtadd`, `iphtrem`, `iphtlook`: the routines.

## Main results

* `iphash_lt_iff`: when an index lies inside the table.
* `iphash_of_inside`: which index that is.
-/

namespace PlanNine.Ipaux

def Nhash : ℕ := 64

def Nipht : ℕ := 521

/-- An address of `IPaddrlen` bytes. -/
abbrev Ipaddr : Type := Vector UInt8 16

def IPnoaddr : Ipaddr := Vector.replicate 16 0

/-- The addresses and ports of a conversation. -/
structure Conv where
  raddr : Ipaddr := IPnoaddr
  rport : UInt16 := 0
  laddr : Ipaddr := IPnoaddr
  lport : UInt16 := 0
  deriving DecidableEq

/-- What an entry matches. -/
inductive Match where
  | exact | any | port | addr | pa
  deriving DecidableEq, Repr

/-- An entry, with the number of its conversation. -/
structure Iphash where
  c : ℕ
  «match» : Match
  deriving DecidableEq, Repr

/-- The chains, by their index. -/
abbrev Ipht : Type := ℕ → List Iphash

/-- The sum of which `iphash` takes a remainder, as an `int`. -/
def mix (sa : Ipaddr) (sp : UInt16) (da : Ipaddr) (dp : UInt16) : BitVec 32 :=
  (sa[15].toBitVec.setWidth 32 <<< 24) ^^^ (sp.toBitVec.setWidth 32 <<< 16) ^^^
    (da[15].toBitVec.setWidth 32 <<< 8) ^^^ dp.toBitVec.setWidth 32

def iphash (sa : Ipaddr) (sp : UInt16) (da : Ipaddr) (dp : UInt16) : ℕ :=
  ((mix sa sp da dp).srem (BitVec.ofNat 32 Nhash)).toNat

/-- The class of an entry that is made for a conversation. -/
def matchOf (c : Conv) : Match :=
  if c.raddr ≠ IPnoaddr then .exact
  else if c.laddr ≠ IPnoaddr then
    if c.lport = 0 then .addr else .pa
  else if c.lport = 0 then .any else .port

/-- The index of a conversation. -/
def indexOf (c : Conv) : ℕ := iphash c.raddr c.rport c.laddr c.lport

def iphtadd (ht : Ipht) (conv : ℕ → Conv) (c : ℕ) : Ipht :=
  Function.update ht (indexOf (conv c)) (⟨c, matchOf (conv c)⟩ :: ht (indexOf (conv c)))

def iphtrem (ht : Ipht) (conv : ℕ → Conv) (c : ℕ) : Ipht :=
  Function.update ht (indexOf (conv c)) ((ht (indexOf (conv c))).eraseP fun h => h.c = c)

/-- A packet's addresses and ports. -/
structure Packet where
  sa : Ipaddr
  sp : UInt16
  da : Ipaddr
  dp : UInt16
  deriving DecidableEq

/-- A conversation has what the class asks for. -/
def fits (k : Match) (c : Conv) (p : Packet) : Bool :=
  match k with
  | .exact => p.sp = c.rport ∧ p.dp = c.lport ∧ p.sa = c.raddr ∧ p.da = c.laddr
  | .pa => p.dp = c.lport ∧ p.da = c.laddr
  | .port => p.dp = c.lport
  | .addr => p.da = c.laddr
  | .any => true

/-- The index that is probed for a class. -/
def probe (k : Match) (p : Packet) : ℕ :=
  match k with
  | .exact => iphash p.sa p.sp p.da p.dp
  | .pa => iphash IPnoaddr 0 p.da p.dp
  | .port => iphash IPnoaddr 0 IPnoaddr p.dp
  | .addr => iphash IPnoaddr 0 p.da 0
  | .any => iphash IPnoaddr 0 IPnoaddr 0

/-- One of the five loops. -/
def scan (ht : Ipht) (conv : ℕ → Conv) (p : Packet) (k : Match) : Option ℕ :=
  ((ht (probe k p)).find? fun h => h.match = k ∧ fits k (conv h.c) p).map Iphash.c

/-- The order of the loops. -/
def order : List Match := [.exact, .pa, .port, .addr, .any]

/-- The loops one after the other, up to the first one that finds a conversation, with the indices
that were used. -/
def scans (ht : Ipht) (conv : ℕ → Conv) (p : Packet) : List Match → Option ℕ × List ℕ
  | [] => (none, [])
  | k :: ks =>
    match scan ht conv p k with
    | some c => (some c, [probe k p])
    | none => ((scans ht conv p ks).1, probe k p :: (scans ht conv p ks).2)

def iphtlook (ht : Ipht) (conv : ℕ → Conv) (p : Packet) : Option ℕ := (scans ht conv p order).1

/-! ### Classes -/

theorem lport_of_addr {q : Conv} (h : matchOf q = .addr) : q.lport = 0 := by
  unfold matchOf at h
  split_ifs at h with _ _ hport
  exact hport

theorem lport_of_any {q : Conv} (h : matchOf q = .any) : q.lport = 0 := by
  unfold matchOf at h
  split_ifs at h with _ _ _ hport
  exact hport

theorem raddr_of_exact {q : Conv} (h : matchOf q = .exact) : q.raddr ≠ IPnoaddr := by
  unfold matchOf at h
  split_ifs at h with hraddr
  exact hraddr

/-! ### Indices -/

variable {sa da : Ipaddr} {sp dp : UInt16}

/-- The sum is not negative, or is a multiple of the divisor. -/
def Inside (sa : Ipaddr) (sp dp : UInt16) : Prop :=
  (sa[15].toNat < 128 ↔ sp.toNat < 32768) ∨ dp.toNat % Nhash = 0

instance (sa : Ipaddr) (sp dp : UInt16) : Decidable (Inside sa sp dp) :=
  inferInstanceAs (Decidable (_ ∨ _))

/-- A number that is shifted and stays below 2³². -/
theorem toNat_shifted {w n : ℕ} (x : BitVec w) (h : w + n ≤ 32) :
    (x.setWidth 32 <<< n).toNat = x.toNat * 2 ^ n := by
  have hx := x.isLt
  have hw : 2 ^ w * 2 ^ n ≤ 2 ^ 32 := by
    rw [← pow_add]
    exact Nat.pow_le_pow_right (by decide) h
  have hlt : x.toNat * 2 ^ n < 2 ^ 32 :=
    (Nat.mul_lt_mul_of_pos_right hx (Nat.two_pow_pos n)).trans_le hw
  have hle : x.toNat ≤ x.toNat * 2 ^ n := Nat.le_mul_of_pos_right _ (Nat.two_pow_pos n)
  rw [BitVec.toNat_shiftLeft, BitVec.toNat_setWidth, Nat.mod_eq_of_lt (hle.trans_lt hlt),
    Nat.shiftLeft_eq, Nat.mod_eq_of_lt hlt]

theorem msb_mix (sa da : Ipaddr) (sp dp : UInt16) :
    (mix sa sp da dp).msb = false ↔ (sa[15].toNat < 128 ↔ sp.toNat < 32768) := by
  have hsp := sp.toNat_lt
  have hda := da[15].toNat_lt
  have hdp := dp.toNat_lt
  have h24 : (sa[15].toBitVec.setWidth 32 <<< 24).msb = decide (128 ≤ sa[15].toNat) := by
    rw [BitVec.msb_eq_decide, toNat_shifted _ (by decide), UInt8.toNat_toBitVec, decide_eq_decide]
    omega
  have h16 : (sp.toBitVec.setWidth 32 <<< 16).msb = decide (32768 ≤ sp.toNat) := by
    rw [BitVec.msb_eq_decide, toNat_shifted _ (by decide), UInt16.toNat_toBitVec, decide_eq_decide]
    omega
  have h8 : (da[15].toBitVec.setWidth 32 <<< 8).msb = false := by
    rw [BitVec.msb_eq_decide, toNat_shifted _ (by decide), UInt8.toNat_toBitVec,
      decide_eq_false_iff_not]
    omega
  have h0 : (dp.toBitVec.setWidth 32).msb = false := by
    rw [BitVec.msb_eq_decide, BitVec.toNat_setWidth, UInt16.toNat_toBitVec, decide_eq_false_iff_not]
    omega
  rw [mix, BitVec.msb_xor, BitVec.msb_xor, BitVec.msb_xor, h24, h16, h8, h0]
  by_cases hs : sa[15].toNat < 128 <;> by_cases hp : sp.toNat < 32768 <;> simp [hs, hp] <;> omega

theorem toNat_mix_mod (sa da : Ipaddr) (sp dp : UInt16) :
    (mix sa sp da dp).toNat % Nhash = dp.toNat % Nhash := by
  have hshift {w n : ℕ} (x : BitVec w) (h : w + n ≤ 32) (hn : 6 ≤ n) :
      (x.setWidth 32 <<< n).toNat % 2 ^ 6 = 0 := by
    rw [toNat_shifted x h]
    exact Nat.mod_eq_zero_of_dvd ((pow_dvd_pow 2 hn).mul_left _)
  rw [mix, Nhash, (by norm_num : 64 = 2 ^ 6)]
  simp only [BitVec.toNat_xor, Nat.xor_mod_two_pow]
  rw [hshift _ (by decide) (by decide), hshift _ (by decide) (by decide),
    hshift _ (by decide) (by decide)]
  simp

/-- The remainder of a negative sum is negative, and is a large number as an `ulong`. -/
theorem iphash_eq : iphash sa sp da dp =
    if (mix sa sp da dp).msb = true ∧ dp.toNat % Nhash ≠ 0 then 4294967232 + dp.toNat % Nhash
    else dp.toNat % Nhash := by
  have hmod := toNat_mix_mod sa da sp dp
  have hlt := (mix sa sp da dp).isLt
  have h64 : (BitVec.ofNat 32 Nhash).msb = false := by decide
  have hn : (BitVec.ofNat 32 Nhash).toNat = 64 := by decide
  rw [iphash, BitVec.toNat_srem, h64]
  cases hmsb : (mix sa sp da dp).msb with
  | false =>
    rw [if_neg (fun h => Bool.false_ne_true h.1)]
    exact (congrArg _ hn).trans hmod
  | true =>
    have hpos : 2 ^ 31 ≤ (mix sa sp da dp).toNat := by
      rw [BitVec.msb_eq_decide] at hmsb
      exact of_decide_eq_true hmsb
    rw [← hmod]
    have hneg : (2 ^ 32 - (mix sa sp da dp).toNat) % 2 ^ 32 = 2 ^ 32 - (mix sa sp da dp).toNat :=
      Nat.mod_eq_of_lt (by omega)
    simp only [BitVec.toNat_neg, BitVec.toNat_umod, hn]
    rw [hneg, Nhash]
    generalize (mix sa sp da dp).toNat = x at *
    have hrem : (2 ^ 32 - x) % 64 = if x % 64 = 0 then 0 else 64 - x % 64 := by
      split_ifs <;> omega
    simp only [hrem, true_and]
    split_ifs <;> omega

theorem iphash_lt_iff : iphash sa sp da dp < Nipht ↔ Inside sa sp dp := by
  have hlt : dp.toNat % Nhash < Nipht := (Nat.mod_lt _ (by decide)).trans (by decide)
  rw [iphash_eq, Inside, ← msb_mix sa da sp dp]
  split_ifs with h
  · have hge : Nipht ≤ 4294967232 := by decide
    simp only [h.1, h.2, Bool.true_eq_false, or_self, iff_false]
    omega
  · rw [not_and_or, Bool.not_eq_true, not_not] at h
    exact iff_of_true hlt h

theorem iphash_of_inside (h : Inside sa sp dp) : iphash sa sp da dp = dp.toNat % Nhash := by
  rw [iphash_eq, if_neg]
  rw [Inside, ← msb_mix sa da sp dp] at h
  rintro ⟨hmsb, hne⟩
  rcases h with h | h
  · exact Bool.false_ne_true (h.symm.trans hmsb)
  · exact hne h

/-- The local address does not matter. -/
theorem iphash_laddr (da da' : Ipaddr) : iphash sa sp da dp = iphash sa sp da' dp := by
  have hmsb : (mix sa sp da dp).msb = (mix sa sp da' dp).msb := by
    rw [Bool.eq_iff_iff, ← not_iff_not, Bool.not_eq_true, Bool.not_eq_true, msb_mix, msb_mix]
  rw [iphash_eq, iphash_eq, hmsb]

/-- Where there is no remote address and port, the index lies inside. -/
theorem inside_zero (dp : UInt16) : Inside IPnoaddr 0 dp := .inl (by decide)

/-! ### What is found -/

variable {ht : Ipht} {conv : ℕ → Conv} {p : Packet} {c : ℕ}

/-- A conversation that is found has an entry of a class that it fits, where that class is
probed. -/
theorem exists_of_scans {ks : List Match} (h : (scans ht conv p ks).1 = some c) :
    ∃ k ∈ ks, ∃ e ∈ ht (probe k p), e.c = c ∧ e.match = k ∧ fits k (conv c) p = true := by
  induction ks with
  | nil => cases h
  | cons k ks ih =>
    rw [scans] at h
    split at h
    · rename_i c' hscan
      cases h
      obtain ⟨e, he, rfl⟩ := Option.map_eq_some_iff.mp hscan
      have hfound := List.find?_some he
      obtain ⟨hmatch, hfits⟩ := of_decide_eq_true hfound
      exact ⟨k, List.mem_cons_self, e, List.mem_of_find?_eq_some he, rfl, hmatch, hfits⟩
    · obtain ⟨k', hk', hrest⟩ := ih h
      exact ⟨k', List.mem_cons_of_mem _ hk', hrest⟩

end PlanNine.Ipaux
