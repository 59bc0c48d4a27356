import PlanNine.Lib.Run
import PlanNine.Lib.Ulong

/-!
# Swap slots

`newswap`, `putswap` and `dupswap` of `swap.c`. The swap map has a byte for each slot that counts
the references to it. How many bytes are zero is kept beside the map, and the search for a free slot
begins at a hint. The callers pass swap addresses, which are words.

A release looks whether the byte has wrapped below zero, but takes one that was at its largest value
for such a byte.

## Main definitions

* `Swapalloc`, `newswap`, `putswap`, `dupswap`, `swapcount`: the allocator.
* `Sys`, `exec`: the calls of those who hold references, with the references that they hold.
* `Exact`: the map counts the references, and what is kept beside it is right.
* `Careful`: a reference is duplicated where there is one, and released where there are less than
  255.

## Main results

* `exact_iff`: the slots are counted exactly throughout just when all calls are careful.
-/

namespace PlanNine.Swap

def BY2PG : ℕ := 4096

structure Swapalloc where
  swmap : List UInt8
  /-- Where the search for a free slot begins. -/
  last : ℕ
  free : ℤ
  deriving DecidableEq, Repr

def swapinit (nswap : ℕ) : Swapalloc := ⟨List.replicate nswap 0, 0, nswap⟩

/-- The address of a slot that had no references, or `~0`. -/
def newswap (s : Swapalloc) : Except String (ℕ × Swapalloc) :=
  if s.free = 0 then .ok (ulong (-1), s)
  else
    match (s.swmap.drop s.last).findIdx? (· = 0) with
    | none => .error "inconsistent swap"
    | some i =>
        let look := s.last + i
        .ok (ulong (look * BY2PG : ℕ), ⟨s.swmap.set look 1, look, s.free - 1⟩)

def putswap (s : Swapalloc) (p : ℕ) : Except String Swapalloc :=
  let idx := p / BY2PG
  let b := s.swmap.getD idx 0 - 1
  let s := { s with swmap := s.swmap.set idx b }
  let s :=
    if b = 0 then { s with free := s.free + 1, last := if idx < s.last then idx else s.last }
    else s
  if 254 ≤ b then .error "putswap %lux == %ud" else .ok s

def dupswap (s : Swapalloc) (p : ℕ) : Except String Swapalloc :=
  let idx := p / BY2PG
  let b := s.swmap.getD idx 0 + 1
  if b = 0 then .error "dupswap" else .ok { s with swmap := s.swmap.set idx b }

def swapcount (s : Swapalloc) (daddr : ℕ) : UInt8 := s.swmap.getD (daddr / BY2PG) 0

/-! ### Calls of those who hold references -/

/-- The allocator, the references that are held to each slot, and a panic. -/
structure Sys where
  alloc : Swapalloc
  refs : List ℕ
  panic : Option String
  deriving DecidableEq, Repr

def start (nswap : ℕ) : Sys := ⟨swapinit nswap, List.replicate nswap 0, none⟩

inductive Event
  | newswap
  | putswap (p : ℕ)
  | dupswap (p : ℕ)
  deriving DecidableEq, Repr

namespace Sys

/-- The references to the slot of an address. -/
def held (s : Sys) (p : ℕ) : ℕ := s.refs.getD (p / BY2PG) 0

/-- What a call leaves, and the references to the slot of its address. -/
def settle (s : Sys) (p n : ℕ) : Except String Swapalloc → Sys
  | .error why => { s with panic := some why }
  | .ok a => { s with alloc := a, refs := s.refs.set (p / BY2PG) n }

/-- A call. A slot is released by one who holds a reference, and has 255 references at the most. -/
def exec (s : Sys) : Event → Option Sys
  | .newswap =>
      if s.panic = none then
        some (match newswap s.alloc with
          | .error why => { s with panic := some why }
          | .ok (daddr, a) =>
              if daddr = ulong (-1) then { s with alloc := a }
              else s.settle daddr (s.held daddr + 1) (.ok a))
      else none
  | .putswap p =>
      if s.panic = none ∧ 0 < s.held p then some (s.settle p (s.held p - 1) (putswap s.alloc p))
      else none
  | .dupswap p =>
      if s.panic = none ∧ p / BY2PG < s.refs.length ∧ s.held p < 255 then
        some (s.settle p (s.held p + 1) (dupswap s.alloc p))
      else none

/-- A reference is duplicated where there is one, and released where there are less than 255. -/
def Careful (s : Sys) : Event → Prop
  | .newswap => True
  | .putswap p => s.held p ≠ 255
  | .dupswap p => 0 < s.held p

instance (s : Sys) : (e : Event) → Decidable (s.Careful e)
  | .newswap => inferInstanceAs (Decidable True)
  | .putswap p => inferInstanceAs (Decidable (s.held p ≠ 255))
  | .dupswap p => inferInstanceAs (Decidable (0 < s.held p))

/-- The map counts the references, and what is kept beside it is right: a slot without references is
found whenever there is one. -/
structure Exact (s : Sys) : Prop where
  running : s.panic = none
  counts : s.alloc.swmap.map UInt8.toNat = s.refs
  free : s.alloc.free = s.alloc.swmap.count 0
  low : ∀ i < s.alloc.last, s.alloc.swmap[i]? ≠ some 0
  answers : ∃ daddr a, newswap s.alloc = .ok (daddr, a) ∧
    if 0 ∈ s.refs then s.refs[daddr / BY2PG]? = some 0 else daddr = ulong (-1)

end Sys

open Sys

variable {s t : Sys} {e : Event} {p : ℕ}

/-! ### The search -/

theorem toNat_getD (l : List UInt8) (i : ℕ) :
    (l.getD i 0).toNat = (l.map UInt8.toNat).getD i 0 := by
  rw [List.getD_eq_getElem?_getD, List.getD_eq_getElem?_getD, List.getElem?_map]
  cases l[i]? <;> rfl

theorem zero_mem_map {l : List UInt8} : 0 ∈ l.map UInt8.toNat ↔ 0 ∈ l := by
  rw [List.mem_map]
  constructor
  · rintro ⟨b, hb, hz⟩
    have hb0 : b = 0 := UInt8.toNat_inj.mp hz
    exact hb0 ▸ hb
  · exact fun h => ⟨0, h, rfl⟩

/-- The first free slot is found where none lies below the hint. -/
theorem findIdx?_drop {l : List UInt8} {last : ℕ} (hlow : ∀ i < last, l[i]? ≠ some 0) (h : 0 ∈ l) :
    ∃ i, (l.drop last).findIdx? (· = 0) = some i ∧ l[last + i]? = some 0 ∧
      ∀ j < last + i, l[j]? ≠ some 0 := by
  obtain ⟨k, hk, hkz⟩ := List.mem_iff_getElem.mp h
  have hlast : last ≤ k := by
    by_contra hlt
    exact hlow k (by omega) (List.getElem?_eq_some_iff.mpr ⟨hk, hkz⟩)
  have hmem : (0 : UInt8) ∈ l.drop last := by
    refine List.mem_iff_getElem?.mpr ⟨k - last, ?_⟩
    rw [List.getElem?_drop, Nat.add_sub_cancel' hlast]
    exact List.getElem?_eq_some_iff.mpr ⟨hk, hkz⟩
  obtain ⟨i, hi⟩ : ∃ i, (l.drop last).findIdx? (· = 0) = some i :=
    ⟨_, List.findIdx?_eq_some_of_exists ⟨0, hmem, by simp⟩⟩
  obtain ⟨hlt, hz, hbefore⟩ := List.findIdx?_eq_some_iff_getElem.mp hi
  refine ⟨i, hi, ?_, fun j hj heq => ?_⟩
  · rw [← List.getElem?_drop]
    exact List.getElem?_eq_some_iff.mpr ⟨hlt, by simpa using hz⟩
  · by_cases hjl : j < last
    · exact hlow j hjl heq
    · have hnot := hbefore (j - last) (by omega)
      obtain ⟨hj', hjz⟩ := List.getElem?_eq_some_iff.mp heq
      rw [List.getElem_drop] at hnot
      simp only [Nat.add_sub_cancel' (Nat.le_of_not_lt hjl), hjz, decide_true, not_true] at hnot

/-- What a search gives where the map and what is kept beside it agree. -/
theorem newswap_eq {s : Swapalloc} (hfree : s.free = s.swmap.count 0)
    (hlow : ∀ i < s.last, s.swmap[i]? ≠ some 0) (hlen : s.swmap.length ≤ 1048576) :
    (0 ∉ s.swmap ∧ newswap s = .ok (ulong (-1), s)) ∨
      ∃ look, s.swmap[look]? = some 0 ∧ (∀ j < look, s.swmap[j]? ≠ some 0) ∧
        look * BY2PG < ulong (-1) ∧
        newswap s = .ok (look * BY2PG, ⟨s.swmap.set look 1, look, s.free - 1⟩) := by
  unfold newswap
  by_cases h : 0 ∈ s.swmap
  · have hpos : 0 < s.swmap.count 0 := List.count_pos_iff.mpr h
    obtain ⟨i, hi, hz, hbefore⟩ := findIdx?_drop hlow h
    obtain ⟨hlt, -⟩ := List.getElem?_eq_some_iff.mp hz
    have haddr : (s.last + i) * BY2PG < ulong (-1) := by
      have hword : ulong (-1) = 4294967295 := rfl
      rw [hword, BY2PG]
      omega
    refine .inr ⟨s.last + i, hz, hbefore, haddr, ?_⟩
    rw [if_neg (by omega), hi]
    dsimp only
    rw [ulong_natCast_of_lt (haddr.trans (ulong_lt _))]
  · rw [if_pos (by rw [hfree, List.count_eq_zero.mpr h]; rfl)]
    exact .inl ⟨h, rfl⟩

/-- What is left to show of an allocator. -/
theorem exact_of (hrun : s.panic = none) (hcounts : s.alloc.swmap.map UInt8.toNat = s.refs)
    (hfree : s.alloc.free = s.alloc.swmap.count 0)
    (hlow : ∀ i < s.alloc.last, s.alloc.swmap[i]? ≠ some 0)
    (hlen : s.alloc.swmap.length ≤ 1048576) : s.Exact := by
  refine ⟨hrun, hcounts, hfree, hlow, ?_⟩
  rw [← hcounts]
  obtain ⟨hnone, heq⟩ | ⟨look, hz, -, -, heq⟩ := newswap_eq hfree hlow hlen
  · refine ⟨_, _, heq, ?_⟩
    rw [if_neg (mt zero_mem_map.mp hnone)]
  · refine ⟨_, _, heq, ?_⟩
    rw [if_pos (zero_mem_map.mpr (List.mem_of_getElem? hz)), List.getElem?_map,
      Nat.mul_div_cancel look (by decide : 0 < BY2PG), hz]
    rfl

theorem exact_start {nswap : ℕ} (h : nswap ≤ 1048576) : (start nswap).Exact := by
  refine exact_of rfl ?_ ?_ nofun ?_
  · exact List.map_replicate
  · exact (congrArg Nat.cast (List.count_replicate_self (a := (0 : UInt8)) (n := nswap))).symm
  · exact (List.length_replicate ..).trans_le h

/-! ### One call -/

theorem length_refs (h : s.Exact) : s.refs.length = s.alloc.swmap.length := by
  rw [← h.counts, List.length_map]

/-- The byte of a slot is the number of references to it. -/
theorem toNat_byte (h : s.Exact) (p : ℕ) :
    (s.alloc.swmap.getD (p / BY2PG) 0).toNat = s.held p := by
  rw [toNat_getD, h.counts, held]

theorem exact_newswap (h : s.Exact) (hlen : s.alloc.swmap.length ≤ 1048576)
    (hexec : s.exec .newswap = some t) :
    t.Exact ∧ t.alloc.swmap.length = s.alloc.swmap.length := by
  rw [exec, if_pos h.running] at hexec
  obtain rfl := Option.some.inj hexec
  obtain ⟨-, heq⟩ | ⟨look, hz, hbefore, haddr, heq⟩ := newswap_eq h.free h.low hlen
  · rw [heq]
    dsimp only
    rw [if_pos rfl]
    exact ⟨h, rfl⟩
  · obtain ⟨hlt, hget⟩ := List.getElem?_eq_some_iff.mp hz
    have hidx : look * BY2PG / BY2PG = look := Nat.mul_div_cancel look (by decide)
    have hheld : s.held (look * BY2PG) = 0 := by
      rw [← toNat_byte h, hidx, List.getD_eq_getElem?_getD, hz]
      rfl
    rw [heq]
    dsimp only
    rw [if_neg haddr.ne, hheld]
    dsimp only [settle]
    rw [hidx]
    refine ⟨exact_of h.running ?_ ?_ (fun j hj hjz => ?_) ?_, List.length_set⟩
    · dsimp only
      rw [List.map_set, h.counts]
      rfl
    · have hpos : 0 < s.alloc.swmap.count 0 :=
        List.count_pos_iff.mpr (List.mem_of_getElem? hz)
      have hset := List.count_set (a := (1 : UInt8)) (b := 0) hlt
      rw [hget] at hset
      simp only [beq_self_eq_true, if_true] at hset
      have hone : ((1 : UInt8) == 0) = false := by decide
      rw [hone] at hset
      dsimp only
      rw [hset, h.free]
      simp only [Bool.false_eq_true, if_false]
      omega
    · dsimp only at hj hjz
      rw [List.getElem?_set_ne hj.ne'] at hjz
      exact hbefore j hj hjz
    · exact List.length_set.trans_le hlen

/-- How many zero bytes there are behind a change of one byte. -/
theorem count_set_byte {l : List UInt8} {i : ℕ} {b : UInt8} (h : i < l.length) :
    ((l.set i b).count 0 : ℤ) =
      l.count 0 - (if l.getD i 0 = 0 then 1 else 0) + if b = 0 then 1 else 0 := by
  have hset := List.count_set (a := b) (b := 0) h
  have hget : l.getD i 0 = l[i] := by
    rw [List.getD_eq_getElem?_getD, List.getElem?_eq_getElem h, Option.getD_some]
  rw [hset, hget]
  by_cases hi : l[i] = 0
  · have hpos : 0 < l.count 0 := List.count_pos_iff.mpr (List.mem_of_getElem hi)
    by_cases hb : b = 0 <;> simp [hi, hb] <;> omega
  · by_cases hb : b = 0 <;> simp [hi, hb]

/-- A slot that has references lies in the map. -/
theorem lt_of_held (h : s.Exact) (hp : 0 < s.held p) : p / BY2PG < s.alloc.swmap.length := by
  rw [← length_refs h]
  by_contra hge
  rw [held, List.getD_eq_getElem?_getD, List.getElem?_eq_none (not_lt.mp hge)] at hp
  exact absurd hp (by decide)

theorem exact_putswap (h : s.Exact) (hlen : s.alloc.swmap.length ≤ 1048576)
    (hexec : s.exec (.putswap p) = some t) :
    (t.Exact ↔ s.held p ≠ 255) ∧
      (s.held p ≠ 255 → t.alloc.swmap.length = s.alloc.swmap.length) := by
  rw [exec] at hexec
  split_ifs at hexec with hp
  obtain rfl := Option.some.inj hexec
  have hlt := lt_of_held h hp.2
  have hbyte := toNat_byte h p
  set b := s.alloc.swmap.getD (p / BY2PG) 0 with hb
  have hpos : 0 < b.toNat := hbyte ▸ hp.2
  have hsub : (b - 1).toNat = b.toNat - 1 := by
    have hone : 1 ≤ b := UInt8.le_iff_toNat_le.mpr hpos
    rw [UInt8.toNat_sub_of_le _ _ hone, UInt8.toNat_one]
  have hle : 254 ≤ b - 1 ↔ s.held p = 255 := by
    rw [UInt8.le_iff_toNat_le, hsub, ← hbyte]
    have hmax := b.toNat_lt
    simp only [UInt8.toNat_ofNat]
    omega
  have hne : b ≠ 0 := fun hz => by
    rw [hz] at hpos
    exact absurd hpos (by decide)
  unfold putswap
  dsimp only
  rw [← hb]
  by_cases h255 : s.held p = 255
  · rw [if_pos (hle.mpr h255)]
    exact ⟨iff_of_false (fun ht => absurd ht.running nofun) (not_not.mpr h255),
      fun hc => absurd h255 hc⟩
  rw [if_neg (mt hle.mp h255)]
  have hcount := count_set_byte (b := b - 1) hlt
  rw [← hb, if_neg hne, sub_zero] at hcount
  have hlength : ∀ last free, (s.settle p (s.held p - 1)
      (.ok ⟨s.alloc.swmap.set (p / BY2PG) (b - 1), last, free⟩)).alloc.swmap.length =
      s.alloc.swmap.length := fun _ _ => List.length_set
  have hmap : (s.alloc.swmap.set (p / BY2PG) (b - 1)).map UInt8.toNat =
      s.refs.set (p / BY2PG) (s.held p - 1) := by
    rw [List.map_set, h.counts, hsub, hbyte]
  split_ifs with hzero hlast
  all_goals
    refine ⟨iff_of_true (exact_of h.running hmap ?_ (fun j hj hjz => ?_)
      ((hlength _ _).trans_le hlen)) h255, fun _ => hlength _ _⟩
  · rw [if_pos hzero] at hcount
    exact (congrArg (· + 1) h.free).trans hcount.symm
  · have hj' : j < p / BY2PG := hj
    dsimp only [settle] at hjz
    rw [List.getElem?_set_ne hj'.ne'] at hjz
    exact h.low j (hj'.trans hlast) hjz
  · rw [if_pos hzero] at hcount
    exact (congrArg (· + 1) h.free).trans hcount.symm
  · have hj' : j < s.alloc.last := hj
    dsimp only [settle] at hjz
    rw [List.getElem?_set_ne (by omega)] at hjz
    exact h.low j hj' hjz
  · rw [if_neg hzero, add_zero] at hcount
    exact h.free.trans hcount.symm
  · dsimp only [settle] at hj hjz
    by_cases hjp : p / BY2PG = j
    · rw [hjp, List.getElem?_set_self (hjp ▸ hlt)] at hjz
      exact hzero (Option.some.inj hjz)
    · rw [List.getElem?_set_ne hjp] at hjz
      exact h.low j hj hjz

theorem exact_dupswap (h : s.Exact) (hlen : s.alloc.swmap.length ≤ 1048576)
    (hexec : s.exec (.dupswap p) = some t) :
    (t.Exact ↔ 0 < s.held p) ∧ (0 < s.held p → t.alloc.swmap.length = s.alloc.swmap.length) := by
  rw [exec] at hexec
  split_ifs at hexec with hp
  obtain rfl := Option.some.inj hexec
  obtain ⟨-, hlt, hmax⟩ := hp
  rw [length_refs h] at hlt
  have hbyte := toNat_byte h p
  set b := s.alloc.swmap.getD (p / BY2PG) 0 with hb
  have hadd : (b + 1).toNat = b.toNat + 1 := by
    rw [UInt8.toNat_add, UInt8.toNat_one, Nat.mod_eq_of_lt (by omega)]
  have hne : b + 1 ≠ 0 := fun hz => by
    rw [hz] at hadd
    exact absurd hadd (by simp)
  unfold dupswap
  dsimp only
  rw [← hb, if_neg hne]
  have hcount := count_set_byte (b := b + 1) hlt
  rw [← hb, if_neg hne, add_zero] at hcount
  by_cases hpos : 0 < s.held p
  · have hb0 : b ≠ 0 := fun hz => by
      rw [hz] at hbyte
      exact hpos.ne hbyte
    rw [if_neg hb0, sub_zero] at hcount
    refine ⟨iff_of_true (exact_of h.running ?_ (h.free.trans hcount.symm) (fun j hj hjz => ?_)
      (List.length_set.trans_le hlen)) hpos, fun _ => List.length_set⟩
    · dsimp only [settle]
      rw [List.map_set, h.counts, hadd, hbyte]
    · dsimp only [settle] at hj hjz
      by_cases hjp : p / BY2PG = j
      · rw [hjp, List.getElem?_set_self (hjp ▸ hlt)] at hjz
        exact hne (Option.some.inj hjz)
      · rw [List.getElem?_set_ne hjp] at hjz
        exact h.low j hj hjz
  · have hb0 : b = 0 := UInt8.toNat_inj.mp (hbyte.trans (Nat.eq_zero_of_not_pos hpos))
    rw [if_pos hb0] at hcount
    refine ⟨iff_of_false (fun ht => ?_) hpos, fun hc => absurd hc hpos⟩
    have hfree : s.alloc.free = ((s.alloc.swmap.set (p / BY2PG) (b + 1)).count 0 : ℤ) := ht.free
    rw [hcount, h.free] at hfree
    omega

/-! ### Runs -/

/-- The slots are counted exactly throughout just when every reference is duplicated where there is
one, and released where there are less than 255. -/
theorem exact_iff {nswap : ℕ} (h : nswap ≤ 1048576) (es : List Event) :
    (∀ t ∈ Run.states exec (start nswap) es, t.Exact) ↔
      Run.Meets exec Careful (start nswap) es := by
  refine Run.forall_states_iff (fun s => s.alloc.swmap.length ≤ 1048576)
    ((List.length_replicate ..).trans_le h) (exact_start h) (fun s e t hlen hs hok hexec => ?_)
    (fun s e t hlen hs hexec => ?_) es
  · cases e with
    | newswap => exact (exact_newswap hs hlen hexec).2.trans_le hlen
    | putswap p => exact ((exact_putswap hs hlen hexec).2 hok).trans_le hlen
    | dupswap p => exact ((exact_dupswap hs hlen hexec).2 hok).trans_le hlen
  · cases e with
    | newswap => exact iff_of_true (exact_newswap hs hlen hexec).1 trivial
    | putswap p => exact (exact_putswap hs hlen hexec).1
    | dupswap p => exact (exact_dupswap hs hlen hexec).1

theorem exact_of_two :
    (Run.states exec (start 2) [.newswap, .dupswap 1, .putswap 1]).length = 4 ∧
      ∀ t ∈ Run.states exec (start 2) [.newswap, .dupswap 1, .putswap 1], t.Exact :=
  ⟨by decide, (exact_iff (by decide) _).mpr ⟨trivial, by decide, by decide, trivial⟩⟩

/-- A slot with 255 references is released: 254 are left, and the release panics. -/
theorem putswap_panics : ¬ ∀ t ∈ Run.states exec (start 2)
    (.newswap :: (List.replicate 254 (.dupswap 1) ++ [.putswap 1])), t.Exact := by
  intro h
  have hany : (Run.states exec (start 2)
      (.newswap :: (List.replicate 254 (.dupswap 1) ++ [.putswap 1]))).any
      (fun t => t.panic.isSome) = true := by decide +kernel
  obtain ⟨t, ht, hpanic⟩ := List.any_eq_true.mp hany
  rw [(h t ht).running] at hpanic
  cases hpanic

end PlanNine.Swap
