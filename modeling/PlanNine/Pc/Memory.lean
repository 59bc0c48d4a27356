import PlanNine.Lib.Coalesced
import PlanNine.Lib.Run
import PlanNine.Lib.Ulong

/-!
# Maps of physical memory

`mapfree` and `mapalloc` of `memory.c`: a table of ranges of physical addresses, up to the first
slot of size 0. The arithmetic is that of words of 32 bits, so that the range that ends with the
last address has the end 0.

Without an address, `mapalloc` rounds the start of each range up to the alignment and looks at what
is left behind it. It does not look whether the rounded start is in the range, or whether the
rounding went around the end of the words.

## Main definitions

* `mapfree`, `mapalloc`: the two routines.
* `Sys`, `exec`: calls, with the addresses that should be free.
* `Answer`: what the result of `mapalloc` should be.
* `Careful`: the condition under which a call does what it should.

## Main results

* `mapfree_spec`, `take_spec`: what is free behind a call.
* `mapped_iff`: all calls do what they should just when they are careful.
-/

namespace PlanNine.Memory

open Range

/-- The entries of the table, and the number of slots before `mapend`. -/
structure RMap where
  map : List Range
  mapend : ℕ
  deriving DecidableEq, Repr

/-- `mp->addr+mp->size`. -/
def ends (mp : Range) : ℕ := ulong (mp.addr + mp.size)

/-- The range joins the entry `p` before it, and the one behind it as well if they touch. -/
def grow (p : Range) (addr size : ℕ) : List Range → List Range
  | [] => [⟨p.addr, ulong (p.size + size)⟩]
  | mp :: rest =>
      if ulong (addr + size) = mp.addr then
        ⟨p.addr, ulong (ulong (p.size + size) + mp.size)⟩ :: rest
      else ⟨p.addr, ulong (p.size + size)⟩ :: mp :: rest

/-- The range joins the entry behind it, or is put in front of it. -/
def insert (addr size : ℕ) : List Range → List Range
  | [] => [⟨addr, size⟩]
  | mp :: rest =>
      if ulong (addr + size) = mp.addr then
        ⟨ulong (mp.addr - size), ulong (mp.size + size)⟩ :: rest
      else ⟨addr, size⟩ :: mp :: rest

/-- An entry that finds no slot is lost. -/
def mapfree (rmap : RMap) (addr size : ℕ) : RMap :=
  if size = 0 then rmap
  else
    let before := rmap.map.takeWhile fun mp => mp.addr ≤ addr
    let rest := rmap.map.dropWhile fun mp => mp.addr ≤ addr
    match before.getLast? with
    | none => { rmap with map := (insert addr size rest).take rmap.mapend }
    | some p =>
        if ends p = addr then { rmap with map := before.dropLast ++ grow p addr size rest }
        else { rmap with map := (before ++ insert addr size rest).take rmap.mapend }

/-- What the loop of `mapalloc` does at an entry. -/
inductive Try
  | stop
  | next
  | take (maddr : ℕ)
  deriving DecidableEq, Repr

/-- `((maddr+align-1)/align)*align`, for an alignment. -/
def roundup (align : ℤ) (maddr : ℕ) : ℕ :=
  if 0 < align then ulong (maddr + align - 1) / align.toNat * align.toNat else maddr

def tryAt (size : ℕ) (align : ℤ) (mp : Range) (maddr : ℕ) : Try :=
  let maddr := roundup align maddr
  if ulong (mp.addr + mp.size - maddr) < size then .next else .take maddr

def tryEntry (addr size : ℕ) (align : ℤ) (mp : Range) : Try :=
  if addr = 0 then tryAt size align mp mp.addr
  else if addr < mp.addr then .stop
  else if mp.size < ulong (addr - mp.addr) then .next
  else if ulong (mp.size - size) < ulong (addr - mp.addr) then .stop
  else tryAt size align mp addr

/-- The start of the entry that was taken, the result, and the entries behind it all. -/
def allocLoop (addr size : ℕ) (align : ℤ) : List Range → Option (ℕ × ℕ × List Range)
  | [] => none
  | mp :: rest =>
      match tryEntry addr size align mp with
      | .stop => none
      | .next => (allocLoop addr size align rest).map fun r => (r.1, r.2.1, mp :: r.2.2)
      | .take maddr =>
          let size' := ulong (mp.size - (maddr - mp.addr + size))
          some (mp.addr, maddr, if size' = 0 then rest else ⟨ulong (maddr + size), size'⟩ :: rest)

def mapalloc (rmap : RMap) (addr size : ℕ) (align : ℤ) : ℕ × RMap :=
  match allocLoop addr size align rmap.map with
  | none => (0, rmap)
  | some (oaddr, maddr, map) =>
      (maddr, if oaddr ≠ maddr then mapfree { rmap with map } oaddr (ulong (maddr - oaddr))
        else { rmap with map })

/-! ### What should hold -/

inductive Event
  | mapfree (addr size : ℕ)
  | mapalloc (addr size : ℕ) (align : ℤ)
  deriving DecidableEq, Repr

/-- The calls that are made: what is freed is not empty, does not begin at address 0, does not go
around and was not free; a size is positive, and an address is a multiple of the alignment. The
table is never full. -/
def Allowed (rmap : RMap) : Event → Prop
  | .mapfree addr size => 0 < addr ∧ 0 < size ∧ addr + size ≤ 4294967296 ∧
      (∀ mp ∈ rmap.map, mp.Apart ⟨addr, size⟩) ∧ rmap.map.length < rmap.mapend
  | .mapalloc addr size align => addr < 4294967296 ∧ 0 < size ∧ size < 2147483648 ∧
      align < 2147483648 ∧ (0 < align → align ∣ addr) ∧ rmap.map.length < rmap.mapend

instance (rmap : RMap) (e : Event) : Decidable (Allowed rmap e) := by
  cases e <;> unfold Allowed <;> infer_instance

/-- The addresses of a range. -/
def span (addr size : ℕ) : Set ℕ := {a | addr ≤ a ∧ a < addr + size}

/-- What the result of `mapalloc` should be with the addresses `free`. -/
def Answer (free : Set ℕ) (addr size : ℕ) (align : ℤ) (r : ℕ) : Prop :=
  (r ≠ 0 → (0 < align → align ∣ r) ∧ (addr ≠ 0 → r = addr) ∧ span r size ⊆ free) ∧
    (r = 0 → (addr ≠ 0 → ¬ span addr size ⊆ free) ∧
      (addr = 0 → ¬ ∃ b : ℕ, (0 < align → align ∣ b) ∧ span b size ⊆ free))

/-- The map, the addresses that should be free, and the last call of `mapalloc` with these before it
and its result. -/
structure Sys where
  rmap : RMap
  free : Set ℕ
  last : Option (Set ℕ × ℕ × ℕ × ℤ × ℕ)

def fresh (mapend : ℕ) : Sys := ⟨⟨[], mapend⟩, ∅, none⟩

def exec (s : Sys) (e : Event) : Option Sys :=
  if Allowed s.rmap e then
    match e with
    | .mapfree addr size => some ⟨mapfree s.rmap addr size, s.free ∪ span addr size, none⟩
    | .mapalloc addr size align =>
        let r := mapalloc s.rmap addr size align
        some ⟨r.2, if r.1 = 0 then s.free else s.free \ span r.1 size,
          some (s.free, addr, size, align, r.1)⟩
  else none

/-- The entries are coalesced, and no address is 0 or above the last one. -/
structure Good (map : List Range) : Prop where
  coalesced : Coalesced map
  pos : ∀ mp ∈ map, 0 < mp.addr
  limit_le : ∀ mp ∈ map, mp.limit ≤ 4294967296

/-- The map is in order and stands for the addresses that should be free, and the last call had the
result that it should. -/
structure Sys.Kept (s : Sys) : Prop where
  good : Good s.rmap.map
  free : ∀ a, a ∈ s.free ↔ Free s.rmap.map a
  answer : ∀ free addr size align r, s.last = some (free, addr, size, align, r) →
    Answer free addr size align r

/-! ### The condition -/

/-- The first multiple of the alignment from an address on. -/
def alignup (align : ℤ) (a : ℕ) : ℕ :=
  if 0 < align then (a + align.toNat - 1) / align.toNat * align.toNat else a

/-- There is an aligned range of the size in the entry. -/
def Fits (size : ℕ) (align : ℤ) (mp : Range) : Prop := alignup align mp.addr + size ≤ mp.limit

/-- The rounding does not go around, and the rounded start is not behind the entry, or the entry is
the last one there can be and has no room. -/
def Level (size : ℕ) (align : ℤ) (mp : Range) : Prop :=
  ((mp.addr : ℤ) + align ≤ 4294967296 ∧ alignup align mp.addr ≤ mp.limit) ∨
    (mp.limit = 4294967296 ∧ ¬ Fits size align mp)

/-- The entries are level up to the first one that fits. -/
def Scanned (size : ℕ) (align : ℤ) : List Range → Prop
  | [] => True
  | mp :: rest => Level size align mp ∧ (Fits size align mp ∨ Scanned size align rest)

/-- With an address, the rounding does not go around, or the entry that holds the address or ends
there has no room and is not taken nevertheless. -/
def Careful (map : List Range) : Event → Prop
  | .mapfree _ _ => True
  | .mapalloc addr size align =>
      if addr = 0 then Scanned size align map
      else (addr : ℤ) + align ≤ 4294967296 ∨ ∀ mp ∈ map, mp.addr ≤ addr → addr ≤ mp.limit →
        mp.limit < addr + size ∧ (size ≤ mp.size ∨ mp.limit = 4294967296)

variable {rmap : RMap} {map xs ys : List Range} {mp p : Range} {addr size a r maddr : ℕ}
  {align : ℤ}

/-! ### Freeing -/

/-- The loop of `mapfree` stops where the addresses are above. -/
theorem takeWhile_split (hx : ∀ x ∈ xs, x.addr ≤ addr) (hy : ∀ y ∈ ys, addr < y.addr) :
    (xs ++ ys).takeWhile (fun mp => mp.addr ≤ addr) = xs ∧
      (xs ++ ys).dropWhile (fun mp => mp.addr ≤ addr) = ys := by
  induction xs with
  | nil =>
    cases ys with
    | nil => exact ⟨rfl, rfl⟩
    | cons y ys =>
      have hneg : ¬ (decide (y.addr ≤ addr)) = true := by
        simpa using hy y List.mem_cons_self
      exact ⟨List.takeWhile_cons_of_neg hneg, List.dropWhile_cons_of_neg hneg⟩
  | cons x xs ih =>
    obtain ⟨hle, hxs⟩ := List.forall_mem_cons.mp hx
    obtain ⟨htake, hdrop⟩ := ih hxs
    rw [List.cons_append, List.takeWhile_cons, List.dropWhile_cons, htake, hdrop]
    simp only [hle, decide_true, if_true, and_self]

theorem mapfree_insert (rmap : RMap) (xs : List Range) (hsize : size ≠ 0)
    (hmap : rmap.map = xs ++ ys) (hx : ∀ x ∈ xs, x.addr ≤ addr) (hy : ∀ y ∈ ys, addr < y.addr)
    (hends : ∀ x ∈ xs, ends x ≠ addr) :
    (mapfree rmap addr size).map = (xs ++ insert addr size ys).take rmap.mapend := by
  obtain ⟨htake, hdrop⟩ := takeWhile_split hx hy
  unfold mapfree
  rw [if_neg hsize, hmap, htake, hdrop]
  dsimp only
  cases hlast : xs.getLast? with
  | none =>
    rw [List.getLast?_eq_none_iff.mp hlast]
    rfl
  | some p =>
    dsimp only
    rw [if_neg (hends p (List.mem_of_getLast? hlast))]

theorem mapfree_grow (hsize : size ≠ 0) (hmap : rmap.map = xs ++ p :: ys)
    (hx : ∀ x ∈ xs ++ [p], x.addr ≤ addr) (hy : ∀ y ∈ ys, addr < y.addr) (hends : ends p = addr) :
    (mapfree rmap addr size).map = xs ++ grow p addr size ys := by
  obtain ⟨htake, hdrop⟩ := takeWhile_split hx hy
  rw [← List.append_cons] at htake hdrop
  unfold mapfree
  rw [if_neg hsize, hmap, htake, hdrop]
  dsimp only
  rw [List.getLast?_concat]
  dsimp only
  rw [if_pos hends, List.dropLast_concat]

theorem mem_span {b : ℕ} : a ∈ span b size ↔ b ≤ a ∧ a < b + size := Iff.rfl

namespace Good

theorem nil : Good [] := ⟨.nil, nofun, nofun⟩

theorem cons_iff : Good (mp :: map) ↔ (0 < mp.addr ∧ 0 < mp.size ∧ mp.limit ≤ 4294967296) ∧
    Good map ∧ ∀ s ∈ map, mp.limit < s.addr := by
  constructor
  · rintro ⟨hc, hpos, hlim⟩
    obtain ⟨hsize, hc, hlt⟩ := Coalesced.cons_iff.mp hc
    obtain ⟨hp, hpos⟩ := List.forall_mem_cons.mp hpos
    obtain ⟨hl, hlim⟩ := List.forall_mem_cons.mp hlim
    exact ⟨⟨hp, hsize, hl⟩, ⟨hc, hpos, hlim⟩, hlt⟩
  · rintro ⟨⟨hp, hsize, hl⟩, ⟨hc, hpos, hlim⟩, hlt⟩
    exact ⟨Coalesced.cons_iff.mpr ⟨hsize, hc, hlt⟩, List.forall_mem_cons.mpr ⟨hp, hpos⟩,
      List.forall_mem_cons.mpr ⟨hl, hlim⟩⟩

theorem append_iff : Good (xs ++ ys) ↔
    Good xs ∧ Good ys ∧ ∀ x ∈ xs, ∀ y ∈ ys, x.limit < y.addr := by
  induction xs with
  | nil => exact ⟨fun h => ⟨nil, h, nofun⟩, fun h => h.2.1⟩
  | cons x xs ih =>
    rw [List.cons_append, cons_iff, cons_iff, ih, List.forall_mem_append, List.forall_mem_cons]
    constructor
    · rintro ⟨hx, ⟨hxs, hys, hlt⟩, hxxs, hxys⟩
      exact ⟨⟨hx, hxs, hxxs⟩, hys, hxys, hlt⟩
    · rintro ⟨⟨hx, hxs, hxxs⟩, hys, hxys, hlt⟩
      exact ⟨hx, ⟨hxs, hys, hlt⟩, hxxs, hxys⟩

end Good

/-- A map is split at an address. -/
theorem exists_split (h : Good map) (addr : ℕ) : ∃ xs ys, map = xs ++ ys ∧
    (∀ x ∈ xs, x.addr ≤ addr) ∧ ∀ y ∈ ys, addr < y.addr := by
  induction map with
  | nil => exact ⟨[], [], rfl, nofun, nofun⟩
  | cons mp map ih =>
    obtain ⟨-, hmap, hlt⟩ := Good.cons_iff.mp h
    by_cases hle : mp.addr ≤ addr
    · obtain ⟨xs, ys, rfl, hx, hy⟩ := ih hmap
      exact ⟨mp :: xs, ys, rfl, List.forall_mem_cons.mpr ⟨hle, hx⟩, hy⟩
    · refine ⟨[], mp :: map, rfl, nofun, List.forall_mem_cons.mpr ⟨not_le.mp hle, fun y hy => ?_⟩⟩
      have := hlt y hy
      unfold limit at this
      omega

/-- What `insert` leaves where nothing that follows is below the end of the range. -/
theorem insert_spec (hpos : 0 < addr) (hsize : 0 < size) (hlim : addr + size ≤ 4294967296)
    (hgood : Good ys) (hy : ∀ y ∈ ys, addr + size ≤ y.addr) :
    Good (insert addr size ys) ∧ (∀ a, Free (insert addr size ys) a ↔
      a ∈ span addr size ∨ Free ys a) ∧ (∀ mp ∈ insert addr size ys, addr ≤ mp.addr) ∧
      (insert addr size ys).length ≤ ys.length + 1 := by
  cases ys with
  | nil =>
    refine ⟨Good.cons_iff.mpr ⟨⟨hpos, hsize, hlim⟩, .nil, nofun⟩, fun a => ?_, fun mp hmp => ?_, ?_⟩
    · exact free_cons
    · rw [List.mem_singleton.mp hmp]
    · exact le_rfl
  | cons n ys =>
    obtain ⟨⟨hnpos, hnsize, hnlim⟩, hys, hlt⟩ := Good.cons_iff.mp hgood
    have hn := hy n List.mem_cons_self
    have hsum : n.limit = n.addr + n.size := rfl
    rw [insert]
    split_ifs with htouch
    · have haddr : n.addr = addr + size := by
        unfold ulong at htouch
        omega
      have hstart : ulong ((n.addr : ℤ) - size) = addr := by
        unfold ulong
        omega
      have hnew : ulong ((n.size : ℤ) + size) = n.size + size := by
        unfold ulong
        omega
      rw [hstart, hnew]
      have hlimit : (⟨addr, n.size + size⟩ : Range).limit = n.limit := by
        unfold limit
        dsimp only
        omega
      refine ⟨Good.cons_iff.mpr ⟨⟨hpos, ?_, ?_⟩, hys, ?_⟩, fun a => ?_, ?_, ?_⟩
      · exact Nat.add_pos_right _ hsize
      · rwa [hlimit]
      · rwa [hlimit]
      · rw [free_cons, free_cons, ← or_assoc, mem_span, holds_iff, holds_iff, hlimit]
        refine or_congr_left ?_
        dsimp only
        omega
      · refine List.forall_mem_cons.mpr ⟨le_rfl, fun y hy' => ?_⟩
        have := hlt y hy'
        omega
      · exact Nat.le_succ _
    · have hgap : addr + size < n.addr := by
        unfold ulong at htouch
        unfold limit at hnlim
        omega
      refine ⟨Good.cons_iff.mpr ⟨⟨hpos, hsize, hlim⟩, hgood, ?_⟩, fun a => free_cons, ?_, le_rfl⟩
      · refine List.forall_mem_cons.mpr ⟨hgap, fun y hy' => ?_⟩
        have := hlt y hy'
        unfold limit at this ⊢
        dsimp only
        omega
      · refine List.forall_mem_cons.mpr ⟨le_rfl, fun y hy' => ?_⟩
        have := hy y hy'
        omega

/-- What `grow` leaves where the range touches the entry before it. -/
theorem grow_spec (hsize : 0 < size) (hlim : addr + size ≤ 4294967296) (hp : p.limit = addr)
    (hppos : 0 < p.addr) (hgood : Good ys) (hy : ∀ y ∈ ys, addr + size ≤ y.addr) :
    Good (grow p addr size ys) ∧ (∀ a, Free (grow p addr size ys) a ↔
      p.Holds a ∨ a ∈ span addr size ∨ Free ys a) ∧
        ∀ mp ∈ grow p addr size ys, p.addr ≤ mp.addr := by
  have hsum : p.limit = p.addr + p.size := rfl
  have hnew : ulong ((p.size : ℤ) + size) = p.size + size := by
    unfold ulong
    omega
  have hlimit : (⟨p.addr, p.size + size⟩ : Range).limit = addr + size := by
    unfold limit
    dsimp only
    omega
  have hholds (a : ℕ) : (⟨p.addr, p.size + size⟩ : Range).Holds a ↔
      p.Holds a ∨ a ∈ span addr size := by
    rw [holds_iff, holds_iff, mem_span, hlimit]
    dsimp only
    omega
  cases ys with
  | nil =>
    rw [grow, hnew]
    refine ⟨Good.cons_iff.mpr ⟨⟨hppos, ?_, ?_⟩, .nil, nofun⟩, fun a => ?_, fun mp hmp => ?_⟩
    · exact Nat.add_pos_right _ hsize
    · rwa [hlimit]
    · rw [free_cons, hholds, or_assoc]
    · rw [List.mem_singleton.mp hmp]
  | cons n ys =>
    obtain ⟨⟨hnpos, hnsize, hnlim⟩, hys, hlt⟩ := Good.cons_iff.mp hgood
    have hn := hy n List.mem_cons_self
    have hnsum : n.limit = n.addr + n.size := rfl
    rw [grow, hnew]
    split_ifs with htouch
    · have haddr : n.addr = addr + size := by
        unfold ulong at htouch
        omega
      have hall : ulong (((p.size + size : ℕ) : ℤ) + n.size) = p.size + size + n.size := by
        unfold ulong
        omega
      have hlimit' : (⟨p.addr, p.size + size + n.size⟩ : Range).limit = n.limit := by
        unfold limit
        dsimp only
        omega
      rw [hall]
      refine ⟨Good.cons_iff.mpr ⟨⟨hppos, ?_, ?_⟩, hys, ?_⟩, fun a => ?_, ?_⟩
      · exact Nat.add_pos_right _ hnsize
      · rwa [hlimit']
      · rwa [hlimit']
      · rw [free_cons, free_cons, ← or_assoc, ← or_assoc, mem_span, holds_iff, holds_iff, holds_iff,
          hlimit']
        refine or_congr_left ?_
        dsimp only
        omega
      · refine List.forall_mem_cons.mpr ⟨le_rfl, fun y hy' => ?_⟩
        have := hlt y hy'
        omega
    · have hgap : addr + size < n.addr := by
        unfold ulong at htouch
        omega
      refine ⟨Good.cons_iff.mpr ⟨⟨hppos, ?_, ?_⟩, hgood, ?_⟩, fun a => ?_, ?_⟩
      · exact Nat.add_pos_right _ hsize
      · rwa [hlimit]
      · rw [hlimit]
        refine List.forall_mem_cons.mpr ⟨hgap, fun y hy' => ?_⟩
        have := hlt y hy'
        omega
      · rw [free_cons, hholds, or_assoc]
      · refine List.forall_mem_cons.mpr ⟨le_rfl, fun y hy' => ?_⟩
        have := hy y hy'
        omega

/-- What is free behind `mapfree`. -/
theorem mapfree_spec (h : Good rmap.map) (hallowed : Allowed rmap (.mapfree addr size)) :
    Good (mapfree rmap addr size).map ∧
      ∀ a, Free (mapfree rmap addr size).map a ↔ Free rmap.map a ∨ a ∈ span addr size := by
  obtain ⟨hpos, hsize, hlim, hapart, hroom⟩ := hallowed
  obtain ⟨xs, ys, hmap, hx, hy⟩ := exists_split h addr
  rw [hmap] at h hapart hroom
  obtain ⟨hxs, hys, hxy⟩ := Good.append_iff.mp h
  have hxlim : ∀ x ∈ xs, x.limit ≤ addr := fun x hx' => by
    have hle := hx x hx'
    have hsize' := hxs.coalesced.pos x hx'
    have := hapart x (List.mem_append_left _ hx')
    unfold Apart at this
    unfold limit
    dsimp only at this
    omega
  have hylim : ∀ y ∈ ys, addr + size ≤ y.addr := fun y hy' => by
    have hle := hy y hy'
    have hsize' := hys.coalesced.pos y hy'
    have := hapart y (List.mem_append_right _ hy')
    unfold Apart at this
    dsimp only at this
    omega
  have hends : ∀ x ∈ xs, ends x = x.limit := fun x hx' => by
    have := hxlim x hx'
    unfold ends
    unfold limit at this ⊢
    unfold ulong
    omega
  by_cases htouch : ∃ x ∈ xs, x.limit = addr
  · -- The entry that the range touches is the last one below it.
    obtain ⟨p, hp, hlimit⟩ := htouch
    obtain ⟨xs, zs, rfl⟩ := List.append_of_mem hp
    obtain ⟨hxs', hpzs, hxp⟩ := Good.append_iff.mp hxs
    obtain ⟨⟨hppos, hpsize, hplim⟩, hzs, hpz⟩ := Good.cons_iff.mp hpzs
    have hnil : zs = [] := List.eq_nil_iff_forall_not_mem.mpr fun z hz => by
      have h1 := hpz z hz
      have h2 := hx z (List.mem_append_right _ (List.mem_cons_of_mem _ hz))
      omega
    subst hnil
    obtain ⟨hgrown, hfree, hle⟩ := grow_spec hsize hlim hlimit hppos hys hylim
    rw [mapfree_grow hsize.ne' (by rw [hmap, List.append_assoc]; rfl) hx hy
      ((hends p hp).trans hlimit), hmap]
    refine ⟨Good.append_iff.mpr ⟨hxs', hgrown, fun x hx' y hy' => ?_⟩, fun a => ?_⟩
    · exact (hxp x hx' p List.mem_cons_self).trans_le (hle y hy')
    · rw [free_append, hfree, free_append, free_append, free_cons]
      have := free_nil (a := a)
      tauto
  · have hne : ∀ x ∈ xs, ends x ≠ addr := fun x hx' heq =>
      htouch ⟨x, hx', (hends x hx').symm.trans heq⟩
    obtain ⟨hnew, hfree, hle, hlen⟩ := insert_spec hpos hsize hlim hys hylim
    have hfits : (xs ++ insert addr size ys).length ≤ rmap.mapend := by
      rw [List.length_append] at hroom ⊢
      omega
    rw [mapfree_insert rmap xs hsize.ne' hmap hx hy hne, List.take_of_length_le hfits, hmap]
    refine ⟨Good.append_iff.mpr ⟨hxs, hnew, fun x hx' y hy' => ?_⟩, fun a => ?_⟩
    · have h1 := hxlim x hx'
      have h2 := hle y hy'
      have h3 : x.limit ≠ addr := fun heq => htouch ⟨x, hx', heq⟩
      omega
    · rw [free_append, hfree, free_append]
      tauto

/-! ### Alignment -/

theorem le_alignup (align : ℤ) (a : ℕ) : a ≤ alignup align a := by
  unfold alignup
  split_ifs with h
  · have hpos : 0 < align.toNat := by omega
    have hmod := Nat.div_add_mod (a + align.toNat - 1) align.toNat
    have hlt := Nat.mod_lt (a + align.toNat - 1) hpos
    rw [Nat.mul_comm] at hmod
    omega
  · exact le_rfl

theorem alignup_lt (h : 0 < align) (a : ℕ) : (alignup align a : ℤ) < a + align := by
  unfold alignup
  rw [if_pos h]
  have hle := Nat.div_mul_le_self (a + align.toNat - 1) align.toNat
  omega

theorem dvd_alignup (h : 0 < align) (a : ℕ) : align ∣ alignup align a := by
  unfold alignup
  rw [if_pos h, Nat.cast_mul, Int.toNat_of_nonneg h.le]
  exact Dvd.intro_left _ rfl

theorem alignup_le {b : ℕ} (hle : a ≤ b) (hdvd : 0 < align → align ∣ b) : alignup align a ≤ b := by
  unfold alignup
  split_ifs with h
  · have hnat : align.toNat ∣ b := by
      rw [← Int.natCast_dvd_natCast, Int.toNat_of_nonneg h.le]
      exact hdvd h
    obtain ⟨k, rfl⟩ := hnat
    have hpos : 0 < align.toNat := by omega
    rw [Nat.mul_comm]
    refine Nat.mul_le_mul_left _ (Nat.lt_succ_iff.mp ((Nat.div_lt_iff_lt_mul hpos).mpr ?_))
    rw [Nat.succ_mul, Nat.mul_comm k]
    omega
  · exact hle

theorem alignup_of_dvd (hdvd : 0 < align → align ∣ a) : alignup align a = a :=
  le_antisymm (alignup_le le_rfl hdvd) (le_alignup align a)

/-- The rounding is right where it does not go around. -/
theorem roundup_eq (ha : a < 4294967296) (h : (a : ℤ) + align ≤ 4294967296) :
    roundup align a = alignup align a := by
  unfold roundup alignup
  split_ifs with hpos
  · have hsum : ulong ((a : ℤ) + align - 1) = a + align.toNat - 1 := by
      unfold ulong
      omega
    rw [hsum]
  · rfl

/-- Where the rounding goes around, the start is 0. -/
theorem roundup_around (ha : a < 4294967296) (halign : align < 2147483648)
    (h : ¬ (a : ℤ) + align ≤ 4294967296) : roundup align a = 0 := by
  have hpos : 0 < align := by omega
  have hlt : ulong ((a : ℤ) + align - 1) < align.toNat := by
    unfold ulong
    omega
  unfold roundup
  rw [if_pos hpos, Nat.div_eq_of_lt hlt, Nat.zero_mul]

/-! ### Entries -/

/-- An entry of a map: not empty, above address 0, and not going around. -/
def Proper (mp : Range) : Prop := 0 < mp.addr ∧ 0 < mp.size ∧ mp.limit ≤ 4294967296

theorem Good.proper (h : Good map) (hmp : mp ∈ map) : Proper mp :=
  ⟨h.pos mp hmp, h.coalesced.pos mp hmp, h.limit_le mp hmp⟩

theorem Proper.addr_lt (h : Proper mp) : mp.addr < 4294967296 := by
  obtain ⟨-, hsize, hlim⟩ := h
  unfold limit at hlim
  omega

theorem tryAt_inside {m : ℕ} (h : Proper mp) (hm : roundup align maddr = m) (hle : mp.addr ≤ m)
    (hle' : m ≤ mp.limit) :
    tryAt size align mp maddr = if m + size ≤ mp.limit then .take m else .next := by
  obtain ⟨hpos, hsize, hlim⟩ := h
  have hleft : ulong ((mp.addr : ℤ) + mp.size - m) = mp.limit - m := by
    unfold limit at hle' hlim ⊢
    unfold ulong
    omega
  unfold tryAt
  rw [hm]
  dsimp only
  rw [hleft]
  split_ifs <;> first | rfl | omega

/-- A start behind the entry is taken. -/
theorem tryAt_past {m : ℕ} (h : Proper mp) (hsize : size < 2147483648)
    (hm : roundup align maddr = m) (hlt : mp.limit < m)
    (hnear : m < mp.limit + 2147483648) : tryAt size align mp maddr = .take m := by
  obtain ⟨hpos, -, hlim⟩ := h
  have hleft : ¬ ulong ((mp.addr : ℤ) + mp.size - m) < size := by
    unfold limit at hlt hlim hnear
    unfold ulong
    omega
  unfold tryAt
  rw [hm]
  dsimp only
  rw [if_neg hleft]

/-- A start that went around is taken, but in the last entry there can be. -/
theorem tryAt_around (h : Proper mp) (hsize : 0 < size) (hm : roundup align maddr = 0)
    (hle : size ≤ mp.limit) : tryAt size align mp maddr =
      if mp.limit = 4294967296 then .next else .take 0 := by
  obtain ⟨hpos, -, hlim⟩ := h
  have hleft : ulong ((mp.addr : ℤ) + mp.size - (0 : ℕ)) < size ↔ mp.limit = 4294967296 := by
    unfold limit at hlim hle ⊢
    unfold ulong
    omega
  unfold tryAt
  rw [hm]
  dsimp only
  simp only [hleft]

/-! ### The loop -/

theorem allocLoop_append (h : ∀ x ∈ xs, tryEntry addr size align x = .next) (l : List Range) :
    allocLoop addr size align (xs ++ l) =
      (allocLoop addr size align l).map fun r => (r.1, r.2.1, xs ++ r.2.2) := by
  induction xs with
  | nil => simp
  | cons x xs ih =>
    obtain ⟨hx, hxs⟩ := List.forall_mem_cons.mp h
    rw [List.cons_append, allocLoop, hx, ih hxs, Option.map_map]
    rfl

theorem allocLoop_none (h : ∀ x ∈ xs, tryEntry addr size align x ≠ .next →
      tryEntry addr size align x = .stop) : allocLoop addr size align xs = none := by
  induction xs with
  | nil => rfl
  | cons x xs ih =>
    obtain ⟨hx, hxs⟩ := List.forall_mem_cons.mp h
    rw [allocLoop]
    by_cases hnext : tryEntry addr size align x = .next
    · rw [hnext, ih hxs]
      rfl
    · rw [hx hnext]

/-- What is left of the entry that was taken, and the entries behind it. -/
def left (size maddr : ℕ) (mp : Range) (rest : List Range) : List Range :=
  let size' := ulong (mp.size - (maddr - mp.addr + size))
  if size' = 0 then rest else ⟨ulong (maddr + size), size'⟩ :: rest

theorem mapalloc_take (hmap : rmap.map = xs ++ mp :: ys)
    (hx : ∀ x ∈ xs, tryEntry addr size align x = .next)
    (hmp : tryEntry addr size align mp = .take maddr) :
    mapalloc rmap addr size align = (maddr, if mp.addr ≠ maddr then
      mapfree ⟨xs ++ left size maddr mp ys, rmap.mapend⟩ mp.addr (ulong (maddr - mp.addr))
      else ⟨xs ++ left size maddr mp ys, rmap.mapend⟩) := by
  unfold mapalloc
  rw [hmap, allocLoop_append hx, allocLoop, hmp]
  rfl

theorem mapalloc_none (rmap : RMap) (addr size : ℕ) (align : ℤ)
    (h : ∀ mp ∈ rmap.map, tryEntry addr size align mp ≠ .next →
      tryEntry addr size align mp = .stop) : mapalloc rmap addr size align = (0, rmap) := by
  unfold mapalloc
  rw [allocLoop_none h]

/-! ### Allocating -/

theorem Good.middle (h : Good (xs ++ mp :: ys)) : Proper mp ∧ Good xs ∧ Good ys ∧
    (∀ x ∈ xs, x.limit < mp.addr) ∧ (∀ y ∈ ys, mp.limit < y.addr) ∧
      ∀ x ∈ xs, ∀ y ∈ ys, x.limit < y.addr := by
  obtain ⟨hx, hmpy, hxmp⟩ := Good.append_iff.mp h
  obtain ⟨hmp, hy, hlt⟩ := Good.cons_iff.mp hmpy
  exact ⟨hmp, hx, hy, fun x hx' => hxmp x hx' mp List.mem_cons_self, hlt,
    fun x hx' y hy' => hxmp x hx' y (List.mem_cons_of_mem _ hy')⟩

/-- What is left behind a range inside of an entry. -/
theorem left_spec (h : Good (xs ++ mp :: ys)) (hsize : 0 < size) (hle : mp.addr ≤ maddr)
    (hle' : maddr + size ≤ mp.limit) : Good (xs ++ left size maddr mp ys) ∧
      (∀ a, Free (xs ++ left size maddr mp ys) a ↔
        Free xs a ∨ maddr + size ≤ a ∧ a < mp.limit ∨ Free ys a) ∧
      (xs ++ left size maddr mp ys).length ≤ (xs ++ mp :: ys).length := by
  obtain ⟨⟨hpos, hmpsize, hlim⟩, hx, hy, hxmp, hmpy, hxy⟩ := h.middle
  have hsum : mp.limit = mp.addr + mp.size := rfl
  have hrest : ulong ((mp.size : ℤ) - (maddr - mp.addr + size)) = mp.limit - (maddr + size) := by
    unfold ulong
    omega
  unfold left
  dsimp only
  rw [hrest]
  split_ifs with hall
  · refine ⟨Good.append_iff.mpr ⟨hx, hy, hxy⟩, fun a => ?_, ?_⟩
    · rw [free_append]
      refine or_congr_right ⟨Or.inr, Or.rec (fun hin => ?_) id⟩
      omega
    · rw [List.length_append, List.length_append, List.length_cons]
      omega
  · have hstart : ulong ((maddr : ℤ) + size) = maddr + size := by
      unfold ulong
      omega
    have hlimit : (⟨maddr + size, mp.limit - (maddr + size)⟩ : Range).limit = mp.limit := by
      unfold limit at hle' ⊢
      dsimp only
      omega
    rw [hstart]
    refine ⟨Good.append_iff.mpr ⟨hx, Good.cons_iff.mpr ⟨⟨?_, ?_, ?_⟩, hy, ?_⟩, fun x hx' => ?_⟩,
      fun a => ?_, ?_⟩
    · exact Nat.add_pos_right _ hsize
    · exact Nat.pos_of_ne_zero hall
    · rwa [hlimit]
    · rwa [hlimit]
    · have := hxmp x hx'
      refine List.forall_mem_cons.mpr ⟨?_, hxy x hx'⟩
      dsimp only
      omega
    · rw [free_append, free_cons, holds_iff, hlimit]
    · rw [List.length_append, List.length_append]
      exact le_rfl

/-- What is free behind a range that was taken inside of an entry. -/
theorem take_spec (h : Good rmap.map) (hroom : rmap.map.length < rmap.mapend)
    (hmap : rmap.map = xs ++ mp :: ys) (hsize : 0 < size) (hle : mp.addr ≤ maddr)
    (hle' : maddr + size ≤ mp.limit) (hx : ∀ x ∈ xs, tryEntry addr size align x = .next)
    (hmp : tryEntry addr size align mp = .take maddr) :
    (mapalloc rmap addr size align).1 = maddr ∧ Good (mapalloc rmap addr size align).2.map ∧
      ∀ a, Free (mapalloc rmap addr size align).2.map a ↔
        Free rmap.map a ∧ a ∉ span maddr size := by
  rw [mapalloc_take hmap hx hmp]
  rw [hmap] at h hroom ⊢
  obtain ⟨⟨hpos, hmpsize, hlim⟩, hgx, hgy, hxmp, hmpy, hxy⟩ := h.middle
  obtain ⟨hgood, hfree, hlen⟩ := left_spec h hsize hle hle'
  have hafter : ∀ a, Free xs a → a < mp.addr := fun a ⟨x, hx', ha⟩ =>
    (holds_iff.mp ha).2.trans (hxmp x hx')
  have hbefore : ∀ a, Free ys a → mp.limit < a := fun a ⟨y, hy', ha⟩ =>
    (hmpy y hy').trans_le (holds_iff.mp ha).1
  have hsum : mp.limit = mp.addr + mp.size := rfl
  refine ⟨rfl, ?_⟩
  dsimp only
  split_ifs with hfront
  · have hsub : ulong ((maddr : ℤ) - mp.addr) = maddr - mp.addr := by
      unfold ulong
      omega
    have hallowed : Allowed ⟨xs ++ left size maddr mp ys, rmap.mapend⟩
        (.mapfree mp.addr (maddr - mp.addr)) := by
      refine ⟨hpos, by omega, by omega, fun r hr => ?_, hlen.trans_lt hroom⟩
      refine apart_of_forall (hgood.coalesced.pos r hr) (by dsimp only; omega) fun a ha ha' => ?_
      have hin := (hfree a).mp ⟨r, hr, ha⟩
      obtain ⟨h1, h2⟩ := ha'
      dsimp only at h1 h2
      obtain hin | hin | hin := hin
      · exact absurd (hafter a hin) (by omega)
      · omega
      · exact absurd (hbefore a hin) (by omega)
    obtain ⟨hnew, hnewfree⟩ := mapfree_spec hgood hallowed
    rw [hsub]
    refine ⟨hnew, fun a => ?_⟩
    have h1 := hafter a
    have h2 := hbefore a
    rw [hnewfree, hfree, free_append, free_cons, holds_iff, mem_span, mem_span]
    constructor
    · rintro ((hin | hin | hin) | hin)
      · exact ⟨.inl hin, by have := h1 hin; omega⟩
      · exact ⟨.inr (.inl (by omega)), by omega⟩
      · exact ⟨.inr (.inr hin), by have := h2 hin; omega⟩
      · exact ⟨.inr (.inl (by omega)), by omega⟩
    · rintro ⟨hin | hin | hin, hnot⟩
      · exact .inl (.inl hin)
      · by_cases hlow : a < maddr
        · exact .inr (by omega)
        · exact .inl (.inr (.inl (by omega)))
      · exact .inl (.inr (.inr hin))
  · refine ⟨hgood, fun a => ?_⟩
    have h1 := hafter a
    have h2 := hbefore a
    rw [hfree, free_append, free_cons, holds_iff, mem_span]
    constructor
    · rintro (hin | hin | hin)
      · exact ⟨.inl hin, by have := h1 hin; omega⟩
      · exact ⟨.inr (.inl (by omega)), by omega⟩
      · exact ⟨.inr (.inr hin), by have := h2 hin; omega⟩
    · rintro ⟨hin | hin | hin, hnot⟩
      · exact .inl hin
      · exact .inr (.inl (by omega))
      · exact .inr (.inr hin)

/-! ### What goes wrong -/

/-- What is left of the entry when the start went around. -/
theorem left_around (h : Proper mp) (hlt : size < mp.limit) (hlim : mp.limit < 4294967296) :
    left size 0 mp ys = ⟨size, mp.limit - size⟩ :: ys := by
  obtain ⟨hpos, hmpsize, -⟩ := h
  have hrest : ulong ((mp.size : ℤ) - ((0 : ℕ) - mp.addr + size)) = mp.limit - size := by
    unfold limit at hlt hlim ⊢
    unfold ulong
    omega
  have hstart : ulong (((0 : ℕ) : ℤ) + size) = size := by
    unfold ulong
    omega
  have hne : mp.limit - size ≠ 0 := by omega
  unfold left
  dsimp only
  rw [hrest, if_neg hne, hstart]

theorem ends_ne (h : Good (xs ++ mp :: ys)) : (∀ x ∈ xs, ends x ≠ mp.addr) ∧
    ∀ y ∈ ys, ends y ≠ mp.addr := by
  obtain ⟨⟨hpos, hmpsize, hlim⟩, hx, hy, hxmp, hmpy, -⟩ := h.middle
  constructor
  · intro x hx'
    have := hxmp x hx'
    unfold limit at this hlim
    unfold ends ulong
    omega
  · intro y hy'
    have hlt := hmpy y hy'
    obtain ⟨-, -, hylim⟩ := hy.proper hy'
    have := hy.coalesced.pos y hy'
    unfold limit at hlt hylim
    unfold ends ulong
    omega

/-- When the start went around, the address behind the entry becomes free. -/
theorem free_around (h : Good rmap.map) (hroom : rmap.map.length < rmap.mapend)
    (hmap : rmap.map = xs ++ mp :: ys) (hsize : 0 < size) (hlt : size < mp.limit)
    (hlim : mp.limit < 4294967296) (hx : ∀ x ∈ xs, tryEntry addr size align x = .next)
    (hmp : tryEntry addr size align mp = .take 0) :
    (mapalloc rmap addr size align).1 = 0 ∧
      Free (mapalloc rmap addr size align).2.map mp.limit := by
  rw [mapalloc_take hmap hx hmp]
  rw [hmap] at h hroom
  obtain ⟨hproper, hgx, hgy, hxmp, hmpy, -⟩ := h.middle
  have hpos := hproper.1
  have hmpsize := hproper.2.1
  obtain ⟨hendsx, hendsy⟩ := ends_ne h
  have hsum : mp.limit = mp.addr + mp.size := rfl
  have hsub : ulong (((0 : ℕ) : ℤ) - mp.addr) = 4294967296 - mp.addr := by
    unfold ulong
    omega
  have haround : ulong ((mp.addr : ℤ) + (4294967296 - mp.addr : ℕ)) = 0 := by
    unfold ulong
    omega
  have hinsert {l : List Range} (hl : ∀ y ∈ l, 0 < y.addr) : insert mp.addr
      (4294967296 - mp.addr) l = ⟨mp.addr, 4294967296 - mp.addr⟩ :: l := by
    cases l with
    | nil => rfl
    | cons y l =>
      have hy := hl y List.mem_cons_self
      rw [insert, haround, if_neg (by omega)]
  have hholds : (⟨mp.addr, 4294967296 - mp.addr⟩ : Range).Holds mp.limit := by
    rw [holds_mk]
    omega
  have hxle : ∀ x ∈ xs, x.addr ≤ mp.addr := fun x hx' => by
    have := hxmp x hx'
    unfold limit at this
    omega
  have hylt : ∀ y ∈ ys, mp.addr < y.addr := fun y hy' => by
    have := hmpy y hy'
    omega
  have hypos : ∀ y ∈ ys, 0 < y.addr := fun y hy' => pos_of_gt (hylt y hy')
  have hsize' : 4294967296 - mp.addr ≠ 0 := by omega
  rw [left_around hproper hlt hlim]
  refine ⟨rfl, ?_⟩
  dsimp only
  rw [if_pos hpos.ne', hsub]
  rw [List.length_append, List.length_cons] at hroom
  have hends : ends ⟨size, mp.limit - size⟩ ≠ mp.addr := by
    unfold ends ulong
    dsimp only
    omega
  by_cases hle : size ≤ mp.addr
  · have hmapfree := mapfree_insert ⟨xs ++ ⟨size, mp.limit - size⟩ :: ys, rmap.mapend⟩
      (xs ++ [⟨size, mp.limit - size⟩]) hsize' (List.append_cons _ _ _)
      (List.forall_mem_append.mpr ⟨hxle, List.forall_mem_singleton.mpr hle⟩) hylt
      (List.forall_mem_append.mpr ⟨hendsx, List.forall_mem_singleton.mpr hends⟩)
    rw [hmapfree, hinsert hypos, List.take_of_length_le (by simp; omega)]
    exact free_append.mpr (.inr (free_cons.mpr (.inl hholds)))
  · have hmapfree := mapfree_insert ⟨xs ++ ⟨size, mp.limit - size⟩ :: ys, rmap.mapend⟩ xs
      hsize' rfl hxle (List.forall_mem_cons.mpr ⟨not_le.mp hle, hylt⟩) hendsx
    rw [hmapfree, hinsert (List.forall_mem_cons.mpr ⟨hsize, hypos⟩),
      List.take_of_length_le (by simp; omega)]
    exact free_append.mpr (.inr (free_cons.mpr (.inl hholds)))

/-- What is free stays so in front of a range. -/
theorem free_insert (hy : Good ys) (hpos : 0 < addr) (hlt : addr + size < 4294967296)
    (h : Free ys a) : Free (insert addr size ys) a := by
  cases ys with
  | nil => exact absurd h free_nil
  | cons n ys =>
    rw [insert]
    split_ifs with htouch
    · obtain ⟨hnpos, hnsize, hnlim⟩ := hy.proper List.mem_cons_self
      have haddr : n.addr = addr + size := by
        unfold ulong at htouch
        omega
      obtain hin | hin := free_cons.mp h
      · refine free_cons.mpr (.inl ?_)
        unfold limit at hnlim
        rw [holds_iff] at hin ⊢
        unfold limit at hin ⊢
        unfold ulong
        dsimp only
        omega
      · exact free_cons.mpr (.inr hin)
    · exact free_cons.mpr (.inr h)

/-- When the start is behind the entry, what was taken stays free. -/
theorem free_past (h : Good rmap.map) (hroom : rmap.map.length < rmap.mapend)
    (hmap : rmap.map = xs ++ mp :: ys) (hsize : 0 < size) (hlt : mp.limit < maddr)
    (hfree : span maddr size ⊆ {a | Free rmap.map a})
    (hx : ∀ x ∈ xs, tryEntry addr size align x = .next)
    (hmp : tryEntry addr size align mp = .take maddr) :
    (mapalloc rmap addr size align).1 = maddr ∧
      Free (mapalloc rmap addr size align).2.map maddr := by
  rw [mapalloc_take hmap hx hmp]
  rw [hmap] at h hroom hfree
  obtain ⟨⟨hpos, hmpsize, -⟩, hgx, hgy, hxmp, hmpy, -⟩ := h.middle
  obtain ⟨hendsx, -⟩ := ends_ne h
  have hsum : mp.limit = mp.addr + mp.size := rfl
  -- The addresses that were taken are those of a later entry.
  obtain ⟨e, he, hle, hle'⟩ := h.coalesced.exists_of_forall_free hsize
    fun a h1 h2 => hfree (mem_span.mpr ⟨h1, h2⟩)
  have hlim := h.limit_le e he
  have hey : e ∈ ys := by
    obtain hin | hin := List.mem_append.mp he
    · have := hxmp e hin
      omega
    · obtain rfl | hin := List.mem_cons.mp hin
      · omega
      · exact hin
  have hys : Free ys maddr := ⟨e, hey, hle, by unfold limit at hle'; omega⟩
  have hrest : ulong ((mp.size : ℤ) - (maddr - mp.addr + size)) =
      4294967296 + mp.limit - (maddr + size) := by
    unfold ulong
    omega
  have hleft : left size maddr mp ys =
      ⟨ulong (maddr + size), 4294967296 + mp.limit - (maddr + size)⟩ :: ys := by
    have hne : 4294967296 + mp.limit - (maddr + size) ≠ 0 := by omega
    unfold left
    dsimp only
    rw [hrest, if_neg hne]
  have hsub : ulong ((maddr : ℤ) - mp.addr) = maddr - mp.addr := by
    unfold ulong
    omega
  have hback : mp.addr + (maddr - mp.addr) = maddr := by omega
  have hends : ends ⟨ulong (maddr + size), 4294967296 + mp.limit - (maddr + size)⟩ ≠ mp.addr := by
    unfold ends ulong
    dsimp only
    omega
  have hxle : ∀ x ∈ xs, x.addr ≤ mp.addr := fun x hx' => by
    have := hxmp x hx'
    unfold limit at this
    omega
  have hylt : ∀ y ∈ ys, mp.addr < y.addr := fun y hy' => by
    have := hmpy y hy'
    omega
  have hsize' : maddr - mp.addr ≠ 0 := by omega
  refine ⟨rfl, ?_⟩
  dsimp only
  rw [if_pos (by omega), hsub, hleft]
  rw [List.length_append, List.length_cons] at hroom
  have hgrow (l : List Range) : (insert mp.addr (maddr - mp.addr) l).length ≤ l.length + 1 := by
    cases l with
    | nil => exact le_rfl
    | cons n l =>
      rw [insert]
      split_ifs
      · exact Nat.le_succ _
      · exact le_rfl
  by_cases hend : maddr + size = 4294967296
  · have hstart : ulong ((maddr : ℤ) + size) = 0 := by
      unfold ulong
      omega
    rw [hstart] at hends ⊢
    have hmapfree := mapfree_insert
      ⟨xs ++ ⟨0, 4294967296 + mp.limit - (maddr + size)⟩ :: ys, rmap.mapend⟩
      (xs ++ [⟨0, 4294967296 + mp.limit - (maddr + size)⟩]) hsize' (List.append_cons _ _ _)
      (List.forall_mem_append.mpr ⟨hxle, List.forall_mem_singleton.mpr (Nat.zero_le _)⟩) hylt
      (List.forall_mem_append.mpr ⟨hendsx, List.forall_mem_singleton.mpr hends⟩)
    have hlen := hgrow ys
    rw [hmapfree, List.take_of_length_le (by simp; omega)]
    exact free_append.mpr (.inr (free_insert hgy hpos (by omega) hys))
  · have hstart : ulong ((maddr : ℤ) + size) = maddr + size := by
      unfold ulong
      omega
    rw [hstart] at hends ⊢
    have hlow : mp.addr < maddr + size := by omega
    have hmapfree := mapfree_insert
      ⟨xs ++ ⟨maddr + size, 4294967296 + mp.limit - (maddr + size)⟩ :: ys, rmap.mapend⟩ xs
      hsize' rfl hxle (List.forall_mem_cons.mpr ⟨hlow, hylt⟩) hendsx
    have hhead : ulong ((mp.addr : ℤ) + (maddr - mp.addr : ℕ)) ≠ maddr + size := by
      unfold ulong
      omega
    rw [hmapfree, insert, if_neg hhead, List.take_of_length_le (by simp; omega)]
    exact free_append.mpr (.inr (free_cons.mpr (.inr (free_cons.mpr (.inr hys)))))

/-! ### One call -/

/-- A call of `mapalloc` does what it should. -/
def Done (rmap : RMap) (addr size : ℕ) (align : ℤ) : Prop :=
  let r := mapalloc rmap addr size align
  Good r.2.map ∧
    (∀ a, Free r.2.map a ↔ if r.1 = 0 then Free rmap.map a else
      Free rmap.map a ∧ a ∉ span r.1 size) ∧
    Answer {a | Free rmap.map a} addr size align r.1

/-- A range that was taken inside of an entry. -/
theorem done_take (h : Good rmap.map) (hroom : rmap.map.length < rmap.mapend)
    (hmap : rmap.map = xs ++ mp :: ys) (hsize : 0 < size) (hle : mp.addr ≤ maddr)
    (hle' : maddr + size ≤ mp.limit) (hx : ∀ x ∈ xs, tryEntry addr size align x = .next)
    (hmp : tryEntry addr size align mp = .take maddr) (hdvd : 0 < align → align ∣ maddr)
    (haddr : addr ≠ 0 → maddr = addr) : Done rmap addr size align := by
  obtain ⟨hr, hgood, hfree⟩ := take_spec h hroom hmap hsize hle hle' hx hmp
  have hmem : mp ∈ rmap.map := hmap ▸ List.mem_append_right _ List.mem_cons_self
  have hne : maddr ≠ 0 := (Nat.lt_of_lt_of_le (h.pos mp hmem) hle).ne'
  unfold Done
  dsimp only
  rw [hr]
  refine ⟨hgood, fun a => ?_, fun _ => ⟨hdvd, haddr, fun a ha => ?_⟩, fun h0 => absurd h0 hne⟩
  · rw [if_neg hne]
    exact hfree a
  · exact ⟨mp, hmem, hle.trans ha.1, ha.2.trans_le hle'⟩

/-- Nothing was taken. -/
theorem done_none_iff (h : Good rmap.map)
    (hnone : mapalloc rmap addr size align = (0, rmap)) : Done rmap addr size align ↔
      (addr ≠ 0 → ¬ span addr size ⊆ {a | Free rmap.map a}) ∧
        (addr = 0 → ¬ ∃ b : ℕ, (0 < align → align ∣ b) ∧ span b size ⊆ {a | Free rmap.map a}) := by
  unfold Done
  rw [hnone]
  constructor
  · rintro ⟨-, -, -, hanswer⟩
    exact hanswer rfl
  · exact fun hanswer => ⟨h, fun a => by rw [if_pos rfl], fun h0 => absurd rfl h0, fun _ => hanswer⟩

theorem span_subset_iff (h : Good map) (hsize : 0 < size) {b : ℕ} :
    span b size ⊆ {a | Free map a} ↔ ∃ mp ∈ map, mp.addr ≤ b ∧ b + size ≤ mp.limit := by
  rw [← h.coalesced.forall_free_iff hsize]
  exact ⟨fun hsub a h1 h2 => hsub ⟨h1, h2⟩, fun hall a ha => hall a ha.1 ha.2⟩

/-- An aligned range is free when one of the entries has room for it. -/
theorem exists_aligned_iff (h : Good map) (hsize : 0 < size) :
    (∃ b : ℕ, (0 < align → align ∣ b) ∧ span b size ⊆ {a | Free map a}) ↔
      ∃ mp ∈ map, Fits size align mp := by
  constructor
  · rintro ⟨b, hdvd, hsub⟩
    obtain ⟨mp, hmp, hle, hle'⟩ := (span_subset_iff h hsize).mp hsub
    have := alignup_le hle hdvd
    exact ⟨mp, hmp, by unfold Fits; omega⟩
  · rintro ⟨mp, hmp, hfits⟩
    refine ⟨alignup align mp.addr, fun hpos => dvd_alignup hpos _, ?_⟩
    exact (span_subset_iff h hsize).mpr ⟨mp, hmp, le_alignup _ _, hfits⟩

theorem not_done_around (h : Good rmap.map) (hroom : rmap.map.length < rmap.mapend)
    (hmap : rmap.map = xs ++ mp :: ys) (hsize : 0 < size) (hlt : size < mp.limit)
    (hlim : mp.limit < 4294967296) (hx : ∀ x ∈ xs, tryEntry addr size align x = .next)
    (hmp : tryEntry addr size align mp = .take 0) : ¬ Done rmap addr size align := by
  obtain ⟨hr, hfree⟩ := free_around h hroom hmap hsize hlt hlim hx hmp
  have hmem : mp ∈ rmap.map := hmap ▸ List.mem_append_right _ List.mem_cons_self
  rintro ⟨-, hsame, -⟩
  have hbefore := (hsame mp.limit).mp hfree
  rw [if_pos hr] at hbefore
  exact h.coalesced.not_free_limit hmem hbefore

theorem not_done_past (h : Good rmap.map) (hroom : rmap.map.length < rmap.mapend)
    (hmap : rmap.map = xs ++ mp :: ys) (hsize : 0 < size) (hlt : mp.limit < maddr)
    (hx : ∀ x ∈ xs, tryEntry addr size align x = .next)
    (hmp : tryEntry addr size align mp = .take maddr) : ¬ Done rmap addr size align := by
  have hne : maddr ≠ 0 := by omega
  have hr : (mapalloc rmap addr size align).1 = maddr := by rw [mapalloc_take hmap hx hmp]
  rintro ⟨-, hsame, hanswer, -⟩
  rw [hr] at hanswer
  have hsub := (hanswer hne).2.2
  obtain ⟨-, hfree⟩ := free_past h hroom hmap hsize hlt hsub hx hmp
  have hafter := (hsame maddr).mp hfree
  rw [hr, if_neg hne] at hafter
  exact hafter.2 ⟨le_rfl, Nat.lt_add_of_pos_right hsize⟩

/-! ### Without an address -/

theorem try_fits (hmp : Proper mp) (hlevel : Level size align mp)
    (hfits : Fits size align mp) : tryEntry 0 size align mp = .take (alignup align mp.addr) := by
  obtain ⟨hround, hle⟩ | ⟨-, hnot⟩ := hlevel
  · have hr := roundup_eq hmp.addr_lt hround
    rw [tryEntry, if_pos rfl, tryAt_inside hmp hr (le_alignup _ _) hle]
    exact if_pos hfits
  · exact absurd hfits hnot

theorem try_misses (hmp : Proper mp) (hsize : 0 < size) (hsize' : size < 2147483648)
    (halign : align < 2147483648) (hlevel : Level size align mp) (hmiss : ¬ Fits size align mp) :
    tryEntry 0 size align mp = .next := by
  have hlt := hmp.addr_lt
  rw [tryEntry, if_pos rfl]
  by_cases hround : (mp.addr : ℤ) + align ≤ 4294967296
  · have hr := roundup_eq hlt hround
    have hle : alignup align mp.addr ≤ mp.limit := by
      obtain ⟨-, hle⟩ | ⟨hlim, -⟩ := hlevel
      · exact hle
      · by_cases hpos : 0 < align
        · have := alignup_lt hpos mp.addr
          omega
        · unfold alignup
          rw [if_neg hpos]
          omega
    rw [tryAt_inside hmp hr (le_alignup _ _) hle]
    exact if_neg hmiss
  · obtain ⟨hround', -⟩ | ⟨hlim, -⟩ := hlevel
    · exact absurd hround' hround
    · have hr := roundup_around hlt halign hround
      rw [tryAt_around hmp hsize hr (by omega), if_pos hlim]

/-- The search comes to no entry that is taken, or to a first one. -/
theorem scan_cases (size : ℕ) (align : ℤ) (map : List Range) :
    (Scanned size align map ∧ ∀ mp ∈ map, Level size align mp ∧ ¬ Fits size align mp) ∨
      ∃ xs mp ys, map = xs ++ mp :: ys ∧ (∀ x ∈ xs, Level size align x ∧ ¬ Fits size align x) ∧
        (Scanned size align map ∧ Level size align mp ∧ Fits size align mp ∨
          ¬ Scanned size align map ∧ ¬ Level size align mp) := by
  induction map with
  | nil => exact .inl ⟨trivial, nofun⟩
  | cons mp map ih =>
    by_cases hlevel : Level size align mp
    · by_cases hfits : Fits size align mp
      · exact .inr ⟨[], mp, map, rfl, nofun, .inl ⟨⟨hlevel, .inl hfits⟩, hlevel, hfits⟩⟩
      · have hiff : Scanned size align (mp :: map) ↔ Scanned size align map :=
          ⟨fun h => h.2.resolve_left hfits, fun h => ⟨hlevel, .inr h⟩⟩
        rw [hiff]
        obtain ⟨hscan, hall⟩ | ⟨xs, p, ys, rfl, hxs, hp⟩ := ih
        · exact .inl ⟨hscan, List.forall_mem_cons.mpr ⟨⟨hlevel, hfits⟩, hall⟩⟩
        · exact .inr ⟨mp :: xs, p, ys, rfl, List.forall_mem_cons.mpr ⟨⟨hlevel, hfits⟩, hxs⟩, hp⟩
    · exact .inr ⟨[], mp, map, rfl, nofun, .inr ⟨fun h => hlevel h.1, hlevel⟩⟩

theorem done_zero_iff (h : Good rmap.map) (hroom : rmap.map.length < rmap.mapend)
    (hsize : 0 < size) (hsize' : size < 2147483648) (halign : align < 2147483648) :
    Done rmap 0 size align ↔ Scanned size align rmap.map := by
  have hnext {x : Range} (hx : x ∈ rmap.map) (hlevel : Level size align x ∧ ¬ Fits size align x) :
      tryEntry 0 size align x = .next :=
    try_misses (h.proper hx) hsize hsize' halign hlevel.1 hlevel.2
  obtain ⟨hscan, hall⟩ | ⟨xs, mp, ys, hmap, hxs, hmp⟩ := scan_cases size align rmap.map
  · refine iff_of_true ?_ hscan
    have hnone := mapalloc_none rmap 0 size align fun mp hmp hne =>
      absurd (hnext hmp (hall mp hmp)) hne
    rw [done_none_iff h hnone, exists_aligned_iff h hsize]
    refine ⟨fun h0 => absurd rfl h0, fun _ => ?_⟩
    rintro ⟨mp, hmp, hfits⟩
    exact (hall mp hmp).2 hfits
  have hmem : mp ∈ rmap.map := hmap ▸ List.mem_append_right _ List.mem_cons_self
  have hx : ∀ x ∈ xs, tryEntry 0 size align x = .next := fun x hx' =>
    hnext (hmap ▸ List.mem_append_left _ hx') (hxs x hx')
  have hproper := h.proper hmem
  have hlt := hproper.addr_lt
  obtain ⟨hscan, hlevel, hfits⟩ | ⟨hscan, hlevel⟩ := hmp
  · refine iff_of_true ?_ hscan
    exact done_take h hroom hmap hsize (le_alignup _ _) hfits hx
      (try_fits hproper hlevel hfits) (fun hpos => dvd_alignup hpos _)
      (fun h0 => absurd rfl h0)
  refine iff_of_false ?_ hscan
  have hup := le_alignup align mp.addr
  unfold Level at hlevel
  by_cases hround : (mp.addr : ℤ) + align ≤ 4294967296
  · -- The rounded start is behind the entry.
    have hpast : mp.limit < alignup align mp.addr := by
      by_contra hle
      exact hlevel (.inl ⟨hround, not_lt.mp hle⟩)
    have hpos : 0 < align := by
      by_contra hneg
      unfold alignup at hpast
      rw [if_neg hneg] at hpast
      unfold limit at hpast
      omega
    have hnear := alignup_lt hpos mp.addr
    have hbelow : mp.addr ≤ mp.limit := Nat.le_add_right _ _
    refine not_done_past h hroom hmap hsize hpast hx ?_
    rw [tryEntry, if_pos rfl]
    exact tryAt_past hproper hsize' (roundup_eq hlt hround) hpast (by omega)
  · have hr := roundup_around hlt halign hround
    have hlimit : mp.limit = mp.addr + mp.size := rfl
    have htry : tryEntry 0 size align mp =
        if mp.limit = 4294967296 then .next else .take 0 := by
      rw [tryEntry, if_pos rfl, tryAt_around hproper hsize hr (by omega)]
    by_cases hlim : mp.limit = 4294967296
    · -- There is room in the last entry, and it is not seen.
      rw [if_pos hlim] at htry
      have hfits : Fits size align mp := by
        by_contra hmiss
        exact hlevel (.inr ⟨hlim, hmiss⟩)
      have hys : ys = [] := by
        rw [hmap] at h
        obtain ⟨-, -, hgy, -, hmpy, -⟩ := h.middle
        refine List.eq_nil_iff_forall_not_mem.mpr fun y hy => ?_
        have h1 := hmpy y hy
        have h2 := (hgy.proper hy).addr_lt
        omega
      have hnone := mapalloc_none rmap 0 size align fun p hp hne => by
        rw [hmap, hys] at hp
        obtain hp | hp := List.mem_append.mp hp
        · exact absurd (hx p hp) hne
        · rw [List.mem_singleton.mp hp] at hne
          exact absurd htry hne
      rw [done_none_iff h hnone, exists_aligned_iff h hsize]
      exact fun hno => hno.2 rfl ⟨mp, hmem, hfits⟩
    · rw [if_neg hlim] at htry
      have hle := hproper.2.2
      exact not_done_around h hroom hmap hsize (by omega) (by omega) hx htry

/-! ### With an address -/

/-- An entry that ends below the address is passed over. -/
theorem try_below (haddr : addr < 4294967296) (h : mp.limit < addr) :
    tryEntry addr size align mp = .next := by
  have hsum : mp.limit = mp.addr + mp.size := rfl
  have hoff : ulong ((addr : ℤ) - mp.addr) = addr - mp.addr := by
    unfold ulong
    omega
  rw [tryEntry, if_neg (by omega), if_neg (by omega), hoff, if_pos (by omega)]

theorem try_above (h0 : addr ≠ 0) (h : addr < mp.addr) : tryEntry addr size align mp = .stop := by
  rw [tryEntry, if_neg h0, if_pos h]

/-- The entry that holds the address or ends there: whether its end is looked at. -/
theorem try_here (align : ℤ) (hmp : Proper mp) (h0 : addr ≠ 0) (haddr : addr < 4294967296)
    (hsize' : size < 2147483648) (hle : mp.addr ≤ addr) (hle' : addr ≤ mp.limit) :
    tryEntry addr size align mp =
      if mp.limit < addr + size ∧ size ≤ mp.size then .stop else tryAt size align mp addr := by
  have hsum : mp.limit = mp.addr + mp.size := rfl
  obtain ⟨hpos, hmpsize, hlim⟩ := hmp
  have hoff : ulong ((addr : ℤ) - mp.addr) = addr - mp.addr := by
    unfold ulong
    omega
  have hstop : ulong ((mp.size : ℤ) - size) < addr - mp.addr ↔
      mp.limit < addr + size ∧ size ≤ mp.size := by
    unfold ulong
    omega
  rw [tryEntry, if_neg h0, if_neg (by omega), hoff, if_neg (by omega)]
  simp only [hstop]

theorem done_addr_iff (h : Good rmap.map) (hroom : rmap.map.length < rmap.mapend) (h0 : addr ≠ 0)
    (haddr : addr < 4294967296) (hsize : 0 < size) (hsize' : size < 2147483648)
    (halign : align < 2147483648) (hdvd : 0 < align → align ∣ addr) :
    Done rmap addr size align ↔ ((addr : ℤ) + align ≤ 4294967296 ∨
      ∀ mp ∈ rmap.map, mp.addr ≤ addr → addr ≤ mp.limit →
        mp.limit < addr + size ∧ (size ≤ mp.size ∨ mp.limit = 4294967296)) := by
  have hnone (hno : mapalloc rmap addr size align = (0, rmap)) : Done rmap addr size align ↔
      ¬ ∃ mp ∈ rmap.map, mp.addr ≤ addr ∧ addr + size ≤ mp.limit := by
    rw [done_none_iff h hno, span_subset_iff h hsize]
    exact ⟨fun hh => hh.1 h0, fun hh => ⟨fun _ => hh, fun h0' => absurd h0' h0⟩⟩
  by_cases hhere : ∃ mp ∈ rmap.map, mp.addr ≤ addr ∧ addr ≤ mp.limit
  · obtain ⟨mp, hmem, hle, hle'⟩ := hhere
    obtain ⟨xs, ys, hmap⟩ := List.append_of_mem hmem
    have hproper := h.proper hmem
    have hsum : mp.limit = mp.addr + mp.size := rfl
    have hmiddle := h
    rw [hmap] at hmiddle
    obtain ⟨-, hgx, hgy, hxmp, hmpy, -⟩ := hmiddle.middle
    have hx : ∀ x ∈ xs, tryEntry addr size align x = .next := fun x hx' =>
      try_below haddr ((hxmp x hx').trans_le hle)
    have hy : ∀ y ∈ ys, tryEntry addr size align y = .stop := fun y hy' =>
      try_above h0 (hle'.trans_lt (hmpy y hy'))
    -- No other entry holds the address or ends there.
    have honly : ∀ p ∈ rmap.map, p.addr ≤ addr → addr ≤ p.limit → p = mp := fun p hp hp1 hp2 => by
      rw [hmap] at hp
      obtain hp | hp := List.mem_append.mp hp
      · have := hxmp p hp
        omega
      · obtain rfl | hp := List.mem_cons.mp hp
        · rfl
        · have := hmpy p hp
          omega
    have hroom' : (∃ p ∈ rmap.map, p.addr ≤ addr ∧ addr + size ≤ p.limit) ↔
        addr + size ≤ mp.limit := by
      constructor
      · rintro ⟨p, hp, hp1, hp2⟩
        rwa [honly p hp hp1 (by omega)] at hp2
      · exact fun hin => ⟨mp, hmem, hle, hin⟩
    have hcond : (∀ p ∈ rmap.map, p.addr ≤ addr → addr ≤ p.limit →
        p.limit < addr + size ∧ (size ≤ p.size ∨ p.limit = 4294967296)) ↔
        mp.limit < addr + size ∧ (size ≤ mp.size ∨ mp.limit = 4294967296) := by
      constructor
      · exact fun hall => hall mp hmem hle hle'
      · intro hmp p hp hp1 hp2
        rwa [honly p hp hp1 hp2]
    have hall (hmp : tryEntry addr size align mp ≠ .next → tryEntry addr size align mp = .stop) :
        mapalloc rmap addr size align = (0, rmap) :=
      mapalloc_none rmap addr size align fun p hp hne => by
        rw [hmap] at hp
        obtain hp | hp := List.mem_append.mp hp
        · exact absurd (hx p hp) hne
        · obtain rfl | hp := List.mem_cons.mp hp
          · exact hmp hne
          · exact hy p hp
    have htry := try_here align hproper h0 haddr hsize' hle hle'
    rw [hcond]
    by_cases hstop : mp.limit < addr + size ∧ size ≤ mp.size
    · rw [if_pos hstop] at htry
      rw [hnone (hall fun _ => htry), hroom']
      exact iff_of_true (not_le.mpr hstop.1) (.inr ⟨hstop.1, .inl hstop.2⟩)
    rw [if_neg hstop] at htry
    by_cases hround : (addr : ℤ) + align ≤ 4294967296
    · refine iff_of_true ?_ (.inl hround)
      have hr : roundup align addr = addr :=
        (roundup_eq haddr hround).trans (alignup_of_dvd hdvd)
      rw [tryAt_inside hproper hr hle hle'] at htry
      split_ifs at htry with hin
      · exact done_take h hroom hmap hsize hle hin hx htry hdvd fun _ => rfl
      · rw [hnone (hall fun hne => absurd htry hne), hroom']
        exact hin
    · have hr := roundup_around haddr halign hround
      rw [or_iff_right hround]
      rw [tryAt_around hproper hsize hr (by omega)] at htry
      split_ifs at htry with hlim
      · rw [hnone (hall fun hne => absurd htry hne), hroom']
        omega
      · have hlimle := hproper.2.2
        refine iff_of_false ?_ (by omega)
        exact not_done_around h hroom hmap hsize (by omega) (by omega) hx htry
  · have hno := mapalloc_none rmap addr size align fun mp hmp hne => by
      by_cases hle : mp.addr ≤ addr
      · refine absurd (try_below haddr ?_) hne
        by_contra hle'
        exact hhere ⟨mp, hmp, hle, not_lt.mp hle'⟩
      · exact try_above h0 (not_le.mp hle)
    rw [hnone hno]
    refine iff_of_true ?_ (.inr fun mp hmp h1 h2 => absurd ⟨mp, hmp, h1, h2⟩ hhere)
    rintro ⟨mp, hmp, h1, h2⟩
    exact hhere ⟨mp, hmp, h1, by omega⟩

/-! ### Runs -/

/-- A call does what it should just when it is careful. -/
theorem kept_exec_iff {s t : Sys} {e : Event} (h : s.Kept) (hexec : exec s e = some t) :
    t.Kept ↔ Careful s.rmap.map e := by
  have hfree : s.free = {a | Free s.rmap.map a} := Set.ext h.free
  unfold exec at hexec
  split_ifs at hexec with hallowed
  cases e with
  | mapfree addr size =>
    cases hexec
    refine iff_of_true ?_ trivial
    obtain ⟨hgood, hiff⟩ := mapfree_spec h.good hallowed
    refine ⟨hgood, fun a => ?_, fun _ _ _ _ _ hnone => by cases hnone⟩
    rw [hiff, Set.mem_union, h.free]
  | mapalloc addr size align =>
    cases hexec
    have hdone : Done s.rmap addr size align ↔ Careful s.rmap.map (.mapalloc addr size align) := by
      obtain ⟨haddr, hsize, hsize', halign, hdvd, hroom⟩ := hallowed
      unfold Careful
      dsimp only
      split_ifs with h0
      · subst h0
        exact done_zero_iff h.good hroom hsize hsize' halign
      · exact done_addr_iff h.good hroom h0 haddr hsize hsize' halign hdvd
    rw [← hdone]
    constructor
    · intro hk
      have hanswer := hk.answer _ _ _ _ _ rfl
      rw [hfree] at hanswer
      refine ⟨hk.good, fun a => ?_, hanswer⟩
      rw [← hk.free]
      split_ifs
      · exact h.free a
      · rw [Set.mem_sdiff, h.free]
    · rintro ⟨hgood, hiff, hanswer⟩
      refine ⟨hgood, fun a => ?_, ?_⟩
      · rw [hiff]
        split_ifs
        · exact h.free a
        · rw [Set.mem_sdiff, h.free]
      · intro free addr' size' align' r hlast
        cases hlast
        rwa [hfree]

/-- The map stays in order and stands for what should be free, and all results are right, just when
all calls are careful. -/
theorem mapped_iff (mapend : ℕ) (l : List Event) :
    (∀ t ∈ Run.states exec (fresh mapend) l, t.Kept) ↔
      Run.Meets exec (fun s e => Careful s.rmap.map e) (fresh mapend) l :=
  Run.forall_states_iff (fun _ => True) trivial
    ⟨.nil, fun _ => iff_of_false id free_nil, fun _ _ _ _ _ hnone => by cases hnone⟩
    (fun _ _ _ _ _ _ _ => trivial) (fun _ _ _ _ hkept hexec => kept_exec_iff hkept hexec) l

/-- The only free address is 9, and the rounded start 16 is given out. -/
theorem past_entry : ¬ ∀ (mapend : ℕ) (l : List Event),
    ∀ t ∈ Run.states exec (fresh mapend) l, t.Kept := by
  intro h
  have hfree : exec (fresh 15) (.mapfree 9 1) =
      some ⟨⟨[⟨9, 1⟩], 15⟩, ∅ ∪ span 9 1, none⟩ := rfl
  have halloc : exec ⟨⟨[⟨9, 1⟩], 15⟩, ∅ ∪ span 9 1, none⟩ (.mapalloc 0 4 8) =
      some ⟨⟨[⟨9, 7⟩, ⟨20, 4294967286⟩], 15⟩, (∅ ∪ span 9 1) \ span 16 4,
        some (∅ ∪ span 9 1, 0, 4, 8, 16)⟩ := rfl
  have hstates : Run.states exec (fresh 15) [.mapfree 9 1, .mapalloc 0 4 8] =
      [fresh 15, ⟨⟨[⟨9, 1⟩], 15⟩, ∅ ∪ span 9 1, none⟩,
        ⟨⟨[⟨9, 7⟩, ⟨20, 4294967286⟩], 15⟩, (∅ ∪ span 9 1) \ span 16 4,
          some (∅ ∪ span 9 1, 0, 4, 8, 16)⟩] := by
    simp only [Run.states, hfree, halloc]
  have hkept := h 15 [.mapfree 9 1, .mapalloc 0 4 8]
  rw [hstates] at hkept
  have hthird := hkept _ (List.mem_cons_of_mem _ (List.mem_cons_of_mem _ List.mem_cons_self))
  have hlast := hthird.answer _ _ _ _ _ rfl
  have hin := (hlast.1 (by decide)).2.2 (show 16 ∈ span 16 4 by unfold span; simp)
  rw [Set.empty_union, mem_span] at hin
  omega

end PlanNine.Memory
