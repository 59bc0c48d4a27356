import PlanNine.Port.Xalloc.Arena
import PlanNine.Lib.Run

/-!
# Integrity of the kernel arena

Memory is given to the arena, chunks are taken and returned, and the kernel stores bytes anywhere
but in the headers of the chunks in use. What was given, the chunks in use and what was leaked are
kept on record beside the arena. An address is held by as many of the holes, the chunks in use and
the leaked ranges as by the ranges given; since no address is given twice, chunks and holes are
apart and cover what was given.

Three things spoil this. A chunk that is to be cleared is cleared over its size from behind its
header on, so the clearing reaches beyond the chunk's end. A size that wraps when the header's is
added gives a chunk without room for a header. And a hole that ends where the addresses wrap has the
top zero, which a range that begins at zero takes for its neighbour; a hole of all addresses has the
size zero.

## Main definitions

* `System`, `Event`, `exec`: the arena with its record, and what is done with it.
* `Zeroed`, `Unwrapped`, `Ok`: the conditions under which nothing is spoilt.
* `Integrity`: what holds of the arena and its record.

## Main results

* `xholeLoop_spec`, `xalloczLoop_spec`: what giving and taking do to the table.
* `inv_exec`: each step that meets the condition keeps the invariant.
* `integrity_of_run`: in every run whose steps meet the condition the arena keeps its integrity.
-/

namespace PlanNine.Xalloc

open Range

/-! ### The record beside the arena -/

def Hole.range (h : Hole) : Range := ⟨h.addr, h.size⟩

def holes (table : List Hole) : List Range := table.map Hole.range

structure System where
  arena : Arena
  /-- The chunks in use. -/
  live : List Range
  /-- What was given to the arena. -/
  given : List Range
  /-- What was lost for want of a descriptor. -/
  leaked : List Range

inductive Event where
  /-- `xhole` of memory that was not given before. -/
  | hole (addr size : ℕ)
  | alloc (size : ℕ) (zero : Bool)
  /-- `xfree` of a chunk in use. -/
  | free (r : Range)
  /-- A byte is stored outside the headers of the chunks in use. -/
  | store (a : ℕ) (b : UInt8)

def start (mem : ℕ → UInt8) : System := ⟨xinit mem, [], [], []⟩

/-- The bytes a call of `xhole` leaked, as a range. -/
def lost (addr n : ℕ) : List Range := if n = 0 then [] else [⟨addr, n⟩]

def exec (s : System) : Event → Option System
  | .hole addr size =>
    if (addr < 4294967296 ∧ size < 4294967296 ∧ addr + size ≤ 4294967296) ∧
        ∀ r ∈ s.given, (⟨addr, size⟩ : Range).Apart r then
      let (arena, n) := xhole s.arena addr size
      some ⟨arena, s.live, ⟨addr, size⟩ :: s.given, lost addr n ++ s.leaked⟩
    else none
  | .alloc size zero =>
    if size < 4294967296 then
      match xallocz s.arena size zero with
      | none => some s
      | some (p, arena) =>
        some { s with
          arena
          live := ⟨(p + 4294967296 - datoff) % 4294967296, chunk size⟩ :: s.live }
    else none
  | .free r =>
    if r ∈ s.live then
      match xfree s.arena ((r.addr + datoff) % 4294967296) with
      | none => none
      | some (arena, n) => some ⟨arena, s.live.erase r, s.given, lost r.addr n ++ s.leaked⟩
    else none
  | .store a b =>
    if a < 4294967296 ∧ ∀ r ∈ s.live, ¬ (⟨r.addr, datoff⟩ : Range).Holds a then
      some { s with arena := { s.arena with mem := put s.arena.mem a [b] } }
    else none

/-- The eight bytes behind a chunk that is to be cleared are zero already. -/
def Zeroed (x : Arena) (size : ℕ) : Prop :=
  ∀ h, x.table.find? (fun h => chunk size ≤ h.size) = some h →
    ∀ i < datoff, x.mem ((h.addr + chunk size + i) % 4294967296) = 0

/-- A range does not wrap the table: it does not begin at zero when the first hole ends where the
addresses wrap, and it does not complete the holes to all there is. -/
structure Unwrapped (table : List Hole) (addr size : ℕ) : Prop where
  head : addr = 0 → ∀ h ∈ table.head?, h.top ≠ 0
  sum : (table.map Hole.size).sum + size < 4294967296

/-- The condition on a step. -/
def Ok (s : System) : Event → Prop
  | .hole addr size => 0 < size → Unwrapped s.arena.table addr size
  | .alloc size zero => datoff ≤ (size + (BY2V + sizeofXhdr)) % 4294967296 ∧
      (zero = true → Zeroed s.arena size)
  | .free r => Unwrapped s.arena.table r.addr r.size
  | .store _ _ => True

/-- What holds of the arena and the record beside it. -/
structure Integrity (s : System) : Prop where
  /-- Chunks and holes share no byte. -/
  apart : (s.live ++ holes s.arena.table).Pairwise Apart
  /-- The table is sorted and no two holes touch. -/
  sorted : s.arena.table.Pairwise fun h c => h.addr + h.size < c.addr
  /-- Every byte given is in one chunk or one hole, and no other byte is. -/
  covers : s.leaked = [] → ∀ a, count (s.live ++ holes s.arena.table) a = count s.given a
  /-- No byte is given twice. -/
  once : ∀ a, count s.given a ≤ 1
  /-- No descriptor is lost. -/
  descriptors : s.arena.table.length + s.arena.flist.length = Nhole
  /-- A chunk in use can be returned. -/
  returns : ∀ r ∈ s.live, (xfree s.arena ((r.addr + datoff) % 4294967296)).isSome

/-! ### The table -/

structure Hole.Good (h : Hole) : Prop where
  pos : 0 < h.size
  le : h.addr + h.size ≤ 4294967296
  top : h.top = (h.addr + h.size) % 4294967296

/-- The holes are as they should be, sorted, and do not touch. -/
structure Good (table : List Hole) : Prop where
  hole : ∀ h ∈ table, h.Good
  sorted : table.Pairwise fun h c => h.addr + h.size < c.addr

variable {table t flist f l : List Hole} {h c : Hole} {addr size p a : ℕ}

theorem good_cons :
    Good (h :: l) ↔ h.Good ∧ (∀ c ∈ l, h.addr + h.size < c.addr) ∧ Good l := by
  constructor
  · rintro ⟨hg, hs⟩
    obtain ⟨hh, hl⟩ := List.forall_mem_cons.mp hg
    obtain ⟨hlt, hs⟩ := List.pairwise_cons.mp hs
    exact ⟨hh, hlt, hl, hs⟩
  · rintro ⟨hh, hlt, hl, hs⟩
    exact ⟨List.forall_mem_cons.mpr ⟨hh, hl⟩, List.pairwise_cons.mpr ⟨hlt, hs⟩⟩

theorem holes_cons : holes (h :: l) = h.range :: holes l := rfl

/-- What `xholeLoop` makes of a table: the range is one more hole, or part of one. -/
structure Gives (addr size : ℕ) (table flist t f : List Hole) : Prop where
  good : Good t
  count : ∀ a, count (holes t) a = count (⟨addr, size⟩ :: holes table) a
  length : t.length + f.length = table.length + flist.length
  addr : ∀ x ∈ t, x.addr = addr ∨ ∃ h ∈ table, x.addr = h.addr

theorem newhole_spec (hg : Good l) (hpos : 0 < size) (hle : addr + size ≤ 4294967296)
    (hlt : ∀ h ∈ l, addr + size < h.addr) (h : newhole addr size l flist = some (t, f)) :
    Gives addr size l flist t f := by
  cases flist with
  | nil => cases h
  | cons d flist =>
    cases h
    refine ⟨good_cons.mpr ⟨⟨hpos, hle, rfl⟩, hlt, hg⟩, fun _ => rfl, ?_, fun x hx => ?_⟩
    · simp only [List.length_cons]
      omega
    · obtain rfl | hx := List.mem_cons.mp hx
      · exact .inl rfl
      · exact .inr ⟨x, hx, rfl⟩

/-- Giving a range that shares nothing with the holes. -/
theorem xholeLoop_spec (hg : Good table) (hpos : 0 < size) (hle : addr + size ≤ 4294967296)
    (hap : ∀ h ∈ table, (⟨addr, size⟩ : Range).Apart h.range) (hw : Unwrapped table addr size)
    (h : xholeLoop addr size table flist = some (t, f)) : Gives addr size table flist t f := by
  induction table generalizing t f with
  | nil => exact newhole_spec hg hpos hle nofun h
  | cons x l ih =>
    obtain ⟨hx, hlt, hl⟩ := good_cons.mp hg
    obtain ⟨hapx, hapl⟩ := List.forall_mem_cons.mp hap
    have hsum := hw.sum
    have hhead := hw.head
    obtain ⟨hxpos, hxle, hxtop⟩ := hx
    simp only [List.map_cons, List.sum_cons] at hsum
    simp only [List.head?_cons, Option.mem_def, Option.some.injEq, forall_eq'] at hhead
    unfold Apart Hole.range at hapx
    dsimp only at hapx
    rw [xholeLoop] at h
    dsimp only at h
    by_cases htop : x.top = addr
    · -- the hole ends where the range begins, and may now touch the next one
      have hend : x.addr + x.size = addr := by omega
      rw [if_pos htop] at h
      have hn : (x.size + size) % 4294967296 = x.size + size := Nat.mod_eq_of_lt (by omega)
      rw [hn] at h
      have hjoin : ∀ a, count (⟨x.addr, x.size + size⟩ :: holes l) a =
          count (⟨addr, size⟩ :: holes (x :: l)) a := by
        intro a
        rw [count_join, hend]
        exact count_perm (List.Perm.swap _ _ _)
      cases l with
      | nil =>
        cases h
        refine ⟨good_cons.mpr ⟨⟨?_, ?_, rfl⟩, nofun, hl⟩, hjoin, rfl, fun y hy => ?_⟩
        · dsimp only
          omega
        · dsimp only
          omega
        · rw [List.mem_singleton.mp hy]
          exact .inr ⟨x, List.mem_cons_self, rfl⟩
      | cons c l' =>
        obtain ⟨⟨hcpos, hcle, hctop⟩, hclt, hl'⟩ := good_cons.mp hl
        have hxc := hlt c List.mem_cons_self
        have hapc := hapl c List.mem_cons_self
        unfold Apart Hole.range at hapc
        dsimp only at h hapc
        simp only [List.map_cons, List.sum_cons] at hsum
        by_cases htouch : (x.addr + (x.size + size)) % 4294967296 = c.addr
        · rw [if_pos htouch] at h
          cases h
          have hcaddr : x.addr + (x.size + size) = c.addr := by omega
          have hn' : (x.size + size + c.size) % 4294967296 = x.size + size + c.size :=
            Nat.mod_eq_of_lt (by omega)
          rw [hn']
          refine ⟨good_cons.mpr
            ⟨⟨?_, ?_, ?_⟩, fun y hy => ?_, hl'⟩, fun a => ?_, ?_, fun y hy => ?_⟩
          · dsimp only
            omega
          · dsimp only
            omega
          · dsimp only
            omega
          · have := hclt y hy
            dsimp only
            omega
          · rw [← hjoin a, holes_cons, holes_cons]
            exact (@count_join _ a x.addr (x.size + size) c.size).trans (by rw [hcaddr]; rfl)
          · simp only [List.length_cons]
            omega
          · obtain rfl | hy := List.mem_cons.mp hy
            · exact .inr ⟨x, List.mem_cons_self, rfl⟩
            · exact .inr ⟨y, List.mem_cons_of_mem _ (List.mem_cons_of_mem _ hy), rfl⟩
        · rw [if_neg htouch] at h
          cases h
          refine ⟨good_cons.mpr ⟨⟨?_, ?_, rfl⟩, fun y hy => ?_, hl⟩, hjoin, rfl, fun y hy => ?_⟩
          · dsimp only
            omega
          · dsimp only
            omega
          · dsimp only
            obtain rfl | hy := List.mem_cons.mp hy
            · omega
            · have := hclt y hy
              omega
          · obtain rfl | hy := List.mem_cons.mp hy
            · exact .inr ⟨x, List.mem_cons_self, rfl⟩
            · exact .inr ⟨y, List.mem_cons_of_mem _ hy, rfl⟩
    rw [if_neg htop] at h
    by_cases hbefore : addr < x.addr
    · rw [if_pos hbefore] at h
      by_cases htouch : (addr + size) % 4294967296 = x.addr
      · -- the range ends where the hole begins
        rw [if_pos htouch] at h
        cases h
        have hend : addr + size = x.addr := by omega
        have haddr : (x.addr + 4294967296 - size) % 4294967296 = addr := by omega
        have hn : (x.size + size) % 4294967296 = size + x.size := by omega
        rw [haddr, hn]
        refine ⟨good_cons.mpr ⟨⟨?_, ?_, ?_⟩, fun y hy => ?_, hl⟩, fun a => ?_, rfl, fun y hy => ?_⟩
        · dsimp only
          omega
        · dsimp only
          omega
        · dsimp only
          rw [hxtop]
          omega
        · have := hlt y hy
          dsimp only
          omega
        · rw [holes_cons, holes_cons]
          exact (@count_join _ a addr size x.size).trans (by rw [hend]; rfl)
        · obtain rfl | hy := List.mem_cons.mp hy
          · exact .inl rfl
          · exact .inr ⟨y, List.mem_cons_of_mem _ hy, rfl⟩
      · rw [if_neg htouch] at h
        refine newhole_spec hg hpos hle (fun y hy => ?_) h
        obtain rfl | hy := List.mem_cons.mp hy
        · omega
        · have := hlt y hy
          omega
    · -- the hole lies before the range
      rw [if_neg hbefore, Option.map_eq_some_iff] at h
      obtain ⟨⟨t', f'⟩, ht', heq⟩ := h
      cases heq
      have hend : x.addr + x.size < addr := by omega
      have hw' : Unwrapped l addr size := ⟨by omega, by omega⟩
      obtain ⟨htg, htc, htl, hta⟩ := ih hl hapl hw' ht'
      refine ⟨good_cons.mpr ⟨⟨hxpos, hxle, hxtop⟩, fun y hy => ?_, htg⟩, fun a => ?_, ?_,
        fun y hy => ?_⟩
      · obtain hya | ⟨c, hc, hya⟩ := hta y hy
        · omega
        · have := hlt c hc
          omega
      · rw [holes_cons, count_cons, htc a, ← count_cons, holes_cons]
        exact count_perm (List.Perm.swap _ _ _)
      · simp only [List.length_cons] at htl ⊢
        omega
      · obtain rfl | hy := List.mem_cons.mp hy
        · exact .inr ⟨y, List.mem_cons_self, rfl⟩
        · obtain hya | ⟨c, hc, hya⟩ := hta y hy
          · exact .inl hya
          · exact .inr ⟨c, List.mem_cons_of_mem _ hc, hya⟩

/-- Taking a chunk takes it out of the first hole that is large enough. -/
theorem xalloczLoop_find (h : xalloczLoop size table flist = some (p, t, f)) :
    ∃ x, table.find? (fun x => size ≤ x.size) = some x ∧ x.addr = p := by
  induction table generalizing t with
  | nil => cases h
  | cons x l ih =>
    rw [xalloczLoop] at h
    by_cases hle : size ≤ x.size
    · rw [if_pos hle] at h
      refine ⟨x, List.find?_cons_of_pos (decide_eq_true hle), ?_⟩
      dsimp only at h
      split at h <;> cases h <;> rfl
    · rw [if_neg hle, Option.map_eq_some_iff] at h
      obtain ⟨⟨p', t', f'⟩, ht', heq⟩ := h
      cases heq
      obtain ⟨y, hy, hyp⟩ := ih ht'
      exact ⟨y, by rw [List.find?_cons_of_neg (by simpa using hle), hy], hyp⟩

/-- What `xalloczLoop` makes of a table: the chunk is cut from the beginning of a hole. -/
structure Takes (size : ℕ) (table flist : List Hole) (p : ℕ) (t f : List Hole) : Prop where
  good : Good t
  count : ∀ a, count (⟨p, size⟩ :: holes t) a = count (holes table) a
  length : t.length + f.length = table.length + flist.length
  le : p + size ≤ 4294967296
  addr : ∀ x ∈ t, ∃ h ∈ table, h.addr ≤ x.addr

theorem xalloczLoop_spec (hg : Good table)
    (h : xalloczLoop size table flist = some (p, t, f)) : Takes size table flist p t f := by
  induction table generalizing t with
  | nil => cases h
  | cons x l ih =>
    obtain ⟨⟨hxpos, hxle, hxtop⟩, hlt, hl⟩ := good_cons.mp hg
    rw [xalloczLoop] at h
    by_cases hle : size ≤ x.size
    · rw [if_pos hle] at h
      dsimp only at h
      by_cases hall : x.size - size = 0
      · rw [if_pos hall] at h
        cases h
        have hsize : size = x.size := by omega
        refine ⟨hl, fun a => ?_, ?_, ?_, fun y hy => ⟨y, List.mem_cons_of_mem _ hy, le_rfl⟩⟩
        · rw [hsize]
          rfl
        · simp only [List.length_cons]
          omega
        · omega
      · rw [if_neg hall] at h
        cases h
        have haddr : (x.addr + size) % 4294967296 = x.addr + size := Nat.mod_eq_of_lt (by omega)
        rw [haddr]
        refine ⟨good_cons.mpr ⟨⟨?_, ?_, ?_⟩, fun y hy => ?_, hl⟩, fun a => ?_, rfl, ?_,
          fun y hy => ?_⟩
        · dsimp only
          omega
        · dsimp only
          omega
        · dsimp only
          rw [hxtop]
          congr 1
          omega
        · have := hlt y hy
          dsimp only
          omega
        · rw [holes_cons, holes_cons]
          have hsplit : x.range = ⟨x.addr, size + (x.size - size)⟩ := by
            rw [Hole.range]
            congr 1
            omega
          rw [hsplit, count_join]
          rfl
        · omega
        · obtain rfl | hy := List.mem_cons.mp hy
          · exact ⟨x, List.mem_cons_self, Nat.le_add_right _ _⟩
          · exact ⟨y, List.mem_cons_of_mem _ hy, le_rfl⟩
    · rw [if_neg hle, Option.map_eq_some_iff] at h
      obtain ⟨⟨p', t', f'⟩, ht', heq⟩ := h
      cases heq
      obtain ⟨htg, htc, htl, htle, hta⟩ := ih hl ht'
      refine ⟨good_cons.mpr ⟨⟨hxpos, hxle, hxtop⟩, fun y hy => ?_, htg⟩, fun a => ?_, ?_, htle,
        fun y hy => ?_⟩
      · obtain ⟨c, hc, hcy⟩ := hta y hy
        exact (hlt c hc).trans_le hcy
      · rw [holes_cons, count_perm (List.Perm.swap _ _ _), count_cons, htc a, ← count_cons,
          holes_cons]
      · simp only [List.length_cons] at htl ⊢
        omega
      · obtain rfl | hy := List.mem_cons.mp hy
        · exact ⟨y, List.mem_cons_self, le_rfl⟩
        · obtain ⟨c, hc, hcy⟩ := hta y hy
          exact ⟨c, List.mem_cons_of_mem _ hc, hcy⟩

/-! ### The memory -/

variable {mem mem' : ℕ → UInt8} {bs : List UInt8} {x i : ℕ}

theorem put_of_not_mem (hx : x < 4294967296) (hle : a + bs.length ≤ 4294967296)
    (h : ¬ (⟨a, bs.length⟩ : Range).Holds x) : put mem a bs x = mem x := by
  rw [holds_mk] at h
  rw [put, if_pos hx, List.getElem?_eq_none (by omega), Option.getD_none]

theorem put_of_lt (hi : i < bs.length) (hle : a + bs.length ≤ 4294967296) :
    put mem a bs (a + i) = bs[i] := by
  have hidx : (a + i + 4294967296 - a) % 4294967296 = i := by omega
  rw [put, if_pos (by omega), hidx, List.getElem?_eq_getElem hi, Option.getD_some]

theorem put_replicate {n : ℕ} (hx : x < 4294967296) : put mem a (List.replicate n 0) x =
    if (x + 4294967296 - a) % 4294967296 < n then 0 else mem x := by
  rw [put, if_pos hx, List.getElem?_replicate]
  split <;> rfl

/-- The chunk's header is in its place. -/
structure Header (mem : ℕ → UInt8) (r : Range) : Prop where
  size : getl mem r.addr = r.size
  magix : getl mem (r.addr + 4) = Magichole

/-- A word depends on its four bytes. -/
theorem getl_congr (h : ∀ i < 4, mem' ((a + i) % 4294967296) = mem ((a + i) % 4294967296)) :
    getl mem' a = getl mem a := by
  rw [getl, getl]
  exact congrArg nhgetl (List.map_congr_left fun i hi => h i (List.mem_range.mp hi))

/-- A header depends on its eight bytes. -/
theorem Header.congr {r : Range} (hr : Header mem r) (hle : r.addr + datoff ≤ 4294967296)
    (h : ∀ x, (⟨r.addr, datoff⟩ : Range).Holds x → mem' x = mem x) : Header mem' r := by
  unfold datoff at hle
  refine ⟨?_, ?_⟩
  · rw [← hr.size]
    refine getl_congr fun i hi => h _ (holds_mk.mpr ?_)
    unfold datoff
    omega
  · rw [← hr.magix]
    refine getl_congr fun i hi => h _ (holds_mk.mpr ?_)
    unfold datoff
    omega

/-- The header of a chunk that was just cut. -/
theorem header_of_bytes {r : Range} (hle : r.addr + datoff ≤ 4294967296)
    (hsize : r.size < 4294967296)
    (h : ∀ i (hi : i < (xhdr r.size).length), mem (r.addr + i) = (xhdr r.size)[i]) :
    Header mem r := by
  unfold datoff at hle
  refine ⟨?_, ?_⟩
  · have hbytes : ((List.range 4).map fun i => mem ((r.addr + i) % 4294967296)) =
        hnputl r.size := by
      refine List.ext_getElem (by simp) fun i hi _ => ?_
      rw [List.length_map, List.length_range] at hi
      rw [List.getElem_map, List.getElem_range, Nat.mod_eq_of_lt (by omega),
        h i (by simp [xhdr]; omega)]
      exact List.getElem_append_left (by simpa using hi)
    rw [getl, hbytes, nhgetl_hnputl, Nat.mod_eq_of_lt hsize]
  · have hbytes : ((List.range 4).map fun i => mem ((r.addr + 4 + i) % 4294967296)) =
        hnputl Magichole := by
      refine List.ext_getElem (by simp) fun i hi _ => ?_
      rw [List.length_map, List.length_range] at hi
      rw [List.getElem_map, List.getElem_range, Nat.mod_eq_of_lt (by omega), Nat.add_assoc,
        h (4 + i) (by simp [xhdr]; omega)]
      simp only [xhdr]
      rw [List.getElem_append_right (by simp)]
      simp
    rw [getl, hbytes, nhgetl_hnputl]
    rfl

theorem chunk_lt : chunk size < 4294967296 ∧ chunk size % 8 = 0 := by
  unfold chunk BY2V
  omega

theorem datoff_le_chunk (h : datoff ≤ (size + (BY2V + sizeofXhdr)) % 4294967296) :
    datoff ≤ chunk size := by
  unfold chunk BY2V datoff at *
  omega

/-- Where the clearing reaches: the chunk behind its header, and eight bytes more. -/
theorem stamp_apply {zero : Bool} (hx : x < 4294967296) : stamp mem p size zero x =
    if zero = true ∧ (x + 4294967296 - (p + datoff) % 4294967296) % 4294967296 < size then 0
    else put mem p (xhdr size) x := by
  unfold stamp
  cases zero with
  | false => rfl
  | true =>
    rw [if_pos rfl, put_replicate hx]
    simp only [true_and]

section Stamp

variable {zero : Bool} (hle : p + size ≤ 4294967296) (hdat : datoff ≤ size)
  (hsize : size < 4294967296) (hmod : size % 8 = 0)

include hle hdat hsize hmod

theorem header_stamp : Header (stamp mem p size zero) ⟨p, size⟩ := by
  unfold datoff at hdat
  refine header_of_bytes (by unfold datoff; dsimp only; omega) hsize fun i hi => ?_
  have hlen : (xhdr size).length = 8 := rfl
  dsimp only at hi ⊢
  -- the clearing stops short of the header, even where it wraps
  rw [stamp_apply (by omega), if_neg, put_of_lt hi (by omega)]
  unfold datoff
  omega

/-- A new chunk changes no byte outside exactly if it is not cleared or the eight bytes behind it
are zero. -/
theorem stamp_frame_iff :
    (∀ x < 4294967296, ¬ (⟨p, size⟩ : Range).Holds x → stamp mem p size zero x = mem x) ↔
      (zero = true → ∀ i < datoff, mem ((p + size + i) % 4294967296) = 0) := by
  have hlen : (xhdr size).length = 8 := rfl
  unfold datoff at hdat
  constructor
  · intro h hz i hi
    unfold datoff at hi
    rw [← h _ (by omega) (by rw [holds_mk]; omega), stamp_apply (by omega), if_pos]
    refine ⟨hz, ?_⟩
    unfold datoff
    omega
  · intro h x hx hout
    rw [holds_mk] at hout
    rw [stamp_apply hx]
    split
    · rename_i hcond
      obtain ⟨hz, hlt⟩ := hcond
      unfold datoff at hlt
      have hxi : x = (p + size + (x + 4294967296 - (p + size) % 4294967296) % 4294967296) %
          4294967296 := by omega
      rw [hxi]
      refine (h hz _ ?_).symm
      unfold datoff
      omega
    · exact put_of_not_mem hx (by omega) (by rw [holds_mk]; omega)

end Stamp

/-! ### The steps -/

/-- The invariant of the runs. -/
structure Inv (s : System) : Prop where
  table : Good s.arena.table
  descriptors : s.arena.table.length + s.arena.flist.length = Nhole
  live : ∀ r ∈ s.live, datoff ≤ r.size ∧ r.addr + r.size ≤ 4294967296 ∧ r.size < 4294967296 ∧
    Header s.arena.mem r
  count : ∀ a, count (s.live ++ holes s.arena.table ++ s.leaked) a = count s.given a
  given : s.given.Pairwise Apart

variable {s t : System} {arena arena' : Arena} {n : ℕ}

theorem inv_start (mem : ℕ → UInt8) : Inv (start mem) where
  table := ⟨nofun, .nil⟩
  descriptors := (Nat.zero_add _).trans List.length_replicate
  live := nofun
  count _ := rfl
  given := .nil

/-- What `xhole` makes of the arena. -/
theorem xhole_spec (hg : Good arena.table) (hle : addr + size ≤ 4294967296)
    (hap : 0 < size → ∀ h ∈ arena.table, (⟨addr, size⟩ : Range).Apart h.range)
    (hw : 0 < size → Unwrapped arena.table addr size) (h : xhole arena addr size = (arena', n)) :
    Good arena'.table ∧ arena'.mem = arena.mem ∧
      arena'.table.length + arena'.flist.length = arena.table.length + arena.flist.length ∧
      ∀ a, count (holes arena'.table ++ lost addr n) a =
        count (⟨addr, size⟩ :: holes arena.table) a := by
  rw [xhole] at h
  by_cases hsize : size = 0
  · rw [if_pos hsize] at h
    cases h
    refine ⟨hg, rfl, rfl, fun a => ?_⟩
    rw [count_cons, if_neg (by rw [holds_mk]; omega), lost, if_pos rfl, List.append_nil,
      Nat.add_zero]
  have hpos : 0 < size := by omega
  rw [if_neg hsize] at h
  split at h
  · cases h
    refine ⟨hg, rfl, rfl, fun a => ?_⟩
    rw [lost, if_neg hsize]
    exact count_perm (List.perm_append_singleton _ _)
  · rename_i heq
    cases h
    obtain ⟨hgood, hcount, hlen, -⟩ := xholeLoop_spec hg hpos hle (hap hpos) (hw hpos) heq
    refine ⟨hgood, rfl, hlen, fun a => ?_⟩
    rw [lost, if_pos rfl, List.append_nil]
    exact hcount a

/-- A range none of whose addresses is in a hole is apart from the holes. -/
theorem apart_holes (hg : Good arena.table) (hpos : 0 < size)
    (h : ∀ a, (⟨addr, size⟩ : Range).Holds a → count (holes arena.table) a = 0) :
    ∀ h ∈ arena.table, (⟨addr, size⟩ : Range).Apart h.range := by
  intro x hx
  refine apart_of_forall hpos (hg.hole x hx).pos fun a ha => ?_
  exact count_eq_zero.mp (h a ha) _ (List.mem_map_of_mem hx)

theorem Inv.once (h : Inv s) (a : ℕ) : Range.count s.given a ≤ 1 := count_le_one h.given

theorem inv_hole (h : Inv s) (hok : Ok s (.hole addr size))
    (hex : exec s (.hole addr size) = some t) : Inv t := by
  obtain ⟨htable, hdesc, hlive, hcount, hgiven⟩ := h
  rw [exec] at hex
  split at hex
  swap
  · cases hex
  rename_i hcond
  obtain ⟨⟨-, -, hle⟩, hap⟩ := hcond
  rcases hx : xhole s.arena addr size with ⟨arena', n⟩
  rw [hx] at hex
  cases hex
  have hfree : ∀ a, (⟨addr, size⟩ : Range).Holds a → Range.count (holes s.arena.table) a = 0 := by
    intro a ha
    have hzero : Range.count s.given a = 0 :=
      count_eq_zero.mpr fun r hr => (hap r hr).not_holds ha
    have := hcount a
    rw [hzero, count_append, count_append] at this
    omega
  obtain ⟨hg', hmem, hlen, hc⟩ := xhole_spec htable hle
    (fun hpos => apart_holes htable hpos hfree) hok hx
  refine ⟨hg', hlen.trans hdesc, fun r hr => ?_, fun a => ?_, List.pairwise_cons.mpr ⟨hap, hgiven⟩⟩
  · rw [hmem]
    exact hlive r hr
  · have h1 := hc a
    have h2 := hcount a
    simp only [count_append, count_cons] at h1 h2 ⊢
    omega

/-- An address of a chunk in use is in no other chunk and in no hole. -/
theorem Inv.holds_live (h : Inv s) {r : Range} (hr : r ∈ s.live) (ha : r.Holds a) :
    Range.count (s.live.erase r) a = 0 ∧ Range.count (holes s.arena.table) a = 0 := by
  have h1 := h.count a
  have h2 := h.once a
  have h3 := count_erase (a := a) hr
  rw [if_pos ha] at h3
  rw [count_append, count_append] at h1
  omega

/-- A chunk in use can be returned, and `xfree` finds its size. -/
theorem xfree_live (h : Inv s) {r : Range} (hr : r ∈ s.live) :
    xfree s.arena ((r.addr + datoff) % 4294967296) = some (xhole s.arena r.addr r.size) := by
  obtain ⟨hdat, hle, -, hsize, hmagix⟩ := h.live r hr
  unfold datoff at hdat
  have haddr : ((r.addr + datoff) % 4294967296 + 4294967296 - datoff) % 4294967296 = r.addr := by
    unfold datoff
    omega
  rw [xfree]
  rw [haddr, hmagix, if_neg (not_not_intro rfl), hsize]

theorem inv_free (h : Inv s) {r : Range} (hok : Ok s (.free r)) (hex : exec s (.free r) = some t) :
    Inv t := by
  rw [exec] at hex
  split at hex
  swap
  · cases hex
  rename_i hr
  rw [xfree_live h hr] at hex
  rcases hx : xhole s.arena r.addr r.size with ⟨arena', n⟩
  rw [hx] at hex
  cases hex
  have hfree : ∀ a, (⟨r.addr, r.size⟩ : Range).Holds a → Range.count (holes s.arena.table) a = 0 :=
    fun a ha => (h.holds_live hr ha).2
  obtain ⟨hg', hmem, hlen, hc⟩ := xhole_spec h.table (h.live r hr).2.1
    (fun hpos => apart_holes h.table hpos hfree) (fun _ => hok) hx
  refine ⟨hg', hlen.trans h.descriptors, fun r' hr' => ?_, fun a => ?_, h.given⟩
  · rw [hmem]
    exact h.live r' (List.mem_of_mem_erase hr')
  · have h1 : Range.count (holes arena'.table ++ lost r.addr n) a =
        Range.count (r :: holes s.arena.table) a := hc a
    have h2 := h.count a
    have h3 := count_erase (a := a) hr
    simp only [count_append, count_cons] at h1 h2 h3 ⊢
    omega

/-- What a successful `xallocz` does. -/
theorem xallocz_some {zero : Bool} (h : xallocz arena size zero = some (p, arena')) :
    ∃ q, xalloczLoop (chunk size) arena.table arena.flist = some (q, arena'.table, arena'.flist) ∧
      p = (q + datoff) % 4294967296 ∧ arena'.mem = stamp arena.mem q (chunk size) zero := by
  rw [xallocz, Option.map_eq_some_iff] at h
  obtain ⟨⟨q, t, f⟩, hloop, heq⟩ := h
  cases heq
  exact ⟨q, hloop, rfl, rfl⟩

theorem sub_datoff {q : ℕ} (h : q < 4294967296) :
    ((q + datoff) % 4294967296 + 4294967296 - datoff) % 4294967296 = q := by
  unfold datoff
  omega

/-- A new chunk changes no byte outside exactly if what is cleared behind it is zero already. -/
theorem xallocz_frame_iff (hg : Good arena.table) {zero : Bool}
    (hdat : datoff ≤ (size + (BY2V + sizeofXhdr)) % 4294967296)
    (h : xallocz arena size zero = some (p, arena')) :
    (∀ a < 4294967296, ¬ (⟨(p + 4294967296 - datoff) % 4294967296, chunk size⟩ : Range).Holds a →
      arena'.mem a = arena.mem a) ↔ (zero = true → Zeroed arena size) := by
  obtain ⟨q, hloop, rfl, hmem⟩ := xallocz_some h
  have hle := (xalloczLoop_spec hg hloop).le
  have hchunk := datoff_le_chunk hdat
  unfold datoff at hchunk
  obtain ⟨x, hfind, rfl⟩ := xalloczLoop_find hloop
  rw [hmem, sub_datoff (by omega), stamp_frame_iff hle hchunk chunk_lt.1 chunk_lt.2, Zeroed]
  refine forall_congr' fun _ => ⟨fun hz y hy => ?_, fun hz => hz x hfind⟩
  rw [hfind] at hy
  cases hy
  exact hz

theorem inv_alloc (h : Inv s) {zero : Bool} (hok : Ok s (.alloc size zero))
    (hex : exec s (.alloc size zero) = some t) : Inv t := by
  obtain ⟨hdat, hzero⟩ := hok
  rw [exec] at hex
  split at hex
  swap
  · cases hex
  split at hex
  · cases hex
    exact h
  rename_i p arena' hx
  cases hex
  have hframe := (xallocz_frame_iff h.table hdat hx).mpr hzero
  obtain ⟨q, hloop, rfl, hmem⟩ := xallocz_some hx
  obtain ⟨hg', hcount, hlen, hle, -⟩ := xalloczLoop_spec h.table hloop
  have hchunk := datoff_le_chunk hdat
  rw [sub_datoff (by unfold datoff at hchunk; omega)] at hframe ⊢
  have hall : ∀ a, Range.count (⟨q, chunk size⟩ :: s.live ++ holes arena'.table ++ s.leaked) a =
      Range.count s.given a := by
    intro a
    have h1 := hcount a
    have h2 := h.count a
    simp only [count_append, count_cons] at h1 h2 ⊢
    omega
  refine ⟨hg', hlen.trans h.descriptors, fun r hr => ?_, hall, h.given⟩
  dsimp only at hr ⊢
  obtain rfl | hr := List.mem_cons.mp hr
  · rw [hmem]
    exact ⟨hchunk, hle, chunk_lt.1, header_stamp hle hchunk chunk_lt.1 chunk_lt.2⟩
  · -- the header of another chunk is not in the new one
    obtain ⟨hr8, hrle, hrlt, hhdr⟩ := h.live r hr
    refine ⟨hr8, hrle, hrlt, hhdr.congr (by omega) fun x hx => ?_⟩
    rw [holds_mk] at hx
    refine hframe x (by omega) fun hin => ?_
    have hpos : 0 < Range.count s.live x := count_pos.mpr ⟨r, hr, by unfold Holds; omega⟩
    have h1 := hall x
    have h2 := h.once x
    rw [List.cons_append, List.cons_append, count_cons, if_pos hin, count_append, count_append]
      at h1
    omega

theorem inv_store (h : Inv s) {b : UInt8} (hex : exec s (.store a b) = some t) : Inv t := by
  rw [exec] at hex
  split at hex
  swap
  · cases hex
  rename_i hcond
  cases hex
  obtain ⟨ha, hout⟩ := hcond
  refine ⟨h.table, h.descriptors, fun r hr => ?_, h.count, h.given⟩
  obtain ⟨hr8, hrle, hrlt, hhdr⟩ := h.live r hr
  refine ⟨hr8, hrle, hrlt, hhdr.congr (by omega) fun x hx => ?_⟩
  have hne : x ≠ a := fun heq => hout r hr (heq ▸ hx)
  rw [holds_mk] at hx
  exact put_of_not_mem (by omega) ha (by rw [holds_mk, List.length_singleton]; omega)

/-- Each step that meets the condition keeps the invariant. -/
theorem inv_exec (h : Inv s) {e : Event} (hok : Ok s e) (hex : exec s e = some t) : Inv t := by
  cases e with
  | hole addr size => exact inv_hole h hok hex
  | alloc size zero => exact inv_alloc h hok hex
  | free r => exact inv_free h hok hex
  | store a b => exact inv_store h hex

/-- The invariant gives the integrity of the arena. -/
theorem Inv.integrity (h : Inv s) : Integrity s := by
  have hle : ∀ a, Range.count (s.live ++ holes s.arena.table) a ≤ 1 := by
    intro a
    have h1 := h.count a
    have h2 := h.once a
    rw [count_append] at h1
    omega
  refine ⟨pairwise_apart (fun r hr => ?_) hle, h.table.sorted, fun hnil a => ?_, h.once,
    h.descriptors, fun r hr => ?_⟩
  · obtain hr | hr := List.mem_append.mp hr
    · have := (h.live r hr).1
      unfold datoff at this
      omega
    · obtain ⟨x, hx, rfl⟩ := List.mem_map.mp hr
      exact (h.table.hole x hx).pos
  · have := h.count a
    rwa [hnil, List.append_nil] at this
  · rw [xfree_live h hr]
    rfl

/-! ### Runs -/

/-- The arena keeps its integrity in every run whose steps meet the condition, and a chunk taken in
a state of such a run changes no byte outside exactly if what is cleared behind it is zero. -/
theorem integrity_of_run {mem : ℕ → UInt8}
    (h : Run (fun s e t => exec s e = some t) Ok (start mem) s) :
    Integrity s ∧ ∀ size zero p arena',
      datoff ≤ (size + (BY2V + sizeofXhdr)) % 4294967296 →
      xallocz s.arena size zero = some (p, arena') →
      ((∀ a < 4294967296,
        ¬ (⟨(p + 4294967296 - datoff) % 4294967296, chunk size⟩ : Range).Holds a →
          arena'.mem a = s.arena.mem a) ↔ (zero = true → Zeroed s.arena size)) := by
  have hinv : Inv s := h.invariant (inv_start mem) fun _ _ _ hi hok hst => inv_exec hi hok hst
  exact ⟨hinv.integrity, fun _ _ _ _ hdat hx => xallocz_frame_iff hinv.table hdat hx⟩

/-- A chunk is taken from fresh memory and cleared. -/
theorem integrity_one_chunk : ∃ s,
    Run (fun s e t => exec s e = some t) Ok (start fun _ => 0) s ∧ s.live = [⟨4096, 24⟩] ∧
      Integrity s := by
  have h : Run (fun s e t => exec s e = some t) Ok (start fun _ => 0) _ :=
    (Run.nil.snoc (e := .hole 4096 4096) (fun _ => ⟨nofun, by decide⟩) rfl).snoc
      (e := .alloc 4 true) ⟨by decide, fun _ _ _ _ _ => rfl⟩ rfl
  exact ⟨_, h, rfl, (integrity_of_run h).1⟩

/-- Two chunks are taken side by side and the first is returned. -/
def neighbours : List Event :=
  [.hole 4096 4096, .alloc 4 false, .alloc 4 false, .free ⟨4096, 24⟩]

/-- Taking the first chunk again and clearing it changes a byte of the other chunk's header, which
then cannot be returned. -/
theorem not_integrity_neighbours : ∃ s t,
    Run (fun s e t => exec s e = some t) (fun _ _ => True) (start fun _ => 0) s ∧
      exec s (.alloc 4 true) = some t ∧ t.live = [⟨4096, 24⟩, ⟨4120, 24⟩] ∧
      t.arena.mem 4124 ≠ s.arena.mem 4124 ∧ exec t (.free ⟨4120, 24⟩) = none := by
  have h : (neighbours.foldlM exec (start fun _ => 0)).any fun s =>
      (exec s (.alloc 4 true)).any fun t =>
        t.live = [⟨4096, 24⟩, ⟨4120, 24⟩] ∧ t.arena.mem 4124 ≠ s.arena.mem 4124 ∧
          (exec t (.free ⟨4120, 24⟩)).isNone := by decide +kernel
  obtain ⟨s, hs, h⟩ := (Option.any_eq_true _ _).mp h
  obtain ⟨t, ht, h⟩ := (Option.any_eq_true _ _).mp h
  obtain ⟨hlive, hmem, hfree⟩ := of_decide_eq_true h
  exact ⟨s, t, .of_foldlM hs, ht, hlive, hmem, Option.isNone_iff_eq_none.mp hfree⟩

end PlanNine.Xalloc
