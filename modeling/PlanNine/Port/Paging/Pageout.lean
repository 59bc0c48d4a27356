import Mathlib.Data.Nat.Bitwise
import PlanNine.Port.Paging.Page
import PlanNine.Port.Paging.Swap

/-!
# The pager

`pageout` of `swap.c`, with the page tables of a segment after `page.c` and `segment.c`. A table
keeps its first and its last used entry. `pageout` goes over the entries of all tables: a page that
was referenced since the last time is spared once, and another one is given a swap slot, noted in
the cache of the swap image and put on the list of pages to be written. The scan stops in front of
the last used entry, where all others that walk a table include it, and so the page there is never
reached.

Pages are known by numbers. Whether the locks can be had, and whether all processors that use the
segment can be made to forget its addresses, are inputs, and so the reference to the segment that
`pageout` takes and drops is left out. The bits that processors set in between are none, and the
pages are not written in between.

## Main definitions

* `Entry`, `Pte`, `Segment`: entries, page tables and segments.
* `ptealloc`, `Pte.enter`, `segpage`, `ptecpy`: the tables, as they are made.
* `Pager`, `pagepte`, `scan`, `pageout`: the pager.
* `Ranged`: the used entries of a table lie between its first and its last one.
* `Reached`: all pages have gone to slots of their own.

## Main results

* `ranged_ptealloc`, `Ranged.enter`, `ranged_ptecpy`: the ranges of the tables.
* `reached_iff`: two calls reach all pages just when no table has one at its last used entry.
-/

namespace PlanNine.Paging

open Links Palloc
open Swap (Swapalloc newswap dupswap BY2PG)

def PTEMAPMEM : ℕ := 1024 * 1024

def PTEPERTAB : ℕ := PTEMAPMEM / BY2PG

def PG_MOD : ℕ := 0x01

def PG_REF : ℕ := 0x02

/-- What a page table has for an address: nothing, a page, or a swap address. -/
inductive Entry
  | empty
  | page (p : ℕ)
  | swap (daddr : ℕ)
  deriving DecidableEq, Repr

structure Pte where
  pages : List Entry
  first : ℕ
  last : ℕ
  deriving DecidableEq, Repr

inductive SegType
  | SG_TEXT
  | SG_DATA
  | SG_BSS
  | SG_STACK
  | SG_SHARED
  | SG_PHYSICAL
  deriving DecidableEq, Repr

structure Segment where
  type : SegType
  base : ℕ
  top : ℕ
  steal : Bool
  map : List (Option Pte)
  deriving DecidableEq, Repr

/-- The pages, the swap slots, and the pages that are to be written. -/
structure Pager where
  pool : Palloc
  alloc : Swapalloc
  iolist : List ℕ
  nswppo : ℕ

/-! ### Page tables -/

def ptealloc : Pte := ⟨List.replicate PTEPERTAB .empty, PTEPERTAB, 0⟩

/-- An entry is used, as `segpage` and `fixfault` do it. -/
def Pte.enter (l : Pte) (pg : ℕ) (e : Entry) : Pte :=
  ⟨l.pages.set pg e, if pg < l.first then pg else l.first, if l.last < pg then pg else l.last⟩

/-- Put a page into a segment. There is no result for an address outside of it. -/
def segpage (s : Segment) (pool : Palloc) (p : ℕ) : Option Segment :=
  let va := (pool.page p).va
  if va < s.base ∨ s.top ≤ va then none
  else
    let off := va - s.base
    let pte := (s.map.getD (off / PTEMAPMEM) none).getD ptealloc
    some { s with
      map := s.map.set (off / PTEMAPMEM)
        (some (pte.enter (off % PTEMAPMEM / BY2PG) (.page p))) }

namespace Pager

def setPool (t : Pager) (pool : Palloc) : Pager := { t with pool := pool }

/-- One more reference to what an entry has. -/
def copyEntry (t : Pager) : Entry → Option Pager
  | .empty => some t
  | .page p =>
      some (t.setPool (t.pool.setPage p
        { t.pool.page p with ref := ((t.pool.page p).ref + 1) % 2 ^ 16 }))
  | .swap daddr =>
      match dupswap t.alloc daddr with
      | .error _ => none
      | .ok alloc => some { t with alloc := alloc }

/-- The loop of `ptecpy` over the entries from the first one to the last one. -/
def copyFrom (old : Pte) : ℕ → ℕ → Pte → Pager → Option (Pte × Pager)
  | 0, _, new, t => some (new, t)
  | n + 1, src, new, t =>
      match old.pages.getD src .empty with
      | .empty => copyFrom old n (src + 1) new t
      | e =>
          (t.copyEntry e).bind
            (copyFrom old n (src + 1) { new with pages := new.pages.set src e, last := src })

def ptecpy (t : Pager) (old : Pte) : Option (Pte × Pager) :=
  copyFrom old (old.last + 1 - old.first) old.first { ptealloc with first := old.first } t

/-! ### Paging out -/

/-- The bit that a page was used. -/
def referenced (t : Pager) (p : ℕ) : Bool := (t.pool.page p).modref &&& PG_REF ≠ 0

def unreference (t : Pager) (p : ℕ) : Pager :=
  t.setPool (t.pool.setPage p
    { t.pool.page p with modref := Nat.ldiff (t.pool.page p).modref PG_REF })

/-- What `pagepte` does for a page that goes to the swap device. -/
def swapout (t : Pager) (outp : ℕ) : Option (Entry × Pager) :=
  match newswap t.alloc with
  | .error _ => none
  | .ok (daddr, alloc) =>
      if daddr = ulong (-1) then some (.page outp, { t with alloc := alloc })
      else
        (t.pool.cachedel swapimage daddr).bind fun (_, pool) =>
          (pool.uncachepage outp).bind fun pool =>
            let pool := pool.setPage outp { pool.page outp with
              ref := ((pool.page outp).ref + 1) % 2 ^ 16, daddr := daddr }
            (pool.cachepage outp swapimage).map fun pool =>
              (.swap daddr, { t with pool, alloc, iolist := t.iolist ++ [outp] })

/-- Page one page out. The entry that is left is part of the result. -/
def pagepte (t : Pager) (type : SegType) (outp : ℕ) : Option (Entry × Pager) :=
  match type with
  | .SG_TEXT => (t.pool.putpage outp).map fun pool => (.empty, t.setPool pool)
  | .SG_DATA | .SG_BSS | .SG_STACK | .SG_SHARED => t.swapout outp
  | .SG_PHYSICAL => some (.page outp, t)

/-- The loop over the entries of one table. The first part of the result tells that the list of
pages to be written is full. -/
def scan (type : SegType) : List Entry → Pager → Option (Bool × List Entry × Pager)
  | [], t => some (false, [], t)
  | .page p :: pgs, t =>
      if t.referenced p then
        (scan type pgs (t.unreference p)).map fun (out, pgs, t) => (out, .page p :: pgs, t)
      else
        (t.pagepte type p).bind fun (entry, t) =>
          if t.nswppo ≤ t.iolist.length then some (true, entry :: pgs, t)
          else (scan type pgs t).map fun (out, pgs, t) => (out, entry :: pgs, t)
  | entry :: pgs, t => (scan type pgs t).map fun (out, pgs, t) => (out, entry :: pgs, t)

/-- The loop over the tables. The entries that `scan` gets are those from `first` on, as long as
they lie in front of `last`. -/
def scanMap (type : SegType) : List (Option Pte) → Pager → Option (List (Option Pte) × Pager)
  | [], t => some ([], t)
  | none :: map, t => (scanMap type map t).map fun (map, t) => (none :: map, t)
  | some l :: map, t =>
      let pgs := l.pages.drop l.first
      (scan type (pgs.take (l.last - l.first)) t).bind fun (out, pgs', t) =>
        let l := { l with pages := l.pages.take l.first ++ (pgs' ++ pgs.drop (l.last - l.first)) }
        if out then some (some l :: map, t)
        else (scanMap type map t).map fun (map, t) => (some l :: map, t)

def pageout (t : Pager) (canqlock canflush : Bool) (s : Segment) : Option (Segment × Pager) :=
  if canqlock = false ∨ s.steal = true ∨ canflush = false then some (s, t)
  else (scanMap s.type s.map t).map fun (map, t) => ({ s with map }, t)

end Pager

open Pager

/-! ### What is asked for -/

/-- The used entries of a table lie between its first and its last one. -/
def Ranged (l : Pte) : Prop :=
  ∀ j e, l.pages[j]? = some e → e ≠ .empty → l.first ≤ j ∧ j ≤ l.last

/-- The page of an entry that has one. -/
def Entry.resident : Entry → Option ℕ
  | .page p => some p
  | _ => none

/-- The entries of a table, or none. -/
def entries (l : Option Pte) : List Entry := (l.map Pte.pages).getD []

/-- The pages that the tables of a list have. -/
def residentsOf (map : List (Option Pte)) : List ℕ :=
  (map.flatMap entries).filterMap Entry.resident

namespace Segment

/-- The entry at a place of a table. -/
def entry (s : Segment) (i j : ℕ) : Option Entry := (entries (s.map.getD i none))[j]?

/-- The pages that are in memory. -/
def residents (s : Segment) : List ℕ := residentsOf s.map

/-- The tables of a segment are ranged, and it has a page once. -/
structure Formed (s : Segment) (n : ℕ) : Prop where
  ranged : ∀ l, some l ∈ s.map → Ranged l
  nodup : s.residents.Nodup
  lt : ∀ p ∈ s.residents, p < n

end Segment

namespace Pager

/-- The chains of pages are those of their images, and what is kept beside the swap map is right. -/
structure Ready (t : Pager) : Prop where
  chains : Rows t.pool.hash t.pool.key t.pool.n
  free : t.alloc.free = t.alloc.swmap.count 0
  low : ∀ i < t.alloc.last, t.alloc.swmap[i]? ≠ some 0
  length : t.alloc.swmap.length ≤ 1048576

/-- A page is that of a slot in the cache of the swap image. -/
def Cached (t : Pager) (p k : ℕ) : Prop := t.pool.Matches swapimage (k * BY2PG) p

end Pager

/-- No page is left in memory. The pages and the slots of the list `new` have come to the list of
pages to be written, each page once and each with a slot that only it has, and the slots are in
the page tables and in the cache of the swap image. -/
def Reached (s s' : Segment) (t t' : Pager) : Prop :=
  (∀ i j p, s'.entry i j ≠ some (.page p)) ∧ Ready t' ∧ ∃ new : List (ℕ × ℕ),
    t'.iolist = t.iolist ++ new.map Prod.fst ∧ (new.map Prod.fst).Perm s.residents ∧
    (new.map Prod.fst).Nodup ∧ (new.map Prod.snd).Nodup ∧
    (∀ pk ∈ new, t.alloc.swmap[pk.2]? = some 0 ∧ t'.alloc.swmap[pk.2]? = some 1 ∧
      t'.Cached pk.1 pk.2) ∧
    (∀ i j p, s.entry i j = some (.page p) →
      ∃ k, (p, k) ∈ new ∧ s'.entry i j = some (.swap (k * BY2PG))) ∧
    ∀ i j, (∀ p, s.entry i j ≠ some (.page p)) → s'.entry i j = s.entry i j

variable {s s' : Segment} {t t' t'' : Pager} {type : SegType} {p q k : ℕ} {es : List Entry}
  {rs rs' : List ℕ} {new new' : List (ℕ × ℕ)} {l : Pte}

/-! ### Ranges -/

theorem ranged_ptealloc : Ranged ptealloc := by
  intro j e hj hne
  exact absurd (List.eq_of_mem_replicate (List.mem_of_getElem? hj)) hne

theorem Ranged.enter (h : Ranged l) (pg : ℕ) (e : Entry) : Ranged (l.enter pg e) := by
  intro j e' hj hne
  unfold Pte.enter at hj ⊢
  dsimp only at hj ⊢
  by_cases hpg : pg = j
  · subst hpg
    split_ifs <;> omega
  · rw [List.getElem?_set_ne hpg] at hj
    obtain ⟨hfirst, hlast⟩ := h j e' hj hne
    split_ifs <;> omega

/-- What has been copied lies in front of where the loop is. -/
theorem ranged_copyFrom (old : Pte) : ∀ (n src : ℕ) (new : Pte) (t : Pager) {r : Pte × Pager},
    copyFrom old n src new t = some r → Ranged new → new.first ≤ src → new.last ≤ src →
      Ranged r.1 := by
  intro n
  induction n with
  | zero =>
    rintro src new t r hr hnew - -
    obtain rfl := Option.some.inj hr
    exact hnew
  | succ n ih =>
    intro src new t r hr hnew hfirst hlast
    unfold copyFrom at hr
    split at hr
    · exact ih _ _ _ hr hnew (Nat.le_succ_of_le hfirst) (Nat.le_succ_of_le hlast)
    · obtain ⟨t₁, -, hr⟩ := Option.bind_eq_some_iff.mp hr
      refine ih _ _ _ hr (fun j e hj hne => ?_) (Nat.le_succ_of_le hfirst) (Nat.le_succ src)
      dsimp only at hj ⊢
      by_cases hsrc : src = j
      · exact ⟨hsrc ▸ hfirst, hsrc.ge⟩
      · rw [List.getElem?_set_ne hsrc] at hj
        obtain ⟨h₁, h₂⟩ := hnew j e hj hne
        exact ⟨h₁, h₂.trans hlast⟩

/-- A copy of a table is ranged, whatever the table is. -/
theorem ranged_ptecpy (old : Pte) {r : Pte × Pager} (h : t.ptecpy old = some r) : Ranged r.1 := by
  refine ranged_copyFrom old _ _ _ _ h (fun j e hj hne => ?_) le_rfl (Nat.zero_le _)
  exact absurd (List.eq_of_mem_replicate (List.mem_of_getElem? hj)) hne

/-! ### One page -/

/-- The pages and slots of `new` have gone out, and nothing else has changed that matters. -/
structure Outs (t t' : Pager) (new : List (ℕ × ℕ)) : Prop where
  ready : Ready t'
  n : t'.pool.n = t.pool.n
  nswppo : t'.nswppo = t.nswppo
  iolist : t'.iolist = t.iolist ++ new.map Prod.fst
  count : t'.alloc.swmap.count 0 + new.length = t.alloc.swmap.count 0
  slots : ∀ pk ∈ new, t.alloc.swmap[pk.2]? = some 0 ∧ t'.alloc.swmap[pk.2]? = some 1
  own : (new.map Prod.snd).Nodup
  others : ∀ k ∉ new.map Prod.snd, t'.alloc.swmap[k]? = t.alloc.swmap[k]?
  cached : ∀ pk ∈ new, t'.Cached pk.1 pk.2
  kept : ∀ p ∉ new.map Prod.fst, ∀ k, t.Cached p k → t.alloc.swmap[k]? ≠ some 0 → t'.Cached p k

theorem Outs.refl (h : Ready t) : Outs t t [] where
  ready := h
  n := rfl
  nswppo := rfl
  iolist := (List.append_nil _).symm
  count := rfl
  slots := nofun
  own := List.nodup_nil
  others _ _ := rfl
  cached := nofun
  kept _ _ _ hc _ := hc

theorem Outs.trans (h : Outs t t' new) (h' : Outs t' t'' new')
    (hdisj : ∀ p ∈ new.map Prod.fst, p ∉ new'.map Prod.fst) : Outs t t'' (new ++ new') := by
  have hne : ((1 : UInt8) = 0) → False := by decide
  -- The slots of the second part were free before the first part too.
  have hnew' : ∀ pk ∈ new', pk.2 ∉ new.map Prod.snd := by
    intro pk hpk hin
    obtain ⟨pk', hpk', heq⟩ := List.mem_map.mp hin
    have hone := (h.slots pk' hpk').2
    rw [heq, (h'.slots pk hpk).1] at hone
    exact hne (Option.some.inj hone).symm
  have hnew : ∀ pk ∈ new, pk.2 ∉ new'.map Prod.snd := by
    intro pk hpk hin
    obtain ⟨pk', hpk', heq⟩ := List.mem_map.mp hin
    exact hnew' pk' hpk' (heq ▸ List.mem_map_of_mem hpk)
  refine ⟨h'.ready, h'.n.trans h.n, h'.nswppo.trans h.nswppo, ?_, ?_, ?_, ?_, ?_, ?_, ?_⟩
  · rw [h'.iolist, h.iolist, List.map_append, List.append_assoc]
  · have hcount := h.count
    have hcount' := h'.count
    rw [List.length_append]
    omega
  · intro pk hpk
    obtain hpk | hpk := List.mem_append.mp hpk
    · rw [h'.others _ (hnew pk hpk)]
      exact h.slots pk hpk
    · rw [← h.others _ (hnew' pk hpk)]
      exact h'.slots pk hpk
  · rw [List.map_append]
    refine h.own.append h'.own fun k hk hk' => ?_
    obtain ⟨pk, hpk, rfl⟩ := List.mem_map.mp hk
    exact hnew pk hpk hk'
  · intro k hk
    rw [List.map_append, List.mem_append, not_or] at hk
    rw [h'.others k hk.2, h.others k hk.1]
  · intro pk hpk
    obtain hpk | hpk := List.mem_append.mp hpk
    · refine h'.kept _ (hdisj _ (List.mem_map_of_mem hpk)) _ (h.cached pk hpk) ?_
      rw [(h.slots pk hpk).2]
      exact fun hz => hne (Option.some.inj hz)
    · exact h'.cached pk hpk
  · intro p hp k hc hk
    rw [List.map_append, List.mem_append, not_or] at hp
    refine h'.kept p hp.2 k (h.kept p hp.1 k hc hk) fun hz => ?_
    by_cases hin : k ∈ new.map Prod.snd
    · obtain ⟨pk, hpk, rfl⟩ := List.mem_map.mp hin
      rw [(h.slots pk hpk).2] at hz
      exact hne (Option.some.inj hz)
    · rw [h.others k hin] at hz
      exact hk hz

/-- The allocator behind a search that has found a slot. -/
theorem ready_newswap (h : Ready t) (hz : 0 ∈ t.alloc.swmap) : ∃ k alloc,
    newswap t.alloc = .ok (k * BY2PG, alloc) ∧ k * BY2PG ≠ ulong (-1) ∧
      t.alloc.swmap[k]? = some 0 ∧ alloc.swmap = t.alloc.swmap.set k 1 ∧
      alloc.swmap.count 0 + 1 = t.alloc.swmap.count 0 ∧
      ∀ pool iolist, Rows pool.hash pool.key pool.n → Ready ⟨pool, alloc, iolist, t.nswppo⟩ := by
  obtain ⟨hnot, -⟩ | ⟨k, hk, hbefore, haddr, heq⟩ := Swap.newswap_eq h.free h.low h.length
  · exact absurd hz hnot
  obtain ⟨hlt, -⟩ := List.getElem?_eq_some_iff.mp hk
  have hcount := Swap.count_set_byte (b := 1) hlt
  rw [List.getD_eq_getElem?_getD, hk, Option.getD_some, if_pos rfl, if_neg (by decide),
    add_zero] at hcount
  refine ⟨k, _, heq, haddr.ne, hk, rfl, ?_, fun pool iolist hr => ⟨hr, ?_, fun j hj hjz => ?_, ?_⟩⟩
  · dsimp only
    omega
  · have hfree := h.free
    dsimp only
    omega
  · dsimp only at hj hjz
    rw [List.getElem?_set_ne hj.ne'] at hjz
    exact hbefore j hj hjz
  · exact List.length_set.trans_le h.length

/-- The pages of the swap cache when the page for a disc address has left it. -/
theorem ready_cachedel (hr : Rows t.pool.hash t.pool.key t.pool.n) (i daddr : ℕ) :
    ∃ f pool, t.pool.cachedel i daddr = some (f, pool) ∧ Rows pool.hash pool.key pool.n ∧
      pool.n = t.pool.n ∧ (∀ q, (pool.page q).modref = (t.pool.page q).modref) ∧
      ∀ q, ¬ t.pool.Matches i daddr q → pool.page q = t.pool.page q := by
  obtain ⟨r, hr', rfl | ⟨f, pool, rfl, hlt, hmatch, hd⟩⟩ := cachedel_spec hr i daddr
  · exact ⟨_, _, hr', hr, rfl, fun _ => rfl, fun _ _ => rfl⟩
  · refine ⟨_, _, hr', hd.chains, hd.moves.n, fun q => ?_, fun q hq => hd.page q ?_⟩
    · by_cases hqf : q = f
      · obtain ⟨daddr', hself⟩ := hd.self
        rw [hqf, hself]
      · rw [hd.page q hqf]
    · rintro rfl
      exact hq hmatch

/-- A page goes to a slot that was free. -/
theorem swapout_spec (h : Ready t) (hp : p < t.pool.n) (hz : 0 ∈ t.alloc.swmap) : ∃ k t',
    t.swapout p = some (.swap (k * BY2PG), t') ∧ Outs t t' [(p, k)] ∧
      ∀ q, t'.referenced q = t.referenced q := by
  obtain ⟨k, alloc, hnew, hword, hk, hswmap, hcount, hready⟩ := ready_newswap h hz
  obtain ⟨f, s₁, hs₁, hr₁, hn₁, hmod₁, hpage₁⟩ :=
    ready_cachedel h.chains swapimage (k * BY2PG)
  obtain ⟨s₂, hs₂, hd⟩ := uncachepage_spec hr₁ (hn₁.symm ▸ hp)
  have hn₂ := hd.moves.n.trans hn₁
  obtain ⟨daddr, hself₂⟩ := hd.self
  unfold swapout
  rw [hnew]
  dsimp only
  rw [if_neg hword, hs₁, Option.bind_some]
  dsimp only
  rw [hs₂, Option.bind_some]
  set pg := { s₂.page p with ref := ((s₂.page p).ref + 1) % 2 ^ 16, daddr := k * BY2PG }
  have himage : (s₂.page p).image = none := by rw [hself₂]
  have hquiet : Quiet s₂ (s₂.setPage p pg) := quiet_setPage rfl (.inl himage)
  have hself₃ : (s₂.setPage p pg).page p = pg := setPage_page_self
  have hnone₃ : ((s₂.setPage p pg).page p).image = none := by rw [hself₃, ← himage]
  have hp₃ : p < (s₂.setPage p pg).n := by
    rw [hquiet.n, hn₂]
    exact hp
  obtain ⟨s₄, hs₄, hr₄, hnames⟩ :=
    cachepage_spec (hquiet.chains hd.chains) hp₃ hnone₃ swapimage
  rw [hs₄, Option.map_some]
  have hself₄ : s₄.page p = { pg with image := some swapimage } := by rw [hnames.self, hself₃]
  have hpage₄ : ∀ q, q ≠ p → s₄.page q = s₁.page q := fun q hq =>
    (hnames.page q hq).trans ((setPage_page_of_ne hq).trans (hd.page q hq))
  have hmod₄ : ∀ q, (s₄.page q).modref = (t.pool.page q).modref := by
    intro q
    by_cases hq : q = p
    · have hmod : (s₄.page p).modref = (s₂.page p).modref := by rw [hself₄]
      rw [hq, hmod, hself₂, ← hmod₁]
    · rw [hpage₄ q hq, hmod₁]
  refine ⟨k, _, rfl, ⟨hready _ _ hr₄, ?_, rfl, rfl, ?_, ?_, List.nodup_singleton k, ?_, ?_, ?_⟩,
    fun q => ?_⟩
  · exact hnames.moves.n.trans (hquiet.n.trans hn₂)
  · exact hcount
  · intro pk hpk
    obtain rfl := List.mem_singleton.mp hpk
    obtain ⟨hlt, -⟩ := List.getElem?_eq_some_iff.mp hk
    refine ⟨hk, ?_⟩
    dsimp only
    rw [hswmap, List.getElem?_set_self hlt]
  · intro j hj
    have hjk : k ≠ j := fun heq => hj (List.mem_singleton.mpr heq.symm)
    dsimp only
    rw [hswmap, List.getElem?_set_ne hjk]
  · intro pk hpk
    obtain rfl := List.mem_singleton.mp hpk
    unfold Cached Matches
    dsimp only
    rw [hself₄]
    exact ⟨rfl, rfl⟩
  · intro q hq j hc hj
    have hqp : q ≠ p := fun heq => hq (List.mem_singleton.mpr heq)
    have hnot : ¬ t.pool.Matches swapimage (k * BY2PG) q := fun hm => by
      have hjk : j = k := Nat.eq_of_mul_eq_mul_right (by decide) (hc.2.symm.trans hm.2)
      exact hj (hjk ▸ hk)
    unfold Cached Matches at hc ⊢
    dsimp only
    rw [hpage₄ q hqp, hpage₁ q hnot]
    exact hc
  · unfold referenced
    dsimp only
    rw [hmod₄]

/-! ### The scan -/

/-- The pages of `rs` have been looked at: those that were not referenced have gone out, and the
others are not marked any more. -/
structure Swept (t t' : Pager) (rs : List ℕ) (new : List (ℕ × ℕ)) : Prop where
  outs : Outs t t' new
  nodup : (new.map Prod.fst).Nodup
  mem : ∀ p, p ∈ new.map Prod.fst ↔ p ∈ rs ∧ t.referenced p = false
  spared : ∀ p ∈ rs, p ∉ new.map Prod.fst → t'.referenced p = false
  same : ∀ p ∉ rs, t'.referenced p = t.referenced p

theorem Swept.nil (h : Ready t) : Swept t t [] [] where
  outs := .refl h
  nodup := List.nodup_nil
  mem _ := iff_of_false nofun fun hc => absurd hc.1 nofun
  spared := nofun
  same _ _ := rfl

theorem Swept.append (h : Swept t t' rs new) (h' : Swept t' t'' rs' new')
    (hdisj : rs.Disjoint rs') : Swept t t'' (rs ++ rs') (new ++ new') := by
  have hsep : ∀ p ∈ new.map Prod.fst, p ∉ new'.map Prod.fst := fun p hp hp' =>
    hdisj ((h.mem p).mp hp).1 ((h'.mem p).mp hp').1
  refine ⟨h.outs.trans h'.outs hsep, ?_, fun p => ?_, fun p hp hnot => ?_, fun p hp => ?_⟩
  · rw [List.map_append]
    exact h.nodup.append h'.nodup hsep
  · rw [List.map_append, List.mem_append, List.mem_append, h.mem, h'.mem, or_and_right]
    refine or_congr_right (and_congr_right fun hp => ?_)
    rw [h.same p fun hin => hdisj hin hp]
  · rw [List.map_append, List.mem_append, not_or] at hnot
    obtain hp | hp := List.mem_append.mp hp
    · rw [h'.same p fun hin => hdisj hp hin]
      exact h.spared p hp hnot.1
    · exact h'.spared p hp hnot.2
  · rw [List.mem_append, not_or] at hp
    rw [h'.same p hp.2, h.same p hp.1]

/-- The bit of a page is cleared. -/
theorem swept_unreference (h : Ready t) (hp : t.referenced p = true) :
    Swept t (t.unreference p) [p] [] := by
  have hpage : ∀ q, q ≠ p → (t.unreference p).pool.page q = t.pool.page q := fun q hq =>
    setPage_page_of_ne hq
  have hself : (t.unreference p).pool.page p =
      { t.pool.page p with modref := Nat.ldiff (t.pool.page p).modref PG_REF } := setPage_page_self
  have hdaddr : ∀ q, ((t.unreference p).pool.page q).image = (t.pool.page q).image ∧
      ((t.unreference p).pool.page q).daddr = (t.pool.page q).daddr := by
    intro q
    by_cases hq : q = p
    · rw [hq, hself]
      exact ⟨rfl, rfl⟩
    · rw [hpage q hq]
      exact ⟨rfl, rfl⟩
  have hkey : ∀ q, (t.unreference p).pool.key q = t.pool.key q := fun q => by
    unfold key
    rw [(hdaddr q).1, (hdaddr q).2]
  have hquiet : Quiet t.pool (t.unreference p).pool :=
    ⟨rfl, rfl, rfl, rfl, fun q => ⟨(hdaddr q).1, hkey q⟩⟩
  refine ⟨⟨⟨hquiet.chains h.chains, h.free, h.low, h.length⟩, rfl, rfl, ?_, rfl, nofun,
    List.nodup_nil, fun _ _ => rfl, nofun, fun q _ k hc _ => ?_⟩, List.nodup_nil, fun q => ?_,
    fun q hq _ => ?_, fun q hq => ?_⟩
  · exact (List.append_nil _).symm
  · unfold Cached Matches at hc ⊢
    rw [(hdaddr q).1, (hdaddr q).2]
    exact hc
  · refine iff_of_false nofun fun hc => ?_
    rw [List.mem_singleton.mp hc.1, hp] at hc
    exact absurd hc.2 nofun
  · obtain rfl := List.mem_singleton.mp hq
    unfold referenced
    rw [hself]
    have hzero : Nat.ldiff (t.pool.page q).modref PG_REF &&& PG_REF = 0 :=
      Nat.eq_of_testBit_eq fun i => by simp [Nat.testBit_ldiff]
    simpa using hzero
  · have hqp : q ≠ p := fun heq => hq (List.mem_singleton.mpr heq)
    unfold referenced
    rw [hpage q hqp]

/-- A page without the bit goes out. -/
theorem swept_swapout (h : Outs t t' [(p, k)]) (hp : t.referenced p = false)
    (hmod : ∀ q, t'.referenced q = t.referenced q) : Swept t t' [p] [(p, k)] where
  outs := h
  nodup := List.nodup_singleton p
  mem q := by
    refine iff_self_and.mpr fun hq => ?_
    rw [List.mem_singleton.mp hq]
    exact hp
  spared q hq hnot := absurd hq hnot
  same q _ := hmod q

/-- An entry behind the pages of `new`. -/
def Entry.out (new : List (ℕ × ℕ)) : Entry → Entry
  | .page p => (new.lookup p).elim (.page p) fun k => .swap (k * BY2PG)
  | e => e

theorem lookup_none (hp : p ∉ new.map Prod.fst) : new.lookup p = none := by
  refine List.lookup_eq_none_iff.mpr fun pk hpk => bne_iff_ne.mpr ?_
  rintro rfl
  exact hp (List.mem_map_of_mem hpk)

theorem lookup_some (hp : p ∈ new.map Prod.fst) : ∃ k, (p, k) ∈ new ∧ new.lookup p = some k := by
  cases hk : new.lookup p with
  | none =>
    obtain ⟨pk, hpk, rfl⟩ := List.mem_map.mp hp
    exact absurd rfl (bne_iff_ne.mp (List.lookup_eq_none_iff.mp hk pk hpk))
  | some k =>
    obtain ⟨xs, ys, rfl, -⟩ := List.lookup_eq_some_iff.mp hk
    exact ⟨k, List.mem_append_right _ List.mem_cons_self, rfl⟩

theorem out_page_of_not (hp : p ∉ new.map Prod.fst) : (Entry.page p).out new = .page p := by
  rw [Entry.out, lookup_none hp]
  rfl

theorem out_page (hp : p ∈ new.map Prod.fst) :
    ∃ k, (p, k) ∈ new ∧ (Entry.page p).out new = .swap (k * BY2PG) := by
  obtain ⟨k, hk, hlookup⟩ := lookup_some hp
  refine ⟨k, hk, ?_⟩
  rw [Entry.out, hlookup]
  rfl

theorem mem_residents : p ∈ es.filterMap Entry.resident ↔ .page p ∈ es := by
  rw [List.mem_filterMap]
  constructor
  · rintro ⟨e, he, hp⟩
    cases e with
    | page q =>
      obtain rfl := Option.some.inj hp
      exact he
    | empty => cases hp
    | swap => cases hp
  · exact fun h => ⟨_, h, rfl⟩

/-- Entries without a page of `new` stay. -/
theorem map_out (h : ∀ p ∈ es.filterMap Entry.resident, p ∉ new.map Prod.fst) :
    es.map (Entry.out new) = es := by
  refine (List.map_congr_left fun e he => ?_).trans (List.map_id es)
  cases e with
  | page q => exact out_page_of_not (h q (mem_residents.mpr he))
  | empty => rfl
  | swap => rfl

/-- Pages that none of the entries has do not matter. -/
theorem map_out_append (h : ∀ p ∈ es.filterMap Entry.resident, p ∉ new.map Prod.fst) :
    es.map (Entry.out (new ++ new')) = es.map (Entry.out new') := by
  refine List.map_congr_left fun e he => ?_
  cases e with
  | page q =>
    rw [Entry.out, Entry.out, List.lookup_append, lookup_none (h q (mem_residents.mpr he)),
      Option.none_or]
  | empty => rfl
  | swap => rfl

theorem pagepte_eq (hs : type ≠ .SG_TEXT) (hs' : type ≠ .SG_PHYSICAL) :
    t.pagepte type p = t.swapout p := by
  cases type with
  | SG_TEXT => exact absurd rfl hs
  | SG_PHYSICAL => exact absurd rfl hs'
  | _ => rfl

/-- There is room on the list for the pages of `rs` and for `extra` others, and slots for them. -/
structure Room (t : Pager) (rs : List ℕ) (extra : ℕ) : Prop where
  ready : Ready t
  nodup : rs.Nodup
  lt : ∀ p ∈ rs, p < t.pool.n
  slots : rs.length + extra ≤ t.alloc.swmap.count 0
  iolist : t.iolist.length + (rs.length + extra) ≤ t.nswppo

/-- What room is left behind some of the pages. -/
theorem Room.next (h : Room t (rs ++ rs') k) (h' : Swept t t' rs new) : Room t' rs' k := by
  obtain ⟨hnodup, hnodup', -⟩ := List.nodup_append'.mp h.nodup
  have hlen : new.length ≤ rs.length := by
    rw [← List.length_map (f := Prod.fst)]
    exact (h'.nodup.subperm fun p hp => ((h'.mem p).mp hp).1).length_le
  have hslots := h.slots
  have hiolist := h.iolist
  have hcount := h'.outs.count
  rw [List.length_append] at hslots hiolist
  refine ⟨h'.outs.ready, hnodup', fun p hp => ?_, by omega, ?_⟩
  · rw [h'.outs.n]
    exact h.lt p (List.mem_append_right _ hp)
  · rw [h'.outs.nswppo, h'.outs.iolist, List.length_append, List.length_map]
    omega

/-- The scan of the entries of a table, where there is room for its pages. When it stops early, it
has come to the last page. -/
theorem scan_spec (hs : type ≠ .SG_TEXT) (hs' : type ≠ .SG_PHYSICAL) {extra : ℕ}
    (h : Room t (es.filterMap Entry.resident) extra) : ∃ out new t',
      scan type es t = some (out, es.map (Entry.out new), t') ∧
        Swept t t' (es.filterMap Entry.resident) new ∧ (out = true → extra = 0) := by
  induction es generalizing t with
  | nil => exact ⟨false, [], t, rfl, .nil h.ready, nofun⟩
  | cons e es ih =>
    cases e with
    | empty =>
      obtain ⟨out, new, t', hscan, hswept, hout⟩ := ih h
      refine ⟨out, new, t', ?_, hswept, hout⟩
      rw [scan, hscan]
      · rfl
      · exact nofun
    | swap daddr =>
      obtain ⟨out, new, t', hscan, hswept, hout⟩ := ih h
      refine ⟨out, new, t', ?_, hswept, hout⟩
      rw [scan, hscan]
      · rfl
      · exact nofun
    | page p =>
      have hres : (Entry.page p :: es).filterMap Entry.resident =
          [p] ++ es.filterMap Entry.resident := rfl
      rw [hres] at h ⊢
      obtain ⟨-, -, hdisj⟩ := List.nodup_append'.mp h.nodup
      have hnot : p ∉ es.filterMap Entry.resident := fun hp => hdisj List.mem_cons_self hp
      cases hp : t.referenced p with
      | true =>
        have hfirst := swept_unreference h.ready hp
        obtain ⟨out, new, t', hscan, hswept, hout⟩ := ih (h.next hfirst)
        refine ⟨out, new, t', ?_, hfirst.append hswept hdisj, hout⟩
        rw [scan, if_pos hp, hscan, Option.map_some, List.map_cons,
          out_page_of_not fun hin => hnot ((hswept.mem p).mp hin).1]
      | false =>
        have hslots := h.slots
        have hio := h.iolist
        rw [List.length_append, List.length_singleton] at hslots hio
        have hz : 0 ∈ t.alloc.swmap := List.count_pos_iff.mp (by omega)
        obtain ⟨k, t₁, hpte, houts, hmod⟩ := swapout_spec h.ready (h.lt p (by simp)) hz
        have hfirst := swept_swapout houts hp hmod
        have hself : (Entry.page p).out [(p, k)] = .swap (k * BY2PG) := by
          rw [Entry.out, List.lookup_cons_self]
          rfl
        have hothers : ∀ q ∈ es.filterMap Entry.resident, q ∉ [(p, k)].map Prod.fst := by
          intro q hq heq
          obtain rfl : q = p := List.mem_singleton.mp heq
          exact hnot hq
        rw [scan, if_neg (by simp [hp]), pagepte_eq hs hs', hpte, Option.bind_some]
        dsimp only
        split_ifs with hfull
        · -- The list is full, so the rest of the entries has no page.
          rw [houts.nswppo, houts.iolist, List.length_append] at hfull
          have hone : ([(p, k)].map Prod.fst).length = 1 := rfl
          have hrest : es.filterMap Entry.resident = [] := List.eq_nil_of_length_eq_zero (by omega)
          refine ⟨true, [(p, k)], t₁, ?_, ?_, fun _ => by omega⟩
          · rw [List.map_cons, hself, map_out hothers]
          · rw [hrest, List.append_nil]
            exact hfirst
        · obtain ⟨out, new, t', hscan, hswept, hout⟩ := ih (h.next hfirst)
          refine ⟨out, [(p, k)] ++ new, t', ?_, hfirst.append hswept hdisj, hout⟩
          have hself' : (Entry.page p).out ([(p, k)] ++ new) = .swap (k * BY2PG) := by
            rw [Entry.out, List.singleton_append, List.lookup_cons_self]
            rfl
          rw [hscan, Option.map_some, List.map_cons, map_out_append hothers, hself']

/-! ### The tables -/

/-- The pages of a table lie where the scan comes. -/
def Inner (l : Pte) : Prop :=
  (l.pages.take l.first).filterMap Entry.resident = [] ∧
    ((l.pages.drop l.first).drop (l.last - l.first)).filterMap Entry.resident = []

/-- Where the last used entry has no page, the scan comes to all pages. -/
theorem inner_of_ranged (h : Ranged l) (hlast : ∀ p, l.pages[l.last]? ≠ some (.page p)) :
    Inner l := by
  constructor <;> refine List.eq_nil_iff_forall_not_mem.mpr fun p hp => ?_
  · obtain ⟨j, hj⟩ := List.mem_iff_getElem?.mp (mem_residents.mp hp)
    rw [List.getElem?_take] at hj
    split_ifs at hj with hlt
    obtain ⟨hfirst, -⟩ := h j _ hj nofun
    omega
  · obtain ⟨j, hj⟩ := List.mem_iff_getElem?.mp (mem_residents.mp hp)
    rw [List.getElem?_drop, List.getElem?_drop] at hj
    obtain ⟨-, hle⟩ := h _ _ hj nofun
    have heq : l.first + (l.last - l.first + j) = l.last := by omega
    exact hlast p (heq ▸ hj)

theorem residents_inner (h : Inner l) : l.pages.filterMap Entry.resident =
    ((l.pages.drop l.first).take (l.last - l.first)).filterMap Entry.resident := by
  have hsplit := List.take_append_drop l.first l.pages
  have hsplit' := List.take_append_drop (l.last - l.first) (l.pages.drop l.first)
  rw [← hsplit', ← List.append_assoc] at hsplit
  conv_lhs => rw [← hsplit]
  rw [List.filterMap_append, List.filterMap_append, h.1, h.2, List.append_nil, List.nil_append]

/-- A table behind the pages of `new`. -/
def Pte.out (new : List (ℕ × ℕ)) (l : Pte) : Pte := { l with pages := l.pages.map (Entry.out new) }

/-- What the scan puts together is the table behind the pages that have gone. -/
theorem pte_out_eq (h : Inner l) : Pte.out new l = { l with
    pages := l.pages.take l.first ++
      (((l.pages.drop l.first).take (l.last - l.first)).map (Entry.out new) ++
        (l.pages.drop l.first).drop (l.last - l.first)) } := by
  have hfirst : (l.pages.take l.first).map (Entry.out new) = l.pages.take l.first :=
    map_out fun p hp => by
      rw [h.1] at hp
      cases hp
  have hrest : ((l.pages.drop l.first).drop (l.last - l.first)).map (Entry.out new) =
      (l.pages.drop l.first).drop (l.last - l.first) := map_out fun p hp => by
    rw [h.2] at hp
    cases hp
  unfold Pte.out
  congr 1
  conv_lhs => rw [← List.take_append_drop l.first l.pages, List.map_append, hfirst,
    ← List.take_append_drop (l.last - l.first) (l.pages.drop l.first), List.map_append, hrest]

theorem pte_out_of_not (h : ∀ p ∈ l.pages.filterMap Entry.resident, p ∉ new.map Prod.fst) :
    l.out new = l := by
  unfold Pte.out
  rw [map_out h]

theorem residentsOf_cons (l : Option Pte) (map : List (Option Pte)) :
    residentsOf (l :: map) = (entries l).filterMap Entry.resident ++ residentsOf map := by
  unfold residentsOf
  rw [List.flatMap_cons, List.filterMap_append]

theorem map_pte_out {map : List (Option Pte)}
    (h : ∀ p ∈ residentsOf map, p ∉ new.map Prod.fst) :
    map.map (Option.map (Pte.out new)) = map := by
  induction map with
  | nil => rfl
  | cons l map ih =>
    rw [residentsOf_cons] at h
    rw [List.map_cons, ih fun p hp => h p (List.mem_append_right _ hp)]
    cases l with
    | none => rfl
    | some l =>
      rw [Option.map_some, pte_out_of_not fun p hp => h p (List.mem_append_left _ hp)]

theorem map_pte_out_append {map : List (Option Pte)}
    (h : ∀ p ∈ residentsOf map, p ∉ new.map Prod.fst) :
    map.map (Option.map (Pte.out (new ++ new'))) = map.map (Option.map (Pte.out new')) := by
  induction map with
  | nil => rfl
  | cons l map ih =>
    rw [residentsOf_cons] at h
    rw [List.map_cons, List.map_cons, ih fun p hp => h p (List.mem_append_right _ hp)]
    cases l with
    | none => rfl
    | some l =>
      have hself : l.pages.map (Entry.out (new ++ new')) = l.pages.map (Entry.out new') :=
        map_out_append fun p hp => h p (List.mem_append_left _ hp)
      rw [Option.map_some, Option.map_some, Pte.out, Pte.out, hself]

theorem pte_out_append (h : ∀ p ∈ l.pages.filterMap Entry.resident, p ∉ new'.map Prod.fst) :
    l.out (new ++ new') = l.out new := by
  unfold Pte.out
  congr 1
  refine List.map_congr_left fun e he => ?_
  cases e with
  | page q =>
    rw [Entry.out, Entry.out, List.lookup_append, lookup_none (h q (mem_residents.mpr he)),
      Option.or_none]
  | empty => rfl
  | swap => rfl

theorem Room.left (h : Room t (rs ++ rs') 0) : Room t rs rs'.length where
  ready := h.ready
  nodup := (List.nodup_append'.mp h.nodup).1
  lt p hp := h.lt p (List.mem_append_left _ hp)
  slots := by simpa using h.slots
  iolist := by simpa using h.iolist

/-- The scan of all tables. -/
theorem scanMap_spec (hs : type ≠ .SG_TEXT) (hs' : type ≠ .SG_PHYSICAL) {map : List (Option Pte)}
    (hin : ∀ l, some l ∈ map → Inner l) (h : Room t (residentsOf map) 0) : ∃ new t',
      scanMap type map t = some (map.map (Option.map (Pte.out new)), t') ∧
        Swept t t' (residentsOf map) new := by
  induction map generalizing t with
  | nil => exact ⟨[], t, rfl, .nil h.ready⟩
  | cons l map ih =>
    have hin' : ∀ l, some l ∈ map → Inner l := fun l hl => hin l (List.mem_cons_of_mem _ hl)
    cases l with
    | none =>
      obtain ⟨new, t', hscan, hswept⟩ := ih hin' h
      refine ⟨new, t', ?_, hswept⟩
      rw [scanMap, hscan]
      rfl
    | some l =>
      have hinner := hin l List.mem_cons_self
      have hres : (entries (some l)).filterMap Entry.resident = _ := residents_inner hinner
      rw [residentsOf_cons, hres] at h ⊢
      obtain ⟨-, -, hdisj⟩ := List.nodup_append'.mp h.nodup
      obtain ⟨out, new, t₁, hscan, hswept, hout⟩ := scan_spec hs hs' h.left
      have hnot : ∀ p ∈ residentsOf map, p ∉ new.map Prod.fst := fun p hp hin =>
        hdisj ((hswept.mem p).mp hin).1 hp
      rw [scanMap]
      dsimp only
      rw [hscan, Option.bind_some]
      dsimp only
      rw [← pte_out_eq hinner]
      split_ifs with hfull
      · have hrest : residentsOf map = [] := List.eq_nil_of_length_eq_zero (hout hfull)
        refine ⟨new, t₁, ?_, ?_⟩
        · rw [List.map_cons, map_pte_out hnot]
          rfl
        · rw [hrest, List.append_nil]
          exact hswept
      · obtain ⟨new', t', hscan', hswept'⟩ := ih hin' (h.next hswept)
        refine ⟨new ++ new', t', ?_, hswept.append hswept' hdisj⟩
        have hself : l.out (new ++ new') = l.out new := pte_out_append fun p hp hp' =>
          hdisj (residents_inner hinner ▸ hp) ((hswept'.mem p).mp hp').1
        rw [hscan', Option.map_some, List.map_cons, map_pte_out_append hnot, Option.map_some, hself]

theorem pageout_spec (hs : s.type ≠ .SG_TEXT) (hs' : s.type ≠ .SG_PHYSICAL)
    (hsteal : s.steal = false) (hin : ∀ l, some l ∈ s.map → Inner l) (h : Room t s.residents 0) :
    ∃ new t', t.pageout true true s =
        some ({ s with map := s.map.map (Option.map (Pte.out new)) }, t') ∧
      Swept t t' s.residents new := by
  obtain ⟨new, t', hscan, hswept⟩ := scanMap_spec hs hs' hin h
  refine ⟨new, t', ?_, hswept⟩
  rw [pageout, if_neg (by simp [hsteal]), hscan]
  rfl

/-! ### Two passes -/

theorem residents_cons (p : ℕ) (es : List Entry) : (Entry.page p :: es).filterMap Entry.resident =
    p :: es.filterMap Entry.resident := rfl

theorem residents_out : (es.map (Entry.out new)).filterMap Entry.resident =
    (es.filterMap Entry.resident).filter (· ∉ new.map Prod.fst) := by
  induction es with
  | nil => rfl
  | cons e es ih =>
    cases e with
    | empty => exact ih
    | swap => exact ih
    | page p =>
      rw [List.map_cons, residents_cons]
      by_cases hp : p ∈ new.map Prod.fst
      · obtain ⟨k, -, hk⟩ := out_page hp
        rw [hk, List.filter_cons_of_neg (by simpa using hp)]
        exact ih
      · rw [out_page_of_not hp, residents_cons, List.filter_cons_of_pos (by simpa using hp), ih]

theorem entries_out (l : Option Pte) :
    entries (l.map (Pte.out new)) = (entries l).map (Entry.out new) := by
  cases l <;> rfl

theorem residentsOf_out (map : List (Option Pte)) :
    residentsOf (map.map (Option.map (Pte.out new))) =
      (residentsOf map).filter (· ∉ new.map Prod.fst) := by
  unfold residentsOf
  rw [← residents_out, List.flatMap_map, List.map_flatMap]
  congr 2
  funext l
  exact entries_out l

theorem Inner.out (h : Inner l) : Inner (l.out new) := by
  unfold Inner Pte.out
  dsimp only
  rw [← List.map_take, ← List.map_drop, ← List.map_drop, residents_out, residents_out, h.1, h.2]
  exact ⟨rfl, rfl⟩

theorem out_out (e : Entry) : (e.out new).out new' = e.out (new ++ new') := by
  cases e with
  | page p =>
    rw [Entry.out, Entry.out, List.lookup_append]
    cases new.lookup p <;> rfl
  | empty => rfl
  | swap => rfl

theorem entry_out (s : Segment) (i j : ℕ) :
    { s with map := s.map.map (Option.map (Pte.out new)) }.entry i j =
      (s.entry i j).map (Entry.out new) := by
  unfold Segment.entry
  have hget : (s.map.map (Option.map (Pte.out new))).getD i none =
      (s.map.getD i none).map (Pte.out new) := by
    rw [List.getD_eq_getElem?_getD, List.getD_eq_getElem?_getD, List.getElem?_map]
    cases s.map[i]? <;> rfl
  dsimp only
  rw [hget, entries_out, List.getElem?_map]

theorem mem_residents_of_entry {i j : ℕ} (h : s.entry i j = some (.page p)) :
    p ∈ s.residents := by
  unfold Segment.entry at h
  have hin := List.mem_of_getElem? h
  refine mem_residents.mpr (List.mem_flatMap.mpr ⟨_, ?_, hin⟩)
  rw [List.getD_eq_getElem?_getD] at hin ⊢
  cases hget : s.map[i]? with
  | none =>
    rw [hget] at hin
    cases hin
  | some l => exact List.mem_of_getElem? hget

/-- What is left for the second pass. -/
theorem Swept.room (h : Swept t t' rs new) (hroom : Room t rs 0) :
    Room t' (rs.filter (· ∉ new.map Prod.fst)) 0 := by
  set left := rs.filter (· ∉ new.map Prod.fst)
  have hleft : ∀ p, p ∈ left ↔ p ∈ rs ∧ p ∉ new.map Prod.fst := fun p => by
    rw [List.mem_filter, decide_eq_true_iff]
  have hnodup : left.Nodup := hroom.nodup.filter _
  have hboth : (new.map Prod.fst ++ left).Nodup :=
    h.nodup.append hnodup fun p hp hp' => ((hleft p).mp hp').2 hp
  have hlen : (new.map Prod.fst ++ left).length ≤ rs.length := by
    refine (hboth.subperm fun p hp => ?_).length_le
    obtain hp | hp := List.mem_append.mp hp
    · exact ((h.mem p).mp hp).1
    · exact ((hleft p).mp hp).1
  rw [List.length_append, List.length_map] at hlen
  have hslots := hroom.slots
  have hiolist := hroom.iolist
  have hcount := h.outs.count
  refine ⟨h.outs.ready, hnodup, fun p hp => ?_, by omega, ?_⟩
  · rw [h.outs.n]
    exact hroom.lt p ((hleft p).mp hp).1
  · rw [h.outs.nswppo, h.outs.iolist, List.length_append, List.length_map]
    omega

/-- Two passes reach all pages where the scan comes to all of them. -/
theorem reached_of_inner (hs : s.type ≠ .SG_TEXT) (hs' : s.type ≠ .SG_PHYSICAL)
    (hsteal : s.steal = false) (hin : ∀ l, some l ∈ s.map → Inner l) (h : Room t s.residents 0) :
    ∃ s₁ t₁ s₂ t₂, t.pageout true true s = some (s₁, t₁) ∧
      t₁.pageout true true s₁ = some (s₂, t₂) ∧ Reached s s₂ t t₂ := by
  obtain ⟨new, t₁, hpass, hswept⟩ := pageout_spec hs hs' hsteal hin h
  set s₁ := { s with map := s.map.map (Option.map (Pte.out new)) }
  have hres : s₁.residents = s.residents.filter (· ∉ new.map Prod.fst) := residentsOf_out s.map
  have hin₁ : ∀ l, some l ∈ s₁.map → Inner l := by
    intro l hl
    obtain ⟨l', hl', heq⟩ := List.mem_map.mp hl
    obtain ⟨l'', rfl, rfl⟩ := Option.map_eq_some_iff.mp heq
    exact (hin l'' hl').out
  have hroom : Room t₁ s₁.residents 0 := hres ▸ hswept.room h
  obtain ⟨new', t₂, hpass', hswept'⟩ := pageout_spec (s := s₁) hs hs' hsteal hin₁ hroom
  have hmem₁ : ∀ p, p ∈ s₁.residents ↔ p ∈ s.residents ∧ p ∉ new.map Prod.fst := fun p => by
    rw [hres, List.mem_filter, decide_eq_true_iff]
  -- A page that was spared is taken in the second pass.
  have hmem' : ∀ p, p ∈ new'.map Prod.fst ↔ p ∈ s₁.residents := by
    intro p
    rw [hswept'.mem, and_iff_left_iff_imp]
    intro hp
    exact hswept.spared p ((hmem₁ p).mp hp).1 ((hmem₁ p).mp hp).2
  have hsep : ∀ p ∈ new.map Prod.fst, p ∉ new'.map Prod.fst := fun p hp hp' =>
    ((hmem₁ p).mp ((hmem' p).mp hp')).2 hp
  have houts := hswept.outs.trans hswept'.outs hsep
  have hmem : ∀ p, p ∈ (new ++ new').map Prod.fst ↔ p ∈ s.residents := by
    intro p
    rw [List.map_append, List.mem_append, hmem', hmem₁]
    refine ⟨?_, fun hp => ?_⟩
    · rintro (hp | hp)
      · exact ((hswept.mem p).mp hp).1
      · exact hp.1
    · by_cases hnew : p ∈ new.map Prod.fst
      · exact .inl hnew
      · exact .inr ⟨hp, hnew⟩
  have hnodup : ((new ++ new').map Prod.fst).Nodup := by
    rw [List.map_append]
    exact hswept.nodup.append hswept'.nodup hsep
  have hentry : ∀ i j, { s₁ with map := s₁.map.map (Option.map (Pte.out new')) }.entry i j =
      (s.entry i j).map (Entry.out (new ++ new')) := by
    intro i j
    rw [entry_out, entry_out, Option.map_map]
    congr 1
    funext e
    exact out_out e
  refine ⟨s₁, t₁, _, t₂, hpass, hpass', fun i j p hp => ?_, houts.ready, new ++ new', houts.iolist,
    ?_, hnodup, houts.own, fun pk hpk => ?_, fun i j p hp => ?_, fun i j hp => ?_⟩
  · rw [hentry] at hp
    obtain ⟨e, he, hout⟩ := Option.map_eq_some_iff.mp hp
    cases e with
    | empty => cases hout
    | swap => cases hout
    | page q =>
      obtain ⟨k, -, hk⟩ := out_page ((hmem q).mpr (mem_residents_of_entry he))
      cases hk.symm.trans hout
  · exact (List.perm_ext_iff_of_nodup hnodup h.nodup).mpr hmem
  · obtain ⟨hold, hnew⟩ := houts.slots pk hpk
    exact ⟨hold, hnew, houts.cached pk hpk⟩
  · obtain ⟨k, hk, hout⟩ := out_page ((hmem p).mpr (mem_residents_of_entry hp))
    exact ⟨k, hk, by rw [hentry, hp, Option.map_some, hout]⟩
  · rw [hentry]
    cases he : s.entry i j with
    | none => rfl
    | some e =>
      cases e with
      | page q => exact absurd he (hp q)
      | empty => rfl
      | swap => rfl

/-! ### The last used entry -/

theorem length_scan {out : Bool} {es' : List Entry} (h : scan type es t = some (out, es', t')) :
    es'.length = es.length := by
  induction es generalizing t out es' with
  | nil =>
    cases h
    rfl
  | cons e es ih =>
    unfold scan at h
    split at h
    · rename_i heq
      cases heq
    · rename_i heq
      cases heq
      split_ifs at h
      · obtain ⟨⟨out₁, es₁, t₁⟩, hscan, hr⟩ := Option.map_eq_some_iff.mp h
        cases hr
        exact congrArg (· + 1) (ih hscan)
      · obtain ⟨⟨e₁, t₁⟩, -, hr⟩ := Option.bind_eq_some_iff.mp h
        dsimp only at hr
        split_ifs at hr
        · cases hr
          rfl
        · obtain ⟨⟨out₁, es₁, t₁⟩, hscan, hr⟩ := Option.map_eq_some_iff.mp hr
          cases hr
          exact congrArg (· + 1) (ih hscan)
    · rename_i heq
      cases heq
      obtain ⟨⟨out₁, es₁, t₁⟩, hscan, hr⟩ := Option.map_eq_some_iff.mp h
      cases hr
      exact congrArg (· + 1) (ih hscan)

/-- What the scan puts together has at the last used entry what it had. -/
theorem getElem?_last {es' : List Entry} {e : Entry} (hle : l.first ≤ l.last)
    (he : l.pages[l.last]? = some e)
    (hlen : es'.length = ((l.pages.drop l.first).take (l.last - l.first)).length) :
    (l.pages.take l.first ++ (es' ++ (l.pages.drop l.first).drop (l.last - l.first)))[l.last]? =
      some e := by
  obtain ⟨hlt, -⟩ := List.getElem?_eq_some_iff.mp he
  have hfirst : (l.pages.take l.first).length = l.first := by
    rw [List.length_take]
    omega
  have hmid : es'.length = l.last - l.first := by
    rw [hlen, List.length_take, List.length_drop]
    omega
  rw [List.getElem?_append_right (hfirst.trans_le hle), hfirst,
    List.getElem?_append_right hmid.le, hmid, Nat.sub_self, List.getElem?_drop,
    List.getElem?_drop, Nat.add_zero, Nat.add_sub_cancel' hle, he]

theorem scanMap_last {map map' : List (Option Pte)} (h : scanMap type map t = some (map', t'))
    {i : ℕ} {e : Entry} (hl : map[i]? = some (some l)) (hle : l.first ≤ l.last)
    (he : l.pages[l.last]? = some e) : ∃ l', map'[i]? = some (some l') ∧ l'.first = l.first ∧
      l'.last = l.last ∧ l'.pages[l.last]? = some e := by
  induction map generalizing t map' i with
  | nil => cases hl
  | cons x map ih =>
    cases x with
    | none =>
      rw [scanMap] at h
      obtain ⟨⟨map₁, t₁⟩, hscan, hr⟩ := Option.map_eq_some_iff.mp h
      cases hr
      cases i with
      | zero => cases hl
      | succ i => exact ih hscan hl
    | some x =>
      rw [scanMap] at h
      dsimp only at h
      obtain ⟨⟨out, es', t₁⟩, hscan, hr⟩ := Option.bind_eq_some_iff.mp h
      dsimp only at hr
      split_ifs at hr
      · cases hr
        cases i with
        | zero =>
          cases hl
          exact ⟨_, rfl, rfl, rfl, getElem?_last hle he (length_scan hscan)⟩
        | succ i => exact ⟨l, hl, rfl, rfl, he⟩
      · obtain ⟨⟨map₂, t₂⟩, hrest, hr⟩ := Option.map_eq_some_iff.mp hr
        cases hr
        cases i with
        | zero =>
          cases hl
          exact ⟨_, rfl, rfl, rfl, getElem?_last hle he (length_scan hscan)⟩
        | succ i => exact ih hrest hl

/-- A call leaves a page at the last used entry. -/
theorem pageout_last {canqlock canflush : Bool}
    (h : t.pageout canqlock canflush s = some (s', t')) {i : ℕ} {e : Entry}
    (hl : s.map[i]? = some (some l)) (hle : l.first ≤ l.last)
    (he : l.pages[l.last]? = some e) : ∃ l', s'.map[i]? = some (some l') ∧ l'.first = l.first ∧
      l'.last = l.last ∧ l'.pages[l.last]? = some e := by
  unfold pageout at h
  split_ifs at h
  · cases h
    exact ⟨l, hl, rfl, rfl, he⟩
  · obtain ⟨⟨map', t₁⟩, hscan, hr⟩ := Option.map_eq_some_iff.mp h
    cases hr
    exact scanMap_last hscan hl hle he

theorem not_reached {s₁ s₂ : Segment} {t₁ t₂ : Pager} (hl : some l ∈ s.map)
    (hle : l.first ≤ l.last) (he : l.pages[l.last]? = some (.page p))
    (hpass : t.pageout true true s = some (s₁, t₁))
    (hpass' : t₁.pageout true true s₁ = some (s₂, t₂)) : ¬ Reached s s₂ t t₂ := by
  intro hreached
  obtain ⟨i, hi⟩ := List.mem_iff_getElem?.mp hl
  obtain ⟨l₁, hl₁, hfirst₁, hlast₁, he₁⟩ := pageout_last hpass hi hle he
  rw [← hfirst₁, ← hlast₁] at hle
  rw [← hlast₁] at he₁
  obtain ⟨l₂, hl₂, -, -, he₂⟩ := pageout_last hpass' hl₁ hle he₁
  refine hreached.1 i l₁.last p ?_
  rw [Segment.entry, List.getD_eq_getElem?_getD, hl₂]
  exact he₂

/-- Two calls reach all pages of a segment that may be paged just when none of its tables has a
page at its last used entry. -/
theorem reached_iff (hs : s.type ≠ .SG_TEXT) (hs' : s.type ≠ .SG_PHYSICAL)
    (hsteal : s.steal = false) (hformed : s.Formed t.pool.n) (hready : Ready t)
    (hslots : s.residents.length ≤ t.alloc.swmap.count 0)
    (hio : t.iolist.length + s.residents.length ≤ t.nswppo) :
    (∃ s₁ t₁ s₂ t₂, t.pageout true true s = some (s₁, t₁) ∧
      t₁.pageout true true s₁ = some (s₂, t₂) ∧ Reached s s₂ t t₂) ↔
      ∀ l, some l ∈ s.map → ∀ p, l.pages[l.last]? ≠ some (.page p) := by
  constructor
  · rintro ⟨s₁, t₁, s₂, t₂, hpass, hpass', hreached⟩ l hl p he
    exact not_reached hl (hformed.ranged l hl _ _ he nofun).1 he hpass hpass' hreached
  · intro hlast
    have hin : ∀ l, some l ∈ s.map → Inner l := fun l hl =>
      inner_of_ranged (hformed.ranged l hl) (hlast l hl)
    exact reached_of_inner hs hs' hsteal hin
      ⟨hready, hformed.nodup, hformed.lt, hslots, hio⟩

/-! ### A machine that has not paged yet -/

/-- All pages are used, without images, and all slots are free. -/
def Pager.start (n nswap nswppo : ℕ) : Pager where
  pool :=
    { n, page := fun p => ⟨p * BY2PG, 0, 1, 0, 0, .PG_NOFLUSH, none⟩, free := Deque.range 0,
      freecount := 0, hash := ⟨fun _ => none, fun _ => none⟩, image := fun _ => ⟨1, true⟩,
      highwater := 1 }
  alloc := Swap.swapinit nswap
  iolist := []
  nswppo

theorem ready_start {n nswap nswppo : ℕ} (h : nswap ≤ 1048576) :
    Ready (Pager.start n nswap nswppo) where
  chains _ := ⟨[], rfl, .nil, fun _ => iff_of_false nofun nofun⟩
  free := (congrArg Nat.cast
    (List.count_replicate_self (a := (0 : UInt8)) (n := nswap))).symm
  low := nofun
  length := (List.length_replicate ..).trans_le h

/-- A page in front of an entry that a fault has used without success. -/
theorem reached_of_fault : ∃ s₁ t₁ s₂ t₂,
    (Pager.start 1 1 1).pageout true true ⟨.SG_BSS, 0, 8192, false,
      [some ((ptealloc.enter 0 (.page 0)).enter 1 .empty)]⟩ = some (s₁, t₁) ∧
    t₁.pageout true true s₁ = some (s₂, t₂) ∧
    Reached ⟨.SG_BSS, 0, 8192, false, [some ((ptealloc.enter 0 (.page 0)).enter 1 .empty)]⟩ s₂
      (Pager.start 1 1 1) t₂ := by
  have hranged : Ranged ((ptealloc.enter 0 (.page 0)).enter 1 .empty) :=
    (ranged_ptealloc.enter 0 _).enter 1 _
  refine (reached_iff (by decide) (by decide) rfl
    ⟨fun l hl => ?_, by decide +kernel, by decide +kernel⟩ (ready_start (by decide))
    (by decide +kernel) (by decide +kernel)).mpr fun l hl p => ?_
  · obtain rfl := Option.some.inj (List.mem_singleton.mp hl)
    exact hranged
  · obtain rfl := Option.some.inj (List.mem_singleton.mp hl)
    exact nofun

/-- The first page that a segment gets is never reached. -/
theorem pageout_stops_short : ∃ s t, segpage ⟨.SG_BSS, 0, 4096, false, [none]⟩ t.pool 0 = some s ∧
    s.Formed t.pool.n ∧ Ready t ∧ s.residents.length ≤ t.alloc.swmap.count 0 ∧
    t.iolist.length + s.residents.length ≤ t.nswppo ∧
    ¬ ∃ s₁ t₁ s₂ t₂, t.pageout true true s = some (s₁, t₁) ∧
      t₁.pageout true true s₁ = some (s₂, t₂) ∧ Reached s s₂ t t₂ := by
  refine ⟨⟨.SG_BSS, 0, 4096, false, [some (ptealloc.enter 0 (.page 0))]⟩, Pager.start 1 1 1, rfl,
    ⟨fun l hl => ?_, by decide +kernel, by decide +kernel⟩, ready_start (by decide),
    by decide +kernel, by decide +kernel, ?_⟩
  · obtain rfl := Option.some.inj (List.mem_singleton.mp hl)
    exact ranged_ptealloc.enter 0 _
  · rintro ⟨s₁, t₁, s₂, t₂, hpass, hpass', hreached⟩
    exact not_reached List.mem_cons_self le_rfl rfl hpass hpass' hreached

end PlanNine.Paging
