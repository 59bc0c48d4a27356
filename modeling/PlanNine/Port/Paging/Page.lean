import Mathlib.Algebra.BigOperators.Fin
import PlanNine.Lib.Deque
import PlanNine.Lib.Rows

/-!
# Pages

The pages of memory, after `page.c`. A page without references is on the free list. A page may be
that of a disc address of an image, and is then on a hash chain, by its address; it stays there when
its last reference is dropped, so that `lookpage` can take it off the free list again. `newpage` and
`auxpage` take a page from the free list and forget its image, and `duppage` gives a free page the
contents and the image of one that is about to be written.

Pages and images are known by numbers. A lock section is one step. `duppage` has two: in the first
it finds a free page and locks it, in the second it fills that page. `lookpage` has two as well, and
in the second the page may have changed. Whether a lock can be had at once is an input. What is in
the pages, their addresses in memory, and the sleep of `newpage` are left out, and so is what
becomes of an image without references.

## Main definitions

* `Page`, `Image`, `Palloc`: pages, images, and the pool.
* `newpage`, `auxpage`, `putpage`, `duppage`, `cachepage`, `uncachepage`, `cachedel`, `lookpage`:
  the routines.
* `Good`: the free list and the hash chains have the pages that they should have.
* `Moves`: the counts of the images follow the pages.

## Main results

* `Good.newpage`, `Good.auxpage`, `Good.putpage`, `Good.duppage`, `Good.cachepage`,
  `uncachepage_spec`, `cachedel_spec`, `cachepage_spec`, `Good.lookref`: what the routines do.
-/

namespace PlanNine.Paging

open Links

/-- The colour of the page for an address. This machine has only one. -/
def getpgcolor (_va : ℕ) : ℕ := 0

def PGSHIFT : ℕ := 12

def PGHSIZE : ℕ := 512

/-- The hash chain of a disc address. -/
def pghash (daddr : ℕ) : ℕ := daddr >>> PGSHIFT &&& PGHSIZE - 1

/-- What the cache of a processor has to do about a page. -/
inductive Cachectl
  | PG_NOFLUSH
  | PG_NEWCOL
  deriving DecidableEq, Repr

structure Page where
  va : ℕ
  daddr : ℕ
  /-- A `ushort`. -/
  ref : ℕ
  modref : ℕ
  color : ℕ
  cachectl : Cachectl
  image : Option ℕ
  deriving DecidableEq, Repr

structure Image where
  ref : BitVec 32
  notext : Bool
  deriving DecidableEq, Repr

/-- The image of the pages on the swap device. -/
def swapimage : ℕ := 0

/-- The pages, the free list and the hash chains, with the images and the count of free pages below
which memory is low. -/
structure Palloc where
  n : ℕ
  page : ℕ → Page
  free : Deque ℕ
  freecount : ℕ
  hash : Links ℕ
  image : ℕ → Image
  highwater : ℕ

namespace Palloc

/-- A page changes. -/
def setPage (s : Palloc) (p : ℕ) (pg : Page) : Palloc :=
  { s with page := Function.update s.page p pg }

/-- An image changes. -/
def setImage (s : Palloc) (i : ℕ) (im : Image) : Palloc :=
  { s with image := Function.update s.image i im }

def pageunchain (s : Palloc) (p : ℕ) : Palloc :=
  { s with free := s.free.unchain p, freecount := s.freecount - 1 }

def pagechaintail (s : Palloc) (p : ℕ) : Palloc :=
  { s with free := s.free.chaintail p, freecount := s.freecount + 1 }

def pagechainhead (s : Palloc) (p : ℕ) : Palloc :=
  { s with free := s.free.chainhead p, freecount := s.freecount + 1 }

def incref (s : Palloc) (i : ℕ) : Palloc :=
  s.setImage i { s.image i with ref := (s.image i).ref + 1 }

def putimage (s : Palloc) (i : ℕ) : Palloc :=
  if (s.image i).notext then s else s.setImage i { s.image i with ref := (s.image i).ref - 1 }

/-- Forget the image of a page. A hash chain that does not end has no result. -/
def uncachepage (s : Palloc) (p : ℕ) : Option Palloc :=
  match (s.page p).image with
  | none => some s
  | some i =>
      (s.hash.remove (s.n + 1) (.root (pghash (s.page p).daddr)) p).map fun hash =>
        ({ s with hash := hash }.putimage i).setPage p { s.page p with image := none, daddr := 0 }

/-- Note the image of a page. A page that has one is an error. -/
def cachepage (s : Palloc) (p i : ℕ) : Option Palloc :=
  if (s.page p).image = none then
    some ({ s.incref i with
      hash := s.hash.push (.root (pghash (s.page p).daddr)) p }.setPage p
        { s.page p with image := some i })
  else none

/-- A page of the image at the address. -/
def Matches (s : Palloc) (i daddr p : ℕ) : Prop :=
  (s.page p).image = some i ∧ (s.page p).daddr = daddr

instance (s : Palloc) (i daddr p : ℕ) : Decidable (s.Matches i daddr p) := by
  unfold Matches
  infer_instance

/-- Forget the image of the page for a disc address. -/
def cachedel (s : Palloc) (i daddr : ℕ) : Option (Option ℕ × Palloc) :=
  (s.hash.walk (fun f => s.Matches i daddr f) (s.n + 1) (.root (pghash daddr))).map fun l =>
    match s.hash.get l with
    | none => (none, s)
    | some f => (some f, ({ s with hash := s.hash.set l (s.hash.next f) }.putimage i).setPage f
        { s.page f with image := none, daddr := 0 })

/-- The first part of `lookpage`: find the page for a disc address. -/
def lookpage (s : Palloc) (i daddr : ℕ) : Option (Option ℕ) :=
  (s.hash.walk (fun f => s.Matches i daddr f) (s.n + 1) (.root (pghash daddr))).map s.hash.get

/-- The second part: take a reference to the page, if it still is the one. -/
def lookref (s : Palloc) (i daddr f : ℕ) : Option ℕ × Palloc :=
  if s.Matches i daddr f then
    let ref := ((s.page f).ref + 1) % 2 ^ 16
    let s := s.setPage f { s.page f with ref := ref }
    (some f, if ref = 1 then s.pageunchain f else s)
  else (none, s)

/-- The end of `newpage`: take a page off the free list. A page with references is an error. -/
def newpageTake (s : Palloc) (p va : ℕ) (ct : Cachectl) : Option (Option ℕ × Palloc) :=
  let s := s.pageunchain p
  if (s.page p).ref ≠ 0 then none
  else
    (s.uncachepage p).map fun s =>
      (some p, s.setPage p { s.page p with
        ref := (s.page p).ref + 1, va := va, modref := 0, cachectl := ct })

/-- Take a page, of the colour of the address if there is one. There is no result for a process that
has to wait for memory. -/
def newpage (s : Palloc) (kp : Bool) (va : ℕ) : Option (Option ℕ × Palloc) :=
  if s.highwater < s.freecount ∨ kp = true ∧ 0 < s.freecount then
    (s.free.search (fun p => (s.page p).color = getpgcolor va) (s.n + 1) s.free.head).bind fun
      | some p => s.newpageTake p va .PG_NOFLUSH
      | none =>
          s.free.head.bind fun p =>
            (s.setPage p { s.page p with color := getpgcolor va }).newpageTake p va .PG_NEWCOL
  else some (none, s)

/-- Drop a reference. A page without any is an error. -/
def putpage (s : Palloc) (p : ℕ) : Option Palloc :=
  if (s.page p).ref = 0 then none
  else
    let s := s.setPage p { s.page p with ref := (s.page p).ref - 1 }
    if 0 < (s.page p).ref then some s
    else if (s.page p).image ≠ none ∧ (s.page p).image ≠ some swapimage then
      some (s.pagechaintail p)
    else some (s.pagechainhead p)

/-- Take the first page. There is no result when memory is low. -/
def auxpage (s : Palloc) : Option (Option ℕ × Palloc) :=
  if s.freecount < s.highwater then some (none, s)
  else
    match s.free.head with
    | none => none
    | some p =>
        let s := s.pageunchain p
        if (s.page p).ref ≠ 0 then none
        else
          let s := s.setPage p { s.page p with ref := (s.page p).ref + 1 }
          (s.uncachepage p).map fun s => (some p, s)

/-- The first part of `duppage`: find a free page for the contents of a page, or make the page one
without an image. There is no result when `palloc` cannot be locked at once. -/
def duppage (s : Palloc) (canlock : Bool) (p : ℕ) : Option (Option ℕ × Palloc) :=
  match (s.page p).image with
  | none => some (none, s)
  | some i =>
      if (s.page p).ref = 0 ∨ (s.image i).notext = true ∨ canlock = false then some (none, s)
      else if s.freecount < s.highwater then (s.uncachepage p).map fun s => (none, s)
      else
        (s.free.search (fun np => (s.page np).color = getpgcolor (s.page p).va) (s.n + 1)
          s.free.head).bind fun
          | none => (s.uncachepage p).map fun s => (none, s)
          | some np => some (some np, (s.pageunchain np).pagechaintail np)

/-- The second part: the free page becomes that of the image. -/
def duppageFill (s : Palloc) (np p : ℕ) : Option Palloc :=
  (s.uncachepage np).bind fun s =>
    let s := s.setPage np { s.page np with va := (s.page p).va, daddr := (s.page p).daddr }
    (s.page p).image.bind fun i => (s.cachepage np i).bind fun s => s.uncachepage p

/-- The hash chain that a page should be on. -/
def key (s : Palloc) (p : ℕ) : Option ℕ := (s.page p).image.map fun _ => pghash (s.page p).daddr

/-- How many pages name an image. -/
def names (s : Palloc) (i : ℕ) : ℕ :=
  ∑ p ∈ Finset.range s.n, if (s.page p).image = some i then 1 else 0

end Palloc

open Palloc

variable {s s' : Palloc} {l : List ℕ} {p q i f np : ℕ} {pg : Page}

/-! ### Simple changes -/

@[simp] theorem setPage_page_self : (s.setPage p pg).page p = pg := Function.update_self _ _ _

theorem setPage_page_of_ne (h : q ≠ p) : (s.setPage p pg).page q = s.page q :=
  Function.update_of_ne h _ _

/-- The numbers of names when one page changes. -/
theorem names_change (hn : s'.n = s.n) (hpage : ∀ q, q ≠ p → s'.page q = s.page q) (hp : p < s.n)
    (i : ℕ) : s'.names i + (if (s.page p).image = some i then 1 else 0) =
      s.names i + (if (s'.page p).image = some i then 1 else 0) := by
  have hmem : p ∈ Finset.range s.n := Finset.mem_range.mpr hp
  have hrest : ∑ q ∈ (Finset.range s.n).erase p, (if (s'.page q).image = some i then 1 else 0) =
      ∑ q ∈ (Finset.range s.n).erase p, if (s.page q).image = some i then 1 else 0 :=
    Finset.sum_congr rfl fun q hq => by rw [hpage q (Finset.ne_of_mem_erase hq)]
  have hnew := Finset.add_sum_erase (Finset.range s.n)
    (fun q => if (s'.page q).image = some i then 1 else 0) hmem
  have hold := Finset.add_sum_erase (Finset.range s.n)
    (fun q => if (s.page q).image = some i then 1 else 0) hmem
  unfold names
  rw [hn]
  omega

@[simp] theorem putimage_page : (s.putimage i).page = s.page := by
  unfold putimage
  split_ifs <;> rfl

@[simp] theorem putimage_n : (s.putimage i).n = s.n := by
  unfold putimage
  split_ifs <;> rfl

@[simp] theorem putimage_free : (s.putimage i).free = s.free := by
  unfold putimage
  split_ifs <;> rfl

@[simp] theorem putimage_freecount : (s.putimage i).freecount = s.freecount := by
  unfold putimage
  split_ifs <;> rfl

@[simp] theorem putimage_hash : (s.putimage i).hash = s.hash := by
  unfold putimage
  split_ifs <;> rfl

@[simp] theorem putimage_highwater : (s.putimage i).highwater = s.highwater := by
  unfold putimage
  split_ifs <;> rfl

/-! ### What is kept -/

/-- The pages without references are the list `l`, and those with an image are on their chains. -/
structure Good (s : Palloc) (l : List ℕ) : Prop where
  free : s.free.Linked l
  count : s.freecount = l.length
  mem : ∀ p, p ∈ l ↔ p < s.n ∧ (s.page p).ref = 0
  chains : Rows s.hash s.key s.n

/-- An image has a reference for each page that names it, and `extra` others. -/
def Counted (s : Palloc) (extra : ℕ → ℕ) : Prop :=
  ∀ i, (s.image i).ref = BitVec.ofNat 32 (extra i + s.names i)

/-- The other references when pages forget their images: those to a `notext` image are left. -/
def leave (s s' : Palloc) (extra : ℕ → ℕ) (i : ℕ) : ℕ :=
  if (s.image i).notext then extra i + (s.names i - s'.names i) else extra i

/-- The counts of the images follow the pages. -/
structure Moves (s s' : Palloc) : Prop where
  n : s'.n = s.n
  highwater : s'.highwater = s.highwater
  notext : ∀ i, (s'.image i).notext = (s.image i).notext
  counted : ∀ extra, Counted s extra → Counted s' (leave s s' extra)

/-- No page has come to a `notext` image. -/
def Falls (s s' : Palloc) : Prop := ∀ i, (s.image i).notext = true → s'.names i ≤ s.names i

theorem Moves.trans {s'' : Palloc} (h : Moves s s') (h' : Moves s' s'') (hf : Falls s s')
    (hf' : Falls s' s'') : Moves s s'' where
  n := h'.n.trans h.n
  highwater := h'.highwater.trans h.highwater
  notext i := (h'.notext i).trans (h.notext i)
  counted extra hc := by
    have hc'' := h'.counted _ (h.counted extra hc)
    have heq : leave s' s'' (leave s s' extra) = leave s s'' extra := by
      funext i
      unfold leave
      rw [h.notext]
      split_ifs with hi
      · have h1 := hf i hi
        have h2 := hf' i ((h.notext i).trans hi)
        omega
      · rfl
    rwa [heq] at hc''

theorem Falls.trans {s'' : Palloc} (h : Moves s s') (hf : Falls s s') (hf' : Falls s' s'') :
    Falls s s'' := fun i hi => (hf' i ((h.notext i).trans hi)).trans (hf i hi)

/-- Nothing that has to do with images changes. -/
structure Quiet (s s' : Palloc) : Prop where
  n : s'.n = s.n
  highwater : s'.highwater = s.highwater
  image : s'.image = s.image
  hash : s'.hash = s.hash
  page : ∀ p, (s'.page p).image = (s.page p).image ∧ s'.key p = s.key p

theorem Quiet.names (h : Quiet s s') (i : ℕ) : s'.names i = s.names i := by
  unfold Palloc.names
  rw [h.n]
  exact Finset.sum_congr rfl fun p _ => by rw [(h.page p).1]

theorem Quiet.moves (h : Quiet s s') : Moves s s' where
  n := h.n
  highwater := h.highwater
  notext i := by rw [h.image]
  counted extra hc i := by
    rw [h.image, hc i, h.names]
    unfold leave
    rw [h.names, Nat.sub_self, Nat.add_zero, ite_self]

theorem Quiet.falls (h : Quiet s s') : Falls s s' := fun i _ => (h.names i).le

theorem Quiet.trans_moves {s'' : Palloc} (h : Quiet s s') (h' : Moves s' s'') : Moves s s'' where
  n := h'.n.trans h.n
  highwater := h'.highwater.trans h.highwater
  notext i := (h'.notext i).trans (h.moves.notext i)
  counted extra hc := by
    have hc' : Counted s' extra := fun i => by rw [h.image, hc i, h.names]
    have heq : leave s' s'' extra = leave s s'' extra := by
      funext i
      unfold leave
      rw [h.names, h.image]
    exact heq ▸ h'.counted extra hc'

theorem Quiet.chains (h : Quiet s s') (hr : Rows s.hash s.key s.n) :
    Rows s'.hash s'.key s'.n := by
  rw [h.n, h.hash]
  exact hr.congr fun p _ => (h.page p).2

theorem Quiet.trans {s'' : Palloc} (h : Quiet s s') (h' : Quiet s' s'') : Quiet s s'' where
  n := h'.n.trans h.n
  highwater := h'.highwater.trans h.highwater
  image := h'.image.trans h.image
  hash := h'.hash.trans h.hash
  page p := ⟨(h'.page p).1.trans (h.page p).1, (h'.page p).2.trans (h.page p).2⟩

theorem quiet_setPage (hi : pg.image = (s.page p).image)
    (hd : pg.image = none ∨ pg.daddr = (s.page p).daddr) : Quiet s (s.setPage p pg) := by
  refine ⟨rfl, rfl, rfl, rfl, fun q => ?_⟩
  unfold key
  by_cases hq : q = p
  · subst hq
    rw [setPage_page_self]
    refine ⟨hi, ?_⟩
    obtain hnone | hdaddr := hd
    · rw [← hi, hnone]
      rfl
    · rw [hi, hdaddr]
  · rw [setPage_page_of_ne hq]
    exact ⟨rfl, rfl⟩

/-! ### Images of pages -/

/-- A page has forgotten its image, and nothing else has changed. -/
structure Drops (s s' : Palloc) (p : ℕ) : Prop where
  moves : Moves s s'
  falls : Falls s s'
  free : s'.free = s.free
  freecount : s'.freecount = s.freecount
  chains : Rows s'.hash s'.key s'.n
  page : ∀ q, q ≠ p → s'.page q = s.page q
  self : ∃ daddr, s'.page p = { s.page p with image := none, daddr := daddr }

theorem Drops.ref (h : Drops s s' p) (q : ℕ) : (s'.page q).ref = (s.page q).ref := by
  by_cases hq : q = p
  · obtain ⟨daddr, hself⟩ := h.self
    rw [hq, hself]
  · rw [h.page q hq]

theorem ofNat_succ_sub_one (x : ℕ) : BitVec.ofNat 32 (x + 1) - 1 = BitVec.ofNat 32 x := by
  rw [BitVec.ofNat_add]
  exact BitVec.add_sub_cancel _ _

theorem ofNat_succ (x : ℕ) : BitVec.ofNat 32 (x + 1) = BitVec.ofNat 32 x + 1 := BitVec.ofNat_add _ _

theorem putimage_notext (j : ℕ) : ((s.putimage i).image j).notext = (s.image j).notext := by
  unfold putimage
  split_ifs
  · rfl
  · unfold setImage
    dsimp only
    rw [Function.update_apply]
    split_ifs with h
    · rw [h]
    · rfl

theorem putimage_ref (j : ℕ) : ((s.putimage i).image j).ref =
    if j = i ∧ (s.image i).notext = false then (s.image j).ref - 1 else (s.image j).ref := by
  unfold putimage
  cases hi : (s.image i).notext with
  | true => simp
  | false =>
    by_cases hj : j = i
    · subst hj
      simp [setImage]
    · simp [setImage, hj]

theorem Good.drops (h : Good s l) (hd : Drops s s' p) : Good s' l := by
  refine ⟨?_, ?_, fun q => ?_, hd.chains⟩
  · rw [hd.free]
    exact h.free
  · rw [hd.freecount]
    exact h.count
  · rw [h.mem, hd.moves.n, hd.ref]

/-- A page is off its chain and forgets its image. -/
theorem drops_forget (hp : p < s.n) (hi : (s.page p).image = some i) {hash : Links ℕ}
    (hr : Rows hash (Function.update s.key p none) s.n) :
    Drops s (({ s with hash := hash }.putimage i).setPage p
      { s.page p with image := none, daddr := 0 }) p := by
  set s' := ({ s with hash := hash }.putimage i).setPage p
    { s.page p with image := none, daddr := 0 }
  have hpage : ∀ q, q ≠ p → s'.page q = s.page q := fun q hq => by
    rw [setPage_page_of_ne hq, putimage_page]
  have hself : s'.page p = { s.page p with image := none, daddr := 0 } := setPage_page_self
  have hn : s'.n = s.n := putimage_n
  have hnames : ∀ j, s'.names j + (if i = j then 1 else 0) = s.names j := by
    intro j
    have hchange := names_change hn hpage hp j
    rw [hself, hi] at hchange
    simpa using hchange
  have hfalls : ∀ j, s'.names j ≤ s.names j := fun j => hnames j ▸ Nat.le_add_right _ _
  have hmoves : Moves s s' := by
    refine ⟨hn, putimage_highwater, putimage_notext, fun extra hc j => ?_⟩
    have href : (s'.image j).ref = _ := putimage_ref (s := { s with hash := hash }) (i := i) j
    have hj := hnames j
    rw [href, hc j]
    unfold leave
    by_cases heq : j = i
    · subst heq
      rw [if_pos rfl] at hj
      cases hnotext : (s.image j).notext with
      | true =>
        rw [if_neg (by simp), if_pos rfl]
        congr 1
        omega
      | false =>
        rw [if_pos ⟨rfl, rfl⟩, if_neg nofun, ← hj, ← Nat.add_assoc]
        exact ofNat_succ_sub_one _
    · rw [if_neg (Ne.symm heq), Nat.add_zero] at hj
      rw [if_neg fun hand => heq hand.1, hj, Nat.sub_self, Nat.add_zero, ite_self]
  refine ⟨hmoves, fun j _ => hfalls j, putimage_free, putimage_freecount, ?_, hpage, 0, hself⟩
  have hhash : s'.hash = hash := putimage_hash
  rw [hn, hhash]
  refine hr.congr fun q _ => ?_
  unfold key
  by_cases hq : q = p
  · subst hq
    rw [hself, Function.update_self]
    rfl
  · rw [hpage q hq, Function.update_of_ne hq]

theorem uncachepage_spec (hr : Rows s.hash s.key s.n) (hp : p < s.n) :
    ∃ s', s.uncachepage p = some s' ∧ Drops s s' p := by
  unfold Palloc.uncachepage
  cases hi : (s.page p).image with
  | none =>
    have hquiet : Quiet s s := ⟨rfl, rfl, rfl, rfl, fun _ => ⟨rfl, rfl⟩⟩
    exact ⟨s, rfl, hquiet.moves, hquiet.falls, rfl, rfl, hr, fun _ _ => rfl, (s.page p).daddr,
      by rw [← hi]⟩
  | some i =>
    have hkey : s.key p = some (pghash (s.page p).daddr) := by
      rw [key, hi]
      rfl
    obtain ⟨hash, hhash, hr'⟩ := hr.remove (.inl hkey) (Nat.lt_succ_self _)
    dsimp only
    rw [hhash, Option.map_some]
    exact ⟨_, rfl, drops_forget hp hi hr'⟩

/-- What a walk along a hash chain for a disc address finds. -/
theorem walk_spec (hr : Rows s.hash s.key s.n) (i daddr : ℕ) : ∃ link,
    s.hash.walk (fun f => s.Matches i daddr f) (s.n + 1) (.root (pghash daddr)) = some link ∧
      ∀ f, s.hash.get link = some f → f < s.n ∧ s.Matches i daddr f := by
  obtain ⟨link, hlink, hget⟩ := hr.find (fun f => s.Matches i daddr f) (pghash daddr)
    (Nat.lt_succ_self _)
  refine ⟨link, hlink, fun f hf => ?_⟩
  obtain ⟨hlt, -, hmatch⟩ := hget f hf
  exact ⟨hlt, of_decide_eq_true hmatch⟩

theorem cachedel_spec (hr : Rows s.hash s.key s.n) (i daddr : ℕ) :
    ∃ r, s.cachedel i daddr = some r ∧ (r = (none, s) ∨
      ∃ f s', r = (some f, s') ∧ f < s.n ∧ s.Matches i daddr f ∧ Drops s s' f) := by
  obtain ⟨link, hlink, hget⟩ := walk_spec hr i daddr
  unfold cachedel
  rw [hlink, Option.map_some]
  refine ⟨_, rfl, ?_⟩
  cases hf : s.hash.get link with
  | none => exact .inl rfl
  | some f =>
    obtain ⟨hlt, hmatch⟩ := hget f hf
    exact .inr ⟨f, _, rfl, hlt, hmatch,
      drops_forget hlt hmatch.1 (hr.unlink (Nat.lt_succ_self _) hlink hf)⟩

/-- A page without an image gets one. -/
structure Names (s s' : Palloc) (p i : ℕ) : Prop where
  moves : Moves s s'
  names : ∀ j, s'.names j = s.names j + if i = j then 1 else 0
  free : s'.free = s.free
  freecount : s'.freecount = s.freecount
  page : ∀ q, q ≠ p → s'.page q = s.page q
  self : s'.page p = { s.page p with image := some i }

theorem cachepage_spec (hr : Rows s.hash s.key s.n) (hp : p < s.n) (hi : (s.page p).image = none)
    (i : ℕ) :
    ∃ s', s.cachepage p i = some s' ∧ Rows s'.hash s'.key s'.n ∧ Names s s' p i := by
  unfold Palloc.cachepage
  rw [if_pos hi]
  refine ⟨_, rfl, ?_⟩
  set s' := { s.incref i with
    hash := s.hash.push (.root (pghash (s.page p).daddr)) p }.setPage p
      { s.page p with image := some i } with hs'
  have hpage : ∀ q, q ≠ p → s'.page q = s.page q := fun q hq => setPage_page_of_ne hq
  have hself : s'.page p = { s.page p with image := some i } := setPage_page_self
  have himage : ∀ j, (s'.image j).notext = (s.image j).notext ∧
      (s'.image j).ref = (s.image j).ref + if i = j then 1 else 0 := by
    intro j
    by_cases hj : i = j
    · subst hj
      simp [hs', setPage, incref, setImage]
    · simp [hs', setPage, incref, setImage, Function.update_of_ne (Ne.symm hj), hj]
  have hnames : ∀ j, s'.names j = s.names j + if i = j then 1 else 0 := by
    intro j
    have hn : s'.n = s.n := rfl
    have hchange := names_change hn hpage hp j
    rw [hself, hi] at hchange
    simpa using hchange
  have hmoves : Moves s s' := by
    refine ⟨rfl, rfl, fun j => (himage j).1, fun extra hc j => ?_⟩
    have hleave : leave s s' extra j = extra j := by
      unfold leave
      rw [hnames j, Nat.sub_eq_zero_of_le (Nat.le_add_right _ _), Nat.add_zero, ite_self]
    rw [(himage j).2, hc j, hleave, hnames j]
    split_ifs
    · rw [← Nat.add_assoc, ofNat_succ]
    · exact BitVec.add_zero _
  refine ⟨?_, ⟨hmoves, hnames, rfl, rfl, hpage, hself⟩⟩
  have hkey : s.key p = none := by
    rw [key, hi]
    rfl
  refine (hr.push hkey hp (pghash (s.page p).daddr)).congr fun q _ => ?_
  unfold key
  by_cases hq : q = p
  · rw [hq, hself, Function.update_self]
    rfl
  · rw [hpage q hq, Function.update_of_ne hq]

theorem Good.cachepage (h : Good s l) (hp : p < s.n) (hi : (s.page p).image = none) (i : ℕ) :
    ∃ s', s.cachepage p i = some s' ∧ Good s' l ∧ Names s s' p i := by
  obtain ⟨s', hs', hr, hnames⟩ := cachepage_spec h.chains hp hi i
  refine ⟨s', hs', ⟨?_, ?_, fun q => ?_, hr⟩, hnames⟩
  · rw [hnames.free]
    exact h.free
  · rw [hnames.freecount]
    exact h.count
  · rw [h.mem, hnames.moves.n]
    by_cases hq : q = p
    · rw [hq, hnames.self]
    · rw [hnames.page q hq]

/-! ### The free list -/

theorem Good.length_le (h : Good s l) : l.length ≤ s.n :=
  length_le_of_nodup h.free.dlist.nodup fun p hp => ((h.mem p).mp hp).1

/-- A page is taken from the free list and has got a reference. -/
theorem Good.take {xs ys : List ℕ} (h : Good s (xs ++ p :: ys)) (hn : s'.n = s.n)
    (hfree : s'.free = s.free.unchain p) (hcount : s'.freecount = s.freecount - 1)
    (hself : (s'.page p).ref ≠ 0) (hpage : ∀ q, q ≠ p → (s'.page q).ref = (s.page q).ref)
    (hchains : Rows s'.hash s'.key s'.n) : Good s' (xs ++ ys) := by
  have hp : p ∉ xs ++ ys :=
    (List.nodup_cons.mp (List.nodup_middle.mp h.free.dlist.nodup)).1
  refine ⟨?_, ?_, fun q => ?_, hchains⟩
  · rw [hfree]
    exact h.free.unchain
  · rw [hcount, h.count]
    simp
  · by_cases hq : q = p
    · rw [hq]
      exact iff_of_false hp fun hand => hself hand.2
    · rw [hpage q hq, hn, ← h.mem, List.perm_middle.mem_iff, List.mem_cons, or_iff_right hq]

/-- A page without references is put on the free list. -/
theorem Good.put (h : Good s l) (hp : p < s.n) (hn : s'.n = s.n)
    (hfree : s'.free = s.free.chaintail p ∨ s'.free = s.free.chainhead p)
    (hcount : s'.freecount = s.freecount + 1) (hold : (s.page p).ref ≠ 0)
    (hself : (s'.page p).ref = 0) (hpage : ∀ q, q ≠ p → (s'.page q).ref = (s.page q).ref)
    (hchains : Rows s'.hash s'.key s'.n) : ∃ l', Good s' l' := by
  have hnot : p ∉ l := fun hin => hold ((h.mem p).mp hin).2
  have hmem : ∀ l' : List ℕ, (∀ q, q ∈ l' ↔ q = p ∨ q ∈ l) →
      ∀ q, q ∈ l' ↔ q < s'.n ∧ (s'.page q).ref = 0 := by
    intro l' hl' q
    rw [hl', hn]
    by_cases hq : q = p
    · rw [hq]
      exact iff_of_true (.inl rfl) ⟨hp, hself⟩
    · rw [or_iff_right hq, h.mem, hpage q hq]
  obtain hfree | hfree := hfree
  · refine ⟨l ++ [p], ?_, ?_, hmem _ fun q => ?_, hchains⟩
    · rw [hfree]
      exact h.free.chaintail hnot
    · rw [hcount, h.count, List.length_append]
      rfl
    · rw [List.mem_append, List.mem_singleton, or_comm]
  · refine ⟨p :: l, ?_, ?_, hmem _ fun q => List.mem_cons, hchains⟩
    · rw [hfree]
      exact h.free.chainhead hnot
    · rw [hcount, h.count]
      rfl

/-- The first page with a property, for a search along the free list. -/
theorem Good.search (h : Good s l) (P : ℕ → Bool) :
    s.free.search P (s.n + 1) s.free.head = some (l.find? P) :=
  h.free.search P (Nat.lt_succ_of_le h.length_le)

/-- A page without references that is off the list has got the caller's. -/
structure Taken (s s' : Palloc) (p : ℕ) : Prop where
  moves : Moves s s'
  falls : Falls s s'
  ref : (s'.page p).ref = 1
  page : ∀ q, q ≠ p → s'.page q = s.page q

theorem Good.newpageTake (h : Good s l) (hp : p ∈ l) (va : ℕ) (ct : Cachectl) :
    ∃ s' l', s.newpageTake p va ct = some (some p, s') ∧ Good s' l' ∧ Taken s s' p := by
  obtain ⟨hlt, href⟩ := (h.mem p).mp hp
  obtain ⟨xs, ys, rfl⟩ := List.append_of_mem hp
  have hquiet : Quiet s (s.pageunchain p) := ⟨rfl, rfl, rfl, rfl, fun _ => ⟨rfl, rfl⟩⟩
  obtain ⟨s₁, hs₁, hd⟩ := uncachepage_spec (s := s.pageunchain p) h.chains hlt
  unfold Palloc.newpageTake
  have hnot : ¬ ((s.pageunchain p).page p).ref ≠ 0 := not_not.mpr href
  dsimp only
  rw [if_neg hnot, hs₁, Option.map_some]
  set pg := { s₁.page p with ref := (s₁.page p).ref + 1, va := va, modref := 0, cachectl := ct }
  have hquiet' : Quiet s₁ (s₁.setPage p pg) := quiet_setPage rfl (.inr rfl)
  have hmoves := hquiet.moves.trans hd.moves hquiet.falls hd.falls
  have hfalls := hquiet.falls.trans hquiet.moves hd.falls
  have hself : ((s₁.setPage p pg).page p).ref = 1 := by
    have hone : pg.ref = (s.page p).ref + 1 := congrArg (· + 1) (hd.ref p)
    rw [setPage_page_self, hone, href]
  have hpage : ∀ q, q ≠ p → (s₁.setPage p pg).page q = s.page q := fun q hq =>
    (setPage_page_of_ne hq).trans (hd.page q hq)
  refine ⟨_, xs ++ ys, rfl, ?_, ?_, ?_, hself, hpage⟩
  · refine h.take (hquiet'.n.trans hmoves.n) hd.free hd.freecount ?_ (fun q hq => ?_)
      (hquiet'.chains hd.chains)
    · rw [hself]
      exact one_ne_zero
    · rw [hpage q hq]
  · exact hmoves.trans hquiet'.moves hfalls hquiet'.falls
  · exact hfalls.trans hmoves hquiet'.falls

theorem Good.newpage (h : Good s l) (kp : Bool) (va : ℕ) :
    ∃ r, s.newpage kp va = some r ∧ (r = (none, s) ∨
      ∃ p s' l', r = (some p, s') ∧ p ∈ l ∧ Good s' l' ∧ Taken s s' p) := by
  unfold Palloc.newpage
  split_ifs with hmany
  swap
  · exact ⟨_, rfl, .inl rfl⟩
  rw [h.search, Option.bind_some]
  cases hfind : l.find? fun p => decide ((s.page p).color = getpgcolor va) with
  | some p =>
    have hp := List.mem_of_find?_eq_some hfind
    obtain ⟨s', l', hs', hgood, htaken⟩ := h.newpageTake hp va .PG_NOFLUSH
    exact ⟨_, hs', .inr ⟨p, s', l', rfl, hp, hgood, htaken⟩⟩
  | none =>
    have hcount := h.count
    cases l with
    | nil => exact absurd hmany (by simp [hcount])
    | cons p ys =>
      rw [h.free.dlist.head, List.head?_cons, Option.bind_some]
      set pg := { s.page p with color := getpgcolor va }
      have hquiet : Quiet s (s.setPage p pg) := quiet_setPage rfl (.inr rfl)
      have hgood : Good (s.setPage p pg) (p :: ys) := by
        refine ⟨h.free, h.count, fun q => ?_, hquiet.chains h.chains⟩
        rw [h.mem]
        by_cases hq : q = p
        · rw [hq, setPage_page_self]
          rfl
        · rw [setPage_page_of_ne hq]
          rfl
      obtain ⟨s', l', hs', hgood', htaken⟩ :=
        hgood.newpageTake List.mem_cons_self va .PG_NEWCOL
      refine ⟨_, hs', .inr ⟨p, s', l', rfl, List.mem_cons_self, hgood', ?_, ?_, htaken.ref, ?_⟩⟩
      · exact hquiet.moves.trans htaken.moves hquiet.falls htaken.falls
      · exact hquiet.falls.trans hquiet.moves htaken.falls
      · exact fun q hq => (htaken.page q hq).trans (setPage_page_of_ne hq)

theorem Good.auxpage (h : Good s l) (hwater : 0 < s.highwater) :
    ∃ r, s.auxpage = some r ∧ (r = (none, s) ∨
      ∃ p s' l', r = (some p, s') ∧ p ∈ l ∧ Good s' l' ∧ Taken s s' p) := by
  unfold Palloc.auxpage
  split_ifs with hfew
  · exact ⟨_, rfl, .inl rfl⟩
  have hcount := h.count
  cases l with
  | nil => exact absurd (hcount ▸ hwater) hfew
  | cons p ys =>
    obtain ⟨hlt, href⟩ := (h.mem p).mp List.mem_cons_self
    rw [h.free.dlist.head, List.head?_cons]
    have hnot : ¬ ((s.pageunchain p).page p).ref ≠ 0 := not_not.mpr href
    dsimp only
    rw [if_neg hnot]
    set s₁ := (s.pageunchain p).setPage p
      { (s.pageunchain p).page p with ref := ((s.pageunchain p).page p).ref + 1 }
    have hunchain : Quiet s (s.pageunchain p) := ⟨rfl, rfl, rfl, rfl, fun _ => ⟨rfl, rfl⟩⟩
    have hquiet : Quiet s s₁ := hunchain.trans (quiet_setPage rfl (.inr rfl))
    have hself : (s₁.page p).ref = 1 := by
      rw [setPage_page_self]
      exact congrArg (· + 1) href
    have hpage : ∀ q, q ≠ p → s₁.page q = s.page q := fun q hq => setPage_page_of_ne hq
    have hfirst : Good s ([] ++ p :: ys) := h
    have hgood : Good s₁ ys := by
      refine hfirst.take rfl rfl rfl ?_ (fun q hq => ?_) (hquiet.chains h.chains)
      · rw [hself]
        exact one_ne_zero
      · rw [hpage q hq]
    obtain ⟨s', hs', hd⟩ := uncachepage_spec hgood.chains hlt
    rw [hs', Option.map_some]
    refine ⟨_, rfl, .inr ⟨p, s', ys, rfl, List.mem_cons_self, hgood.drops hd, ?_, ?_, ?_, ?_⟩⟩
    · exact hquiet.moves.trans hd.moves hquiet.falls hd.falls
    · exact hquiet.falls.trans hquiet.moves hd.falls
    · rw [hd.ref, hself]
    · exact fun q hq => (hd.page q hq).trans (hpage q hq)

/-- The list stays when no page gets its first reference or loses its last one. -/
theorem Good.quiet (h : Good s l) (hq : Quiet s s') (hfree : s'.free = s.free)
    (hcount : s'.freecount = s.freecount)
    (href : ∀ q, (s'.page q).ref = 0 ↔ (s.page q).ref = 0) : Good s' l := by
  refine ⟨?_, ?_, fun q => ?_, hq.chains h.chains⟩
  · rw [hfree]
    exact h.free
  · rw [hcount]
    exact h.count
  · rw [h.mem, hq.n, href]

/-- The number of references to a page has changed. -/
structure Refs (s s' : Palloc) (p ref : ℕ) : Prop where
  quiet : Quiet s s'
  self : (s'.page p).ref = ref
  page : ∀ q, q ≠ p → s'.page q = s.page q

theorem Good.putpage (h : Good s l) (hp : p < s.n) (hold : (s.page p).ref ≠ 0) :
    ∃ s' l', s.putpage p = some s' ∧ Good s' l' ∧ Refs s s' p ((s.page p).ref - 1) := by
  unfold Palloc.putpage
  rw [if_neg hold]
  set pg := { s.page p with ref := (s.page p).ref - 1 }
  set s₁ := s.setPage p pg with hs₁
  have hself : s₁.page p = pg := setPage_page_self
  have hpage : ∀ q, q ≠ p → s₁.page q = s.page q := fun q hq => setPage_page_of_ne hq
  have hquiet : Quiet s s₁ := quiet_setPage rfl (.inr rfl)
  have hrefs : Refs s s₁ p ((s.page p).ref - 1) := ⟨hquiet, by rw [hself], hpage⟩
  have href : ∀ q, q ≠ p → (s₁.page q).ref = (s.page q).ref := fun q hq => by rw [hpage q hq]
  dsimp only
  by_cases hpos : 0 < (s₁.page p).ref
  · rw [if_pos hpos]
    refine ⟨s₁, l, rfl, h.quiet hquiet rfl rfl fun q => ?_, hrefs⟩
    by_cases hq : q = p
    · rw [hq]
      exact iff_of_false hpos.ne' hold
    · rw [href q hq]
  rw [if_neg hpos]
  have hzero : (s₁.page p).ref = 0 := Nat.eq_zero_of_not_pos hpos
  split_ifs
  · have hquiet' : Quiet s (s₁.pagechaintail p) := ⟨rfl, rfl, rfl, rfl, hquiet.page⟩
    obtain ⟨l', hl'⟩ : ∃ l', Good (s₁.pagechaintail p) l' :=
      h.put hp rfl (.inl rfl) rfl hold hzero href (hquiet'.chains h.chains)
    exact ⟨_, l', rfl, hl', hquiet', hrefs.self, hpage⟩
  · have hquiet' : Quiet s (s₁.pagechainhead p) := ⟨rfl, rfl, rfl, rfl, hquiet.page⟩
    obtain ⟨l', hl'⟩ : ∃ l', Good (s₁.pagechainhead p) l' :=
      h.put hp rfl (.inr rfl) rfl hold hzero href (hquiet'.chains h.chains)
    exact ⟨_, l', rfl, hl', hquiet', hrefs.self, hpage⟩

theorem Good.lookref (h : Good s l) (hf : f < s.n) (href : (s.page f).ref < 2 ^ 16 - 1)
    (i daddr : ℕ) : s.lookref i daddr f = (none, s) ∨ ∃ s' l',
      s.lookref i daddr f = (some f, s') ∧ Good s' l' ∧ Refs s s' f ((s.page f).ref + 1) := by
  unfold Palloc.lookref
  split_ifs with hmatch
  swap
  · exact .inl rfl
  have hmod : ((s.page f).ref + 1) % 2 ^ 16 = (s.page f).ref + 1 := Nat.mod_eq_of_lt (by omega)
  dsimp only
  rw [hmod]
  set pg := { s.page f with ref := (s.page f).ref + 1 }
  set s₁ := s.setPage f pg with hs₁
  have hself : s₁.page f = pg := setPage_page_self
  have hpage : ∀ q, q ≠ f → s₁.page q = s.page q := fun q hq => setPage_page_of_ne hq
  have hquiet : Quiet s s₁ := quiet_setPage rfl (.inr rfl)
  by_cases hone : (s.page f).ref + 1 = 1
  · rw [if_pos hone]
    have hin : f ∈ l := (h.mem f).mpr ⟨hf, Nat.succ.inj hone⟩
    obtain ⟨xs, ys, rfl⟩ := List.append_of_mem hin
    have hquiet' : Quiet s (s₁.pageunchain f) := ⟨rfl, rfl, rfl, rfl, hquiet.page⟩
    refine .inr ⟨_, xs ++ ys, rfl, ?_, hquiet', congrArg Page.ref hself, hpage⟩
    refine h.take rfl rfl rfl ?_ (fun q hq => congrArg Page.ref (hpage q hq))
      (hquiet'.chains h.chains)
    exact (congrArg Page.ref hself).trans_ne (Nat.succ_ne_zero _)
  · rw [if_neg hone]
    refine .inr ⟨_, l, rfl, ?_, hquiet, congrArg Page.ref hself, hpage⟩
    refine h.quiet hquiet rfl rfl fun q => ?_
    by_cases hq : q = f
    · rw [hq, hself]
      have hne : (s.page f).ref ≠ 0 := fun hz => hone (by rw [hz])
      exact iff_of_false (Nat.succ_ne_zero _) hne
    · rw [hpage q hq]

theorem Good.duppage (h : Good s l) (canlock : Bool) (hp : p < s.n) :
    ∃ r, s.duppage canlock p = some r ∧ (r = (none, s) ∨
      (∃ s', r = (none, s') ∧ Drops s s' p) ∨
      ∃ np i s' l', r = (some np, s') ∧ np ∈ l ∧ (s.page p).ref ≠ 0 ∧ (s.page p).image = some i ∧
        (s.image i).notext = false ∧ Good s' l' ∧ Quiet s s' ∧ s'.page = s.page) := by
  unfold Palloc.duppage
  cases hi : (s.page p).image with
  | none => exact ⟨_, rfl, .inl rfl⟩
  | some i =>
    obtain ⟨s₁, hs₁, hd⟩ := uncachepage_spec h.chains hp
    dsimp only
    by_cases hnone : (s.page p).ref = 0 ∨ (s.image i).notext = true ∨ canlock = false
    · rw [if_pos hnone]
      exact ⟨_, rfl, .inl rfl⟩
    rw [if_neg hnone, hs₁, Option.map_some]
    by_cases hlow : s.freecount < s.highwater
    · rw [if_pos hlow]
      exact ⟨_, rfl, .inr (.inl ⟨s₁, rfl, hd⟩)⟩
    rw [if_neg hlow, h.search, Option.bind_some]
    cases hfind : l.find? fun np => decide ((s.page np).color = getpgcolor (s.page p).va) with
    | none => exact ⟨_, rfl, .inr (.inl ⟨s₁, rfl, hd⟩)⟩
    | some np =>
      obtain ⟨href, hnotext⟩ := not_or.mp hnone
      have hin := List.mem_of_find?_eq_some hfind
      have hquiet : Quiet s ((s.pageunchain np).pagechaintail np) :=
        ⟨rfl, rfl, rfl, rfl, fun _ => ⟨rfl, rfl⟩⟩
      obtain ⟨xs, ys, rfl⟩ := List.append_of_mem hin
      have hnot : np ∉ xs ++ ys :=
        (List.nodup_cons.mp (List.nodup_middle.mp h.free.dlist.nodup)).1
      have hcount : s.freecount - 1 + 1 = (xs ++ ys ++ [np]).length := by
        rw [h.count]
        simp [Nat.add_assoc]
      refine ⟨_, rfl, .inr (.inr ⟨np, i, _, xs ++ ys ++ [np], rfl, hin, href, rfl, ?_, ⟨?_, hcount,
        fun q => ?_, hquiet.chains h.chains⟩, hquiet, rfl⟩)⟩
      · simpa using fun ht => hnotext (.inl ht)
      · exact h.free.unchain.chaintail hnot
      · refine Iff.trans ?_ (h.mem q)
        simp only [List.mem_append, List.mem_cons, List.not_mem_nil]
        tauto

/-- The free page comes to the image, and the other page leaves it. -/
theorem Good.duppageFill (h : Good s l) (hnp : np < s.n) (hp : p < s.n) (hne : np ≠ p)
    (hi : (s.page p).image = some i) (hnotext : (s.image i).notext = false) :
    ∃ s', s.duppageFill np p = some s' ∧ Good s' l ∧ Moves s s' ∧
      (∀ q, (s'.page q).ref = (s.page q).ref) ∧
      ∀ q, q ≠ np → q ≠ p → s'.page q = s.page q := by
  obtain ⟨s₁, hs₁, hd₁⟩ := uncachepage_spec h.chains hnp
  have h₁ := h.drops hd₁
  have hn₁ := hd₁.moves.n
  unfold Palloc.duppageFill
  rw [hs₁, Option.bind_some]
  dsimp only
  set s₂ := s₁.setPage np { s₁.page np with va := (s₁.page p).va, daddr := (s₁.page p).daddr }
  have himage₁ : (s₁.page np).image = none := by
    obtain ⟨daddr, hself⟩ := hd₁.self
    rw [hself]
  have hself₂ : s₂.page np =
      { s₁.page np with va := (s₁.page p).va, daddr := (s₁.page p).daddr } := setPage_page_self
  have hpage₂ : ∀ q, q ≠ np → s₂.page q = s₁.page q := fun q hq => setPage_page_of_ne hq
  have href₂ : ∀ q, (s₂.page q).ref = (s₁.page q).ref := by
    intro q
    by_cases hq : q = np
    · rw [hq, hself₂]
    · rw [hpage₂ q hq]
  have hquiet₂ : Quiet s₁ s₂ := quiet_setPage rfl (.inl himage₁)
  have h₂ : Good s₂ l := h₁.quiet hquiet₂ rfl rfl fun q => by rw [href₂]
  have hi₂ : (s₂.page p).image = some i := by
    rw [hpage₂ p hne.symm, hd₁.page p hne.symm, hi]
  rw [hi₂, Option.bind_some]
  have hnone₂ : (s₂.page np).image = none := by rw [hself₂, himage₁]
  obtain ⟨s₃, hs₃, h₃, hnames⟩ := h₂.cachepage (hn₁ ▸ hnp) hnone₂ i
  rw [hs₃, Option.bind_some]
  have hn₃ : s₃.n = s.n := hnames.moves.n.trans hn₁
  obtain ⟨s₄, hs₄, hd₄⟩ := uncachepage_spec h₃.chains (hn₃ ▸ hp)
  have href₃ : ∀ q, (s₃.page q).ref = (s₂.page q).ref := by
    intro q
    by_cases hq : q = np
    · rw [hq, hnames.self]
    · rw [hnames.page q hq]
  -- The image that a page has come to is not a `notext` one.
  have hfalls₃ : Falls s₂ s₃ := by
    intro j hj
    have hij : i ≠ j := by
      rintro rfl
      rw [hquiet₂.moves.notext, hd₁.moves.notext, hnotext] at hj
      cases hj
    rw [hnames.names, if_neg hij, Nat.add_zero]
  have hmoves₂ := hd₁.moves.trans hquiet₂.moves hd₁.falls hquiet₂.falls
  have hfalls₂ := hd₁.falls.trans hd₁.moves hquiet₂.falls
  have hmoves₃ := hmoves₂.trans hnames.moves hfalls₂ hfalls₃
  have hfalls₃' := hfalls₂.trans hmoves₂ hfalls₃
  refine ⟨s₄, hs₄, h₃.drops hd₄, hmoves₃.trans hd₄.moves hfalls₃' hd₄.falls, fun q => ?_, ?_⟩
  · rw [hd₄.ref, href₃, href₂, hd₁.ref]
  · intro q hqnp hqp
    rw [hd₄.page q hqp, hnames.page q hqnp, hpage₂ q hqnp, hd₁.page q hqnp]

end PlanNine.Paging
