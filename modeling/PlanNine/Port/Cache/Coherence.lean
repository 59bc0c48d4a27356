import Mathlib.Data.List.TakeWhile
import PlanNine.Lib.Run
import PlanNine.Port.Cache.Extent

/-!
# The mount cache agrees with the file

One file is read and written through its cache, with the bytes that the server holds, while pages
are taken away at any time. As long as no page is cached under a number that is still in use, what
`cread` returns is what the file holds, the extents are in the order of their offsets, and those
that still have their pages do not overlap. The numbers come back after 2^32 pages, and then an
extent that has lost its page finds the page of another one.

## Main definitions

* `Pool.Live`: an extent still has its page.
* `Coherent`: the extents hold bytes of the file.
* `State`, `Event`, `Step`: the file, its cache and the steps.
* `Fresh`: the numbers given out by a step are not in use.
* `Agrees`: the cache agrees with the file.

## Main results

* `chained_cchainLoop`, `Ready.placed_pack`, `coherent_link`: what the parts of a call keep.
* `coherent_cupdate`, `coherent_cwrite`, `read_of_coherent`: what the calls keep and return.
* `agrees_of_run`: every run that gives out fresh numbers.
* `not_agrees_of_wrap`: 2^32 writes of one byte make `cread` return the byte of another offset.
-/

namespace PlanNine.Cache

/-! ### Extents that have their pages -/

/-- The extent still has the page that it was given. -/
def Pool.Live (pl : Pool) (e : Extent) : Prop :=
  e.cache ∈ pl.cached ∧ (pl.page e.cache).daddr = e.bid

/-- No other page has the number of the extent. -/
def Pool.Owns (pl : Pool) (e : Extent) : Prop :=
  ∀ g ∈ pl.cached, (pl.page g).daddr = e.bid → g = e.cache

/-- The extent is not empty, fits into a page, and its page holds bytes of the file; those behind
`maxcache` do not count. -/
structure Holds (pl : Pool) (file : ℕ → UInt8) (e : Extent) : Prop where
  pos : 0 < e.len
  le_page : e.len ≤ BY2PG
  owns : pl.Owns e
  data : pl.Live e → ∀ i < e.len, e.start + i < maxcache →
    (pl.page e.cache).data i = file (e.start + i)

/-- The extent `a` comes before `b`, and does not reach into it if it still has its page. -/
structure Before (pl : Pool) (a b : Extent) : Prop where
  start_lt : a.start < b.start
  bid_ne : a.bid ≠ b.bid
  stop_le : pl.Live a → a.stop ≤ b.start

/-- The extents are in order and hold bytes of the file. -/
structure Coherent (pl : Pool) (file : ℕ → UInt8) (es : List Extent) : Prop where
  each : ∀ e ∈ es, Holds pl file e
  order : es.Pairwise (Before pl)

section

variable {pl pl' pl'' : Pool} {file file' : ℕ → UInt8} {e : Extent} {es fs : List Extent} {f : ℕ}

theorem cpage_eq_some (h : pl.Good) (ho : pl.Owns e) :
    cpage pl e = some f ↔ pl.Live e ∧ f = e.cache := by
  unfold cpage
  split_ifs with hd
  · exact ⟨fun hn => absurd hn (by simp), fun hl => absurd hl.1.2 hd⟩
  · rw [not_not] at hd
    rw [lookpage_eq_some h]
    constructor
    · rintro ⟨hmem, hnum⟩
      obtain rfl := ho f hmem hnum
      exact ⟨⟨hmem, hd⟩, rfl⟩
    · rintro ⟨hl, rfl⟩
      exact hl

theorem cpage_eq_none (h : pl.Good) (ho : pl.Owns e) : cpage pl e = none ↔ ¬ pl.Live e := by
  rw [Option.eq_none_iff_forall_ne_some]
  constructor
  · intro hn hl
    exact hn e.cache ((cpage_eq_some h ho).mpr ⟨hl, rfl⟩)
  · intro hl f hf
    exact hl ((cpage_eq_some h ho).mp hf).1

/-- The pool `pl'` leaves the extent its page, with its bytes, or takes it away. -/
structure Pool.Keeps (pl pl' : Pool) (e : Extent) : Prop where
  owns : pl.Owns e → pl'.Owns e
  live : pl'.Live e → pl.Live e
  data : pl'.Live e → ∀ i, (pl'.page e.cache).data i = (pl.page e.cache).data i

theorem Pool.Keeps.trans (h : pl.Keeps pl' e) (h' : pl'.Keeps pl'' e) : pl.Keeps pl'' e where
  owns ho := h'.owns (h.owns ho)
  live hl := h.live (h'.live hl)
  data hl i := (h'.data hl i).trans (h.data (h'.live hl) i)

theorem Holds.keeps (h : Holds pl file e) (hk : pl.Keeps pl' e) : Holds pl' file e where
  pos := h.pos
  le_page := h.le_page
  owns := hk.owns h.owns
  data hl i hi hlt := (hk.data hl i).trans (h.data (hk.live hl) i hi hlt)

theorem Coherent.keeps (h : Coherent pl file es) (hk : ∀ e ∈ es, pl.Keeps pl' e) :
    Coherent pl' file es where
  each e he := (h.each e he).keeps (hk e he)
  order := h.order.imp_of_mem fun ha _ hab =>
    ⟨hab.start_lt, hab.bid_ne, fun hl => hab.stop_le ((hk _ ha).live hl)⟩

theorem Coherent.sublist (h : Coherent pl file es) (hs : fs.Sublist es) : Coherent pl file fs where
  each e he := h.each e (hs.subset he)
  order := h.order.sublist hs

/-- Extents that still have their pages stay right when the file changes elsewhere. -/
theorem Coherent.file_congr (h : Coherent pl file es)
    (hfile : ∀ e ∈ es, pl.Live e → ∀ i < e.len, file' (e.start + i) = file (e.start + i)) :
    Coherent pl file' es where
  each e he :=
    { h.each e he with
      data := fun hl i hi hlt => ((h.each e he).data hl i hi hlt).trans (hfile e he hl i hi).symm }
  order := h.order

theorem keeps_uncachepage (h : pl.Good) (f : ℕ) : pl.Keeps (pl.uncachepage f) e where
  owns ho g hg hd := by
    obtain ⟨hg, hgf⟩ := (mem_uncachepage h).mp hg
    rw [page_uncachepage hgf] at hd
    exact ho g hg hd
  live hl := by
    obtain ⟨hg, hgf⟩ := (mem_uncachepage h).mp hl.1
    exact ⟨hg, by rw [← page_uncachepage hgf]; exact hl.2⟩
  data hl i := by
    obtain ⟨hg, hgf⟩ := (mem_uncachepage h).mp hl.1
    rw [page_uncachepage hgf]

theorem page_cachenew_ne {g : ℕ} (hne : g ≠ f) (buf : List UInt8) :
    (pl.cachenew f buf).page g = pl.page g := Function.update_of_ne hne _ _

theorem page_cachenew_self (buf : List UInt8) :
    (pl.cachenew f buf).page f = ⟨pl.pgno, fill (pl.page f).data 0 buf⟩ :=
  Function.update_self _ _ _

theorem keeps_cachenew (hne : e.bid ≠ pl.pgno) (buf : List UInt8) :
    pl.Keeps (pl.cachenew f buf) e := by
  have hcache (hl : (pl.cachenew f buf).Live e) : e.cache ≠ f := by
    intro heq
    have hd := hl.2
    rw [heq, page_cachenew_self] at hd
    exact hne hd.symm
  refine ⟨fun ho g hg hd => ?_, fun hl => ?_, fun hl i => ?_⟩
  · by_cases hgf : g = f
    · rw [hgf, page_cachenew_self] at hd
      exact absurd hd.symm hne
    · rw [page_cachenew_ne hgf] at hd
      exact ho g ((List.mem_cons.mp hg).resolve_left hgf) hd
  · refine ⟨(List.mem_cons.mp hl.1).resolve_left (hcache hl), ?_⟩
    rw [← page_cachenew_ne (hcache hl) buf]
    exact hl.2
  · rw [page_cachenew_ne (hcache hl)]

theorem keeps_write {p : Extent} (hp : pl.Live p) (hne : e.bid ≠ p.bid) (boff : ℕ)
    (buf : List UInt8) : pl.Keeps (pl.write p.cache boff buf) e := by
  have hlive (hl : (pl.write p.cache boff buf).Live e) : pl.Live e :=
    ⟨hl.1, (daddr_write boff buf).symm.trans hl.2⟩
  refine ⟨fun ho g hg hd => ho g hg ((daddr_write boff buf).symm.trans hd), hlive, fun hl i => ?_⟩
  have hcache : e.cache ≠ p.cache := by
    intro heq
    have hd := (hlive hl).2
    rw [heq, hp.2] at hd
    exact hne hd.symm
  simp [Pool.write, Function.update_of_ne hcache]

end

/-! ### New extents -/

/-- The number of pages for `n` bytes. -/
def pages (n : ℕ) : ℕ := (n + BY2PG - 1) / BY2PG

/-- No cached page has one of the next `n` numbers. -/
def Pool.Spare (pl : Pool) (n : ℕ) : Prop := ∀ k < n, pl.Unused (nextpgno^[k] pl.pgno)

/-- The extent has none of the next `n` numbers. -/
def Pool.Avoids (pl : Pool) (n : ℕ) (e : Extent) : Prop := ∀ k < n, e.bid ≠ nextpgno^[k] pl.pgno

/-- What the bytes `buf` at `offset` have become: extents of the file between these offsets, with
numbers given out for them; other extents have kept what they had. -/
structure Chained (pl : Pool) (file : ℕ → UInt8) (buf : List UInt8) (offset : ℕ)
    (r : List Extent × Pool) : Prop where
  good : r.2.Good
  keeps : ∀ e, pl.Avoids (pages buf.length) e → pl.Keeps r.2 e
  coherent : Coherent r.2 file r.1
  within : ∀ c ∈ r.1, offset ≤ c.start ∧ c.stop ≤ offset + buf.length
  bids : ∀ c ∈ r.1, ∃ k < pages buf.length, c.bid = nextpgno^[k] pl.pgno

section

variable {pl : Pool} {file : ℕ → UInt8} {e : Extent} {buf : List UInt8} {offset : ℕ}

theorem Pool.Keeps.refl : pl.Keeps pl e := ⟨fun h => h, fun h => h, fun _ _ => rfl⟩

theorem chained_nil (hgood : pl.Good) : Chained pl file buf offset ([], pl) where
  good := hgood
  keeps _ _ := .refl
  coherent := ⟨fun _ he => absurd he List.not_mem_nil, .nil⟩
  within _ hc := absurd hc List.not_mem_nil
  bids _ hc := absurd hc List.not_mem_nil

/-- The number of the page cached first is not one of those that follow. -/
theorem pgno_ne_iterate (h : pl.Good) {k : ℕ} (hk : k + 1 < 4294967296) :
    pl.pgno ≠ nextpgno^[k] (nextpgno pl.pgno) := by
  rw [← Function.iterate_succ_apply]
  exact (iterate_nextpgno_ne h.pgno_lt k.succ_pos hk).symm

theorem mem_cachenew {f g : ℕ} : g ∈ (pl.cachenew f buf).cached ↔ g = f ∨ g ∈ pl.cached :=
  List.mem_cons

/-- One more page takes one of the spare numbers. -/
theorem spare_cachenew (h : pl.Good) {n : ℕ} (hn : n + 1 < 4294967296) (hs : pl.Spare (n + 1))
    (f : ℕ) (l : List UInt8) : ((pl.uncachepage f).cachenew f l).Spare n := by
  intro k hk g hg
  have hnext : nextpgno^[k] ((pl.uncachepage f).cachenew f l).pgno =
      nextpgno^[k + 1] pl.pgno := by
    rw [Function.iterate_succ_apply]
    simp only [Pool.cachenew, pgno_uncachepage]
  rw [hnext]
  by_cases hgf : g = f
  · subst hgf
    rw [page_cachenew_self, pgno_uncachepage]
    exact pgno_ne_iterate h (by omega)
  · rw [page_cachenew_ne hgf]
    exact unused_uncachepage h (hs (k + 1) (by omega)) g ((mem_cachenew.mp hg).resolve_left hgf)

/-- The first page of a chain and its extent. -/
theorem holds_cachenew (h : pl.Good) (hunused : pl.Unused pl.pgno) {l f : ℕ} (hpos : 0 < l)
    (hl : l ≤ BY2PG) (hlen : l ≤ buf.length)
    (hbuf : ∀ i < buf.length, offset + i < maxcache → buf.getD i 0 = file (offset + i)) :
    Holds ((pl.uncachepage f).cachenew f (buf.take l)) file
      { bid := pl.pgno, start := offset, len := l, cache := f } where
  pos := hpos
  le_page := hl
  owns g hg hd := by
    by_contra hgf
    rw [page_cachenew_ne hgf] at hd
    exact unused_uncachepage h hunused g ((mem_cachenew.mp hg).resolve_left hgf) hd
  data _ i hi hlt := by
    have htake : i < (buf.take l).length := by
      rw [List.length_take]
      exact lt_min hi (hi.trans_le hlen)
    have hget : (buf.take l).getD i 0 = buf.getD i 0 := by
      simp only [List.getD_eq_getElem?_getD, List.getElem?_take, if_pos (show i < l from hi)]
    have hfill := fill_of_mem ((pl.uncachepage f).page f).data 0 htake
    rw [Nat.zero_add] at hfill
    rw [page_cachenew_self]
    exact (hfill.trans hget).trans (hbuf i (by exact hi.trans_le hlen) hlt)

/-- The bytes that a page takes of `n` bytes. -/
theorem page_of_length {n : ℕ} (h : 0 < n) :
    ∃ l, (if BY2PG < n then BY2PG else n) = l ∧ 0 < l ∧ l ≤ BY2PG ∧ l ≤ n ∧
      pages n = pages (n - l) + 1 := by
  by_cases hn : BY2PG < n
  · rw [if_pos hn]
    refine ⟨_, rfl, by decide, le_rfl, hn.le, ?_⟩
    simp only [pages, BY2PG] at hn ⊢
    omega
  · rw [if_neg hn]
    refine ⟨_, rfl, h, not_lt.mp hn, le_rfl, ?_⟩
    simp only [pages, BY2PG] at hn ⊢
    omega

theorem chained_cchainLoop (aux : ℕ → Option ℕ) : ∀ (fuel k : ℕ) (pl : Pool) (buf : List UInt8)
    (offset : ℕ), buf.length < 2147483648 → pl.Good → pl.Spare (pages buf.length) →
    (∀ i < buf.length, offset + i < maxcache → buf.getD i 0 = file (offset + i)) →
    Chained pl file buf offset (cchainLoop aux fuel k pl buf offset)
  | 0, k, pl, buf, offset, _, hgood, _, _ => chained_nil hgood
  | fuel + 1, k, pl, buf, offset, hlen, hgood, hspare, hbuf => by
    unfold cchainLoop
    by_cases hnil : buf = []
    · rw [if_pos hnil]
      exact chained_nil hgood
    rw [if_neg hnil]
    rcases aux k with _ | f
    · exact chained_nil hgood
    dsimp only
    have hpos : 0 < buf.length := List.length_pos_iff.mpr hnil
    obtain ⟨l, hl, hlpos, hlpage, hlbuf, hpages⟩ := page_of_length hpos
    rw [← List.length_drop] at hpages
    rw [hl]
    rw [hpages] at hspare
    have hlt : pages (buf.drop l).length + 1 < 4294967296 := by
      rw [← hpages]
      simp only [pages, BY2PG]
      omega
    have hunused : pl.Unused pl.pgno := hspare 0 (Nat.succ_pos _)
    have hgood' : ((pl.uncachepage f).cachenew f (buf.take l)).Good := by
      refine good_cachenew (good_uncachepage hgood) (fun hf => ?_) ?_ _
      · exact ((mem_uncachepage hgood).mp hf).2 rfl
      · rw [pgno_uncachepage]
        exact unused_uncachepage hgood hunused
    have hpgno : ((pl.uncachepage f).cachenew f (buf.take l)).pgno = nextpgno pl.pgno := by
      simp only [Pool.cachenew, pgno_uncachepage]
    have hrest := chained_cchainLoop aux fuel (k + 1) _ (buf.drop l) (offset + l)
      (by rw [List.length_drop]; omega) hgood' (spare_cachenew hgood hlt hspare f _)
      fun i hi hcache => by
        rw [List.length_drop] at hi
        have hget := hbuf (l + i) (by omega) (by omega)
        simp only [List.getD_eq_getElem?_getD, List.getElem?_drop] at hget ⊢
        rw [hget, add_assoc]
    have hheld : Holds _ file { bid := pl.pgno, start := offset, len := l, cache := f } :=
      holds_cachenew (f := f) hgood hunused hlpos hlpage hlbuf hbuf
    have hwithin (c : Extent) (hc : c ∈ _) := hrest.within c hc
    rw [List.length_drop] at hwithin
    refine ⟨hrest.good, fun e he => ?_, ⟨?_, ?_⟩, ?_, ?_⟩
    · rw [hpages] at he
      refine (keeps_uncachepage hgood f).trans ((keeps_cachenew ?_ _).trans (hrest.keeps e ?_))
      · rw [pgno_uncachepage]
        exact he 0 (Nat.succ_pos _)
      · intro j hj
        rw [hpgno, ← Function.iterate_succ_apply]
        exact he (j + 1) (Nat.succ_lt_succ hj)
    · intro c hc
      rcases List.mem_cons.mp hc with rfl | hc
      · refine hheld.keeps (hrest.keeps _ fun j hj => ?_)
        rw [hpgno]
        exact pgno_ne_iterate hgood (by omega)
      · exact hrest.coherent.each c hc
    · refine List.pairwise_cons.mpr ⟨fun c hc => ⟨?_, ?_, fun _ => (hwithin c hc).1⟩,
        hrest.coherent.order⟩
      · exact (Nat.lt_add_of_pos_right hlpos).trans_le (hwithin c hc).1
      · obtain ⟨j, hj, hbid⟩ := hrest.bids c hc
        rw [hbid, hpgno]
        exact pgno_ne_iterate hgood (by omega)
    · intro c hc
      rcases List.mem_cons.mp hc with rfl | hc
      · exact ⟨le_rfl, Nat.add_le_add_left hlbuf _⟩
      · obtain ⟨hstart, hstop⟩ := hwithin c hc
        exact ⟨(Nat.le_add_right _ _).trans hstart, by omega⟩
    · intro c hc
      rw [hpages]
      rcases List.mem_cons.mp hc with rfl | hc
      · exact ⟨0, Nat.succ_pos _, rfl⟩
      · obtain ⟨j, hj, hbid⟩ := hrest.bids c hc
        rw [hpgno, ← Function.iterate_succ_apply] at hbid
        exact ⟨j + 1, Nat.succ_lt_succ hj, hbid⟩

end

/-! ### Placing bytes in the list -/

/-- The bytes that are left go between `pre` and `post`: the extents are right, those before the
offset that still have their pages end there if any bytes are left, and the numbers to come are not
in use. -/
structure Placed (file : ℕ → UInt8) (w : Placing) (post : List Extent) : Prop where
  good : w.pool.Good
  length : w.buf.length < 2147483648
  coherent : Coherent w.pool file (w.pre ++ post)
  below : ∀ e ∈ w.pre, e.start < w.offset
  settled : w.buf ≠ [] → ∀ e ∈ w.pre, w.pool.Live e → e.stop ≤ w.offset
  above : ∀ e ∈ post, w.offset + w.buf.length ≤ e.start
  bytes : ∀ i < w.buf.length, w.offset + i < maxcache → w.buf.getD i 0 = file (w.offset + i)
  spare : w.pool.Spare (pages w.buf.length)
  avoids : ∀ e ∈ w.pre ++ post, w.pool.Avoids (pages w.buf.length) e

section

variable {pl : Pool} {file file' : ℕ → UInt8} {w : Placing} {pre post : List Extent} {p : Extent}
  {buf : List UInt8} {off : ℕ}

/-- The list with the new extents is right. -/
theorem coherent_link (h : Placed file w post) (aux : ℕ → Option ℕ) (m : Mntcache) :
    (link aux m w post).1.Good ∧
      Coherent (link aux m w post).1 file (link aux m w post).2.list := by
  have hc : Chained w.pool file w.buf w.offset (cchain aux w.pool w.buf w.offset) :=
    chained_cchainLoop aux _ 0 _ _ _ h.length h.good h.spare h.bytes
  unfold link
  rcases hr : cchain aux w.pool w.buf w.offset with ⟨es, pool⟩
  rw [hr] at hc
  refine ⟨hc.good, ?_⟩
  dsimp only
  have hold : Coherent pool file (w.pre ++ post) :=
    h.coherent.keeps fun e he => hc.keeps e (h.avoids e he)
  have hbid {e c : Extent} (he : e ∈ w.pre ++ post) (hcr : c ∈ es) : e.bid ≠ c.bid := by
    obtain ⟨k, hk, hck⟩ := hc.bids c hcr
    rw [hck]
    exact h.avoids e he k hk
  have hpos {c : Extent} (hcr : c ∈ es) : c.start < c.stop :=
    Nat.lt_add_of_pos_right (hc.coherent.each c hcr).pos
  obtain ⟨hpre, hpost, hcross⟩ := List.pairwise_append.mp hold.order
  refine ⟨fun e he => ?_, List.pairwise_append.mpr ⟨List.pairwise_append.mpr
    ⟨hpre, hc.coherent.order, fun e he c hcr => ?_⟩, hpost, fun c hcr e he => ?_⟩⟩
  · rw [List.append_assoc, List.mem_append, List.mem_append] at he
    rcases he with he | he | he
    · exact hold.each e (List.mem_append_left _ he)
    · exact hc.coherent.each e he
    · exact hold.each e (List.mem_append_right _ he)
  · -- an extent before the new one
    obtain ⟨hstart, hstop⟩ := hc.within c hcr
    have hne : w.buf ≠ [] := by
      rintro hnil
      have hlt := hpos hcr
      rw [hnil, List.length_nil] at hstop
      omega
    have he' : e ∈ w.pre ++ post := List.mem_append_left _ he
    exact ⟨(h.below e he).trans_le hstart, hbid he' hcr, fun hl =>
      (h.settled hne e he ((hc.keeps e (h.avoids e he')).live hl)).trans hstart⟩
  · rcases List.mem_append.mp hcr with hcr | hcr
    · exact hcross c hcr e he
    · -- a new one before an extent of the rest
      obtain ⟨hstart, hstop⟩ := hc.within c hcr
      have hle := hstop.trans (h.above e he)
      exact ⟨(hpos hcr).trans_le hle, (hbid (List.mem_append_right _ he) hcr).symm, fun _ => hle⟩

/-- The new bytes of the file are those between the offsets `off` and `off + n`. -/
def Elsewhere (file file' : ℕ → UInt8) (off n : ℕ) : Prop :=
  ∀ i, i < off ∨ off + n ≤ i → file' i = file i

/-- What a call finds before it places the bytes `buf` at `off`, in the file before and after
it. -/
structure Ready (pl : Pool) (file file' : ℕ → UInt8) (pre post : List Extent) (buf : List UInt8)
    (off : ℕ) : Prop where
  good : pl.Good
  length : buf.length < 2147483648
  coherent : Coherent pl file (pre ++ post)
  elsewhere : Elsewhere file file' off buf.length
  below : ∀ e ∈ pre, e.start < off
  above : ∀ e ∈ post, off + buf.length ≤ e.start
  bytes : ∀ i < buf.length, off + i < maxcache → buf.getD i 0 = file' (off + i)
  spare : pl.Spare (pages buf.length)
  avoids : ∀ e ∈ pre ++ post, pl.Avoids (pages buf.length) e

/-- Bytes that do not meet the page of an extent before them are placed as they are. -/
theorem Ready.placed (h : Ready pl file file' pre post buf off)
    (hsettled : ∀ e ∈ pre, pl.Live e → e.stop ≤ off) : Placed file' ⟨pl, pre, buf, off⟩ post where
  good := h.good
  length := h.length
  coherent := by
    refine h.coherent.file_congr fun e he hl i hi => h.elsewhere _ ?_
    rcases List.mem_append.mp he with he | he
    · have hstop := hsettled e he hl
      unfold Extent.stop at hstop
      omega
    · have hstart := h.above e he
      omega
  below := h.below
  settled _ := hsettled
  above := h.above
  bytes := h.bytes
  spare := h.spare
  avoids := h.avoids

/-- The extents before the last one end where it starts. -/
theorem Ready.stop_le_last {init : List Extent}
    (h : Ready pl file file' (init ++ [p]) post buf off) {e : Extent} (he : e ∈ init)
    (hl : pl.Live e) : e.stop ≤ p.start := by
  have horder := (List.pairwise_append.mp h.coherent.order).1
  exact ((List.pairwise_append.mp horder).2.2 e he p (List.mem_singleton.mpr rfl)).stop_le hl

/-- How many bytes go into the page of the predecessor, and its length then. -/
theorem packed_length {n eo len : ℕ} (heo : eo < BY2PG) (hlen : len ≤ BY2PG) :
    ∃ o len', (if BY2PG - eo < n then BY2PG - eo else n) = o ∧
      (if len < eo + o then eo + o else len) = len' ∧ o ≤ n ∧ (o < n → eo + o = BY2PG) ∧
      len' ≤ BY2PG ∧ len ≤ len' ∧ eo + o ≤ len' ∧ (len' = len ∨ len' = eo + o) := by
  refine ⟨_, _, rfl, rfl, ?_⟩
  generalize BY2PG = m at heo hlen
  split_ifs <;> omega

/-- The bytes of a page after some were packed into it. -/
theorem holds_pack (hp : pl.Live p) (hheld : Holds pl file p) {o len' : ℕ} (hstart : p.start < off)
    (hoff : off ≤ p.stop) (ho : o ≤ buf.length)
    (hfull : o < buf.length → off - p.start + o = BY2PG) (hpage : len' ≤ BY2PG)
    (hlen' : len' = p.len ∨ len' = off - p.start + o) (hle : p.len ≤ len')
    (helse : Elsewhere file file' off buf.length)
    (hbytes : ∀ i < buf.length, off + i < maxcache → buf.getD i 0 = file' (off + i)) :
    Holds (pl.write p.cache (off - p.start) (buf.take o)) file' { p with len := len' } where
  pos := hheld.pos.trans_le hle
  le_page := hpage
  owns g hg hd := hheld.owns g hg ((daddr_write _ _).symm.trans hd)
  data _ i hi hlt := by
    have hdata := hheld.data hp
    have htake : (buf.take o).length = o := by rw [List.length_take, min_eq_left ho]
    have hpagele := hheld.le_page
    have hpage : ((pl.write p.cache (off - p.start) (buf.take o)).page p.cache).data =
        fill (pl.page p.cache).data (off - p.start) (buf.take o) := by simp [Pool.write]
    rw [hpage]
    dsimp only at hi hlt ⊢
    unfold Extent.stop at hoff
    rcases Nat.lt_or_ge i (off - p.start) with hlo | hlo
    · rw [fill_of_not_mem (.inl hlo), hdata i (by omega) hlt, helse _ (.inl (by omega))]
    rcases Nat.lt_or_ge i (off - p.start + o) with hmid | hhi
    · obtain ⟨j, rfl⟩ := Nat.exists_eq_add_of_le hlo
      have hj : j < o := by omega
      have hj' : j < (buf.take o).length := htake.symm ▸ hj
      have hfill := fill_of_mem (pl.page p.cache).data (off - p.start) hj'
      have hget : (buf.take o).getD j 0 = buf.getD j 0 := by
        simp only [List.getD_eq_getElem?_getD, List.getElem?_take, if_pos hj]
      rw [hfill, hget, hbytes j (by omega) (by omega)]
      congr 1
      omega
    · rw [fill_of_not_mem (.inr (by omega)), hdata i (by omega) hlt,
        helse _ (.inr (by omega))]

/-- Packing bytes into the page of the predecessor. -/
theorem Ready.placed_pack {init : List Extent}
    (h : Ready pl file file' (init ++ [p]) post buf off) (hoff : off ≤ p.stop)
    (heo : off - p.start < BY2PG) :
    Placed file' (pack ⟨pl, init ++ [p], buf, off⟩ p (off - p.start)) post := by
  have hlast : p ∈ init ++ [p] := List.mem_append_right _ (List.mem_singleton.mpr rfl)
  have hstart : p.start < off := h.below p hlast
  have hheld := h.coherent.each p (List.mem_append_left _ hlast)
  unfold pack cpgmove
  dsimp only
  rcases hpage : cpage pl p with _ | f
  · -- the predecessor has lost its page
    refine h.placed fun e he hl => ?_
    rcases List.mem_append.mp he with he | he
    · exact (h.stop_le_last he hl).trans hstart.le
    · obtain rfl := List.mem_singleton.mp he
      exact absurd hl ((cpage_eq_none h.good hheld.owns).mp hpage)
  obtain ⟨hlive, rfl⟩ := (cpage_eq_some h.good hheld.owns).mp hpage
  obtain ⟨o, len', ho, hl', hon, hfull, hlepage, hlelen, hlepack, hlen'⟩ :=
    packed_length (n := buf.length) heo hheld.le_page
  rw [ho, Option.map_some]
  dsimp only
  rw [hl', List.dropLast_concat]
  have hpacked := holds_pack hlive hheld hstart hoff hon hfull hlepage hlen' hlelen h.elsewhere
    h.bytes
  obtain ⟨hpre, hpost, hcross⟩ := List.pairwise_append.mp h.coherent.order
  obtain ⟨hinit, -, hinitp⟩ := List.pairwise_append.mp hpre
  have hkeeps {e : Extent} (hne : e.bid ≠ p.bid) :
      pl.Keeps (pl.write p.cache (off - p.start) (buf.take o)) e := keeps_write hlive hne _ _
  have hbefore {e : Extent} (he : e ∈ init) : Before pl e p :=
    hinitp e he p (List.mem_singleton.mpr rfl)
  have hbehind {e : Extent} (he : e ∈ post) : Before pl p e := hcross p hlast e he
  have hstop {e : Extent} (he : e ∈ init)
      (hl : (pl.write p.cache (off - p.start) (buf.take o)).Live e) : e.stop ≤ p.start :=
    (hbefore he).stop_le ((hkeeps (hbefore he).bid_ne).live hl)
  have hfile (e : Extent) (he : e ∈ init ∨ e ∈ post) :
      Holds (pl.write p.cache (off - p.start) (buf.take o)) file' e := by
    have hmem : e ∈ init ++ [p] ++ post := by
      rw [List.append_assoc, List.mem_append, List.mem_append]
      exact he.imp_right .inr
    have hkept : pl.Keeps (pl.write p.cache (off - p.start) (buf.take o)) e :=
      hkeeps (he.elim (fun he => (hbefore he).bid_ne) fun he => (hbehind he).bid_ne.symm)
    have hold := (h.coherent.each e hmem).keeps hkept
    refine ⟨hold.pos, hold.le_page, hold.owns, fun hl i hi hlt => ?_⟩
    rw [hold.data hl i hi hlt, h.elsewhere]
    rcases he with he | he
    · have := hstop he hl
      unfold Extent.stop at this
      omega
    · have := h.above e he
      omega
  have hdrop : (buf.drop o).length = buf.length - o := List.length_drop
  have hpages : pages (buf.drop o).length ≤ pages buf.length := by
    rw [hdrop]
    exact Nat.div_le_div_right (by omega)
  refine ⟨good_write h.good _ _, by rw [hdrop]; have := h.length; omega, ⟨fun e he => ?_, ?_⟩, ?_,
    ?_, ?_, ?_, ?_, ?_⟩
  · rw [List.append_assoc, List.mem_append, List.mem_append, List.mem_singleton] at he
    rcases he with he | rfl | he
    · exact hfile e (.inl he)
    · exact hpacked
    · exact hfile e (.inr he)
  · refine List.pairwise_append.mpr ⟨List.pairwise_append.mpr ⟨hinit.imp_of_mem fun ha _ hab => ?_,
      List.pairwise_singleton _ _, fun e he p' hp' => ?_⟩, hpost.imp_of_mem fun ha _ hab => ?_,
      fun e he e' he' => ?_⟩
    · exact ⟨hab.start_lt, hab.bid_ne, fun hl =>
        hab.stop_le ((hkeeps (hbefore ha).bid_ne).live hl)⟩
    · obtain rfl := List.mem_singleton.mp hp'
      exact ⟨(hbefore he).start_lt, (hbefore he).bid_ne, hstop he⟩
    · exact ⟨hab.start_lt, hab.bid_ne, fun hl =>
        hab.stop_le ((hkeeps (hbehind ha).bid_ne.symm).live hl)⟩
    · rcases List.mem_append.mp he with he | he
      · have hab := hcross e (List.mem_append_left _ he) e' he'
        exact ⟨hab.start_lt, hab.bid_ne, fun hl =>
          hab.stop_le ((hkeeps (hbefore he).bid_ne).live hl)⟩
      · obtain rfl := List.mem_singleton.mp he
        refine ⟨(hbehind he').start_lt, (hbehind he').bid_ne, fun _ => ?_⟩
        have hbehind' := (hbehind he').stop_le hlive
        have habove := h.above e' he'
        unfold Extent.stop at hbehind' ⊢
        dsimp only
        omega
  · intro e he
    rcases List.mem_append.mp he with he | he
    · exact (h.below e (List.mem_append_left _ he)).trans_le (Nat.le_add_right _ _)
    · obtain rfl := List.mem_singleton.mp he
      exact hstart.trans_le (Nat.le_add_right _ _)
  · intro hne e he hl
    rcases List.mem_append.mp he with he | he
    · exact (hstop he hl).trans (hstart.le.trans (Nat.le_add_right _ _))
    · obtain rfl := List.mem_singleton.mp he
      have hleft : 0 < (buf.drop o).length := List.length_pos_iff.mpr hne
      rw [hdrop] at hleft
      have hfull' := hfull (by omega)
      have hle := hheld.le_page
      unfold Extent.stop
      dsimp only
      omega
  · intro e he
    have habove := h.above e he
    dsimp only
    rw [hdrop]
    omega
  · intro i hi hlt
    dsimp only at hi hlt ⊢
    rw [hdrop] at hi
    have hget := h.bytes (o + i) (by omega) (by omega)
    simp only [List.getD_eq_getElem?_getD, List.getElem?_drop] at hget ⊢
    rw [hget, add_assoc]
  · intro k hk g hg
    rw [daddr_write]
    exact h.spare k (hk.trans_le hpages) g hg
  · intro e he k hk
    rw [List.append_assoc, List.mem_append, List.mem_append, List.mem_singleton] at he
    have hk' : k < pages buf.length := hk.trans_le hpages
    rcases he with he | rfl | he
    · exact h.avoids e (List.mem_append_left _ (List.mem_append_left _ he)) k hk'
    · exact h.avoids p (List.mem_append_left _ hlast) k hk'
    · exact h.avoids e (List.mem_append_right _ he) k hk'

end

/-! ### The calls -/

section

variable {pl : Pool} {file file' : ℕ → UInt8} {m : Mntcache} {c : Chan} {buf : List UInt8}
  {off : ℕ} {es : List Extent}

/-- Behind the extents that meet a condition on their starts none does. -/
theorem start_of_mem_dropWhile (h : es.Pairwise (Before pl)) {n : ℕ} {q : Extent → Bool}
    (hq : ∀ e, q e = true ↔ e.start < n) : ∀ e ∈ es.dropWhile q, n ≤ e.start := by
  induction es with
  | nil => exact fun e he => absurd he List.not_mem_nil
  | cons a es ih =>
    obtain ⟨ha, hes⟩ := List.pairwise_cons.mp h
    rw [List.dropWhile_cons]
    split_ifs with hqa
    · exact ih hes
    · rw [hq, not_lt] at hqa
      intro e he
      rcases List.mem_cons.mp he with rfl | he
      · exact hqa
      · exact hqa.trans (ha e he).start_lt.le

theorem start_of_mem_takeWhile {n : ℕ} {q : Extent → Bool} (hq : ∀ e, q e = true ↔ e.start < n) :
    ∀ e ∈ es.takeWhile q, e.start < n := fun e he => (hq e).mp (List.mem_takeWhile_imp he)

theorem Pool.Avoids.of_le {n n' : ℕ} {e : Extent} (h : pl.Avoids n e) (hle : n' ≤ n) :
    pl.Avoids n' e := fun k hk => h k (hk.trans_le hle)

theorem pages_mono {n n' : ℕ} (h : n ≤ n') : pages n ≤ pages n' := Nat.div_le_div_right (by omega)

/-- The numbers for `n` bytes are used neither by a cached page nor by an extent. -/
structure Spares (pl : Pool) (es : List Extent) (n : ℕ) : Prop where
  spare : pl.Spare (pages n)
  avoids : ∀ e ∈ es, pl.Avoids (pages n) e

theorem Spares.of_le {n n' : ℕ} {fs : List Extent} (h : Spares pl es n) (hle : n' ≤ n)
    (hsub : fs ⊆ es) : Spares pl fs n' where
  spare k hk := h.spare k (hk.trans_le (pages_mono hle))
  avoids e he := (h.avoids e (hsub he)).of_le (pages_mono hle)

/-- The successor cuts off what reaches into it. -/
theorem trimNext_spec (h : es.Pairwise (Before pl)) (n : ℕ) (hstart : ∀ e ∈ es, off ≤ e.start) :
    trimNext off n es.head? ≤ n ∧ ∀ e ∈ es, off + trimNext off n es.head? ≤ e.start := by
  cases es with
  | nil => exact ⟨le_rfl, fun e he => absurd he List.not_mem_nil⟩
  | cons f es =>
    have hle := hstart f List.mem_cons_self
    have hmin (e : Extent) (he : e ∈ f :: es) : f.start ≤ e.start := by
      rcases List.mem_cons.mp he with rfl | he
      · exact le_rfl
      · exact ((List.pairwise_cons.mp h).1 e he).start_lt.le
    simp only [List.head?_cons, trimNext]
    split_ifs with hlt
    · refine ⟨Nat.sub_le _ _, fun e he => ?_⟩
      have := hmin e he
      omega
    · exact ⟨le_rfl, fun e he => (not_lt.mp hlt).trans (hmin e he)⟩

/-- An update with bytes of the file keeps the extents right. -/
theorem coherent_cupdate (aux : ℕ → Option ℕ) (hgood : pl.Good) (h : Coherent pl file m.list)
    (hlen : buf.length < 2147483648)
    (hbuf : ∀ i < buf.length, off + i < maxcache → buf.getD i 0 = file (off + i))
    (hspare : Spares pl m.list buf.length) :
    (cupdate aux pl m c buf off).1.Good ∧
      Coherent (cupdate aux pl m c buf off).1 file (cupdate aux pl m c buf off).2.list := by
  unfold cupdate
  by_cases hoff : maxcache < off ∨ buf.length = 0
  · rw [if_pos hoff]
    exact ⟨hgood, h⟩
  by_cases hdev : cdev m c = false
  · rw [if_neg hoff, if_pos hdev]
    exact ⟨hgood, h⟩
  rw [if_neg hoff, if_neg hdev]
  dsimp only
  have hq (e : Extent) : decide (e.start ≤ off) = true ↔ e.start < off + 1 := by
    rw [decide_eq_true_iff, Nat.lt_succ_iff]
  have hpre : ∀ e ∈ m.list.takeWhile fun f => f.start ≤ off, e.start < off + 1 :=
    start_of_mem_takeWhile hq
  have hpost : ∀ e ∈ m.list.dropWhile fun f => f.start ≤ off, off + 1 ≤ e.start :=
    start_of_mem_dropWhile h.order hq
  have hlist : (m.list.takeWhile fun f => f.start ≤ off) ++
      (m.list.dropWhile fun f => f.start ≤ off) = m.list := List.takeWhile_append_dropWhile
  generalize (m.list.takeWhile fun f => f.start ≤ off) = pre at hpre hlist
  generalize (m.list.dropWhile fun f => f.start ≤ off) = post at hpost hlist
  rw [← hlist] at h hspare
  obtain ⟨hle, habove⟩ := trimNext_spec (List.pairwise_append.mp h.order).2.1 buf.length
    fun e he => (Nat.le_succ _).trans (hpost e he)
  generalize trimNext off buf.length post.head? = len at hle habove
  split_ifs with hzero
  · rw [hlist] at h
    exact ⟨hgood, h⟩
  have htake : (buf.take len).length = len := by rw [List.length_take, min_eq_left hle]
  -- the bytes that are left of those between the neighbours
  have hready (o : ℕ) (ho : o ≤ len) (hbelow : ∀ e ∈ pre, e.start < off + o) :
      Ready pl file file pre post ((buf.take len).drop o) (off + o) := by
    have hdrop : ((buf.take len).drop o).length = len - o := by rw [List.length_drop, htake]
    refine ⟨hgood, by omega, h, fun _ _ => rfl, hbelow, fun e he => ?_, fun i hi hlt => ?_, ?_, ?_⟩
    · have := habove e he
      omega
    · rw [hdrop] at hi
      have hget := hbuf (o + i) (by omega) (by omega)
      simp only [List.getD_eq_getElem?_getD, List.getElem?_drop, List.getElem?_take] at hget ⊢
      rw [if_pos (by omega), hget, add_assoc]
    · exact (hspare.of_le (by omega) (List.Subset.refl _)).spare
    · exact (hspare.of_le (by omega) (List.Subset.refl _)).avoids
  rcases hlast : pre.getLast? with _ | p
  · obtain rfl := List.getLast?_eq_none_iff.mp hlast
    have hnil := hready 0 (Nat.zero_le _) fun e he => absurd he List.not_mem_nil
    exact coherent_link (hnil.placed fun e he => absurd he List.not_mem_nil) aux m
  obtain ⟨init, rfl⟩ := List.getLast?_eq_some_iff.mp hlast
  dsimp only
  rw [htake]
  split_ifs with hshort hfull
  · rw [hlist] at h
    exact ⟨hgood, h⟩
  all_goals
    have hmem : p ∈ init ++ [p] := List.mem_append_right _ (List.mem_singleton.mpr rfl)
    have hpos : 0 < p.len := (h.each p (List.mem_append_left _ hmem)).pos
    have hstop : p.stop = p.start + p.len := rfl
    have hp := hpre p hmem
    have horder := (List.pairwise_append.mp (List.pairwise_append.mp h.order).1).2.2
    have hbelow : ∀ e ∈ init ++ [p], e.start < off + (p.stop - off) := by
      intro e he
      rcases List.mem_append.mp he with he | he
      · have := (horder e he p (List.mem_singleton.mpr rfl)).start_lt
        omega
      · obtain rfl := List.mem_singleton.mp he
        omega
    have hr := hready (p.stop - off) (not_le.mp hshort).le hbelow
  · have heo : off + (p.stop - off) - p.start = p.len := by omega
    have hpacked := hr.placed_pack hfull.1.le (by rw [heo]; exact hfull.2)
    rw [heo] at hpacked
    exact coherent_link hpacked aux m
  · refine coherent_link (hr.placed fun e he hl => ?_) aux m
    rcases List.mem_append.mp he with he | he
    · exact (hr.stop_le_last he hl).trans (hbelow p hmem).le
    · obtain rfl := List.mem_singleton.mp he
      omega

/-- A write keeps the extents right for the file that it writes. -/
theorem coherent_cwrite (aux : ℕ → Option ℕ) (hgood : pl.Good) (h : Coherent pl file m.list)
    (hoff : off ≤ maxcache) (hdev : cdev m c = true) (hpos : 0 < buf.length)
    (hlen : buf.length < 2147483648) (hspare : Spares pl m.list buf.length) :
    (cwrite aux pl m c buf off).1.Good ∧
      Coherent (cwrite aux pl m c buf off).1 (fill file off buf)
        (cwrite aux pl m c buf off).2.1.list := by
  unfold cwrite
  rw [if_neg (by omega), if_neg (by simp [hdev])]
  dsimp only
  have hpre : ∀ e ∈ m.list.takeWhile fun f => f.start < off, e.start < off :=
    start_of_mem_takeWhile fun e => decide_eq_true_iff
  have hlist : (m.list.takeWhile fun f => f.start < off) ++
      (m.list.dropWhile fun f => f.start < off) = m.list := List.takeWhile_append_dropWhile
  generalize (m.list.takeWhile fun f => f.start < off) = pre at hpre hlist
  generalize (m.list.dropWhile fun f => f.start < off) = rest at hlist
  rw [← hlist] at h hspare
  have hpost : ∀ e ∈ rest.dropWhile fun f => f.start < off + buf.length,
      off + buf.length ≤ e.start :=
    start_of_mem_dropWhile (List.pairwise_append.mp h.order).2.1 fun e => decide_eq_true_iff
  have hsub : (pre ++ rest.dropWhile fun f => f.start < off + buf.length).Sublist (pre ++ rest) :=
    (List.Sublist.refl pre).append (List.dropWhile_sublist _)
  generalize (rest.dropWhile fun f => f.start < off + buf.length) = post at hpost hsub
  have hready : Ready pl file (fill file off buf) pre post buf off :=
    ⟨hgood, hlen, h.sublist hsub, fun i hi => fill_of_not_mem hi, hpre, hpost,
      fun i hi _ => (fill_of_mem file off hi).symm, (hspare.of_le le_rfl hsub.subset).spare,
      (hspare.of_le le_rfl hsub.subset).avoids⟩
  rcases hlast : pre.getLast? with _ | p
  · obtain rfl := List.getLast?_eq_none_iff.mp hlast
    exact coherent_link (hready.placed fun e he => absurd he List.not_mem_nil) aux _
  obtain ⟨init, rfl⟩ := List.getLast?_eq_some_iff.mp hlast
  dsimp only
  split_ifs with hpack
  · exact coherent_link (hready.placed_pack hpack.1 hpack.2) aux _
  · refine coherent_link (hready.placed fun e he hl => ?_) aux _
    rcases List.mem_append.mp he with he | he
    · exact (hready.stop_le_last he hl).trans
        (hpre p (List.mem_append_right _ (List.mem_singleton.mpr rfl))).le
    · obtain rfl := List.mem_singleton.mp he
      have hmem : e ∈ init ++ [e] := List.mem_append_right _ he
      have hstart := hpre e hmem
      have hpage := (hready.coherent.each e (List.mem_append_left _ hmem)).le_page
      unfold Extent.stop at hpack ⊢
      omega

/-- A write behind the part of the file that is cached changes nothing there. -/
theorem coherent_of_behind (h : Coherent pl file es) (hoff : maxcache < off ∨ buf.length = 0) :
    Coherent pl (fill file off buf) es where
  each e he :=
    { h.each e he with
      data := fun hl i hi hlt => by
        rw [(h.each e he).data hl i hi hlt, fill_of_not_mem]
        omega }
  order := h.order

/-- The loop of `cread` returns bytes of the file and frees extents only. -/
theorem creadLoop_spec (hgood : pl.Good) : ∀ (es : List Extent) (offset len : ℕ),
    (∀ e ∈ es, Holds pl file e) → offset + len ≤ maxcache →
    (∀ e ∈ es.head?, len = 0 ∨ e.start ≤ offset ∧ offset < e.stop) →
    (creadLoop pl es offset len).2.Sublist es ∧
      ∀ i < (creadLoop pl es offset len).1.length,
        (creadLoop pl es offset len).1.getD i 0 = file (offset + i)
  | [], offset, len, _, _, _ => ⟨List.Sublist.refl _, fun i hi => absurd hi (Nat.not_lt_zero i)⟩
  | e :: es, offset, len, hes, hmax, hhead => by
    unfold creadLoop
    by_cases hzero : len = 0
    · rw [if_pos hzero]
      exact ⟨List.Sublist.refl _, fun i hi => absurd hi (Nat.not_lt_zero i)⟩
    rw [if_neg hzero]
    obtain ⟨hstart, hstop⟩ := (hhead e rfl).resolve_left hzero
    have hheld := hes e List.mem_cons_self
    rcases hpage : cpage pl e with _ | f
    · exact ⟨List.sublist_cons_self _ _, fun i hi => absurd hi (Nat.not_lt_zero i)⟩
    obtain ⟨hlive, rfl⟩ := (cpage_eq_some hgood hheld.owns).mp hpage
    have hstop' : e.stop = e.start + e.len := rfl
    obtain ⟨l, hl, hlpos, hlen, hle, hnext⟩ : ∃ l, (if e.len - (offset - e.start) < len then
        e.len - (offset - e.start) else len) = l ∧ 0 < l ∧ l ≤ len ∧ offset + l ≤ e.stop ∧
        (l < len → offset + l = e.stop) := by
      refine ⟨_, rfl, ?_⟩
      split_ifs <;> omega
    dsimp only
    rw [hl]
    have hbuf : ∀ i < l, ((List.range l).map fun i =>
        (pl.page e.cache).data (offset - e.start + i)).getD i 0 = file (offset + i) := by
      intro i hi
      rw [List.getD_eq_getElem?_getD, List.getElem?_map, List.getElem?_range hi]
      dsimp only [Option.map_some, Option.getD_some]
      rw [hheld.data hlive _ (by omega) (by omega)]
      congr 1
      omega
    have hlength : ((List.range l).map fun i =>
        (pl.page e.cache).data (offset - e.start + i)).length = l := by simp
    generalize ((List.range l).map fun i => (pl.page e.cache).data (offset - e.start + i)) = buf
      at hbuf hlength
    cases es with
    | nil => exact ⟨List.Sublist.refl _, fun i hi => hbuf i (hlength ▸ hi)⟩
    | cons f fs =>
      dsimp only
      split_ifs with hgap
      · exact ⟨List.Sublist.refl _, fun i hi => hbuf i (hlength ▸ hi)⟩
      rw [not_not] at hgap
      obtain ⟨hsub, hrest⟩ := creadLoop_spec hgood (f :: fs) (offset + l) (len - l)
        (fun e he => hes e (List.mem_cons_of_mem _ he)) (by omega) fun e he => by
          obtain rfl := Option.some.inj he
          have hpos := (hes f (List.mem_cons_of_mem _ List.mem_cons_self)).pos
          exact .inr ⟨hgap.le, by rw [← hgap]; exact Nat.lt_add_of_pos_right hpos⟩
      refine ⟨List.Sublist.cons_cons _ hsub, fun i hi => ?_⟩
      dsimp only at hi ⊢
      rw [List.getD_eq_getElem?_getD]
      rcases Nat.lt_or_ge i l with hil | hil
      · rw [List.getElem?_append_left (by omega), ← List.getD_eq_getElem?_getD, hbuf i hil]
      · rw [List.length_append, hlength] at hi
        rw [List.getElem?_append_right (by omega), hlength, ← List.getD_eq_getElem?_getD,
          hrest (i - l) (by omega)]
        congr 1
        omega

/-- The search of `cread` finds an extent that holds the offset. -/
theorem creadList_spec (hgood : pl.Good) {len : ℕ} (hmax : off + len ≤ maxcache) :
    ∀ es : List Extent, (∀ e ∈ es, Holds pl file e) →
      (creadList pl off len es).2.Sublist es ∧ ∀ i < (creadList pl off len es).1.length,
        (creadList pl off len es).1.getD i 0 = file (off + i)
  | [], _ => ⟨List.Sublist.refl _, fun i hi => absurd hi (Nat.not_lt_zero i)⟩
  | e :: es, hes => by
    unfold creadList
    split_ifs with hin
    · exact creadLoop_spec hgood (e :: es) off len hes hmax fun e' he => by
        obtain rfl := Option.some.inj he
        exact .inr hin
    · obtain ⟨hsub, hbuf⟩ := creadList_spec hgood hmax es fun e he =>
        hes e (List.mem_cons_of_mem _ he)
      exact ⟨List.Sublist.cons_cons _ hsub, hbuf⟩

/-- What `cread` returns is what the file holds, and it keeps the extents right. -/
theorem read_of_coherent (hgood : pl.Good) (h : Coherent pl file m.list) (len : ℕ) :
    Coherent pl file (cread pl m c len off).1.list ∧
      ∀ i < (cread pl m c len off).2.length,
        (cread pl m c len off).2.getD i 0 = file (off + i) := by
  have hnone : Coherent pl file m.list ∧
      ∀ i < ([] : List UInt8).length, ([] : List UInt8).getD i 0 = file (off + i) :=
    ⟨h, fun i hi => absurd hi (Nat.not_lt_zero i)⟩
  unfold cread
  split_ifs with hmax
  · exact hnone
  · exact hnone
  · obtain ⟨hsub, hbuf⟩ := creadList_spec hgood (not_lt.mp hmax) m.list h.each
    exact ⟨h.sublist hsub, hbuf⟩

end

/-! ### Runs -/

/-- One file with its cache: the page pool, the cache entry, the channel and what the server
holds. -/
structure State where
  pool : Pool
  mcp : Mntcache
  chan : Chan
  file : ℕ → UInt8

/-- The calls on the file, and what happens to the pages meanwhile: one loses its number, a frame
is used for something else, a page of another file is cached. -/
inductive Event
  | cupdate (aux : ℕ → Option ℕ) (len off : ℕ)
  | cwrite (aux : ℕ → Option ℕ) (buf : List UInt8) (off : ℕ)
  | cread (len off : ℕ)
  | evict (f : ℕ)
  | reuse (f : ℕ) (p : Page)
  | other (f : ℕ) (buf : List UInt8)

/-- The bytes that the server holds. -/
def bytesAt (file : ℕ → UInt8) (off len : ℕ) : List UInt8 :=
  (List.range len).map fun i => file (off + i)

/-- One step; the length of a call is an `int`. -/
inductive Step : State → Event → State → Prop
  | cupdate {s : State} {aux : ℕ → Option ℕ} {len off : ℕ} (hlen : len < 2147483648) :
      Step s (.cupdate aux len off)
        { s with
          pool := (Cache.cupdate aux s.pool s.mcp s.chan (bytesAt s.file off len) off).1
          mcp := (Cache.cupdate aux s.pool s.mcp s.chan (bytesAt s.file off len) off).2 }
  | cwrite {s : State} {aux : ℕ → Option ℕ} {buf : List UInt8} {off : ℕ}
      (hlen : buf.length < 2147483648) :
      Step s (.cwrite aux buf off)
        { pool := (Cache.cwrite aux s.pool s.mcp s.chan buf off).1
          mcp := (Cache.cwrite aux s.pool s.mcp s.chan buf off).2.1
          chan := (Cache.cwrite aux s.pool s.mcp s.chan buf off).2.2
          file := fill s.file off buf }
  | cread {s : State} {len off : ℕ} :
      Step s (.cread len off) { s with mcp := (Cache.cread s.pool s.mcp s.chan len off).1 }
  | evict {s : State} {f : ℕ} : Step s (.evict f) { s with pool := s.pool.uncachepage f }
  | reuse {s : State} {f : ℕ} {p : Page} (hf : f ∉ s.pool.cached) :
      Step s (.reuse f p)
        { s with pool := { s.pool with page := Function.update s.pool.page f p } }
  | other {s : State} {f : ℕ} {buf : List UInt8} :
      Step s (.other f buf) { s with pool := (s.pool.uncachepage f).cachenew f buf }

/-- The numbers that a step may give out are used neither by a cached page nor by an extent of the
file. -/
def Fresh (s : State) : Event → Prop
  | .cupdate _ len _ => Spares s.pool s.mcp.list len
  | .cwrite _ buf _ => Spares s.pool s.mcp.list buf.length
  | .other _ _ => s.pool.Unused s.pool.pgno ∧ ∀ e ∈ s.mcp.list, e.bid ≠ s.pool.pgno
  | _ => True

/-- The cache entry is new and has the version of the channel. -/
structure Start (s : State) : Prop where
  list : s.mcp.list = []
  good : s.pool.Good
  dev : cdev s.mcp s.chan = true

/-- The cache agrees with the file: the extents are in order, those that have their pages do not
overlap, and what `cread` returns is what the file holds. -/
structure Agrees (s : State) : Prop where
  sorted : s.mcp.list.Pairwise fun a b => a.start < b.start
  apart : s.mcp.list.Pairwise fun a b =>
    cpage s.pool a ≠ none → cpage s.pool b ≠ none → a.stop ≤ b.start
  read : ∀ len off, ∀ i < (cread s.pool s.mcp s.chan len off).2.length,
    (cread s.pool s.mcp s.chan len off).2.getD i 0 = s.file (off + i)

/-- What every step keeps that gives out fresh numbers. -/
structure Valid (s : State) : Prop where
  good : s.pool.Good
  coherent : Coherent s.pool s.file s.mcp.list
  dev : cdev s.mcp s.chan = true

theorem Start.valid {s : State} (h : Start s) : Valid s where
  good := h.good
  coherent := by
    rw [h.list]
    exact ⟨fun _ he => absurd he List.not_mem_nil, .nil⟩
  dev := h.dev

theorem Valid.agrees {s : State} (h : Valid s) : Agrees s where
  sorted := h.coherent.order.imp fun hab => hab.start_lt
  apart := h.coherent.order.imp_of_mem fun ha _ hab hpage _ => hab.stop_le (by
    by_contra hl
    exact hpage ((cpage_eq_none h.good (h.coherent.each _ ha).owns).mpr hl))
  read len _ := (read_of_coherent h.good h.coherent len).2

section

variable {pl : Pool} {m : Mntcache} {c : Chan} {off : ℕ}

theorem length_bytesAt (file : ℕ → UInt8) (off len : ℕ) : (bytesAt file off len).length = len := by
  simp [bytesAt]

theorem getD_bytesAt (file : ℕ → UInt8) {len i : ℕ} (hi : i < len) :
    (bytesAt file off len).getD i 0 = file (off + i) := by
  rw [bytesAt, List.getD_eq_getElem?_getD, List.getElem?_map, List.getElem?_range hi]
  rfl

theorem cdev_cupdate (aux : ℕ → Option ℕ) (buf : List UInt8) :
    cdev (cupdate aux pl m c buf off).2 c = cdev m c := by
  unfold cupdate
  dsimp only
  split_ifs
  · rfl
  · rfl
  · rfl
  · cases (m.list.takeWhile fun f => f.start ≤ off).getLast? with
    | none => rfl
    | some p =>
      dsimp only
      split_ifs <;> rfl

theorem cdev_cread (len : ℕ) : cdev (cread pl m c len off).1 c = cdev m c := by
  unfold cread
  split_ifs <;> rfl

theorem cdev_cwrite (aux : ℕ → Option ℕ) (buf : List UInt8) (h : cdev m c = true) :
    cdev (cwrite aux pl m c buf off).2.1 (cwrite aux pl m c buf off).2.2 = true := by
  unfold cwrite
  split_ifs
  · exact h
  · exact h
  · simp only [cdev, link, Qid.next, decide_eq_true_eq] at h ⊢
    exact ⟨h.1, h.2.1, h.2.2.1, h.2.2.2.1, by rw [h.2.2.2.2]⟩

/-- A frame that is not cached does not matter. -/
theorem keeps_reuse {f : ℕ} (hf : f ∉ pl.cached) (p : Page) (e : Extent) :
    pl.Keeps { pl with page := Function.update pl.page f p } e := by
  have hpage {g : ℕ} (hg : g ∈ pl.cached) : Function.update pl.page f p g = pl.page g :=
    Function.update_of_ne (ne_of_mem_of_not_mem hg hf) _ _
  refine ⟨fun ho g hg hd => ho g hg ?_, fun hl => ⟨hl.1, ?_⟩, fun hl i => ?_⟩
  · rw [← hpage hg]
    exact hd
  · rw [← hpage hl.1]
    exact hl.2
  · exact congrArg (fun p => Page.data p i) (hpage hl.1)

theorem good_reuse (h : pl.Good) {f : ℕ} (hf : f ∉ pl.cached) (p : Page) :
    Pool.Good { pl with page := Function.update pl.page f p } where
  nodup := h.nodup
  inj g hg g' hg' heq := by
    have hpage {g : ℕ} (hg : g ∈ pl.cached) : Function.update pl.page f p g = pl.page g :=
      Function.update_of_ne (ne_of_mem_of_not_mem hg hf) _ _
    refine h.inj g hg g' hg' ?_
    rw [← hpage hg, ← hpage hg']
    exact heq
  pgno_lt := h.pgno_lt

end

/-- A step that gives out fresh numbers keeps the extents right. -/
theorem valid_of_step {s t : State} {e : Event} (h : Step s e t) (hv : Valid s) (hf : Fresh s e) :
    Valid t := by
  cases h with
  | @cupdate aux len off hlen =>
    have hbuf := length_bytesAt s.file off len
    obtain ⟨hgood, hcoh⟩ := coherent_cupdate (c := s.chan) aux hv.good hv.coherent
      (by rw [hbuf]; exact hlen) (fun i hi _ => getD_bytesAt s.file (hbuf ▸ hi))
      (by rw [hbuf]; exact hf)
    exact ⟨hgood, hcoh, (cdev_cupdate aux _).trans hv.dev⟩
  | @cwrite aux buf off hlen =>
    suffices hs : (cwrite aux s.pool s.mcp s.chan buf off).1.Good ∧
        Coherent (cwrite aux s.pool s.mcp s.chan buf off).1 (fill s.file off buf)
          (cwrite aux s.pool s.mcp s.chan buf off).2.1.list from
      ⟨hs.1, hs.2, cdev_cwrite aux buf hv.dev⟩
    by_cases hoff : maxcache < off ∨ buf.length = 0
    · have hsame : cwrite aux s.pool s.mcp s.chan buf off = (s.pool, s.mcp, s.chan) := if_pos hoff
      rw [hsame]
      exact ⟨hv.good, coherent_of_behind hv.coherent hoff⟩
    · exact coherent_cwrite aux hv.good hv.coherent (by omega) hv.dev (by omega) hlen hf
  | cread =>
    exact ⟨hv.good, (read_of_coherent hv.good hv.coherent _).1, (cdev_cread _).trans hv.dev⟩
  | @evict f =>
    exact ⟨good_uncachepage hv.good,
      hv.coherent.keeps fun _ _ => keeps_uncachepage hv.good f, hv.dev⟩
  | @reuse f p hmem =>
    exact ⟨good_reuse hv.good hmem p, hv.coherent.keeps fun e _ => keeps_reuse hmem p e, hv.dev⟩
  | @other f buf =>
    obtain ⟨hunused, havoid⟩ := hf
    refine ⟨good_cachenew (good_uncachepage hv.good) (fun hmem => ?_) ?_ _,
      hv.coherent.keeps fun e he => ?_, hv.dev⟩
    · exact ((mem_uncachepage hv.good).mp hmem).2 rfl
    · rw [pgno_uncachepage]
      exact unused_uncachepage hv.good hunused
    · refine (keeps_uncachepage hv.good f).trans (keeps_cachenew ?_ _)
      rw [pgno_uncachepage]
      exact havoid e he

/-- The cache agrees with the file as long as the numbers given out are not in use. -/
theorem agrees_of_run {s t : State} (h : Start s) (hrun : Run Step Fresh s t) : Agrees t := by
  have hvalid : Valid t := by
    refine hrun.invariant h.valid fun s e t hv hf hst => ?_
    exact valid_of_step hst hv hf
  exact hvalid.agrees

/-- A file whose bytes are the low bytes of their offsets, with an empty cache. -/
def counting : State where
  pool := {}
  mcp := ⟨⟨1, 0, 0⟩, 0, 0, []⟩
  chan := ⟨⟨1, 0, 0⟩, 0, 0⟩
  file := UInt8.ofNat

theorem agrees_counting : ∃ t, Step counting (.cupdate (fun _ => some 0) 3 5) t ∧ Agrees t ∧
    (cread t.pool t.mcp t.chan 2 6).2 = [6, 7] := by
  have hstep : Step counting (.cupdate (fun _ => some 0) 3 5) _ := .cupdate (by norm_num)
  have hfresh : Fresh counting (.cupdate (fun _ => some 0) 3 5) :=
    ⟨fun _ _ _ hf => absurd hf List.not_mem_nil, fun _ he => absurd he List.not_mem_nil⟩
  refine ⟨_, hstep, agrees_of_run ⟨rfl, ⟨List.nodup_nil, ?_, by decide⟩, rfl⟩
    (.snoc .nil hfresh hstep), by decide⟩
  exact fun _ hf => absurd hf List.not_mem_nil

/-! ### When the numbers come back -/

/-- The extent at the offset 8192 has lost its page, whose number was 0; of the pages only the
frame 1 may be cached. -/
structure Lost (s : State) : Prop where
  list : s.mcp.list.dropWhile (fun e => e.start < 1) = [⟨0, 8192, 1, 0⟩]
  cached : (s.pool.uncachepage 1).cached = []
  daddr : (s.pool.page 0).daddr = 0
  file : s.file 8192 = 1
  dev : cdev s.mcp s.chan = true

/-- The write of one byte at the offset 0 takes the next number for the frame 1. -/
theorem cwrite_of_lost {s : State} (h : Lost s) :
    cwrite (fun _ => some 1) s.pool s.mcp s.chan [2] 0 =
      ((s.pool.uncachepage 1).cachenew 1 [2],
        { s.mcp with
          qid := s.mcp.qid.next
          list := [⟨s.pool.pgno, 0, 1, 1⟩, ⟨0, 8192, 1, 0⟩] },
        { s.chan with qid := s.chan.qid.next }) := by
  have hpre : (s.mcp.list.takeWhile fun e => decide (e.start < 0)) = [] := by
    simp
  have hpost : (s.mcp.list.dropWhile fun e => decide (e.start < 0)) = s.mcp.list := by
    simp
  have hlist := h.list
  unfold cwrite
  rw [if_neg (by decide), if_neg (by simp [h.dev])]
  dsimp only
  rw [hpre, hpost]
  simp only [List.length_singleton, Nat.zero_add, List.getLast?_nil, hlist]
  simp [link, cchain, cchainLoop, BY2PG]

theorem lost_write {s : State} (h : Lost s) :
    ∃ t, Step s (.cwrite (fun _ => some 1) [2] 0) t ∧ Lost t ∧
      t.pool.pgno = nextpgno s.pool.pgno ∧
      t.mcp.list = [⟨s.pool.pgno, 0, 1, 1⟩, ⟨0, 8192, 1, 0⟩] ∧
      t.pool.lookpage s.pool.pgno = some 1 ∧ (t.pool.page 1).data 0 = 2 := by
  have hpage : (((s.pool.uncachepage 1).cachenew 1 [2]).page 1).daddr = s.pool.pgno := by
    rw [page_cachenew_self, pgno_uncachepage]
  have hcached : ((s.pool.uncachepage 1).cachenew 1 [2]).cached = [1] := by
    rw [Pool.cachenew, h.cached]
  refine ⟨_, .cwrite (by decide), ⟨?_, ?_, ?_, ?_, cdev_cwrite _ _ h.dev⟩, ?_, ?_, ?_, ?_⟩ <;>
    dsimp only <;> try rw [cwrite_of_lost h]
  · rfl
  · rw [Pool.uncachepage, if_pos (hcached ▸ List.mem_singleton_self 1), hcached]
    rfl
  · rw [page_cachenew_ne (by decide), page_uncachepage (by decide)]
    exact h.daddr
  · rw [fill_of_not_mem (.inr (by decide))]
    exact h.file
  · simp [Pool.cachenew]
  · simp [Pool.lookpage, hcached, hpage]
  · rw [page_cachenew_self]
    rfl

/-- The counter goes on with each of these writes. -/
theorem run_of_lost {s : State} (h : Lost s) (k : ℕ) :
    ∃ t, Run Step (fun _ _ => True) s t ∧ Lost t ∧ t.pool.pgno = nextpgno^[k] s.pool.pgno := by
  induction k with
  | zero => exact ⟨s, .nil, h, rfl⟩
  | succ k ih =>
    obtain ⟨t, hrun, ht, hpgno⟩ := ih
    obtain ⟨u, hstep, hu, hnext, -⟩ := lost_write ht
    refine ⟨u, hrun.snoc trivial hstep, hu, ?_⟩
    rw [hnext, hpgno, Function.iterate_succ_apply']

/-- The file with a zero byte everywhere, after one byte was written at the offset 8192. -/
def written : State where
  pool := ({} : Pool).cachenew 0 [1]
  mcp := ⟨⟨1, 1, 0⟩, 0, 0, [⟨0, 8192, 1, 0⟩]⟩
  chan := ⟨⟨1, 1, 0⟩, 0, 0⟩
  file := fill (fun _ => 0) 8192 [1]

/-- After 2^32 pages the extent at the offset 8192 has the number of the page of another extent,
and `cread` returns the byte of that one. -/
theorem not_agrees_of_wrap :
    ¬ ∀ s t, Start s → Run Step (fun _ _ => True) s t → Agrees t := by
  intro hall
  have hstart : Start { counting with file := fun _ => 0 } :=
    ⟨rfl, ⟨List.nodup_nil, fun _ hf => absurd hf List.not_mem_nil, by decide⟩, rfl⟩
  -- the page of the first extent is taken away
  have hwrite : Step { counting with file := fun _ => 0 } (.cwrite (fun _ => some 0) [1] 8192)
      written := .cwrite (by decide)
  have hlost : Lost { written with pool := written.pool.uncachepage 0 } :=
    ⟨rfl, rfl, rfl, rfl, rfl⟩
  obtain ⟨k, hk⟩ : ∃ k, (k + 1) % 4294967296 = 0 := ⟨4294967295, by norm_num⟩
  obtain ⟨t, hrun, ht, hpgno⟩ := run_of_lost hlost k
  obtain ⟨u, hstep, hu, -, hlist, hlook, hdata⟩ := lost_write ht
  have hzero : t.pool.pgno = 0 := hpgno.trans (iterate_nextpgno_wrap hk)
  rw [hzero] at hlist hlook
  have hread := (hall _ u hstart (((Run.nil.snoc trivial hwrite).snoc trivial .evict).trans
    (hrun.snoc trivial hstep))).read 1 8192
  have hpage : cpage u.pool ⟨0, 8192, 1, 0⟩ = some 1 := by
    rw [cpage, if_neg (not_not.mpr hu.daddr), hlook]
  have hbuf : (cread u.pool u.mcp u.chan 1 8192).2 = [2] := by
    simp [cread, maxcache, hu.dev, hlist, creadList, creadLoop, Extent.stop, hpage, hdata]
  rw [hbuf] at hread
  have hbyte := hread 0 (by decide)
  rw [Nat.add_zero, hu.file] at hbyte
  exact absurd hbyte (by decide)

end PlanNine.Cache
