import PlanNine.Lib.Run
import PlanNine.Port.Paging.Page

/-!
# The page pool

Calls of the routines of the page pool by those that hold the pages they pass. What references are
held is recorded beside the pool. `duppage` has the free page and its own locked between its two
steps, and others wait for them.

## Main definitions

* `Sys`, `exec`: calls, in steps, with the references that are held.
* `Sound`: the free list, the hash chains and the counts of references agree.

## Main results

* `sound_of_counted_run`: this holds in every state reached where no page has more references than
  its count can tell, and no step panics.
* `lookpage_wraps`: a page that has got 65536 references.
-/

namespace PlanNine.Paging

open Links

/-! ### Calls -/

/-- The pool, with the references to each page that are held, the references to each image that
others hold and those that pages of a `notext` image have left, and the pages that `duppage` has
locked: the free one, and the one that it is for. -/
structure Sys where
  pool : Palloc
  held : ℕ → ℕ
  others : ℕ → ℕ
  left : ℕ → ℕ
  dups : List (ℕ × ℕ)

inductive Event
  | newpage (kp : Bool) (va : ℕ)
  | auxpage
  | putpage (p : ℕ)
  | duppage (canlock : Bool) (p : ℕ)
  | duppageFill (np p : ℕ)
  | cachepage (p daddr i : ℕ)
  | uncachepage (p : ℕ)
  | cachedel (i daddr : ℕ)
  | lookref (i daddr f : ℕ)

namespace Sys

def Locked (s : Sys) (p : ℕ) : Prop := ∃ d ∈ s.dups, p = d.1 ∨ p = d.2

/-- Callers hold a reference to the page that they pass, and nobody else has locked it. A page that
gets an image has none. -/
def Allows (s : Sys) : Event → Prop
  | .newpage kp va => ∀ p pool, s.pool.newpage kp va = some (some p, pool) → ¬ s.Locked p
  | .auxpage => ∀ p pool, s.pool.auxpage = some (some p, pool) → ¬ s.Locked p
  | .putpage p => p < s.pool.n ∧ 0 < s.held p ∧ ¬ s.Locked p
  | .duppage canlock p => p < s.pool.n ∧ 0 < s.held p ∧ ¬ s.Locked p ∧
      ∀ np pool, s.pool.duppage canlock p = some (some np, pool) → ¬ s.Locked np
  | .duppageFill np p => (np, p) ∈ s.dups
  | .cachepage p _ _ =>
      p < s.pool.n ∧ 0 < s.held p ∧ ¬ s.Locked p ∧ (s.pool.page p).image = none
  | .uncachepage p => p < s.pool.n ∧ 0 < s.held p ∧ ¬ s.Locked p
  | .cachedel i daddr =>
      ∀ f pool, s.pool.cachedel i daddr = some (some f, pool) → ¬ s.Locked f
  | .lookref _ _ f => f < s.pool.n ∧ ¬ s.Locked f

/-- The pool has changed. -/
def settle (s : Sys) (pool : Palloc) : Sys :=
  { s with
    pool := pool
    left := fun i =>
      if (s.pool.image i).notext then s.left i + (s.pool.names i - pool.names i) else s.left i }

/-- The caller has got a reference, if there is a page. -/
def hold (s : Sys) (r : Option ℕ) : Sys :=
  match r with
  | none => s
  | some p => { s with held := Function.update s.held p (s.held p + 1) }

def exec (s : Sys) : Event → Option Sys
  | .newpage kp va => (s.pool.newpage kp va).map fun r => (s.settle r.2).hold r.1
  | .auxpage => s.pool.auxpage.map fun r => (s.settle r.2).hold r.1
  | .putpage p => (s.pool.putpage p).map fun pool =>
      { s.settle pool with held := Function.update s.held p (s.held p - 1) }
  | .duppage canlock p => (s.pool.duppage canlock p).map fun r =>
      { s.settle r.2 with dups := (r.1.map fun np => (np, p)).toList ++ s.dups }
  | .duppageFill np p => (s.pool.duppageFill np p).map fun pool =>
      { s.settle pool with dups := s.dups.erase (np, p) }
  | .cachepage p daddr i =>
      ((s.pool.setPage p { s.pool.page p with daddr := daddr }).cachepage p i).map s.settle
  | .uncachepage p => (s.pool.uncachepage p).map s.settle
  | .cachedel i daddr => (s.pool.cachedel i daddr).map fun r => s.settle r.2
  | .lookref i daddr f =>
      let r := s.pool.lookref i daddr f
      some ((s.settle r.2).hold r.1)

/-- A page that gets a reference has less than its count can tell. -/
def Counts (s : Sys) : Event → Prop
  | .lookref _ _ f => s.held f < 2 ^ 16 - 1
  | _ => True

/-- The pages without references are on the free list, each once, and their count is right. The
pages with an image are on the hash chains of their addresses, each once. An image has a reference
for each page that names it. -/
structure Sound (s : Sys) : Prop where
  free : ∃ l, s.pool.free.Linked l ∧ s.pool.freecount = l.length ∧
    ∀ p, p ∈ l ↔ p < s.pool.n ∧ (s.pool.page p).ref = 0
  chains : Rows s.pool.hash s.pool.key s.pool.n
  images : ∀ i, (s.pool.image i).ref = BitVec.ofNat 32 (s.others i + s.left i + s.pool.names i)

end Sys

open Palloc Sys

variable {s' : Palloc} {t u : Sys} {l l' : List ℕ} {p i daddr np : ℕ} {canlock : Bool} {e : Event}

/-! ### Steps -/

/-- No page of one is a page of the other. -/
def Apart (d d' : ℕ × ℕ) : Prop := d.1 ≠ d'.1 ∧ d.1 ≠ d'.2 ∧ d.2 ≠ d'.1 ∧ d.2 ≠ d'.2

theorem Apart.symm {d d' : ℕ × ℕ} (h : Apart d d') : Apart d' d :=
  ⟨h.1.symm, h.2.2.1.symm, h.2.1.symm, h.2.2.2.symm⟩

/-- What every step keeps. -/
structure Inv (t : Sys) (l : List ℕ) : Prop where
  good : Good t.pool l
  counted : Counted t.pool fun i => t.others i + t.left i
  held : ∀ p, (t.pool.page p).ref = t.held p
  water : 0 < t.pool.highwater
  dups : ∀ d ∈ t.dups, d.1 < t.pool.n ∧ d.2 < t.pool.n ∧ d.1 ≠ d.2 ∧
    ∃ i, (t.pool.page d.2).image = some i ∧ (t.pool.image i).notext = false
  apart : t.dups.Pairwise Apart

theorem Inv.sound (h : Inv t l) : t.Sound :=
  ⟨⟨l, h.good.free, h.good.count, h.good.mem⟩, h.good.chains, h.counted⟩

/-- The pool changes, but not the images of the pages that `duppage` has locked. -/
theorem Inv.settle {pool : Palloc} {held : ℕ → ℕ} (h : Inv t l) (hgood : Good pool l')
    (hmoves : Moves t.pool pool) (hheld : ∀ p, (pool.page p).ref = held p)
    (hkept : ∀ d ∈ t.dups, (pool.page d.2).image = (t.pool.page d.2).image) :
    Inv { t.settle pool with held := held } l' := by
  refine ⟨hgood, ?_, hheld, ?_, fun d hd => ?_, h.apart⟩
  · have heq : (fun i => t.others i + (t.settle pool).left i) =
        leave t.pool pool fun i => t.others i + t.left i := by
      funext i
      unfold leave Sys.settle
      dsimp only
      split_ifs
      · exact (Nat.add_assoc _ _ _).symm
      · rfl
    exact heq ▸ hmoves.counted _ h.counted
  · exact hmoves.highwater.symm ▸ h.water
  · obtain ⟨h1, h2, hne, i, hi, hnotext⟩ := h.dups d hd
    refine ⟨hmoves.n.symm ▸ h1, hmoves.n.symm ▸ h2, hne, i, (hkept d hd).trans hi, ?_⟩
    exact (hmoves.notext i).trans hnotext

theorem not_locked (h : t.dups = []) : ¬ t.Locked p := by
  rintro ⟨d, hd, -⟩
  rw [h] at hd
  cases hd

theorem ne_of_not_locked (h : ¬ t.Locked p) {d : ℕ × ℕ} (hd : d ∈ t.dups) : d.2 ≠ p :=
  fun heq => h ⟨d, hd, .inr heq.symm⟩

theorem Inv.drops (h : Inv t l) (hd : Drops t.pool s' p) (hp : ¬ t.Locked p) :
    Inv (t.settle s') l :=
  h.settle (h.good.drops hd) hd.moves (fun q => (hd.ref q).trans (h.held q)) fun d hin => by
    rw [hd.page _ (ne_of_not_locked hp hin)]

/-- A page is handed out. -/
theorem Inv.hold (h : Inv t l) (hgood : Good s' l') (hmoves : Moves t.pool s')
    (hself : (s'.page p).ref = t.held p + 1) (hpage : ∀ q, q ≠ p → s'.page q = t.pool.page q)
    (hp : ¬ t.Locked p) : Inv ((t.settle s').hold (some p)) l' := by
  refine h.settle hgood hmoves (fun q => ?_) fun d hin => ?_
  · by_cases hq : q = p
    · rw [hq, hself, Function.update_self]
      rfl
    · rw [hpage q hq, Function.update_of_ne hq]
      exact h.held q
  · rw [hpage _ (ne_of_not_locked hp hin)]

theorem Inv.settle_self (h : Inv t l) : Inv (t.settle t.pool) l :=
  h.settle h.good (Quiet.moves ⟨rfl, rfl, rfl, rfl, fun _ => ⟨rfl, rfl⟩⟩) h.held fun _ _ => rfl

theorem Inv.duppage (h : Inv t l) (he : t.Allows (.duppage canlock p)) :
    ∃ u l', t.exec (.duppage canlock p) = some u ∧ Inv u l' := by
  obtain ⟨hp, -, hlocked, hnp⟩ := he
  obtain ⟨r, hr, rfl | ⟨s', rfl, hd⟩ |
    ⟨np, i, s', l', rfl, hin, href, hi, hnotext, hgood, hquiet, hpage⟩⟩ :=
    h.good.duppage canlock hp
  all_goals rw [exec, hr, Option.map_some]
  · exact ⟨_, l, rfl, h.settle_self⟩
  · exact ⟨_, l, rfl, h.drops hd hlocked⟩
  · have hinv := h.settle hgood hquiet.moves (fun q => by rw [hpage, h.held q]) fun d _ => by
      rw [hpage]
    obtain ⟨hlt, hzero⟩ := (h.good.mem np).mp hin
    have hne : np ≠ p := fun heq => href (heq ▸ hzero)
    have hfree := hnp np s' hr
    refine ⟨_, l', rfl, hinv.good, hinv.counted, hinv.held, hinv.water, fun d hd => ?_, ?_⟩
    · obtain rfl | hd := List.mem_cons.mp hd
      · refine ⟨hquiet.n.symm ▸ hlt, hquiet.n.symm ▸ hp, hne, i, ?_, ?_⟩
        · exact (congrArg (fun page => (page p).image) hpage).trans hi
        · exact (hquiet.moves.notext i).trans hnotext
      · exact hinv.dups d hd
    · refine List.pairwise_cons.mpr ⟨fun d hd => ⟨?_, ?_, ?_, ?_⟩, h.apart⟩
      · exact fun heq => hfree ⟨d, hd, .inl heq⟩
      · exact fun heq => hfree ⟨d, hd, .inr heq⟩
      · exact fun heq => hlocked ⟨d, hd, .inl heq⟩
      · exact fun heq => hlocked ⟨d, hd, .inr heq⟩

theorem Inv.duppageFill (h : Inv t l) (he : t.Allows (.duppageFill np p)) :
    ∃ u l', t.exec (.duppageFill np p) = some u ∧ Inv u l' := by
  obtain ⟨hnp, hp, hne, i, hi, hnotext⟩ := h.dups (np, p) he
  obtain ⟨s', hs', hgood, hmoves, href, hpage⟩ := h.good.duppageFill hnp hp hne hi hnotext
  rw [exec, hs', Option.map_some]
  have hperm : t.dups.Perm ((np, p) :: t.dups.erase (np, p)) := List.perm_cons_erase he
  obtain ⟨hfirst, hrest⟩ := List.pairwise_cons.mp
    ((hperm.pairwise_iff Apart.symm).mp h.apart)
  have hinv : Inv { t with dups := t.dups.erase (np, p) } l :=
    ⟨h.good, h.counted, h.held, h.water, fun d hd => h.dups d (List.mem_of_mem_erase hd), hrest⟩
  refine ⟨_, l, rfl, hinv.settle hgood hmoves (fun q => (href q).trans (h.held q)) fun d hd => ?_⟩
  obtain ⟨-, hd1, -, hd2⟩ := hfirst d hd
  rw [hpage _ hd1.symm hd2.symm]

theorem Inv.taken (h : Inv t l) (hp : p ∈ l) (hgood : Good s' l') (htaken : Taken t.pool s' p)
    (hlocked : ¬ t.Locked p) : Inv ((t.settle s').hold (some p)) l' := by
  refine h.hold hgood htaken.moves ?_ htaken.page hlocked
  rw [htaken.ref, ← h.held, ((h.good.mem p).mp hp).2]

theorem Inv.putpage (h : Inv t l) (he : t.Allows (.putpage p)) :
    ∃ u l', t.exec (.putpage p) = some u ∧ Inv u l' := by
  obtain ⟨hp, hheld, hlocked⟩ := he
  have hne : (t.pool.page p).ref ≠ 0 := by
    rw [h.held]
    exact hheld.ne'
  obtain ⟨s', l', hs', hgood, hrefs⟩ := h.good.putpage hp hne
  rw [exec, hs', Option.map_some]
  refine ⟨_, l', rfl, h.settle hgood hrefs.quiet.moves (fun q => ?_) fun d hd => ?_⟩
  · by_cases hq : q = p
    · rw [hq, hrefs.self, h.held, Function.update_self]
    · rw [hrefs.page q hq, Function.update_of_ne hq]
      exact h.held q
  · rw [hrefs.page _ (ne_of_not_locked hlocked hd)]

theorem Inv.cachepage (h : Inv t l) (he : t.Allows (.cachepage p daddr i)) :
    ∃ u l', t.exec (.cachepage p daddr i) = some u ∧ Inv u l' := by
  obtain ⟨hp, -, hlocked, hi⟩ := he
  set s₁ := t.pool.setPage p { t.pool.page p with daddr := daddr }
  have hpage₁ : ∀ q, q ≠ p → s₁.page q = t.pool.page q := fun q hq => setPage_page_of_ne hq
  have hself₁ : s₁.page p = { t.pool.page p with daddr := daddr } := setPage_page_self
  have hquiet : Quiet t.pool s₁ := quiet_setPage rfl (.inl hi)
  have href₁ : ∀ q, (s₁.page q).ref = (t.pool.page q).ref := by
    intro q
    by_cases hq : q = p
    · rw [hq, hself₁]
    · rw [hpage₁ q hq]
  have hgood₁ : Good s₁ l := h.good.quiet hquiet rfl rfl fun q => by rw [href₁]
  obtain ⟨s', hs', hgood, hnames⟩ := hgood₁.cachepage hp (by rw [hself₁, hi]) i
  rw [exec, hs', Option.map_some]
  refine ⟨_, l, rfl, h.settle hgood (hquiet.trans_moves hnames.moves) (fun q => ?_) fun d hd => ?_⟩
  · refine Eq.trans ?_ ((href₁ q).trans (h.held q))
    by_cases hq : q = p
    · rw [hq, hnames.self]
    · rw [hnames.page q hq]
  · have hne := ne_of_not_locked hlocked hd
    rw [hnames.page _ hne, hpage₁ _ hne]

/-- Every step that may be made can be made, and keeps the invariant. -/
theorem Inv.exec (h : Inv t l) (he : t.Allows e) (hc : t.Counts e) :
    ∃ u l', t.exec e = some u ∧ Inv u l' := by
  cases e with
  | newpage kp va =>
    obtain ⟨r, hr, rfl | ⟨p, s', l', rfl, hp, hgood, htaken⟩⟩ := h.good.newpage kp va
    all_goals rw [Sys.exec, hr, Option.map_some]
    · exact ⟨_, l, rfl, h.settle_self⟩
    · exact ⟨_, l', rfl, h.taken hp hgood htaken (he p s' hr)⟩
  | auxpage =>
    obtain ⟨r, hr, rfl | ⟨p, s', l', rfl, hp, hgood, htaken⟩⟩ := h.good.auxpage h.water
    all_goals rw [Sys.exec, hr, Option.map_some]
    · exact ⟨_, l, rfl, h.settle_self⟩
    · exact ⟨_, l', rfl, h.taken hp hgood htaken (he p s' hr)⟩
  | putpage p => exact h.putpage he
  | duppage canlock p => exact h.duppage he
  | duppageFill np p => exact h.duppageFill he
  | cachepage p daddr i => exact h.cachepage he
  | uncachepage p =>
    obtain ⟨hp, -, hlocked⟩ := he
    obtain ⟨s', hs', hd⟩ := uncachepage_spec h.good.chains hp
    rw [Sys.exec, hs', Option.map_some]
    exact ⟨_, l, rfl, h.drops hd hlocked⟩
  | cachedel i daddr =>
    obtain ⟨r, hr, rfl | ⟨f, s', rfl, -, -, hd⟩⟩ := cachedel_spec h.good.chains i daddr
    all_goals rw [Sys.exec, hr, Option.map_some]
    · exact ⟨_, l, rfl, h.settle_self⟩
    · exact ⟨_, l, rfl, h.drops hd (he f s' hr)⟩
  | lookref i daddr f =>
    obtain ⟨hf, hlocked⟩ := he
    have href : (t.pool.page f).ref < 2 ^ 16 - 1 := h.held f ▸ hc
    rw [Sys.exec]
    obtain hr | ⟨s', l', hr, hgood, hrefs⟩ := h.good.lookref hf href i daddr
    · rw [hr]
      exact ⟨_, l, rfl, h.settle_self⟩
    · rw [hr]
      refine ⟨_, l', rfl, h.hold hgood hrefs.quiet.moves ?_ hrefs.page hlocked⟩
      rw [hrefs.self, h.held]

/-! ### Runs -/

/-- All pages are free, as `pageinit` leaves them. The images have references of others. -/
def start (n highwater : ℕ) (notext : ℕ → Bool) (others : ℕ → ℕ) : Sys where
  pool := {
    n := n
    page := fun _ => ⟨0, 0, 0, 0, 0, .PG_NOFLUSH, none⟩
    free := .range n
    freecount := n
    hash := ⟨fun _ => none, fun _ => none⟩
    image := fun i => ⟨BitVec.ofNat 32 (others i), notext i⟩
    highwater := highwater }
  held := fun _ => 0
  others := others
  left := fun _ => 0
  dups := []

theorem inv_start {highwater : ℕ} (hwater : 0 < highwater) (n : ℕ) (notext : ℕ → Bool)
    (others : ℕ → ℕ) : Inv (start n highwater notext others) (List.range n) := by
  refine ⟨⟨Deque.linked_range n, List.length_range.symm, fun p => ?_, fun h => ?_⟩, fun i => ?_,
    fun _ => rfl, hwater, nofun, .nil⟩
  · exact List.mem_range.trans (and_iff_left rfl).symm
  · exact ⟨[], rfl, .nil, fun p => iff_of_false nofun nofun⟩
  · have hnames : (start n highwater notext others).pool.names i = 0 :=
      Finset.sum_eq_zero fun _ _ => rfl
    rw [hnames]
    rfl

/-- From a free pool, the free list, the hash chains and the counts agree in every state that steps
lead to where no page gets more references than its count can tell, and no step panics. -/
theorem sound_of_counted_run {n highwater : ℕ} {notext : ℕ → Bool} {others : ℕ → ℕ}
    (hwater : 0 < highwater)
    (hrun : Run (fun t e u => t.exec e = some u) (fun t e => t.Allows e ∧ t.Counts e)
      (start n highwater notext others) u) :
    u.Sound ∧ ∀ e, u.Allows e → u.Counts e → (u.exec e).isSome = true := by
  obtain ⟨l, hl⟩ : ∃ l, Inv u l := by
    refine @Run.invariant _ _ _ _ _ _ (fun u => ∃ l, Inv u l)
      ⟨_, inv_start hwater n notext others⟩ ?_ hrun
    rintro t e u ⟨l, hl⟩ ⟨he, hc⟩ hexec
    obtain ⟨u', l', hu', hl'⟩ := hl.exec he hc
    obtain rfl := Option.some.inj (hexec.symm.trans hu')
    exact ⟨l', hl'⟩
  refine ⟨hl.sound, fun e he hc => ?_⟩
  obtain ⟨u', l', hu', -⟩ := hl.exec he hc
  rw [hu']
  rfl

/-- A kernel process takes the only page. -/
theorem sound_of_newpage : ∃ u, (start 1 1 (fun _ => false) fun _ => 1).exec (.newpage true 0) =
    some u ∧ u.Sound ∧ u.held 0 = 1 ∧ ∀ e, u.Allows e → u.Counts e → (u.exec e).isSome = true := by
  have hrun : Run (fun t e u => t.exec e = some u) (fun t e => t.Allows e ∧ t.Counts e)
      (start 1 1 (fun _ => false) fun _ => 1) _ :=
    .snoc (e := .newpage true 0) .nil ⟨fun _ _ _ => not_locked rfl, trivial⟩ rfl
  have h := sound_of_counted_run Nat.one_pos hrun
  exact ⟨_, rfl, h.1, by decide, h.2⟩

/-! ### A count that comes to its end -/

/-- The only page is that of an address of an image, and has got some references. -/
structure Shared (t : Sys) (refs : ℕ) : Prop where
  n : t.pool.n = 1
  dups : t.dups = []
  freecount : t.pool.freecount = 0
  page : t.pool.Matches 1 0x1000 0
  ref : (t.pool.page 0).ref = refs % 2 ^ 16

theorem Shared.lookref {refs : ℕ} (h : Shared t refs) (hpos : 0 < refs) (hlt : refs < 2 ^ 16) :
    ∃ u, t.exec (.lookref 1 0x1000 0) = some u ∧ Shared u (refs + 1) := by
  have href : ((t.pool.page 0).ref + 1) % 2 ^ 16 = (refs + 1) % 2 ^ 16 := by
    rw [h.ref, Nat.mod_add_mod]
  have hne : ¬ (refs + 1) % 2 ^ 16 = 1 := by omega
  have hlook : t.pool.lookref 1 0x1000 0 = (some 0,
      t.pool.setPage 0 { t.pool.page 0 with ref := (refs + 1) % 2 ^ 16 }) := by
    unfold Palloc.lookref
    rw [if_pos h.page]
    dsimp only
    rw [href, if_neg hne]
  rw [exec, hlook]
  refine ⟨_, rfl, h.n, h.dups, h.freecount, ?_, ?_⟩
  · exact ⟨(congrArg Page.image setPage_page_self).trans h.page.1,
      (congrArg Page.daddr setPage_page_self).trans h.page.2⟩
  · exact congrArg Page.ref setPage_page_self

theorem Shared.not_sound (h : Shared t (2 ^ 16)) : ¬ t.Sound := by
  rintro ⟨⟨l, -, hcount, hmem⟩, -, -⟩
  have hl : l = [] := List.length_eq_zero_iff.mp (hcount.symm.trans h.freecount)
  have hin : 0 ∈ l := (hmem 0).mpr ⟨h.n.symm ▸ Nat.one_pos, h.ref⟩
  rw [hl] at hin
  cases hin

/-- A page that is looked up 65535 times by those that do not drop it has no references then, and is
not on the free list. -/
theorem lookpage_wraps : ∃ u, Run (fun t e u => t.exec e = some u) Sys.Allows
    (start 1 1 (fun _ => false) fun _ => 1) u ∧ ¬ u.Sound := by
  have hshared : ∀ k < 2 ^ 16, ∃ u, Run (fun t e u => t.exec e = some u) Sys.Allows
      (start 1 1 (fun _ => false) fun _ => 1) u ∧ Shared u (k + 1) := by
    intro k hk
    induction k with
    | zero =>
      refine ⟨_, .snoc (e := .cachepage 0 0x1000 1) (.snoc (e := .newpage true 0) .nil
        (fun _ _ _ => not_locked rfl) rfl) ⟨by decide, by decide, not_locked rfl, rfl⟩ rfl,
        rfl, rfl, rfl, ⟨rfl, rfl⟩, rfl⟩
    | succ k ih =>
      obtain ⟨t, hrun, ht⟩ := ih (Nat.lt_of_succ_lt hk)
      obtain ⟨u, hu, hshared⟩ := ht.lookref (Nat.succ_pos k) hk
      have hallows : t.Allows (.lookref 1 0x1000 0) :=
        ⟨ht.n.symm ▸ Nat.one_pos, not_locked ht.dups⟩
      exact ⟨u, hrun.snoc hallows hu, hshared⟩
  obtain ⟨u, hrun, hu⟩ := hshared (2 ^ 16 - 1) (by decide)
  exact ⟨u, hrun, hu.not_sound⟩

end PlanNine.Paging
