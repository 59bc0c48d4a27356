import Mathlib.Tactic

/-!
# The pages of the mount cache

The mount cache keeps the bytes of files in pages of the page cache, under the image `fscache`. A
page is known there by a number, its disk address. Pages that nobody uses stay cached, and may be
taken for something else at any time: `uncachepage` then takes away their number.

The hash chains of `page.c` are one list here, the last page cached first, and hold the pages of
`fscache` only.

## Main definitions

* `Pool`: the page frames, those cached and the number of the next page.
* `Pool.lookpage`, `Pool.uncachepage`, `Pool.cachenew`: the operations.
* `nextpgno`: how the numbers go on.
* `Pool.Good`: cached pages have different numbers.

## Main results

* `lookpage_eq_some`: a page is found by its number.
* `iterate_nextpgno_ne`: the numbers come back after 2^32 pages, not before.
-/

namespace PlanNine.Cache

def BY2PG : ℕ := 4096

/-- `memmove` of `buf` to the offset `boff`. -/
def fill (data : ℕ → UInt8) (boff : ℕ) (buf : List UInt8) : ℕ → UInt8 := fun i =>
  if boff ≤ i ∧ i < boff + buf.length then buf.getD (i - boff) 0 else data i

theorem fill_of_mem (data : ℕ → UInt8) (boff : ℕ) {buf : List UInt8} {i : ℕ}
    (h : i < buf.length) :
    fill data boff buf (boff + i) = buf.getD i 0 := by
  rw [fill, if_pos ⟨Nat.le_add_right _ _, Nat.add_lt_add_left h _⟩, Nat.add_sub_cancel_left]

theorem fill_of_not_mem {data : ℕ → UInt8} {boff : ℕ} {buf : List UInt8} {i : ℕ}
    (h : i < boff ∨ boff + buf.length ≤ i) : fill data boff buf i = data i := by
  rw [fill, if_neg (by omega)]

/-- A page frame: its disk address and its bytes. -/
structure Page where
  daddr : ℕ := 0
  data : ℕ → UInt8 := fun _ => 0

/-- The page frames, the ones cached in `fscache`, and `cache.pgno`. -/
structure Pool where
  page : ℕ → Page := fun _ => {}
  cached : List ℕ := []
  pgno : ℕ := 0

/-- The number after a page was cached. The low bits tell apart the numbers of different turns of
the counter. -/
def nextpgno (pgno : ℕ) : ℕ :=
  let pgno := (pgno + BY2PG) % 4294967296
  if pgno / BY2PG = 0 then
    if pgno = BY2PG - 1 then 0 else pgno + 1
  else pgno

namespace Pool

/-- `lookpage(&fscache, daddr)`. -/
def lookpage (pl : Pool) (daddr : ℕ) : Option ℕ :=
  pl.cached.find? fun f => (pl.page f).daddr = daddr

/-- Take a page off the hash chains. -/
def uncachepage (pl : Pool) (f : ℕ) : Pool :=
  if f ∈ pl.cached then
    { pl with
      page := Function.update pl.page f { pl.page f with daddr := 0 }
      cached := pl.cached.erase f }
  else pl

/-- Cache the page frame `f` with the bytes `buf` under the next number. -/
def cachenew (pl : Pool) (f : ℕ) (buf : List UInt8) : Pool where
  page := Function.update pl.page f ⟨pl.pgno, fill (pl.page f).data 0 buf⟩
  cached := f :: pl.cached
  pgno := nextpgno pl.pgno

/-- Move bytes into a page. -/
def write (pl : Pool) (f : ℕ) (boff : ℕ) (buf : List UInt8) : Pool :=
  { pl with
    page := Function.update pl.page f { pl.page f with data := fill (pl.page f).data boff buf } }

/-- Cached pages have different numbers. -/
structure Good (pl : Pool) : Prop where
  nodup : pl.cached.Nodup
  inj : ∀ f ∈ pl.cached, ∀ g ∈ pl.cached, (pl.page f).daddr = (pl.page g).daddr → f = g
  pgno_lt : pl.pgno < 4294967296

/-- No cached page has the number `n`. -/
def Unused (pl : Pool) (n : ℕ) : Prop := ∀ f ∈ pl.cached, (pl.page f).daddr ≠ n

end Pool

/-! ### Finding pages -/

section

variable {pl : Pool} {f g : ℕ}

theorem lookpage_eq_some (h : pl.Good) {daddr : ℕ} :
    pl.lookpage daddr = some f ↔ f ∈ pl.cached ∧ (pl.page f).daddr = daddr := by
  constructor
  · intro hf
    exact ⟨List.mem_of_find?_eq_some hf, by simpa using List.find?_some hf⟩
  · rintro ⟨hmem, hd⟩
    rcases hlook : pl.lookpage daddr with _ | g
    · have := List.find?_eq_none.mp hlook f hmem
      simp [hd] at this
    · have hg := List.find?_some hlook
      rw [h.inj g (List.mem_of_find?_eq_some hlook) f hmem (by simpa [hd] using hg)]

theorem mem_uncachepage (h : pl.Good) : g ∈ (pl.uncachepage f).cached ↔ g ∈ pl.cached ∧ g ≠ f := by
  unfold Pool.uncachepage
  split_ifs with hf
  · rw [h.nodup.mem_erase_iff, and_comm]
  · exact ⟨fun hg => ⟨hg, fun heq => hf (heq ▸ hg)⟩, fun hg => hg.1⟩

theorem page_uncachepage (hne : g ≠ f) : (pl.uncachepage f).page g = pl.page g := by
  unfold Pool.uncachepage
  split_ifs
  · exact Function.update_of_ne hne _ _
  · rfl

@[simp] theorem pgno_uncachepage : (pl.uncachepage f).pgno = pl.pgno := by
  unfold Pool.uncachepage
  split_ifs <;> rfl

theorem good_uncachepage (h : pl.Good) : (pl.uncachepage f).Good where
  nodup := by
    unfold Pool.uncachepage
    split_ifs
    · exact h.nodup.erase f
    · exact h.nodup
  inj := by
    intro g hg g' hg' heq
    obtain ⟨hg, hgf⟩ := (mem_uncachepage h).mp hg
    obtain ⟨hg', hgf'⟩ := (mem_uncachepage h).mp hg'
    rw [page_uncachepage hgf, page_uncachepage hgf'] at heq
    exact h.inj g hg g' hg' heq
  pgno_lt := by
    rw [pgno_uncachepage]
    exact h.pgno_lt

theorem unused_uncachepage (h : pl.Good) {n : ℕ} (hn : pl.Unused n) :
    (pl.uncachepage f).Unused n := by
  intro g hg
  obtain ⟨hg, hgf⟩ := (mem_uncachepage h).mp hg
  rw [page_uncachepage hgf]
  exact hn g hg

theorem nextpgno_eq (n : ℕ) : nextpgno n =
    if (n + 4096) % 4294967296 / 4096 = 0 then
      if (n + 4096) % 4294967296 = 4095 then 0 else (n + 4096) % 4294967296 + 1
    else (n + 4096) % 4294967296 := rfl

theorem nextpgno_lt {n : ℕ} : nextpgno n < 4294967296 := by
  rw [nextpgno_eq]
  split_ifs <;> omega

theorem good_cachenew (h : pl.Good) (hf : f ∉ pl.cached) (hn : pl.Unused pl.pgno)
    (buf : List UInt8) : (pl.cachenew f buf).Good where
  nodup := List.nodup_cons.mpr ⟨hf, h.nodup⟩
  inj := by
    have hne {g : ℕ} (hg : g ∈ pl.cached) : (pl.cachenew f buf).page g = pl.page g :=
      Function.update_of_ne (ne_of_mem_of_not_mem hg hf) _ _
    have hself : ((pl.cachenew f buf).page f).daddr = pl.pgno := by
      simp [Pool.cachenew]
    intro g hg g' hg' heq
    rcases List.mem_cons.mp hg with hgf | hg <;> rcases List.mem_cons.mp hg' with hgf' | hg'
    · rw [hgf, hgf']
    · rw [hgf, hself, hne hg'] at heq
      exact absurd heq.symm (hn g' hg')
    · rw [hgf', hself, hne hg] at heq
      exact absurd heq (hn g hg)
    · rw [hne hg, hne hg'] at heq
      exact h.inj g hg g' hg' heq
  pgno_lt := nextpgno_lt

@[simp] theorem daddr_write (boff : ℕ) (buf : List UInt8) :
    ((pl.write f boff buf).page g).daddr = (pl.page g).daddr := by
  unfold Pool.write
  by_cases hg : g = f
  · subst hg
    simp
  · simp [Function.update_of_ne hg]

theorem good_write (h : pl.Good) (boff : ℕ) (buf : List UInt8) : (pl.write f boff buf).Good where
  nodup := h.nodup
  inj := by
    intro g hg g' hg' heq
    rw [daddr_write, daddr_write] at heq
    exact h.inj g hg g' hg' heq
  pgno_lt := h.pgno_lt

end

/-! ### Numbers -/

/-- The place of a number in the order in which they are given out. -/
def turn (n : ℕ) : ℕ := n % BY2PG * 1048576 + n / BY2PG

theorem turn_eq {q r : ℕ} (hr : r < 4096) : turn (4096 * q + r) = r * 1048576 + q := by
  simp only [turn, BY2PG]
  rw [Nat.mul_add_mod, Nat.mod_eq_of_lt hr, Nat.mul_add_div (by norm_num), Nat.div_eq_of_lt hr,
    add_zero]

theorem turn_nextpgno {n : ℕ} (h : n < 4294967296) :
    turn (nextpgno n) = (turn n + 1) % 4294967296 := by
  obtain ⟨q, r, hr, rfl⟩ : ∃ q r, r < 4096 ∧ n = 4096 * q + r :=
    ⟨n / 4096, n % 4096, Nat.mod_lt _ (by norm_num), (Nat.div_add_mod n 4096).symm⟩
  have heq := nextpgno_eq (4096 * q + r)
  rw [turn_eq hr]
  rcases Nat.lt_or_ge (q + 1) 1048576 with hq | hq
  · -- the high bits count on
    have hmod : (4096 * q + r + 4096) % 4294967296 = 4096 * (q + 1) + r := by omega
    rw [hmod, if_neg (by omega)] at heq
    rw [heq, turn_eq hr]
    omega
  · -- the high bits begin again, with other low bits
    have hmod : (4096 * q + r + 4096) % 4294967296 = r := by omega
    rw [hmod, if_pos (by omega)] at heq
    rw [heq]
    split_ifs with hlast
    · rw [show turn 0 = 0 from rfl]
      omega
    · have hnext := turn_eq (q := 0) (r := r + 1) (by omega)
      rw [Nat.mul_zero, Nat.zero_add] at hnext
      rw [hnext]
      omega

theorem iterate_nextpgno_lt {n : ℕ} (h : n < 4294967296) (k : ℕ) :
    nextpgno^[k] n < 4294967296 := by
  cases k with
  | zero => exact h
  | succ k =>
    rw [Function.iterate_succ_apply']
    exact nextpgno_lt

theorem turn_iterate {n : ℕ} (h : n < 4294967296) (k : ℕ) :
    turn (nextpgno^[k] n) = (turn n + k) % 4294967296 := by
  induction k with
  | zero =>
    rw [Function.iterate_zero_apply, add_zero, Nat.mod_eq_of_lt]
    unfold turn
    simp only [BY2PG]
    omega
  | succ k ih =>
    rw [Function.iterate_succ_apply', turn_nextpgno (iterate_nextpgno_lt h k), ih]
    omega

/-- Fewer than 2^32 pages get different numbers. -/
theorem iterate_nextpgno_ne {n k : ℕ} (h : n < 4294967296) (hk : 0 < k) (hk' : k < 4294967296) :
    nextpgno^[k] n ≠ n := by
  intro heq
  have hturn := turn_iterate h k
  have hlt : turn n < 4294967296 := by
    unfold turn
    simp only [BY2PG]
    omega
  rw [heq] at hturn
  omega

/-- After 2^32 pages the numbers begin again. -/
theorem iterate_nextpgno_wrap {k : ℕ} (hk : k % 4294967296 = 0) : nextpgno^[k] 0 = 0 := by
  have hzero : (0 : ℕ) < 4294967296 := by norm_num
  have hturn := turn_iterate hzero k
  have hlt := iterate_nextpgno_lt hzero k
  generalize nextpgno^[k] 0 = m at hturn hlt
  unfold turn at hturn
  simp only [BY2PG] at hturn
  omega

end PlanNine.Cache
