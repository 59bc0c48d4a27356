import PlanNine.Port.Qio.Pointers
import PlanNine.Port.Qio.Trim

/-!
# The laws of strings of blocks

The routines of `qio.c` on strings of blocks, with the pointers that they move and the lengths that
they compare. A length is an `int`, and where it is compared with the length of a block an `ulong`.

## Main definitions

* `concatblock`, `padblock`, `pullupblock`, `trimblock`, `copyblock`, `adjustblock`, `pullblock`.
* `Returns`: a routine returns, if there is memory.
* `Denotes`: a string in order with certain bytes.

## Main results

* `pullupblock_view`, `trimblock_view`: the routines with pointers do what those of the model do.
* `laws_iff`: what every routine returns. `trimblock` does not see that the sum of its arguments
  is too large for an `int`, nor `adjustblock` that an address is.
-/

namespace PlanNine.Qio.Pointers

/-- The routine panics for want of memory, or returns something with the property. -/
def Returns {α : Type} (r : Run α) (P : α → Prop) : Prop :=
  r = .error .memory ∨ ∃ a, r = .ok a ∧ P a

/-- A string in order with the bytes `s`. -/
def Denotes (bs : List Block) (s : List UInt8) : Prop := (∀ b ∈ bs, b.Ordered) ∧ bytes bs = s

/-! ### The routines -/

def padblock (m : Pool) : List Block → ℤ → Run (List Block)
  | [], _ => .error .fault
  | bp :: next, size =>
    if 0 ≤ size then
      if size ≤ (bp.rp : ℤ) - bp.base then .ok ({ bp with rp := ulong (bp.rp - size) } :: next)
      else if next ≠ [] then .error .fault
      else do
        let n := bp.BLEN
        let nbp ← allocb m (long (ulong (size + n)))
        let nbp := { nbp with rp := ulong (nbp.rp + size) }
        let nbp := { nbp with wp := nbp.rp }
        let nbp ← nbp.append (← bp.load bp.rp (ulong n))
        return [{ nbp with rp := ulong (nbp.rp - size) }]
    else if next ≠ [] then .error .fault
    else if -size ≤ (bp.lim : ℤ) - bp.wp then .ok [bp]
    else do
      let n := bp.BLEN
      let nbp ← allocb m (long (ulong (-size + n)))
      return [← nbp.append (← bp.load bp.rp (ulong n))]

/-- The loop of `concatblock`. -/
def concatLoop (nb : Block) : List Block → Run Block
  | [] => .ok nb
  | f :: next => do
    let nb ← nb.append (← f.load f.rp (ulong f.BLEN))
    concatLoop nb next

def concatblock (m : Pool) : List Block → Run (List Block)
  | [] => .error .fault
  | [bp] => .ok [bp]
  | bp => do
    let nb ← allocb m (blocklen bp)
    return [← concatLoop nb bp]

/-- The loop of `pullupblock`. -/
def pullupLoop (bp : Block) : List Block → ℤ → Run (List Block)
  | [], _ => .ok []
  | nbp :: next, n =>
    let i := nbp.BLEN
    if n < i then do
      let bp ← bp.append (← nbp.load nbp.rp (ulong n))
      return bp :: { nbp with rp := ulong (nbp.rp + n) } :: next
    else do
      let i := if i < 0 then 0 else i
      let bp ← bp.append (← nbp.load nbp.rp (ulong i))
      if n - i = 0 then return bp :: next else pullupLoop bp next (n - i)

def pullupblock (m : Pool) : List Block → ℤ → Run (List Block)
  | [], _ => .error .fault
  | bp :: next, n =>
    if n ≤ bp.BLEN then .ok (bp :: next)
    else if (bp.lim : ℤ) - bp.rp < n then do
      let nbp ← allocb m n
      pullupLoop nbp (bp :: next) (n - nbp.BLEN)
    else pullupLoop bp next (n - bp.BLEN)

/-- The loop of `trimblock` that skips `offset` bytes. -/
def trimFront : List Block → ℤ → Run (List Block)
  | [], _ => .error .fault
  | bp :: next, offset =>
    if ulong bp.BLEN < ulong offset then trimFront next (offset - bp.BLEN)
    else .ok ({ bp with rp := ulong (bp.rp + offset) } :: next)

/-- The loop of `trimblock` that keeps `len` bytes. -/
def trimBack : List Block → ℤ → Run (List Block)
  | [], _ => .error .fault
  | bp :: next, len =>
    if ulong bp.BLEN < ulong len then do return bp :: (← trimBack next (len - bp.BLEN))
    else .ok [{ bp with wp := ulong (bp.wp - (bp.BLEN - len)) }]

def trimblock (bp : List Block) (offset len : ℤ) : Run (List Block) :=
  if blocklen bp < long (ulong (offset + len)) then .ok []
  else do
    let startb ← trimFront bp offset
    trimBack startb len

/-- The loop of `copyblock`, and the bytes that are cleared after it. -/
def copyLoop (nbp : Block) : List Block → ℤ → Run Block
  | [], count => if 0 < count then nbp.append (.replicate count.toNat 0) else .ok nbp
  | bp :: next, count =>
    if 0 < count then do
      let l := if count < bp.BLEN then count else bp.BLEN
      let nbp ← nbp.append (← bp.load bp.rp (ulong l))
      copyLoop nbp next (count - l)
    else .ok nbp

def copyblock (m : Pool) (bp : List Block) (count : ℤ) : Run Block := do
  let nbp ← allocb m count
  copyLoop nbp bp count

/-- `memset(b->wp, 0, n)`. -/
def clear (b : Block) (n : ℤ) : Run Block := b.store b.wp (.replicate (ulong n) 0)

def adjustblock (m : Pool) : List Block → ℤ → Run (List Block)
  | [], len => if len < 0 then .ok [] else .error .fault
  | bp :: next, len =>
    if len < 0 then .ok []
    else if bp.lim < ulong (bp.rp + len) then do return [← copyblock m (bp :: next) len]
    else do
      let n := bp.BLEN
      let bp ← if n < len then clear bp (len - n) else .ok bp
      return { bp with wp := ulong (bp.rp + len) } :: next

/-- The bytes thrown away, and the string left. -/
def pullblock : List Block → ℤ → ℤ × List Block
  | [], _ => (0, [])
  | bp :: next, count =>
    if count = 0 then (0, bp :: next)
    else
      let n : ℤ := if count < bp.BLEN then count else bp.BLEN
      let bp : Block := { bp with rp := ulong (bp.rp + n) }
      if bp.BLEN = 0 then
        let (bytes, next) := pullblock next (count - n)
        (n + bytes, next)
      -- Something is left in the block, so that the count is 0 now.
      else (n, bp :: next)

variable {b bp nb : Block} {bs next : List Block} {s : List UInt8} {m : Pool} {n : ℤ}

/-! ### The model -/

theorem ulong_BLEN (hb : b.Ordered) : ulong b.BLEN = b.view.BLEN := by
  have h := hb.BLEN_view
  have hlt := hb.BLEN_lt
  rw [← h, ulong_natCast_of_lt (by omega)]

/-- A block that has room for `n` bytes, and the blocks behind it. -/
theorem pullupLoop_view (hb : bp.Ordered) (hbs : ∀ b ∈ next, b.Ordered) (h0 : 0 ≤ n)
    (hroom : bp.wp + n ≤ bp.lim) : ∃ r, pullupLoop bp next n = .ok r ∧ (∀ b ∈ r, b.Ordered) ∧
      r.map Block.view = Qio.pullupLoop bp.view (next.map Block.view) n.toNat := by
  induction next generalizing bp n with
  | nil => exact ⟨[], rfl, List.forall_mem_nil _, rfl⟩
  | cons nbp next ih =>
    rw [List.forall_mem_cons] at hbs
    obtain ⟨hnbp, hnext⟩ := hbs
    have hlen := hnbp.BLEN_view
    have hpos := hnbp.BLEN_lt
    have htop := hb.lim_lt
    rw [List.map_cons]
    unfold pullupLoop Qio.pullupLoop
    dsimp only
    by_cases hlt : n < nbp.BLEN
    · -- The bytes that are missing are in this block.
      have hn : ulong n = n.toNat := by
        unfold ulong
        omega
      have hload := hnbp.load_rp (n := n.toNat) (by omega)
      have hfit : (nbp.data.take n.toNat).length ≤ bp.lim - bp.wp := by
        rw [List.length_take]
        omega
      obtain ⟨bp', happend, hb', hview, -, -, -⟩ := Block.append_spec hb hfit
      obtain ⟨hskip, hskipview⟩ := Block.ordered_skip hnbp (n := n.toNat) (by omega)
      rw [Int.toNat_of_nonneg h0] at hskip hskipview
      rw [if_pos hlt, if_pos (by omega), hn, hload]
      refine ⟨bp' :: { nbp with rp := ulong (nbp.rp + n) } :: next, ?_, ?_, ?_⟩
      · simp only [bind, Except.bind, happend, pure, Except.pure]
      · exact List.forall_mem_cons.mpr ⟨hb', List.forall_mem_cons.mpr ⟨hskip, hnext⟩⟩
      · rw [List.map_cons, List.map_cons, hview, hskipview]
        rfl
    · have hfit : nbp.data.length ≤ bp.lim - bp.wp := by
        have := hnbp.length_data
        omega
      obtain ⟨bp', happend, hb', hview, -, hlim, hwp⟩ := Block.append_spec hb hfit
      have hall : ulong nbp.BLEN = nbp.BLEN.toNat := by
        unfold ulong
        omega
      have hdata := hnbp.length_data
      rw [if_neg hlt, if_neg (by omega), if_neg (by omega), hall, hnbp.load_all]
      simp only [bind, Except.bind, happend, pure, Except.pure]
      by_cases hdone : n - nbp.BLEN = 0
      · rw [if_pos hdone, if_pos (by omega)]
        refine ⟨_, rfl, List.forall_mem_cons.mpr ⟨hb', hnext⟩, ?_⟩
        rw [List.map_cons, hview]
        rfl
      · rw [if_neg hdone, if_neg (by omega)]
        obtain ⟨r, hr, hordered, hrview⟩ := ih hb' hnext (n := n - nbp.BLEN) (by omega) (by omega)
        refine ⟨r, hr, hordered, ?_⟩
        rw [hrview, hview, show (n - nbp.BLEN).toNat = n.toNat - nbp.view.BLEN by omega]
        rfl

/-- The view of a new block is a new block of the model. -/
theorem view_of_empty (h : b.wp = b.rp) (hroom : b.wp + n.toNat ≤ b.lim) :
    ∃ mem, b.view = Qio.allocb mem n.toNat := by
  refine ⟨⟨b.base, b.rp - b.base, b.lim - b.wp - n.toNat⟩, ?_⟩
  unfold Block.view Qio.allocb
  rw [data_of_empty h]
  dsimp only
  congr 1
  omega

theorem pullupblock_view (h : ∀ b ∈ bp :: next, b.Ordered) (h0 : 0 ≤ n) (hlt : n < 2147483648) :
    Returns (pullupblock m (bp :: next) n) fun r => (∀ b ∈ r, b.Ordered) ∧
      ∃ mem, r.map Block.view = Qio.pullupblock mem bp.view (next.map Block.view) n.toNat := by
  obtain ⟨hbp, hnext⟩ := List.forall_mem_cons.mp h
  have hlen := hbp.BLEN_view
  have hwp := hbp.wp_le
  have hrp := hbp.rp_le
  have hroom : bp.view.room = bp.lim - bp.wp := rfl
  have hBLEN : bp.BLEN = bp.wp - bp.rp := rfl
  unfold pullupblock Qio.pullupblock
  dsimp only
  by_cases hle : n ≤ bp.BLEN
  · rw [if_pos hle]
    refine .inr ⟨_, rfl, h, ⟨0, 0, 0⟩, ?_⟩
    rw [if_pos (by omega), List.map_cons]
  rw [if_neg hle]
  by_cases hfull : (bp.lim : ℤ) - bp.rp < n
  · rw [if_pos hfull]
    obtain hnone | ⟨nbp, halloc, hnbp, hempty, hfits⟩ := allocb_spec m h0 hlt
    · rw [hnone]
      exact .inl rfl
    have hzero : nbp.BLEN = 0 := by
      unfold Block.BLEN
      omega
    obtain ⟨mem, hview⟩ := view_of_empty (n := n) hempty (by omega)
    obtain ⟨r, hr, hordered, hrview⟩ := pullupLoop_view hnbp h h0 (by omega)
    rw [halloc]
    simp only [bind, Except.bind, hzero, Int.sub_zero]
    refine .inr ⟨r, hr, hordered, mem, ?_⟩
    rw [if_neg (by omega), if_pos (by omega), hrview, hview, List.map_cons]
  · rw [if_neg hfull]
    obtain ⟨r, hr, hordered, hrview⟩ :=
      pullupLoop_view hbp hnext (n := n - bp.BLEN) (by omega) (by omega)
    refine .inr ⟨r, hr, hordered, ⟨0, 0, 0⟩, ?_⟩
    rw [if_neg (by omega), if_neg (by omega), hrview,
      show (n - bp.BLEN).toNat = n.toNat - bp.view.BLEN by omega]

/-- A routine does what one of the model does, which is `none` for a fault. -/
def Simulates (r : Run (List Block)) (t : Option (List Qio.Block)) : Prop :=
  (r = .error .fault ∧ t = none) ∨
    ∃ cs, r = .ok cs ∧ (∀ b ∈ cs, b.Ordered) ∧ t = some (cs.map Block.view)

theorem trimFront_view (h : ∀ b ∈ bs, b.Ordered) {offset : ℤ} (h0 : 0 ≤ offset)
    (hlt : offset < 2147483648) : Simulates (trimFront bs offset)
      ((Trim.trimFront (bs.map Block.view) offset.toNat).map Prod.snd) := by
  induction bs generalizing offset with
  | nil => exact .inl ⟨rfl, rfl⟩
  | cons b bs ih =>
    obtain ⟨hb, hbs⟩ := List.forall_mem_cons.mp h
    have hlen := hb.BLEN_view
    have hpos := hb.BLEN_lt
    have hoffset : ulong offset = offset.toNat := by
      unfold ulong
      omega
    unfold trimFront
    rw [List.map_cons, Trim.trimFront, ulong_BLEN hb, hoffset]
    split_ifs with hskip
    · rw [Option.map_map, show offset.toNat - b.view.BLEN = (offset - b.BLEN).toNat by omega]
      exact ih hbs (by omega) (by omega)
    · obtain ⟨hordered, hview⟩ := Block.ordered_skip hb (n := offset.toNat) (by omega)
      rw [Int.toNat_of_nonneg h0] at hordered hview
      refine .inr ⟨_, rfl, List.forall_mem_cons.mpr ⟨hordered, hbs⟩, ?_⟩
      rw [List.map_cons, hview]
      rfl

theorem trimBack_view (h : ∀ b ∈ bs, b.Ordered) {len : ℤ} (h0 : 0 ≤ len)
    (hlt : len < 2147483648) : Simulates (trimBack bs len)
      ((Trim.trimBack (bs.map Block.view) len).map Prod.fst) := by
  induction bs generalizing len with
  | nil => exact .inl ⟨rfl, rfl⟩
  | cons b bs ih =>
    obtain ⟨hb, hbs⟩ := List.forall_mem_cons.mp h
    have hlen := hb.BLEN_view
    have hpos := hb.BLEN_lt
    have hulong : ulong len = len.toNat := by
      unfold ulong
      omega
    unfold trimBack
    rw [List.map_cons, Trim.trimBack, ulong_BLEN hb, hulong]
    by_cases hkeep : b.view.BLEN < len.toNat
    · rw [if_pos hkeep, if_pos (by omega), Option.map_map, hlen]
      obtain ⟨hfault, hnone⟩ | ⟨cs, hcs, hordered, hview⟩ :=
        @ih hbs (len - b.BLEN) (by omega) (by omega)
      · rw [hfault]
        refine .inl ⟨rfl, ?_⟩
        rw [Option.map_eq_none_iff] at hnone ⊢
        exact hnone
      · rw [hcs]
        refine .inr ⟨b :: cs, rfl, List.forall_mem_cons.mpr ⟨hb, hordered⟩, ?_⟩
        obtain ⟨⟨kept, freed⟩, hrun, hkept⟩ := Option.map_eq_some_iff.mp hview
        rw [hrun]
        exact congrArg (fun bs => some (b.view :: bs)) hkept
    · rw [if_neg hkeep, if_neg (by omega)]
      obtain ⟨hordered, hview⟩ := Block.ordered_cut hb (n := len.toNat) (by omega)
      have hwp : ulong (b.wp - (b.BLEN - len)) = b.rp + len.toNat := by
        have hrp := hb.rp_le
        have hwple := hb.wp_le
        have htop := hb.lim_lt
        unfold ulong
        unfold Block.BLEN at hlen hpos ⊢
        omega
      rw [hwp]
      exact .inr ⟨_, rfl, List.forall_mem_cons.mpr ⟨hordered, List.forall_mem_nil _⟩, by
        rw [List.map_cons, hview]; rfl⟩

/-- The length of a string in the model. -/
theorem blocklen_view (bs : List Block) : Qio.blocklen (bs.map Block.view) = (bytes bs).length := by
  rw [← length_bytes, bytes_view]

theorem trimblock_view (h : Strung bs) {offset len : ℤ} (h0 : 0 ≤ offset) (h0' : 0 ≤ len)
    (hlt : offset + len < 2147483648) : Simulates (trimblock bs offset len)
      ((Trim.trimblock (bs.map Block.view) offset.toNat len).map Trim.Trimmed.kept) := by
  unfold trimblock Trim.trimblock
  rw [h.blocklen_eq, blocklen_view, long_ulong_of_small (by omega) hlt, Int.toNat_of_nonneg h0]
  split_ifs with hshort
  · exact .inr ⟨[], rfl, List.forall_mem_nil _, rfl⟩
  · obtain ⟨hfault, hnone⟩ | ⟨cs, hcs, hordered, hview⟩ :=
      trimFront_view h.ordered h0 (show offset < 2147483648 by omega)
    · rw [hfault, Option.map_eq_none_iff.mp hnone]
      exact .inl ⟨rfl, rfl⟩
    · obtain ⟨⟨freed, rest⟩, hrun, hrest⟩ := Option.map_eq_some_iff.mp hview
      dsimp only at hrest
      rw [hcs, hrun, hrest]
      obtain ⟨hfault, hnone⟩ | ⟨ds, hds, hordered', hview'⟩ :=
        trimBack_view hordered h0' (show len < 2147483648 by omega)
      · simp only [bind, Except.bind, hfault, Option.bind, Option.map_eq_none_iff.mp hnone]
        exact .inl ⟨rfl, rfl⟩
      · obtain ⟨⟨kept, back⟩, hrun', hkept⟩ := Option.map_eq_some_iff.mp hview'
        simp only [bind, Except.bind, hds, Option.bind, hrun']
        exact .inr ⟨ds, rfl, hordered', congrArg some hkept⟩

/-! ### Bytes -/

theorem data_append (hb : b.Ordered) {p : List UInt8} (hp : p.length ≤ b.lim - b.wp) :
    ∃ b', b.append p = .ok b' ∧ b'.Ordered ∧ b'.data = b.data ++ p ∧ b'.rp = b.rp ∧
      b'.lim = b.lim ∧ b'.wp = b.wp + p.length := by
  obtain ⟨b', happend, hordered, hview, hrp, hlim, hwp⟩ := Block.append_spec hb hp
  exact ⟨b', happend, hordered, congrArg Qio.Block.data hview, hrp, hlim, hwp⟩

theorem concatLoop_spec (hnb : nb.Ordered) (hbs : ∀ b ∈ bs, b.Ordered)
    (hroom : nb.wp + (bytes bs).length ≤ nb.lim) : ∃ r, concatLoop nb bs = .ok r ∧ r.Ordered ∧
      r.data = nb.data ++ bytes bs := by
  induction bs generalizing nb with
  | nil => exact ⟨nb, rfl, hnb, (List.append_nil _).symm⟩
  | cons b bs ih =>
    obtain ⟨hb, hbs⟩ := List.forall_mem_cons.mp hbs
    have hbytes : bytes (b :: bs) = b.data ++ bytes bs := rfl
    rw [hbytes, List.length_append] at hroom
    obtain ⟨nb', happend, hnb', hdata, -, hlim, hwp⟩ := data_append hnb (p := b.data) (by omega)
    have hall : ulong b.BLEN = b.BLEN.toNat := by
      have := hb.BLEN_lt
      unfold ulong
      omega
    obtain ⟨r, hr, hordered, hrdata⟩ := ih hnb' hbs (by omega)
    unfold concatLoop
    rw [hall, hb.load_all]
    simp only [bind, Except.bind, happend]
    refine ⟨r, hr, hordered, ?_⟩
    rw [hrdata, hdata, hbytes, List.append_assoc]

/-- The first `n` bytes, with zeros when there are not as many. -/
def copied (s : List UInt8) (n : ℕ) : List UInt8 := s.take n ++ .replicate (n - s.length) 0

theorem copied_append (s t : List UInt8) (n : ℕ) :
    copied (s ++ t) n = s.take n ++ copied t (n - s.length) := by
  unfold copied
  rw [List.take_append, List.length_append, List.append_assoc, Nat.sub_sub]

theorem copyLoop_spec (hnb : nb.Ordered) (hbs : ∀ b ∈ bs, b.Ordered) (h0 : 0 ≤ n)
    (hroom : nb.wp + n ≤ nb.lim) : ∃ r, copyLoop nb bs n = .ok r ∧ r.Ordered ∧
      r.data = nb.data ++ copied (bytes bs) n.toNat := by
  induction bs generalizing nb n with
  | nil =>
    have hnil : copied (bytes []) n.toNat = .replicate n.toNat 0 := by
      unfold copied
      rw [show bytes [] = [] from rfl, List.take_nil, List.nil_append, List.length_nil,
        Nat.sub_zero]
    unfold copyLoop
    by_cases hpos : 0 < n
    · obtain ⟨nb', happend, hnb', hdata, -⟩ := data_append hnb (p := .replicate n.toNat 0) (by
        rw [List.length_replicate]
        omega)
      rw [if_pos hpos, happend, hnil]
      exact ⟨nb', rfl, hnb', hdata⟩
    · have hzero : n = 0 := by omega
      rw [if_neg hpos, hnil, hzero]
      exact ⟨nb, rfl, hnb, (List.append_nil _).symm⟩
  | cons b bs ih =>
    obtain ⟨hb, hbs⟩ := List.forall_mem_cons.mp hbs
    have hbytes : bytes (b :: bs) = b.data ++ bytes bs := rfl
    have hlen := hb.length_data
    have hpos := hb.BLEN_lt
    have htop := hnb.lim_lt
    unfold copyLoop
    dsimp only
    by_cases hcount : 0 < n
    · obtain ⟨l, hl⟩ : ∃ l, l = if n < b.BLEN then n else b.BLEN := ⟨_, rfl⟩
      have hle : 0 ≤ l ∧ l ≤ n ∧ l ≤ b.BLEN ∧ l.toNat = min n.toNat b.data.length := by
        rw [hl]
        split_ifs <;> omega
      have hload : ulong l = l.toNat := by
        unfold ulong
        omega
      have htake : b.data.take l.toNat = b.data.take n.toNat := by
        rw [hle.2.2.2, ← List.take_take, List.take_of_length_le (le_refl b.data.length)]
      have hfit : (b.data.take l.toNat).length ≤ nb.lim - nb.wp := by
        rw [List.length_take]
        omega
      obtain ⟨nb', happend, hnb', hdata, -, hlim, hwp⟩ := data_append hnb hfit
      rw [List.length_take] at hwp
      obtain ⟨r, hr, hordered, hrdata⟩ := ih hnb' hbs (n := n - l) (by omega) (by omega)
      rw [if_pos hcount, ← hl, hload, hb.load_rp (by omega)]
      simp only [bind, Except.bind, happend]
      refine ⟨r, hr, hordered, ?_⟩
      have hrest : copied (bytes bs) (n - l).toNat =
          copied (bytes bs) (n.toNat - b.data.length) := by
        congr 1
        omega
      rw [hrdata, hdata, hbytes, copied_append, htake, hrest, List.append_assoc]
    · have hzero : n = 0 := by omega
      rw [if_neg hcount, hzero]
      refine ⟨nb, rfl, hnb, ?_⟩
      unfold copied
      rw [Int.toNat_zero, List.take_zero, Nat.zero_sub, List.replicate_zero, List.append_nil,
        List.append_nil]

/-! ### What the routines return -/

theorem denotes_singleton (hb : b.Ordered) (h : b.data = s) : Denotes [b] s := by
  refine ⟨fun c hc => ?_, ?_⟩
  · rwa [List.mem_singleton.mp hc]
  · rw [← h]
    exact List.append_nil _

theorem returns_concatblock (h : Strung bs) :
    Returns (concatblock m bs) (fun r => Denotes r (bytes bs)) ↔ bs ≠ [] := by
  constructor
  · rintro (hrun | ⟨r, hrun, -⟩) rfl
    · cases hrun
    · cases hrun
  · intro hne
    obtain ⟨b, bs, rfl⟩ := List.exists_cons_of_ne_nil hne
    cases bs with
    | nil => exact .inr ⟨[b], rfl, h.ordered, rfl⟩
    | cons c bs =>
      have hlt := h.length_lt
      unfold concatblock
      dsimp only
      rw [h.blocklen_eq]
      obtain hnone | ⟨nb, halloc, hnb, hempty, hfits⟩ :=
        allocb_spec m (Int.natCast_nonneg (bytes (b :: c :: bs)).length) (by omega)
      · rw [hnone]
        exact .inl rfl
      · obtain ⟨r, hr, hordered, hdata⟩ := concatLoop_spec hnb h.ordered (by omega)
        rw [data_of_empty hempty, List.nil_append] at hdata
        simp only [halloc, bind, Except.bind, hr]
        exact .inr ⟨[r], rfl, denotes_singleton hordered hdata⟩

theorem returns_pullupblock (h : Strung bs) (h0 : 0 ≤ n) (hlt : n < 2147483648) :
    Returns (pullupblock m bs n) (fun r => if n ≤ (bytes bs).length then
      Denotes r (bytes bs) ∧ ∃ b next, r = b :: next ∧ n ≤ b.BLEN else r = []) ↔ bs ≠ [] := by
  constructor
  · rintro (hrun | ⟨r, hrun, -⟩) rfl
    · cases hrun
    · cases hrun
  · intro hne
    obtain ⟨bp, next, rfl⟩ := List.exists_cons_of_ne_nil hne
    obtain hnone | ⟨r, hr, hordered, mem, hview⟩ := pullupblock_view (m := m) h.ordered h0 hlt
    · exact .inl hnone
    refine .inr ⟨r, hr, ?_⟩
    have hlen := blocklen_view (bp :: next)
    split_ifs with hle
    · obtain ⟨b, bs, heq, hn, hbytes⟩ :=
        pullupblock_data mem bp.view (next.map Block.view) n.toNat (by
          rw [← List.map_cons, hlen]
          omega)
      rw [heq] at hview
      obtain ⟨c, cs, rfl, rfl, rfl⟩ := List.map_eq_cons_iff.mp hview
      refine ⟨⟨hordered, ?_⟩, c, cs, rfl, ?_⟩
      · rw [← bytes_view, List.map_cons, hbytes, ← List.map_cons, bytes_view]
      · have := (hordered c List.mem_cons_self).BLEN_view
        omega
    · have hnil := pullupblock_eq_nil mem bp.view (next.map Block.view) n.toNat (by
        rw [← List.map_cons, hlen]
        omega)
      rw [hnil] at hview
      exact List.map_eq_nil_iff.mp hview

/-- The loops run off the end of a string that is too short. -/
theorem trim_short (h : ∀ b ∈ bs, b.Ordered) {offset len : ℤ} (h0 : 0 ≤ offset) (h0' : 0 ≤ len)
    (hlt : offset < 2147483648) (hlt' : len < 2147483648)
    (hshort : (bytes bs).length < offset + len) :
    (trimFront bs offset >>= fun startb => trimBack startb len) = .error .fault := by
  have hback (cs : List Block) (hcs : ∀ b ∈ cs, b.Ordered) (len : ℤ) (h0 : 0 ≤ len)
      (hlt : len < 2147483648) (hshort : (bytes cs).length < len) :
      trimBack cs len = .error .fault := by
    induction cs generalizing len with
    | nil => rfl
    | cons b cs ih =>
      obtain ⟨hb, hcs⟩ := List.forall_mem_cons.mp hcs
      have hlen := hb.length_data
      have hpos := hb.BLEN_lt
      rw [show bytes (b :: cs) = b.data ++ bytes cs from rfl, List.length_append] at hshort
      have hmore : ulong b.BLEN < ulong len := by
        unfold ulong
        omega
      unfold trimBack
      rw [if_pos hmore, ih hcs _ (by omega) (by omega) (by omega)]
      rfl
  induction bs generalizing offset with
  | nil => rfl
  | cons b bs ih =>
    obtain ⟨hb, hbs⟩ := List.forall_mem_cons.mp h
    have hlen := hb.length_data
    have hpos := hb.BLEN_lt
    have hbytes : bytes (b :: bs) = b.data ++ bytes bs := rfl
    unfold trimFront
    split_ifs with hskip
    · rw [hbytes, List.length_append] at hshort
      refine ih hbs ?_ ?_ ?_
      all_goals unfold ulong at hskip; omega
    · obtain ⟨hordered, hview⟩ := Block.ordered_skip hb (n := offset.toNat) (by
        unfold ulong at hskip
        omega)
      rw [Int.toNat_of_nonneg h0] at hordered hview
      refine hback _ (List.forall_mem_cons.mpr ⟨hordered, hbs⟩) len h0' hlt' ?_
      have hdrop : ({ b with rp := ulong (b.rp + offset) } : Block).data =
          b.data.drop offset.toNat :=
        congrArg Qio.Block.data hview
      rw [show bytes ({ b with rp := ulong (b.rp + offset) } :: bs) =
        ({ b with rp := ulong (b.rp + offset) } : Block).data ++ bytes bs from rfl, hdrop,
        List.length_append, List.length_drop]
      rw [hbytes, List.length_append] at hshort
      unfold ulong at hskip
      omega

/-- A sum that is too large for an `int` counts as one below zero, and the loops run off the end of
the string. -/
theorem returns_trimblock (h : Strung bs) {offset len : ℤ} (h0 : 0 ≤ offset) (h0' : 0 ≤ len)
    (hlt : offset < 2147483648) (hlt' : len < 2147483648) :
    Returns (trimblock bs offset len) (fun r => if offset + len ≤ (bytes bs).length then
      Denotes r (((bytes bs).drop offset.toNat).take len.toNat) else r = []) ↔
    offset + len < 2147483648 ∧ (bs ≠ [] ∨ 0 < offset + len) := by
  by_cases hsum : offset + len < 2147483648
  · rw [and_iff_right hsum]
    by_cases hle : offset + len ≤ (bytes bs).length
    · simp only [if_pos hle]
      have hsim := trimblock_view h h0 h0' hsum
      constructor
      · intro hreturns
        by_contra hnot
        obtain ⟨hnil, hzero⟩ := not_or.mp hnot
        rw [not_not] at hnil
        obtain ⟨rfl, rfl⟩ : offset = 0 ∧ len = 0 := by omega
        rw [hnil] at hreturns
        obtain hrun | ⟨r, hrun, -⟩ := hreturns
        · cases hrun
        · cases hrun
      · intro hsome
        have hne : bs ≠ [] := by
          rintro rfl
          rw [show bytes [] = [] from rfl, List.length_nil] at hle
          obtain hne | hpos := hsome
          · exact hne rfl
          · omega
        have hmodel : ((offset.toNat : ℕ) : ℤ) + len ≤ Qio.blocklen (bs.map Block.view) := by
          rw [blocklen_view, Int.toNat_of_nonneg h0]
          exact hle
        obtain ⟨t, ht, -, hbytes, -⟩ :=
          Trim.trimblock_spec (mt List.map_eq_nil_iff.mp hne) h0' hmodel
        rw [ht] at hsim
        obtain ⟨-, hnone⟩ | ⟨cs, hcs, hordered, hview⟩ := hsim
        · cases hnone
        · have hkept : t.kept = cs.map Block.view := Option.some.inj hview
          rw [hkept, bytes_view, bytes_view] at hbytes
          exact .inr ⟨cs, hcs, hordered, hbytes⟩
    · simp only [if_neg hle]
      refine iff_of_true (.inr ⟨[], ?_, rfl⟩) (.inr (by omega))
      unfold trimblock
      rw [h.blocklen_eq, long_ulong_of_small (by omega) hsum, if_pos (by omega)]
  · refine iff_of_false ?_ (fun h => hsum h.1)
    have hbytes := h.length_lt
    have hrun : trimblock bs offset len = .error .fault := by
      unfold trimblock
      rw [h.blocklen_eq, long_ulong, if_neg (by omega)]
      exact trim_short h.ordered h0 h0' hlt hlt' (by omega)
    rw [hrun]
    rintro (hmemory | ⟨r, hr, -⟩)
    · cases hmemory
    · cases hr

theorem returns_copyblock (h : ∀ b ∈ bs, b.Ordered) (h0 : 0 ≤ n) (hlt : n < 2147483648) :
    Returns (copyblock m bs n) fun b => b.Ordered ∧ b.data = copied (bytes bs) n.toNat := by
  unfold copyblock
  obtain hnone | ⟨nbp, halloc, hnbp, hempty, hfits⟩ := allocb_spec m h0 hlt
  · rw [hnone]
    exact .inl rfl
  · obtain ⟨r, hr, hordered, hdata⟩ := copyLoop_spec hnbp h h0 hfits
    rw [data_of_empty hempty, List.nil_append] at hdata
    rw [halloc]
    exact .inr ⟨r, hr, hordered, hdata⟩

theorem pullblock_spec (h : ∀ b ∈ bs, b.Ordered) (h0 : 0 ≤ n) :
    (pullblock bs n).1 = min n (bytes bs).length ∧
      Denotes (pullblock bs n).2 ((bytes bs).drop n.toNat) := by
  induction bs generalizing n with
  | nil =>
    refine ⟨?_, h, ?_⟩
    · rw [show bytes [] = [] from rfl, List.length_nil]
      exact (min_eq_right h0).symm
    · rw [show bytes [] = [] from rfl, List.drop_nil]
      rfl
  | cons b bs ih =>
    obtain ⟨hb, hbs⟩ := List.forall_mem_cons.mp h
    have hbytes : bytes (b :: bs) = b.data ++ bytes bs := rfl
    have hlen := hb.length_data
    have hpos := hb.BLEN_lt
    unfold pullblock
    by_cases hzero : n = 0
    · rw [if_pos hzero, hzero]
      exact ⟨(min_eq_left (Int.natCast_nonneg _)).symm, h, rfl⟩
    rw [if_neg hzero]
    obtain ⟨k, hk⟩ : ∃ k, k = if n < b.BLEN then n else b.BLEN := ⟨_, rfl⟩
    have hkle : 0 ≤ k ∧ k ≤ b.BLEN := by
      rw [hk]
      split_ifs <;> omega
    obtain ⟨hordered, hview⟩ := Block.ordered_skip hb (n := k.toNat) (by omega)
    rw [Int.toNat_of_nonneg hkle.1] at hordered hview
    have hdrop : ({ b with rp := ulong (b.rp + k) } : Block).data = b.data.drop k.toNat :=
      congrArg Qio.Block.data hview
    have hleft := hordered.length_data
    rw [hdrop, List.length_drop] at hleft
    dsimp only
    rw [← hk, hbytes, List.length_append]
    by_cases hempty : ({ b with rp := ulong (b.rp + k) } : Block).BLEN = 0
    · -- The block is used up and freed.
      have hall : k = b.BLEN ∧ b.BLEN ≤ n := by
        rw [hempty] at hleft
        split_ifs at hk <;> omega
      obtain ⟨hcount, hordered', hrest⟩ := ih hbs (n := n - k) (by omega)
      rw [if_pos hempty, hcount]
      refine ⟨by omega, hordered', ?_⟩
      dsimp only
      have hnil : b.data.drop n.toNat = [] := List.drop_eq_nil_of_le (by omega)
      rw [hrest, List.drop_append, hnil, List.nil_append]
      congr 1
      omega
    · have hpart : k = n ∧ n < b.BLEN := by
        split_ifs at hk <;> omega
      rw [if_neg hempty]
      refine ⟨by omega, List.forall_mem_cons.mpr ⟨hordered, hbs⟩, ?_⟩
      show ({ b with rp := ulong (b.rp + k) } : Block).data ++ bytes bs = _
      rw [hdrop, List.drop_append_of_le_length (by omega), hpart.1]

/-- `rp` moves back into the room before the data. -/
theorem ordered_pad (hb : b.Ordered) (h0 : 0 ≤ n) (hn : n ≤ (b.rp : ℤ) - b.base) :
    ({ b with rp := ulong (b.rp - n) } : Block).Ordered ∧ ∃ pad : List UInt8,
      pad.length = n.toNat ∧ ({ b with rp := ulong (b.rp - n) } : Block).data = pad ++ b.data := by
  have hwp := hb.rp_le
  have hlim := hb.wp_le
  have htop := hb.lim_lt
  obtain ⟨rp, hrp⟩ : ∃ rp, rp = ulong (b.rp - n) := ⟨_, rfl⟩
  have hrp' : (rp : ℤ) = b.rp - n := by
    rw [hrp]
    unfold ulong
    omega
  rw [← hrp]
  have hordered : ({ b with rp } : Block).Ordered :=
    ⟨hb.kernel, by dsimp only; omega, by dsimp only; omega, hlim, htop⟩
  have hBLEN : ({ b with rp } : Block).BLEN = b.wp - rp := rfl
  -- Skipping the pad gives the block back.
  obtain ⟨-, hview⟩ := Block.ordered_skip hordered (n := n.toNat) (by omega)
  have hback : ulong ((({ b with rp } : Block).rp : ℤ) + n.toNat) = b.rp := by
    dsimp only
    unfold ulong
    omega
  rw [hback] at hview
  have hdata : b.data = ({ b with rp } : Block).data.drop n.toNat := congrArg Qio.Block.data hview
  have hlen := hordered.length_data
  refine ⟨hordered, ({ b with rp } : Block).data.take n.toNat, ?_, ?_⟩
  · rw [List.length_take]
    omega
  · rw [hdata, List.take_append_drop]

theorem returns_padblock (h : ∀ b ∈ bp :: next, b.Ordered) (h0 : 0 ≤ n) (hlt : n < 2147483648)
    (hpad : next = [] ∨ n ≤ (bp.rp : ℤ) - bp.base) :
    Returns (padblock m (bp :: next) n) fun r =>
      ∃ pad : List UInt8, pad.length = n.toNat ∧ Denotes r (pad ++ bytes (bp :: next)) := by
  obtain ⟨hbp, hnext⟩ := List.forall_mem_cons.mp h
  have hbytes : bytes (bp :: next) = bp.data ++ bytes next := rfl
  unfold padblock
  dsimp only
  rw [if_pos h0]
  by_cases hroom : n ≤ (bp.rp : ℤ) - bp.base
  · rw [if_pos hroom]
    obtain ⟨hordered, pad, hlen, hdata⟩ := ordered_pad hbp h0 hroom
    refine .inr ⟨_, rfl, pad, hlen, List.forall_mem_cons.mpr ⟨hordered, hnext⟩, ?_⟩
    show ({ bp with rp := ulong (bp.rp - n) } : Block).data ++ bytes next = _
    rw [hdata, hbytes, List.append_assoc]
  obtain rfl : next = [] := hpad.resolve_right hroom
  rw [if_neg hroom, if_neg (fun hne => hne rfl)]
  have hpos := hbp.BLEN_lt
  by_cases hsum : n + bp.BLEN < 2147483648
  · rw [long_ulong_of_small (by omega) hsum]
    obtain hnone | ⟨nbp, halloc, hnbp, hempty, hfits⟩ :=
      allocb_spec m (show 0 ≤ n + bp.BLEN by omega) hsum
    · rw [hnone]
      exact .inl rfl
    have htop := hnbp.lim_lt
    have hbase := hnbp.base_le
    obtain ⟨rp, hrp⟩ : ∃ rp, rp = ulong (nbp.rp + n) := ⟨_, rfl⟩
    have hrp' : (rp : ℤ) = nbp.rp + n := by
      rw [hrp]
      unfold ulong
      omega
    -- The new block after the room for the pad.
    obtain ⟨c, hc⟩ : ∃ c : Block, c = { nbp with rp, wp := rp } := ⟨_, rfl⟩
    have hclim : c.lim = nbp.lim := by rw [hc]; rfl
    have hcwp : c.wp = rp := by rw [hc]
    have hcordered : c.Ordered := by
      rw [hc] at hclim hcwp ⊢
      refine ⟨hnbp.kernel, ?_, le_rfl, ?_, by rw [hclim]; exact htop⟩
      · dsimp only
        omega
      · omega
    have hcdata : c.data = [] := data_of_empty (by rw [hc])
    have hlen := hbp.length_data
    obtain ⟨d, happend, hd, hddata, hdrp, -⟩ := data_append hcordered (p := bp.data) (by omega)
    have hdbase : d.base = nbp.base := by
      unfold Block.append Block.store at happend
      split_ifs at happend
      · have := congrArg Block.base (Except.ok.inj happend)
        rw [← this, hc]
      · cases happend
    obtain ⟨hordered, pad, hpadlen, hdata⟩ := ordered_pad hd h0 (by
      rw [hdrp, hdbase, hc]
      dsimp only
      omega)
    have hall : ulong bp.BLEN = bp.BLEN.toNat := by
      unfold ulong
      omega
    rw [halloc, hall, hbp.load_all]
    simp only [bind, Except.bind, ← hrp, ← hc, happend]
    refine .inr ⟨_, rfl, pad, hpadlen, denotes_singleton hordered ?_⟩
    rw [hdata, hddata, hcdata, hbytes]
    exact congrArg (pad ++ ·) (List.append_nil _).symm
  · -- A size like this is more than the memory of the kernel.
    have hkernel := hbp.kernel
    have hbase := hbp.base_le
    have hlim := hbp.wp_le
    have htop := hbp.lim_lt
    have hBLEN : bp.BLEN = bp.wp - bp.rp := rfl
    unfold KTZERO at hkernel
    have hlarge : 2147483648 ≤ ulong (SizeofBlock + long (ulong (n + bp.BLEN)) + Hdrspc) := by
      rw [long_ulong]
      unfold ulong SizeofBlock Hdrspc
      omega
    rw [allocb_of_large m hlarge]
    exact .inl rfl

/-- An address that is too large counts as a small one, and the bytes that are cleared are behind
the buffer. -/
theorem returns_adjustblock (hb : b.Ordered) (h0 : 0 ≤ n) (hlt : n < 2147483648) :
    Returns (adjustblock m [b] n) (fun r => Denotes r (copied b.data n.toNat)) ↔
      b.rp + n < 4294967296 := by
  have hrp := hb.rp_le
  have hwp := hb.wp_le
  have htop := hb.lim_lt
  have hlen := hb.length_data
  have hBLEN : b.BLEN = b.wp - b.rp := rfl
  unfold adjustblock
  dsimp only
  rw [if_neg (not_lt.mpr h0)]
  by_cases hfits : b.rp + n < 4294967296
  · have hend : ulong (b.rp + n) = b.rp + n.toNat := by
      unfold ulong
      omega
    refine iff_of_true ?_ hfits
    rw [hend]
    by_cases hcopy : b.lim < b.rp + n.toNat
    · rw [if_pos hcopy]
      have hbs : ∀ c ∈ [b], c.Ordered := fun c hc => by rwa [List.mem_singleton.mp hc]
      have hone : bytes [b] = b.data := List.append_nil _
      obtain hnone | ⟨r, hr, hordered, hdata⟩ := returns_copyblock (m := m) hbs h0 hlt
      · rw [hnone]
        exact .inl rfl
      · rw [hr]
        rw [hone] at hdata
        exact .inr ⟨[r], rfl, denotes_singleton hordered hdata⟩
    · rw [if_neg hcopy]
      by_cases hgrow : b.BLEN < n
      · have hzeros : ulong (n - b.BLEN) = n.toNat - b.data.length := by
          unfold ulong
          omega
        obtain ⟨r, happend, hordered, hdata, -⟩ :=
          data_append hb (p := .replicate (n.toNat - b.data.length) 0) (by
            rw [List.length_replicate]
            omega)
        unfold Block.append Block.store at happend
        rw [List.length_replicate] at happend
        rw [if_pos hgrow]
        unfold clear Block.store
        rw [hzeros, List.length_replicate]
        split_ifs at happend ⊢ with hroom
        · have hr := Except.ok.inj happend
          have hnew : ulong ((b.wp : ℤ) + (n.toNat - b.data.length : ℕ)) = ulong (b.rp + n) := by
            congr 1
            omega
          rw [hnew] at hr
          refine .inr ⟨_, rfl, denotes_singleton ?_ ?_⟩
          · rw [hr]
            exact hordered
          · rw [hr, hdata]
            unfold copied
            rw [List.take_of_length_le (by omega)]
        · cases happend
      · rw [if_neg hgrow]
        obtain ⟨hordered, hview⟩ := Block.ordered_cut hb (n := n.toNat) (by omega)
        refine .inr ⟨_, rfl, denotes_singleton ?_ ?_⟩
        · rw [hend]
          exact hordered
        · rw [hend]
          refine (congrArg Qio.Block.data hview).trans ?_
          unfold copied
          rw [Nat.sub_eq_zero_of_le (by omega), List.replicate_zero, List.append_nil]
          rfl
  · refine iff_of_false ?_ hfits
    have hwrap : ¬ b.lim < ulong (b.rp + n) := by
      unfold ulong
      omega
    have hzeros : ulong (n - b.BLEN) = (n - b.BLEN).toNat := by
      unfold ulong
      omega
    rw [if_neg hwrap, if_pos (by omega)]
    unfold clear Block.store
    rw [hzeros, List.length_replicate, if_neg (by omega)]
    rintro (hmemory | ⟨r, hr, -⟩)
    · cases hmemory
    · cases hr

/-! ### The laws -/

/-- An `int` that is not below zero. -/
def IsLength (n : ℤ) : Prop := 0 ≤ n ∧ n < 2147483648

/-- What the routines return on a string with the bytes `s`, and when. All but `copyblock` and
`pullblock` read the first block, and `trimblock` first compares the lengths. -/
theorem laws_iff (m : Pool) {bs : List Block} (h : Strung bs) :
    (Returns (concatblock m bs) (fun r => Denotes r (bytes bs)) ↔ bs ≠ []) ∧
    (∀ bp next, bs = bp :: next → ∀ size, IsLength size →
      next = [] ∨ size ≤ (bp.rp : ℤ) - bp.base → Returns (padblock m bs size) fun r =>
        ∃ pad : List UInt8, pad.length = size.toNat ∧ Denotes r (pad ++ bytes bs)) ∧
    (∀ n, IsLength n → (Returns (pullupblock m bs n) (fun r => if n ≤ (bytes bs).length then
      Denotes r (bytes bs) ∧ ∃ b next, r = b :: next ∧ n ≤ b.BLEN else r = []) ↔ bs ≠ [])) ∧
    (∀ offset len, IsLength offset → IsLength len →
      (Returns (trimblock bs offset len) (fun r => if offset + len ≤ (bytes bs).length then
        Denotes r (((bytes bs).drop offset.toNat).take len.toNat) else r = []) ↔
      offset + len < 2147483648 ∧ (bs ≠ [] ∨ 0 < offset + len))) ∧
    (∀ n, IsLength n → Returns (copyblock m bs n) fun b =>
      b.Ordered ∧ b.data = copied (bytes bs) n.toNat) ∧
    (∀ n, IsLength n → (pullblock bs n).1 = min n (bytes bs).length ∧
      Denotes (pullblock bs n).2 ((bytes bs).drop n.toNat)) ∧
    ∀ b, bs = [b] → ∀ n, IsLength n →
      (Returns (adjustblock m bs n) (fun r => Denotes r (copied (bytes bs) n.toNat)) ↔
        b.rp + n < 4294967296) := by
  refine ⟨returns_concatblock h, ?_, fun n hn => returns_pullupblock h hn.1 hn.2, ?_,
    fun n hn => returns_copyblock h.ordered hn.1 hn.2,
    fun n hn => pullblock_spec h.ordered hn.1, ?_⟩
  · rintro bp next rfl size hsize hpad
    exact returns_padblock h.ordered hsize.1 hsize.2 hpad
  · intro offset len hoffset hlen
    exact returns_trimblock h hoffset.1 hlen.1 hoffset.2 hlen.2
  · rintro b rfl n hn
    rw [show bytes [b] = b.data from List.append_nil _]
    exact returns_adjustblock (h.ordered b List.mem_cons_self) hn.1 hn.2

/-- A block of two bytes. -/
def two : Block := ⟨0x80200000, 0x80200000, 0x80200002, [1, 2]⟩

theorem strung_two : Strung [two] := by
  refine ⟨fun b hb => ?_, List.pairwise_singleton _ _⟩
  rw [List.mem_singleton.mp hb]
  exact ⟨by decide, by decide, by decide, by decide, by decide⟩

/-- There is no memory. -/
def exhausted : Pool := ⟨fun _ => none, fun _ => 0, fun h => by cases h⟩

/-- The second byte is left. -/
theorem trims_first : Returns (trimblock [two] 1 1) fun r => Denotes r [2] := by
  obtain ⟨-, -, -, htrim, -⟩ := laws_iff exhausted strung_two
  obtain hnone | ⟨r, hr, hdenotes⟩ := (htrim 1 1 ⟨by decide, by decide⟩ ⟨by decide, by decide⟩).mpr
    ⟨by decide, .inl (List.cons_ne_nil _ _)⟩
  · exact .inl hnone
  · refine .inr ⟨r, hr, ?_⟩
    rwa [if_pos (by decide)] at hdenotes

/-- The string has no such bytes, and `trimblock` does not return `nil`. -/
theorem trim_overflows : ¬ ∀ bs offset len, Strung bs → bs ≠ [] → IsLength offset →
    IsLength len → Returns (trimblock bs offset len) fun r =>
      if offset + len ≤ (bytes bs).length then
        Denotes r (((bytes bs).drop offset.toNat).take len.toNat) else r = [] := by
  intro h
  have hrun : trimblock [two] 2147483647 1 = .error .fault := by decide +kernel
  have hreturns := h [two] 2147483647 1 strung_two (List.cons_ne_nil _ _)
    ⟨by decide, by decide⟩ ⟨by decide, by decide⟩
  rw [hrun] at hreturns
  obtain hmemory | ⟨r, hr, -⟩ := hreturns
  · cases hmemory
  · cases hr

end PlanNine.Qio.Pointers
