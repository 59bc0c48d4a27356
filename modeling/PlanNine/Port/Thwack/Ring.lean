import PlanNine.Port.Thwack.Decoder
import PlanNine.Lib.Run
import Mathlib.Data.List.TakeWhile
import Mathlib.Tactic

/-!
# The window of the decoder

The blocks behind the current slot, the newest first, are those held, in the order of their
sequence numbers, and then empty ones. A packet decoded is put in front of the first block that is
empty or older, and the last block of the window makes room. The walk to that place ends unless
every other slot holds a newer block; it then goes round the ring for ever.

## Main definitions

* `Unthwack.behind`, `Unthwack.held`: the blocks behind the current slot, and those that are valid.
* `Track`, `Track.exec`: the decoder with a log of the packets decoded.
* `Admissible`: a new sequence number within the window of the ones seen.
* `Keeps`: a call ends, and leaves the window ordered, complete and with the right data.
* `Crowded`: every other slot holds a newer block.

## Main results

* `insertLoop_spec`, `insertLoop_crowded`: how the walk ends, and when it does not.
* `behind_insert`: the window after an insertion.
* `unthwackLoop_frame`: decoding writes to the current block only.
* `Ordered.exec`: a successful call keeps the invariant of the window.
* `keeps_iff`: a packet that is decoded is inserted just when the window is not crowded.
-/

namespace PlanNine.Thw

/-! ### Slots -/

/-- The slot that is `j` places behind the slot `s`. -/
def backSlot (s j : ℕ) : ℕ := (s + DWinBlocks - j) % DWinBlocks

theorem backSlot_lt (s j : ℕ) : backSlot s j < DWinBlocks := Nat.mod_lt _ (by decide)

theorem backSlot_zero {s : ℕ} (h : s < DWinBlocks) : backSlot s 0 = s := by
  unfold backSlot DWinBlocks at *
  omega

theorem prevSlot_backSlot {s j : ℕ} (h : s < DWinBlocks) (hj : j < DWinBlocks) :
    prevSlot DWinBlocks (backSlot s j) = backSlot s (j + 1) := by
  unfold prevSlot backSlot DWinBlocks at *
  split_ifs <;> omega

theorem backSlot_inj {s i j : ℕ} (hi : i < DWinBlocks) (hj : j < DWinBlocks)
    (h : backSlot s i = backSlot s j) : i = j := by
  unfold backSlot DWinBlocks at *
  omega

/-- The slot after the current one, which an insertion empties. -/
def nextSlot (s : ℕ) : ℕ := if DWinBlocks ≤ s + 1 then 0 else s + 1

theorem nextSlot_lt (s : ℕ) : nextSlot s < DWinBlocks := by
  unfold nextSlot DWinBlocks
  split_ifs <;> omega

theorem backSlot_nextSlot {s j : ℕ} (h : s < DWinBlocks) (hj : j < DWinBlocks) :
    backSlot (nextSlot s) (j + 1) = backSlot s j := by
  unfold nextSlot backSlot DWinBlocks at *
  split_ifs <;> omega

theorem nextSlot_eq_backSlot {s : ℕ} (h : s < DWinBlocks) : nextSlot s = backSlot s 31 := by
  unfold nextSlot backSlot DWinBlocks at *
  split_ifs <;> omega

theorem exists_backSlot {s i : ℕ} (h : s < DWinBlocks) (hi : i < DWinBlocks) (hne : i ≠ s) :
    ∃ j < 31, backSlot s (j + 1) = i := by
  refine ⟨(s + 31 - i) % DWinBlocks, ?_, ?_⟩
  · unfold DWinBlocks at *
    omega
  · unfold backSlot DWinBlocks at *
    omega

theorem backSlot_succ_ne {s j : ℕ} (h : s < DWinBlocks) (hj : j < 31) :
    backSlot s (j + 1) ≠ s := by
  unfold backSlot DWinBlocks at *
  omega

/-! ### The walk of an insertion -/

/-- The block is valid and newer than `seq`, so that it moves up. -/
def UnthwBlock.newer (seq : ℕ) (b : UnthwBlock) : Bool := decide (b.maxoff ≠ 0 ∧ seq < b.seq)

/-- The walk of an insertion with `w` newer blocks behind the slot `m`: they move up by one, and the
data area of that slot goes to the place of the new block. -/
theorem insertLoop_spec {s seq : ℕ} (hs : s < DWinBlocks) (w m : ℕ) (hm : m + w < 31)
    (blocks : ℕ → UnthwBlock) (fuel : ℕ) (hfuel : w < fuel)
    (hnew : ∀ j, m < j → j ≤ m + w → (blocks (backSlot s j)).newer seq = true)
    (hstop : (blocks (backSlot s (m + w + 1))).newer seq = false) :
    ∃ blocks', insertLoop seq fuel blocks (backSlot s m) = some (blocks', backSlot s (m + w)) ∧
      (blocks' (backSlot s (m + w))).data = (blocks (backSlot s m)).data ∧
      (∀ j, m ≤ j → j < m + w → blocks' (backSlot s j) = blocks (backSlot s (j + 1))) ∧
      ∀ j < DWinBlocks, j < m ∨ m + w < j → blocks' (backSlot s j) = blocks (backSlot s j) := by
  induction w generalizing m blocks fuel with
  | zero =>
    obtain ⟨fuel, rfl⟩ : ∃ f, fuel = f + 1 := ⟨fuel - 1, by omega⟩
    refine ⟨blocks, ?_, rfl, fun j h h' => by omega, fun _ _ _ => rfl⟩
    have hm32 : m < DWinBlocks := by unfold DWinBlocks; omega
    have hend : (blocks (backSlot s (m + 1))).seq ≤ seq ∨
        (blocks (backSlot s (m + 1))).maxoff = 0 := by
      simp only [UnthwBlock.newer, decide_eq_false_iff_not, Nat.add_zero] at hstop
      omega
    rw [insertLoop, prevSlot_backSlot hs hm32, if_pos hend, Nat.add_zero]
  | succ w ih =>
    obtain ⟨fuel, rfl⟩ : ∃ f, fuel = f + 1 := ⟨fuel - 1, by omega⟩
    have hm32 : m + 1 < DWinBlocks := by unfold DWinBlocks; omega
    have hgo : ¬ ((blocks (backSlot s (m + 1))).seq ≤ seq ∨
        (blocks (backSlot s (m + 1))).maxoff = 0) := by
      have h := hnew (m + 1) (by omega) (by omega)
      simp only [UnthwBlock.newer, decide_eq_true_eq] at h
      omega
    rw [insertLoop, prevSlot_backSlot hs (by omega), if_neg hgo]
    dsimp only
    set blocks₁ := Function.update (Function.update blocks (backSlot s m)
      (blocks (backSlot s (m + 1)))) (backSlot s (m + 1))
      { Function.update blocks (backSlot s m) (blocks (backSlot s (m + 1)))
          (backSlot s (m + 1)) with data := (blocks (backSlot s m)).data } with hb
    have hm' : blocks₁ (backSlot s m) = blocks (backSlot s (m + 1)) := by
      rw [hb, Function.update_of_ne, Function.update_self]
      exact fun h => by have := backSlot_inj (by omega) hm32 h; omega
    have hdata : (blocks₁ (backSlot s (m + 1))).data = (blocks (backSlot s m)).data := by
      rw [hb, Function.update_self]
    have hrest (j : ℕ) (hj : j < DWinBlocks) (hjm : j ≠ m) (hjm' : j ≠ m + 1) :
        blocks₁ (backSlot s j) = blocks (backSlot s j) := by
      rw [hb, Function.update_of_ne fun h => hjm' (backSlot_inj hj hm32 h),
        Function.update_of_ne fun h => hjm (backSlot_inj hj (by omega) h)]
    obtain ⟨blocks', hloop, hd, hmove, hkeep⟩ := ih (m + 1) (by omega) blocks₁ fuel
      (by omega)
      (fun j h h' => by
        rw [hrest j (by unfold DWinBlocks; omega) (by omega) (by omega)]
        exact hnew j (by omega) (by omega))
      (by
        rw [hrest _ (by unfold DWinBlocks; omega) (by omega) (by omega)]
        rwa [show m + 1 + w + 1 = m + (w + 1) + 1 by omega])
    rw [show m + 1 + w = m + (w + 1) by omega] at hloop hd hmove hkeep
    refine ⟨blocks', hloop, hd.trans hdata, fun j h h' => ?_, fun j hj h => ?_⟩
    · rcases Nat.eq_or_lt_of_le h with rfl | h
      · rw [hkeep _ (by omega) (by omega), hm']
      · rw [hmove j (by omega) h', hrest _ (by unfold DWinBlocks; omega) (by omega) (by omega)]
    · rw [hkeep j hj (by omega), hrest j hj (by omega) (by omega)]

/-- Where every other slot holds a newer block the walk does not end. -/
theorem insertLoop_crowded {seq : ℕ} (fuel : ℕ) {blocks : ℕ → UnthwBlock} {tslot : ℕ}
    (ht : tslot < DWinBlocks)
    (h : ∀ i < DWinBlocks, i ≠ tslot → (blocks i).newer seq = true) :
    insertLoop seq fuel blocks tslot = none := by
  induction fuel generalizing blocks tslot with
  | zero => rfl
  | succ fuel ih =>
    have hlt : prevSlot DWinBlocks tslot < DWinBlocks := by
      unfold prevSlot DWinBlocks at *
      split_ifs <;> omega
    have hne : prevSlot DWinBlocks tslot ≠ tslot := by
      unfold prevSlot DWinBlocks at *
      split_ifs <;> omega
    have hp := h _ hlt hne
    rw [insertLoop, if_neg (by
      simp only [UnthwBlock.newer, decide_eq_true_eq] at hp
      omega)]
    refine ih hlt fun i hi hi' => ?_
    rw [Function.update_of_ne hi']
    by_cases hit : i = tslot
    · rw [hit, Function.update_self]
      exact hp
    · rw [Function.update_of_ne hit]
      exact h i hi hit

/-! ### The window -/

namespace Unthwack

variable (ut : Unthwack)

/-- The blocks behind the current slot, the newest first. -/
def behind : List UnthwBlock :=
  (List.range 31).map fun j => ut.blocks (backSlot ut.slot (j + 1))

@[simp] theorem length_behind : ut.behind.length = 31 := by
  simp [behind]

theorem getElem_behind {j : ℕ} (h : j < ut.behind.length) :
    ut.behind[j] = ut.blocks (backSlot ut.slot (j + 1)) := by
  simp [behind]

/-- The valid blocks of the window, the newest first. -/
def held : List UnthwBlock := ut.behind.filter fun b => b.maxoff ≠ 0

/-- The block that the next packet is decoded into. -/
def cur : UnthwBlock := ut.blocks ut.slot

/-- The data of a block. -/
def bytes (b : UnthwBlock) : List UInt8 :=
  (List.range b.maxoff).map fun i => ut.data (b.data + i)

end Unthwack

/-- Every slot but the current one holds a valid block newer than `seq`. -/
def Crowded (ut : Unthwack) (seq : ℕ) : Prop :=
  ∀ i < DWinBlocks, i ≠ ut.slot → (ut.blocks i).maxoff ≠ 0 ∧ seq < (ut.blocks i).seq

instance (ut : Unthwack) (seq : ℕ) : Decidable (Crowded ut seq) := by
  unfold Crowded
  infer_instance

theorem crowded_iff {ut : Unthwack} (hs : ut.slot < DWinBlocks) {seq : ℕ} :
    Crowded ut seq ↔ ∀ b ∈ ut.behind, b.newer seq = true := by
  simp only [Unthwack.behind, List.forall_mem_map, List.mem_range, UnthwBlock.newer,
    decide_eq_true_eq]
  constructor
  · exact fun h j hj => h _ (backSlot_lt _ _) (backSlot_succ_ne hs hj)
  · intro h i hi hne
    obtain ⟨j, hj, rfl⟩ := exists_backSlot hs hi hne
    exact h j hj

/-- The decoder once the walk has left `blocks` and the new block goes to the slot `tslot`. -/
def Unthwack.enter (ut : Unthwack) (blocks : ℕ → UnthwBlock) (tslot len seq : ℕ) : Unthwack :=
  let blocks := Function.update blocks tslot { blocks tslot with seq := seq, maxoff := len }
  { ut with
    slot := nextSlot ut.slot
    blocks := Function.update blocks (nextSlot ut.slot)
      { blocks (nextSlot ut.slot) with seq := noSeq, maxoff := 0 } }

theorem unthwackinsert_eq (ut : Unthwack) (len seq : ℕ) :
    unthwackinsert ut len seq =
      (insertLoop seq DWinBlocks ut.blocks ut.slot).map fun p => ut.enter p.1 p.2 len seq := rfl

section Enter

variable {ut : Unthwack} (blocks : ℕ → UnthwBlock) {w : ℕ} (len seq : ℕ)

theorem enter_cur (hs : ut.slot < DWinBlocks) (hw : w < 31) :
    (ut.enter blocks (backSlot ut.slot w) len seq).cur =
      { blocks (backSlot ut.slot 31) with seq := noSeq, maxoff := 0 } := by
  have hne : backSlot ut.slot 31 ≠ backSlot ut.slot w := fun h => by
    have := backSlot_inj (by decide) (by unfold DWinBlocks; omega) h
    omega
  simp only [Unthwack.cur, Unthwack.enter, nextSlot_eq_backSlot hs, Function.update_self,
    Function.update_of_ne hne]

theorem enter_new (hs : ut.slot < DWinBlocks) (hw : w < 31) :
    (ut.enter blocks (backSlot ut.slot w) len seq).blocks (backSlot ut.slot w) =
      { blocks (backSlot ut.slot w) with seq := seq, maxoff := len } := by
  have hne : backSlot ut.slot w ≠ backSlot ut.slot 31 := fun h => by
    have := backSlot_inj (by unfold DWinBlocks; omega) (by decide) h
    omega
  simp only [Unthwack.enter, nextSlot_eq_backSlot hs, Function.update_of_ne hne,
    Function.update_self]

theorem enter_other (hs : ut.slot < DWinBlocks) (hw : w < 31) {j : ℕ} (hj : j < 31)
    (hne : j ≠ w) :
    (ut.enter blocks (backSlot ut.slot w) len seq).blocks (backSlot ut.slot j) =
      blocks (backSlot ut.slot j) := by
  have hlt {i : ℕ} (hi : i < 31) : i < DWinBlocks := by unfold DWinBlocks; omega
  have hne' : backSlot ut.slot j ≠ backSlot ut.slot 31 := fun h => by
    have := backSlot_inj (hlt hj) (by decide) h
    omega
  simp only [Unthwack.enter, nextSlot_eq_backSlot hs, Function.update_of_ne hne',
    Function.update_of_ne fun h => hne (backSlot_inj (hlt hj) (hlt hw) h)]

end Enter

/-- The window after an insertion: the newer blocks, the new one, and the others but the last,
whose data area the next packet is decoded into. -/
theorem behind_insert (ut : Unthwack) (len seq : ℕ) (hs : ut.slot < DWinBlocks)
    {news rest : List UnthwBlock} {last : UnthwBlock}
    (hsplit : ut.behind = news ++ (rest ++ [last]))
    (hnews : ∀ b ∈ news, b.newer seq = true)
    (hrest : ∀ b ∈ (rest ++ [last]).head?, b.newer seq = false) :
    ∃ ut', unthwackinsert ut len seq = some ut' ∧ ut'.data = ut.data ∧
      ut'.slot = nextSlot ut.slot ∧
      ut'.behind = news ++ { seq := seq, maxoff := len, data := ut.cur.data } :: rest ∧
      ut'.cur.data = last.data ∧ ut'.cur.maxoff = 0 := by
  have hlen : news.length + (rest.length + 1) = 31 := by
    have h := congrArg List.length hsplit
    simpa using h.symm
  have hget (j : ℕ) (hj : j < 31) :
      (news ++ (rest ++ [last]))[j]? = some (ut.blocks (backSlot ut.slot (j + 1))) := by
    rw [← hsplit, List.getElem?_eq_getElem (by simpa using hj), Unthwack.getElem_behind]
  have hnewer (j : ℕ) (hj : 0 < j) (hj' : j ≤ 0 + news.length) :
      (ut.blocks (backSlot ut.slot j)).newer seq = true := by
    obtain ⟨j, rfl⟩ : ∃ i, j = i + 1 := ⟨j - 1, by omega⟩
    have h := hget j (by omega)
    rw [List.getElem?_append_left (by omega)] at h
    exact hnews _ (List.mem_of_getElem? h)
  have hstop : (ut.blocks (backSlot ut.slot (0 + news.length + 1))).newer seq = false := by
    have h := hget news.length (by omega)
    rw [List.getElem?_append_right le_rfl, Nat.sub_self, ← List.head?_eq_getElem?] at h
    rw [Nat.zero_add]
    exact hrest _ h
  obtain ⟨blocks', hloop, hd, hmove, hkeep⟩ :=
    insertLoop_spec hs news.length 0 (by omega) ut.blocks DWinBlocks
      (by unfold DWinBlocks; omega) hnewer hstop
  rw [backSlot_zero hs] at hloop hd
  rw [Nat.zero_add] at hloop hd hmove hkeep
  set ut' := ut.enter blocks' (backSlot ut.slot news.length) len seq with hut'
  have hcur := enter_cur blocks' len seq hs (w := news.length) (by omega)
  have hlast : blocks' (backSlot ut.slot 31) = last := by
    have h := hget 30 (by decide)
    rw [hkeep 31 (by decide) (.inr (by omega)), ← Option.some_inj, ← h, ← List.append_assoc,
      List.getElem?_append_right (by simp; omega)]
    simp [show 30 - (news.length + rest.length) = 0 by omega]
  refine ⟨ut', by rw [unthwackinsert_eq, hloop]; rfl, rfl, rfl, ?_, ?_, ?_⟩
  · refine List.ext_getElem? fun j => ?_
    rcases Nat.lt_or_ge j 31 with hj | hj
    · rw [List.getElem?_eq_getElem (by simpa using hj), Unthwack.getElem_behind]
      change some (ut'.blocks (backSlot (nextSlot ut.slot) (j + 1))) = _
      rw [backSlot_nextSlot hs (by unfold DWinBlocks; omega)]
      rcases Nat.lt_trichotomy j news.length with hjw | rfl | hjw
      · have h := hget j hj
        rw [List.getElem?_append_left hjw] at h
        rw [hut', enter_other blocks' len seq hs (by omega) hj hjw.ne, hmove j (Nat.zero_le j) hjw,
          List.getElem?_append_left hjw, h]
      · rw [hut', enter_new blocks' len seq hs hj, List.getElem?_append_right le_rfl,
          Nat.sub_self]
        dsimp only
        rw [hd]
        rfl
      · obtain ⟨i, rfl⟩ : ∃ i, j = i + 1 := ⟨j - 1, by omega⟩
        have h := hget i (by omega)
        rw [List.getElem?_append_right (by omega), List.getElem?_append_left (by omega)] at h
        rw [hut', enter_other blocks' len seq hs (by omega) hj hjw.ne',
          hkeep _ (by unfold DWinBlocks; omega) (.inr hjw), List.getElem?_append_right hjw.le,
          Nat.sub_add_comm (by omega), List.getElem?_cons_succ, h]
    · rw [List.getElem?_eq_none (by simpa using hj),
        List.getElem?_eq_none (by simp only [List.length_append, List.length_cons]; omega)]
  · rw [hcur, hlast]
  · rw [hcur]

/-! ### Decoding writes to the current block only -/

theorem copyBytes_of_notMem (len : ℕ) (data : ℕ → UInt8) (d s x : ℕ) (h : x < d ∨ d + len ≤ x) :
    copyBytes len data d s x = data x := by
  induction len generalizing data d s with
  | zero => rfl
  | succ len ih => rw [copyBytes, ih _ _ _ (by omega), Function.update_of_ne (by omega)]

/-- Reading a code moves neither the output nor its end. -/
def Dec.Same (e e' : Dec) : Prop := e'.d = e.d ∧ e'.data = e.data

theorem Dec.Same.trans {e e' e'' : Dec} (h : e.Same e') (h' : e'.Same e'') : e.Same e'' :=
  ⟨h'.1.trans h.1, h'.2.trans h.2⟩

theorem Dec.same_refill (fuel : ℕ) (e : Dec) : e.Same (e.refill fuel) := by
  induction fuel generalizing e with
  | zero => exact ⟨rfl, rfl⟩
  | succ fuel ih =>
    rw [Dec.refill]
    split
    · have hread : e.Same e.readByte := by
        unfold Dec.readByte
        split <;> exact ⟨rfl, rfl⟩
      exact hread.trans (ih _)
    · exact ⟨rfl, rfl⟩

theorem Dec.same_getLit (e : Dec) : e.Same e.getLit.2 := by
  unfold Dec.getLit
  dsimp only
  split_ifs <;> exact ⟨rfl, rfl⟩

theorem getBigLen_spec {fuel : ℕ} {e e' : Dec} {len len' code use bits : ℕ}
    (h : getBigLen fuel e len code use bits = some (len', e')) : e.Same e' ∧ len ≤ len' := by
  induction fuel generalizing e len code use bits with
  | zero => cases h
  | succ fuel ih =>
    rw [getBigLen] at h
    split_ifs at h
    · obtain ⟨hsame, hle⟩ := ih h
      exact ⟨hsame, (Nat.le_add_right _ _).trans hle⟩
    · cases h
      exact ⟨⟨rfl, rfl⟩, Nat.le_add_right _ _⟩

theorem Dec.getLen_spec {e e' : Dec} {len len' : ℕ} (h : e.getLen len = some (len', e'))
    (hlen : len ≠ 0) : e.Same e' ∧ 0 < len' := by
  unfold Dec.getLen at h
  dsimp only at h
  split at h
  · cases h
    exact ⟨⟨rfl, rfl⟩, Nat.pos_of_ne_zero hlen⟩
  · obtain ⟨⟨n, e₁⟩, hbig, h⟩ := Option.map_eq_some_iff.mp h
    obtain ⟨hsame, hle⟩ := getBigLen_spec hbig
    cases h
    exact ⟨Dec.Same.trans hsame (Dec.same_refill 4 e₁),
      lt_of_lt_of_le (by decide : 0 < DMaxFastLen) hle⟩

theorem Dec.same_getOff (e : Dec) : e.Same e.getOff.2 := ⟨rfl, rfl⟩

/-- A round of the decoding loop fails before it writes, or writes at least one byte at the end of
the output, within its limit. -/
theorem unthwackLoop_round (cur : UnthwBlock) (hist : List UnthwBlock) (dmax fuel : ℕ) {e : Dec}
    (hmore : ¬ (e.src = [] ∧ e.utnbits < e.overbits + MinDecode)) :
    (∃ e₁, unthwackLoop cur hist dmax (fuel + 1) e = (e₁, false) ∧ e.Same e₁) ∨
      ∃ e₁, unthwackLoop cur hist dmax (fuel + 1) e = unthwackLoop cur hist dmax fuel e₁ ∧
        e.d < e₁.d ∧ e₁.d ≤ dmax ∧ ∀ x, x < e.d ∨ e₁.d ≤ x → e₁.data x = e.data x := by
  rw [unthwackLoop, if_neg hmore]
  have hrefill := Dec.same_refill 4 e
  generalize e.refill 4 = e₁ at hrefill ⊢
  dsimp only
  generalize lenval.getD ((e₁.utbits >>> (e₁.utnbits - 5)) &&& 0x1f) 0 = len
  split
  · have hlit := hrefill.trans (Dec.same_getLit e₁)
    have hd := hlit.1
    split
    · exact .inl ⟨_, rfl, hlit⟩
    · refine .inr ⟨_, rfl, ?_, ?_, fun x hx => ?_⟩
      · dsimp only
        omega
      · dsimp only
        omega
      · dsimp only at hx ⊢
        rw [Function.update_of_ne (by omega), hlit.2]
  · rename_i hlen
    split
    · exact .inl ⟨_, rfl, hrefill⟩
    · rename_i len' e₂ hget
      obtain ⟨hsame, hpos⟩ := Dec.getLen_spec hget hlen
      have hoff := (hrefill.trans hsame).trans (Dec.same_getOff e₂)
      have hd := hoff.1
      split
      · exact .inl ⟨_, rfl, hoff⟩
      · split
        · exact .inl ⟨_, rfl, hoff⟩
        · refine .inr ⟨_, rfl, ?_, ?_, fun x hx => ?_⟩
          · dsimp only
            omega
          · dsimp only
            omega
          · dsimp only at hx ⊢
            rw [copyBytes_of_notMem _ _ _ _ _ (by omega), hoff.2]

/-- Decoding writes between the current end of the output and its limit. -/
theorem unthwackLoop_frame (cur : UnthwBlock) (hist : List UnthwBlock) (dmax : ℕ) {fuel : ℕ}
    {e e' : Dec} {done : Bool} (h : unthwackLoop cur hist dmax fuel e = (e', done)) :
    e.d ≤ e'.d ∧ (e.d ≤ dmax → e'.d ≤ dmax) ∧
      ∀ x, x < e.d ∨ dmax ≤ x → e'.data x = e.data x := by
  induction fuel generalizing e with
  | zero =>
    cases h
    exact ⟨le_rfl, id, fun _ _ => rfl⟩
  | succ fuel ih =>
    by_cases hmore : e.src = [] ∧ e.utnbits < e.overbits + MinDecode
    · rw [unthwackLoop, if_pos hmore] at h
      cases h
      exact ⟨le_rfl, id, fun _ _ => rfl⟩
    · rcases unthwackLoop_round cur hist dmax fuel hmore with ⟨e₁, he, hd, hdata⟩ |
        ⟨e₁, he, hlt, hle, hdata⟩
      · rw [he] at h
        cases h
        exact ⟨hd.ge, fun h => hd.trans_le h, fun x _ => congrFun hdata x⟩
      · obtain ⟨hd, hmax, hframe⟩ := ih (he.symm.trans h)
        refine ⟨hlt.le.trans hd, fun _ => hmax hle, fun x hx => ?_⟩
        rw [hframe x (by omega), hdata x (by omega)]

/-- A packet with bytes left to read decodes to one byte at least. -/
theorem unthwackLoop_pos (cur : UnthwBlock) (hist : List UnthwBlock) (dmax : ℕ) {fuel : ℕ}
    {e e' : Dec} (h : unthwackLoop cur hist dmax fuel e = (e', true)) (hsrc : e.src ≠ []) :
    e.d < e'.d := by
  cases fuel with
  | zero => cases h
  | succ fuel =>
    rcases unthwackLoop_round cur hist dmax fuel (e := e) (fun h => hsrc h.1) with
      ⟨e₁, he, -⟩ | ⟨e₁, he, hlt, -⟩
    · rw [he] at h
      cases h
    · exact hlt.trans_le (unthwackLoop_frame cur hist dmax (he.symm.trans h)).1

/-- A packet that decodes has at least one byte and fits the buffer; it is then inserted. -/
theorem unthwack_decoded {ut : Unthwack} {ndst : ℕ} {src : List UInt8} {seq : ℕ}
    (hbad : (unthwack ut ndst src seq).2 ≠ .bad)
    (hdropped : (unthwack ut ndst src seq).2 ≠ .dropped) :
    ∃ data len, 0 < len ∧ len ≤ ndst ∧
      (∀ x, x < ut.cur.data ∨ ut.cur.data + ndst ≤ x → data x = ut.data x) ∧
      unthwack ut ndst src seq =
        match unthwackinsert { ut with data := data } len seq with
        | none => ({ ut with data := data }, .stuck)
        | some ut' => (ut', .done ((List.range len).map fun i => data (ut.cur.data + i))) := by
  revert hbad hdropped
  rw [unthwack]
  dsimp only
  split
  · exact fun h => absurd rfl h
  · rename_i hn
    generalize unhistory ut seq DWinBlocks ut.slot _ _ [] = r
    obtain ⟨hist, held⟩ := r
    dsimp only
    split
    · exact fun _ h => absurd rfl h
    · generalize hloop : unthwackLoop _ _ _ _ _ = r
      obtain ⟨e, done⟩ := r
      dsimp only
      split
      · exact fun h => absurd rfl h
      · rename_i hdone
        intro _ _
        obtain rfl : done = true := by
          by_contra h
          exact hdone (.inl (by simpa using h))
        have hsrc : src.drop 2 ≠ [] := fun h => by
          have := congrArg List.length h
          simp only [List.length_drop, List.length_nil] at this
          omega
        have hpos := unthwackLoop_pos _ _ _ hloop hsrc
        obtain ⟨-, hmax, hframe⟩ := unthwackLoop_frame _ _ _ hloop
        have hmax := hmax (Nat.le_add_right _ _)
        dsimp only at hpos hmax hframe
        exact ⟨e.data, e.d - (ut.blocks ut.slot).data, by omega, by omega, hframe, rfl⟩

/-! ### Runs -/

/-- The decoder with a log of the packets decoded, the last one first. -/
structure Track where
  ut : Unthwack
  log : List (ℕ × List UInt8) := []

/-- A call of `unthwack`. -/
structure Call where
  ndst : ℕ := ThwMaxBlock
  src : List UInt8
  seq : ℕ
  deriving DecidableEq

namespace Track

def init : Track := { ut := unthwackinit }

/-- A successful call. -/
def exec (t : Track) (c : Call) : Option Track :=
  match unthwack t.ut c.ndst c.src c.seq with
  | (ut, .done out) => some { ut := ut, log := (c.seq, out) :: t.log }
  | _ => none

/-- The buffer is one block, and the sequence number is new and within the window of those seen. -/
def Admissible (t : Track) (c : Call) : Prop :=
  c.ndst ≤ ThwMaxBlock ∧ ∀ p ∈ t.log, p.1 ≠ c.seq ∧ p.1 < c.seq + DWinBlocks

instance (t : Track) (c : Call) : Decidable (t.Admissible c) := by
  unfold Admissible
  infer_instance

/-- The packet is decoded, whether or not its insertion ends. -/
def Decodes (t : Track) (c : Call) : Prop :=
  (unthwack t.ut c.ndst c.src c.seq).2 ≠ .bad ∧ (unthwack t.ut c.ndst c.src c.seq).2 ≠ .dropped

/-- The states reached by successful calls with admissible sequence numbers. -/
abbrev Reached (t : Track) : Prop :=
  Run (fun t c t' => t.exec c = some t') Admissible init t

end Track

/-- What a call leaves: a window in order, with the new block and all blocks before it but at most
the one of the smallest number, each with the bytes decoded for it. -/
structure Inserted (t : Track) (c : Call) (t' : Track) : Prop where
  free : t'.ut.cur.maxoff = 0
  sorted : t'.ut.held.Pairwise fun b b' => b'.seq < b.seq
  new : ∃ b ∈ t'.ut.held, b.seq = c.seq ∧ t'.log.head? = some (c.seq, t'.ut.bytes b)
  old : ∀ b ∈ t.ut.held,
    (∃ b' ∈ t'.ut.held, b'.seq = b.seq ∧ t'.ut.bytes b' = t.ut.bytes b) ∨
      ∀ b' ∈ t.ut.held, b.seq ≤ b'.seq
  paired : ∀ b ∈ t'.ut.held, (b.seq, t'.ut.bytes b) ∈ t'.log

/-- The call ends, and leaves the window as it should be. -/
def Keeps (t : Track) (c : Call) : Prop := ∃ t', t.exec c = some t' ∧ Inserted t c t'

/-- The first block comes before the second: a valid one is behind newer valid ones only. -/
def Before (b b' : UnthwBlock) : Prop := b'.maxoff ≠ 0 → b.maxoff ≠ 0 ∧ b'.seq < b.seq

/-- Two data areas do not overlap. -/
def Apart (a b : ℕ) : Prop := a + ThwMaxBlock ≤ b ∨ b + ThwMaxBlock ≤ a

/-- The invariant of the window. -/
structure Ordered (t : Track) : Prop where
  slot_lt : t.ut.slot < DWinBlocks
  free : t.ut.cur.maxoff = 0
  sorted : t.ut.behind.Pairwise Before
  apart : (t.ut.cur.data :: t.ut.behind.map UnthwBlock.data).Pairwise Apart
  short : ∀ b ∈ t.ut.behind, b.maxoff ≤ ThwMaxBlock
  paired : ∀ b ∈ t.ut.behind, b.maxoff ≠ 0 → (b.seq, t.ut.bytes b) ∈ t.log

theorem Ordered.init : Ordered .init where
  slot_lt := by decide
  free := rfl
  sorted := by
    refine List.pairwise_of_forall_mem_list fun b _ b' hb' h => absurd ?_ h
    obtain ⟨j, -, rfl⟩ := List.mem_map.mp hb'
    rfl
  apart := by
    unfold Apart
    decide +kernel
  short b hb := by
    obtain ⟨j, -, rfl⟩ := List.mem_map.mp hb
    exact Nat.zero_le _
  paired b hb h := by
    obtain ⟨j, -, rfl⟩ := List.mem_map.mp hb
    exact absurd rfl h

/-- Where the window is not crowded, its newer blocks are followed by one that is not. -/
theorem exists_split {ut : Unthwack} (hs : ut.slot < DWinBlocks) {seq : ℕ}
    (hroom : ¬ Crowded ut seq) :
    ∃ news rest last, ut.behind = news ++ (rest ++ [last]) ∧
      (∀ b ∈ news, b.newer seq = true) ∧
      ∀ b ∈ (rest ++ [last]).head?, b.newer seq = false := by
  have hne : ut.behind.dropWhile (UnthwBlock.newer seq) ≠ [] := fun h =>
    hroom ((crowded_iff hs).mpr (List.dropWhile_eq_nil_iff.mp h))
  refine ⟨ut.behind.takeWhile (UnthwBlock.newer seq),
    (ut.behind.dropWhile (UnthwBlock.newer seq)).dropLast,
    (ut.behind.dropWhile (UnthwBlock.newer seq)).getLast hne, ?_,
    fun b hb => List.mem_takeWhile_imp hb, fun b hb => ?_⟩
  · rw [List.dropLast_append_getLast, List.takeWhile_append_dropWhile]
  · rw [List.dropLast_append_getLast] at hb
    have h := List.head?_dropWhile_not (UnthwBlock.newer seq) ut.behind
    rw [hb] at h
    exact h

theorem Unthwack.mem_held {ut : Unthwack} {b : UnthwBlock} :
    b ∈ ut.held ↔ b ∈ ut.behind ∧ b.maxoff ≠ 0 := by
  simp [Unthwack.held]

namespace Ordered

variable {t : Track} {c : Call}

theorem held_sorted (h : Ordered t) : t.ut.held.Pairwise fun b b' => b'.seq < b.seq := by
  refine List.pairwise_filter.mpr (h.sorted.imp fun hbefore _ hvalid => ?_)
  exact (hbefore (by simpa using hvalid)).2

/-- Decoding leaves the data of the blocks behind the current one. -/
theorem bytes_eq (h : Ordered t) {data : ℕ → UInt8}
    (hframe : ∀ x, x < t.ut.cur.data ∨ t.ut.cur.data + ThwMaxBlock ≤ x → data x = t.ut.data x)
    {b : UnthwBlock} (hb : b ∈ t.ut.behind) {ut' : Unthwack} (hdata : ut'.data = data) :
    ut'.bytes b = t.ut.bytes b := by
  have hapart := (List.pairwise_cons.mp h.apart).1 _ (List.mem_map_of_mem hb)
  have hshort := h.short b hb
  refine List.map_congr_left fun i hi => ?_
  rw [hdata]
  have hi := List.mem_range.mp hi
  refine hframe _ ?_
  unfold Apart at hapart
  omega

/-- The blocks from the first that is not newer on are older. -/
theorem seq_lt (h : Ordered t) (hadm : t.Admissible c) {news rest : List UnthwBlock}
    (hsplit : t.ut.behind = news ++ rest)
    (hrest : ∀ b ∈ rest.head?, b.newer c.seq = false) {b : UnthwBlock} (hb : b ∈ rest)
    (hvalid : b.maxoff ≠ 0) : b.seq < c.seq := by
  have hne : b.seq ≠ c.seq :=
    (hadm.2 _ (h.paired b (hsplit ▸ List.mem_append_right _ hb) hvalid)).1
  have hsorted := h.sorted
  rw [hsplit] at hsorted
  have hsorted := (List.pairwise_append.mp hsorted).2.1
  cases rest with
  | nil => cases hb
  | cons a rest =>
    have ha := hrest a rfl
    simp only [UnthwBlock.newer, decide_eq_false_iff_not] at ha
    rcases List.mem_cons.mp hb with rfl | hb
    · omega
    · have := (List.pairwise_cons.mp hsorted).1 b hb hvalid
      omega

/-- Where the window is not crowded, a packet that decodes enters it at its place. -/
theorem insert (h : Ordered t) (hadm : t.Admissible c) (hdec : t.Decodes c)
    (hroom : ¬ Crowded t.ut c.seq) :
    ∃ t', t.exec c = some t' ∧ Ordered t' ∧ Inserted t c t' := by
  obtain ⟨data, len, hpos, hlen, hframe, hcall⟩ := unthwack_decoded hdec.1 hdec.2
  obtain ⟨news, rest, last, hsplit, hnews, hrest⟩ := exists_split h.slot_lt hroom
  have hframe (x : ℕ) (hx : x < t.ut.cur.data ∨ t.ut.cur.data + ThwMaxBlock ≤ x) :
      data x = t.ut.data x := by
    have := hadm.1
    exact hframe x (by omega)
  let b₀ : UnthwBlock := { seq := c.seq, maxoff := len, data := t.ut.cur.data }
  obtain ⟨ut', hins, hdata, hslot, (hbehind : ut'.behind = news ++ b₀ :: rest), hcurd, hcurm⟩ :=
    behind_insert { t.ut with data := data } len c.seq h.slot_lt hsplit hnews hrest
  rw [hins] at hcall
  have hmem {b : UnthwBlock} : b ∈ t.ut.behind ↔ (b ∈ news ∨ b ∈ rest) ∨ b = last := by
    rw [hsplit]
    simp only [List.mem_append, List.mem_singleton, or_assoc]
  have hmem' {b : UnthwBlock} : b ∈ ut'.behind ↔ b = b₀ ∨ b ∈ news ∨ b ∈ rest := by
    rw [hbehind]
    simp only [List.mem_append, List.mem_cons, or_left_comm]
  have hold {b : UnthwBlock} (hb : b ∈ t.ut.behind) : ut'.bytes b = t.ut.bytes b :=
    h.bytes_eq hframe hb hdata
  have hout : ut'.bytes b₀ = (List.range len).map fun i => data (t.ut.cur.data + i) := by
    rw [Unthwack.bytes, hdata]
  rw [← hout] at hcall
  have hsorted := h.sorted
  rw [hsplit, ← List.append_assoc] at hsorted
  obtain ⟨hsorted, -, hlast⟩ := List.pairwise_append.mp hsorted
  obtain ⟨hsnews, hsrest, hcross⟩ := List.pairwise_append.mp hsorted
  have hordered : Ordered { ut := ut', log := (c.seq, ut'.bytes b₀) :: t.log } := by
    refine ⟨hslot ▸ nextSlot_lt _, hcurm, ?_, ?_, fun b hb => ?_, fun b hb hvalid => ?_⟩
    · change ut'.behind.Pairwise Before
      rw [hbehind]
      refine List.pairwise_append.mpr ⟨hsnews, List.pairwise_cons.mpr ⟨?_, hsrest⟩, ?_⟩
      · exact fun b hb hvalid => ⟨hpos.ne', h.seq_lt hadm hsplit hrest
          (List.mem_append_left _ hb) hvalid⟩
      · intro a ha b hb
        rcases List.mem_cons.mp hb with rfl | hb
        · have := hnews a ha
          simp only [UnthwBlock.newer, decide_eq_true_eq] at this
          exact fun _ => this
        · exact hcross a ha b hb
    · -- the areas are those from before in another order
      refine (List.Perm.pairwise_iff (fun h => h.symm) ?_).mp h.apart
      change (t.ut.cur.data :: t.ut.behind.map UnthwBlock.data).Perm
        (ut'.cur.data :: ut'.behind.map UnthwBlock.data)
      rw [hcurd, hbehind, hsplit]
      have hperm : (b₀ :: (news ++ (rest ++ [last]))).Perm (last :: (news ++ b₀ :: rest)) := by
        refine List.perm_middle.symm.trans ?_
        rw [← List.cons_append, ← List.append_assoc]
        exact List.perm_append_singleton _ _
      exact hperm.map UnthwBlock.data
    · rcases hmem'.mp hb with rfl | hb
      · exact hlen.trans hadm.1
      · exact h.short b (hmem.mpr (.inl hb))
    · rcases hmem'.mp hb with rfl | hb
      · exact List.mem_cons_self
      · rw [hold (hmem.mpr (.inl hb))]
        exact List.mem_cons_of_mem _ (h.paired b (hmem.mpr (.inl hb)) hvalid)
  refine ⟨_, by rw [Track.exec, hcall], hordered, hcurm, hordered.held_sorted, ?_, ?_, ?_⟩
  · exact ⟨b₀, Unthwack.mem_held.mpr ⟨hmem'.mpr (.inl rfl), hpos.ne'⟩, rfl, rfl⟩
  · intro b hb
    obtain ⟨hb, hvalid⟩ := Unthwack.mem_held.mp hb
    rcases hmem.mp hb with hb' | rfl
    · exact .inl ⟨b, Unthwack.mem_held.mpr ⟨hmem'.mpr (.inr hb'), hvalid⟩, rfl, hold hb⟩
    · refine .inr fun b' hb' => ?_
      rcases hmem.mp (Unthwack.mem_held.mp hb').1 with hb' | rfl
      · exact (hlast b' (List.mem_append.mpr hb') b List.mem_cons_self hvalid).2.le
      · exact le_rfl
  · intro b hb
    obtain ⟨hb, hvalid⟩ := Unthwack.mem_held.mp hb
    exact hordered.paired b hb hvalid

end Ordered

/-- The call for a packet that decodes ends with a block within the buffer, unless the window is
crowded. -/
theorem unthwack_decodes {ut : Unthwack} {ndst : ℕ} {src : List UInt8} {seq : ℕ}
    (hs : ut.slot < DWinBlocks) (hbad : (unthwack ut ndst src seq).2 ≠ .bad)
    (hdropped : (unthwack ut ndst src seq).2 ≠ .dropped) :
    Crowded ut seq ∧ (unthwack ut ndst src seq).2 = .stuck ∨
      ¬ Crowded ut seq ∧ ∃ l, (unthwack ut ndst src seq).2 = .done l ∧ l.length ≤ ndst := by
  obtain ⟨data, len, -, hlen, -, hcall⟩ := unthwack_decoded hbad hdropped
  by_cases h : Crowded ut seq
  · have hloop : insertLoop seq DWinBlocks ut.blocks ut.slot = none :=
      insertLoop_crowded _ hs fun i hi hne => decide_eq_true (h i hi hne)
    have hins : unthwackinsert { ut with data := data } len seq = none := by
      rw [unthwackinsert_eq, hloop]
      rfl
    exact .inl ⟨h, by rw [hcall, hins]⟩
  · obtain ⟨news, rest, last, hsplit, hnews, hrest⟩ := exists_split hs h
    obtain ⟨ut', hins, -⟩ :=
      behind_insert { ut with data := data } len seq hs hsplit hnews hrest
    refine .inr ⟨h, _, by rw [hcall, hins], ?_⟩
    simpa using hlen

theorem exec_crowded {t : Track} {c : Call} (hs : t.ut.slot < DWinBlocks)
    (hdec : t.Decodes c) (h : Crowded t.ut c.seq) : t.exec c = none := by
  obtain ⟨-, hstuck⟩ | ⟨hroom, -⟩ := unthwack_decodes hs hdec.1 hdec.2
  · rw [Track.exec]
    split
    · rename_i hcall
      rw [hcall] at hstuck
      cases hstuck
    · rfl
  · exact absurd h hroom

theorem decodes_of_exec {t t' : Track} {c : Call} (h : t.exec c = some t') : t.Decodes c := by
  unfold Track.exec at h
  constructor <;>
  · intro hres
    split at h
    · rename_i hcall
      rw [hcall] at hres
      cases hres
    · cases h

/-- In every state reached by successful calls the window is in order. -/
theorem ordered_of_reached {t : Track} (h : t.Reached) : Ordered t := by
  refine h.invariant Ordered.init fun t c t' ht hadm hstep => ?_
  have hdec := decodes_of_exec hstep
  have hroom : ¬ Crowded t.ut c.seq := fun h => by
    rw [exec_crowded ht.slot_lt hdec h] at hstep
    cases hstep
  obtain ⟨t₁, hexec, hordered, -⟩ := ht.insert hadm hdec hroom
  cases hstep.symm.trans hexec
  exact hordered

/-- A packet that is decoded is inserted as it should be just when some other slot is empty or
holds an older block; otherwise the insertion does not end. -/
theorem keeps_iff {t : Track} (h : t.Reached) {c : Call} (hadm : t.Admissible c)
    (hdec : t.Decodes c) : Keeps t c ↔ ¬ Crowded t.ut c.seq := by
  have ht := ordered_of_reached h
  constructor
  · rintro ⟨t', hexec, -⟩ hcrowded
    rw [exec_crowded ht.slot_lt hdec hcrowded] at hexec
    cases hexec
  · intro hroom
    obtain ⟨t', hexec, -, hins⟩ := ht.insert hadm hdec hroom
    exact ⟨t', hexec, hins⟩

/-- A packet of one literal that names no block of the window. -/
def single (seq : ℕ) : Call := { src := [0, 0, 0, 0], seq := seq }

/-- Two packets, the later one first, are both inserted. -/
theorem keeps_swapped :
    ∃ t : Track, t.Reached ∧ t.log.map Prod.fst = [2] ∧ Keeps t (single 1) := by
  have h : ([single 2].foldlM
      (fun t c => if Track.Admissible t c then t.exec c else none) Track.init).any
      (fun t => decide (t.log.map Prod.fst = [2] ∧ t.Admissible (single 1) ∧
        (unthwack t.ut ThwMaxBlock [0, 0, 0, 0] 1).2 ≠ .bad ∧
        (unthwack t.ut ThwMaxBlock [0, 0, 0, 0] 1).2 ≠ .dropped ∧
        ¬ Crowded t.ut 1)) = true := by
    decide +kernel
  obtain ⟨t, ht, h⟩ := (Option.any_eq_true _ _).mp h
  obtain ⟨hlog, hadm, hbad, hdropped, hroom⟩ := of_decide_eq_true h
  have hreach : t.Reached := Run.of_foldlM_of_test ht
  exact ⟨t, hreach, hlog, (keeps_iff hreach hadm ⟨hbad, hdropped⟩).mpr hroom⟩

/-- The packets 2 to 32 arrive before the packet 1, which is within the window. It decodes, and
its insertion goes round the ring for ever. -/
theorem not_keeps_late : ∃ t : Track, t.Reached ∧
    t.log.map Prod.fst = ((List.range 31).map fun i => i + 2).reverse ∧
    t.Admissible (single 1) ∧ t.Decodes (single 1) ∧
    (∀ fuel, insertLoop 1 fuel t.ut.blocks t.ut.slot = none) ∧ ¬ Keeps t (single 1) := by
  have h : (((List.range 31).map fun i => single (i + 2)).foldlM
      (fun t c => if Track.Admissible t c then t.exec c else none) Track.init).any
      (fun t => decide (t.log.map Prod.fst = ((List.range 31).map fun i => i + 2).reverse ∧
        t.Admissible (single 1) ∧ Crowded t.ut 1 ∧ t.ut.slot < DWinBlocks ∧
        (unthwack t.ut ThwMaxBlock [0, 0, 0, 0] 1).2 = .stuck)) = true := by
    decide +kernel
  obtain ⟨t, ht, h⟩ := (Option.any_eq_true _ _).mp h
  obtain ⟨hlog, hadm, hcrowded, hslot, hstuck⟩ := of_decide_eq_true h
  have hloop (fuel : ℕ) : insertLoop 1 fuel t.ut.blocks t.ut.slot = none :=
    insertLoop_crowded fuel hslot fun i hi hne => decide_eq_true (hcrowded i hi hne)
  refine ⟨t, Run.of_foldlM_of_test ht, hlog, hadm, ⟨?_, ?_⟩, hloop, ?_⟩
  · change (unthwack t.ut ThwMaxBlock [0, 0, 0, 0] 1).2 ≠ .bad
    rw [hstuck]
    decide
  · change (unthwack t.ut ThwMaxBlock [0, 0, 0, 0] 1).2 ≠ .dropped
    rw [hstuck]
    decide
  · rintro ⟨t', hexec, -⟩
    unfold Track.exec at hexec
    split at hexec
    · rename_i hcall
      have hcall : (unthwack t.ut ThwMaxBlock [0, 0, 0, 0] 1).2 = _ := congrArg Prod.snd hcall
      rw [hstuck] at hcall
      cases hcall
    · cases hexec

end PlanNine.Thw
