import Mathlib.Data.List.TakeWhile
import Mathlib.Tactic

/-!
# Segments of a sequence

A receiver collects segments of a sequence of bytes in a list that is sorted and has no overlaps. A
segment that arrives is put in its place: what it shares with the one before is cut off there, and
what it shares with those behind is cut off or taken out. Segments are places only; the bytes are up
to those who use them.

## Main definitions

* `Seg`, `Seg.Before`: segments, and one that ends before another begins.
* `Covers`: a position lies in one of the segments.
* `coverNext`, `insertSeg`: putting a segment in its place.
* `full`: the list holds everything up to a position.

## Main results

* `pairwise_insertSeg`: the list stays sorted and without overlaps.
* `covers_insertSeg`, `covers_of_insertSeg_none`: nothing is lost.
* `full_of_covers`, `covers_of_full`: what is covered is held, and the other way round.
-/

namespace PlanNine

/-- A segment: where it begins, and its length. -/
structure Seg where
  off : ℕ
  len : ℕ
  deriving DecidableEq, Repr

/-- The segment `s` ends before `t` begins. -/
def Seg.Before (s t : Seg) : Prop := s.off + s.len ≤ t.off

/-- The position lies in a segment. -/
def Covers (l : List Seg) (x : ℕ) : Prop := ∃ s ∈ l, s.off ≤ x ∧ x < s.off + s.len

/-- Take out or cut the segments that end or begin before `e`. -/
def coverNext (e : ℕ) : List Seg → List Seg
  | [] => []
  | s :: l =>
    if e ≤ s.off then s :: l
    else if e < s.off + s.len then ⟨e, s.off + s.len - e⟩ :: l
    else coverNext e l

/-- Put a segment in its place; `none` when the one before covers it. -/
def insertSeg (b : Seg) (l : List Seg) : Option (List Seg) :=
  let before := l.takeWhile fun s => s.off < b.off
  let after := b :: coverNext (b.off + b.len) (l.dropWhile fun s => s.off < b.off)
  match before.getLast? with
  | none => some after
  | some p =>
    if b.off < p.off + p.len then
      if b.off + b.len ≤ p.off + p.len then none
      else some (before.dropLast ++ ⟨p.off, b.off - p.off⟩ :: after)
    else some (before ++ after)

/-- The segments from the position `pos` on are contiguous up to `e`. -/
def full (e : ℕ) : ℕ → List Seg → Bool
  | _, [] => false
  | pos, s :: l =>
    if s.off ≠ pos then false else if s.off + s.len = e then true else full e (s.off + s.len) l

section

variable {b s : Seg} {l l' : List Seg} {e x pos : ℕ}

theorem covers_nil : ¬ Covers [] x := fun ⟨_, hs, _⟩ => List.not_mem_nil hs

theorem covers_cons : Covers (s :: l) x ↔ (s.off ≤ x ∧ x < s.off + s.len) ∨ Covers l x := by
  simp [Covers]

theorem covers_append : Covers (l ++ l') x ↔ Covers l x ∨ Covers l' x := by
  simp only [Covers, List.mem_append, or_and_right, exists_or]

/-- What `coverNext` leaves comes behind `e`, and is what was there behind `e`. -/
theorem coverNext_spec (h : l.Pairwise Seg.Before) :
    (coverNext e l).Pairwise Seg.Before ∧ (∀ s ∈ coverNext e l, e ≤ s.off) ∧
      ∀ x, e ≤ x → (Covers (coverNext e l) x ↔ Covers l x) := by
  induction l with
  | nil => exact ⟨h, by simp [coverNext], fun _ _ => Iff.rfl⟩
  | cons s l ih =>
    obtain ⟨hs, hl⟩ := List.pairwise_cons.mp h
    rw [coverNext]
    split
    · rename_i hle
      refine ⟨h, fun t ht => ?_, fun _ _ => Iff.rfl⟩
      obtain rfl | ht := List.mem_cons.mp ht
      · exact hle
      · have : s.off + s.len ≤ t.off := hs t ht
        omega
    split
    · rename_i hlt
      refine ⟨List.pairwise_cons.mpr ⟨fun t ht => ?_, hl⟩, fun t ht => ?_, fun x hx => ?_⟩
      · have : s.off + s.len ≤ t.off := hs t ht
        unfold Seg.Before
        dsimp only
        omega
      · obtain rfl | ht := List.mem_cons.mp ht
        · exact le_rfl
        · have : s.off + s.len ≤ t.off := hs t ht
          omega
      · rw [covers_cons, covers_cons]
        refine or_congr_left ?_
        dsimp only
        omega
    · obtain ⟨hpair, hge, hcov⟩ := ih hl
      refine ⟨hpair, hge, fun x hx => ?_⟩
      rw [hcov x hx, covers_cons]
      refine ⟨.inr, fun hor => hor.resolve_left ?_⟩
      omega

/-- What comes before the place of a segment. -/
theorem takeWhile_spec (h : l.Pairwise Seg.Before) :
    (l.takeWhile fun s => s.off < b.off).Pairwise Seg.Before ∧
    (l.dropWhile fun s => s.off < b.off).Pairwise Seg.Before ∧
    (∀ s ∈ l.takeWhile fun s => s.off < b.off, s.off < b.off) ∧
    ∀ s ∈ l.dropWhile fun s => s.off < b.off, b.off ≤ s.off := by
  refine ⟨h.sublist (List.takeWhile_sublist _), h.sublist (List.dropWhile_sublist _),
    fun s hs => ?_, ?_⟩
  · have hlt := List.mem_takeWhile_imp hs
    exact of_decide_eq_true hlt
  induction l with
  | nil => simp
  | cons s l ih =>
    obtain ⟨hs, hl⟩ := List.pairwise_cons.mp h
    by_cases hlt : s.off < b.off
    · rw [List.dropWhile_cons_of_pos (by simpa using hlt)]
      exact ih hl
    · rw [List.dropWhile_cons_of_neg (by simpa using hlt)]
      intro t ht
      obtain rfl | ht := List.mem_cons.mp ht
      · exact not_lt.mp hlt
      · have : s.off + s.len ≤ t.off := hs t ht
        omega

/-- Segments before another one, this one, and segments behind it. -/
theorem pairwise_place {before after : List Seg} (hb : before.Pairwise Seg.Before)
    (ha : after.Pairwise Seg.Before) (hlt : ∀ s ∈ before, s.off + s.len ≤ b.off)
    (hgt : ∀ s ∈ after, b.off + b.len ≤ s.off) :
    (before ++ b :: after).Pairwise Seg.Before := by
  refine List.pairwise_append.mpr ⟨hb, List.pairwise_cons.mpr ⟨hgt, ha⟩, fun s hs t ht => ?_⟩
  have hs := hlt s hs
  obtain rfl | ht := List.mem_cons.mp ht
  · exact hs
  · have := hgt t ht
    unfold Seg.Before
    omega

/-- The cases of `insertSeg`: the segment before, if there is one, ends before the new one begins,
is cut, or covers it. -/
theorem insertSeg_cases (h : l.Pairwise Seg.Before) :
    let before := l.takeWhile fun s => s.off < b.off
    let after := b :: coverNext (b.off + b.len) (l.dropWhile fun s => s.off < b.off)
    ((∀ s ∈ before, s.off + s.len ≤ b.off) ∧ insertSeg b l = some (before ++ after)) ∨
    ∃ init p, before = init ++ [p] ∧ (∀ s ∈ init, s.off + s.len ≤ p.off) ∧ p.off < b.off ∧
      b.off < p.off + p.len ∧
      (p.off + p.len < b.off + b.len ∧
          insertSeg b l = some (init ++ ⟨p.off, b.off - p.off⟩ :: after) ∨
        b.off + b.len ≤ p.off + p.len ∧ insertSeg b l = none) := by
  intro before after
  obtain ⟨hbefore, -, hlt, -⟩ := takeWhile_spec (b := b) h
  have hdef : insertSeg b l = match before.getLast? with
    | none => some after
    | some p =>
      if b.off < p.off + p.len then
        if b.off + b.len ≤ p.off + p.len then none
        else some (before.dropLast ++ ⟨p.off, b.off - p.off⟩ :: after)
      else some (before ++ after) := rfl
  rw [hdef]
  rcases before.eq_nil_or_concat with heq | ⟨init, p, heq⟩
  · left
    rw [heq]
    exact ⟨by simp, rfl⟩
  · rw [List.concat_eq_append] at heq
    have hpair : (init ++ [p]).Pairwise Seg.Before := heq ▸ hbefore
    have hinit (s : Seg) (hs : s ∈ init) : s.off + s.len ≤ p.off :=
      (List.pairwise_append.mp hpair).2.2 s hs p List.mem_cons_self
    have hp : p.off < b.off := hlt p (by
      change p ∈ before
      simp [heq])
    rw [heq, List.getLast?_concat, List.dropLast_concat]
    dsimp only
    by_cases hover : b.off < p.off + p.len
    · right
      refine ⟨init, p, rfl, hinit, hp, hover, ?_⟩
      rw [if_pos hover]
      by_cases hcover : b.off + b.len ≤ p.off + p.len
      · exact .inr ⟨hcover, if_pos hcover⟩
      · exact .inl ⟨not_le.mp hcover, if_neg hcover⟩
    · left
      refine ⟨fun s hs => ?_, if_neg hover⟩
      obtain hs | hs := List.mem_append.mp hs
      · have := hinit s hs
        omega
      · rw [List.mem_singleton.mp hs]
        omega

/-- The list stays sorted and without overlaps. -/
theorem pairwise_insertSeg (h : l.Pairwise Seg.Before) (hins : insertSeg b l = some l') :
    l'.Pairwise Seg.Before := by
  obtain ⟨hbefore, hafter, -, -⟩ := takeWhile_spec (b := b) h
  obtain ⟨hnext, hge, -⟩ := coverNext_spec (e := b.off + b.len) hafter
  obtain ⟨hend, heq⟩ | ⟨init, p, hinit, hp, hlt, hin, ⟨-, heq⟩ | ⟨-, heq⟩⟩ := insertSeg_cases h
  · rw [heq] at hins
    cases hins
    exact pairwise_place hbefore hnext hend hge
  · rw [heq] at hins
    cases hins
    have hpair : init.Pairwise Seg.Before :=
      (List.pairwise_append.mp (hinit ▸ hbefore)).1
    have hcut : (init ++ [(⟨p.off, b.off - p.off⟩ : Seg)]).Pairwise Seg.Before :=
      pairwise_place hpair .nil hp (by simp)
    rw [List.append_cons]
    refine pairwise_place hcut hnext (fun s hs => ?_) hge
    obtain hs | hs := List.mem_append.mp hs
    · have := hp s hs
      omega
    · rw [List.mem_singleton.mp hs]
      dsimp only
      omega
  · rw [heq] at hins
    cases hins

/-- The positions of a list are those before and behind the place of a segment. -/
theorem covers_split : Covers l x ↔ Covers (l.takeWhile fun s => s.off < b.off) x ∨
    Covers (l.dropWhile fun s => s.off < b.off) x := by
  rw [← covers_append, List.takeWhile_append_dropWhile]

/-- The list covers what it covered before and the new segment. -/
theorem covers_insertSeg (h : l.Pairwise Seg.Before) (hins : insertSeg b l = some l') :
    Covers l' x ↔ Covers l x ∨ (b.off ≤ x ∧ x < b.off + b.len) := by
  obtain ⟨-, hafter, hltb, hgeb⟩ := takeWhile_spec (b := b) h
  obtain ⟨-, hge, hcov⟩ := coverNext_spec (e := b.off + b.len) hafter
  -- behind the place of the segment
  have hnext : Covers (b :: coverNext (b.off + b.len) (l.dropWhile fun s => s.off < b.off)) x ↔
      Covers (l.dropWhile fun s => s.off < b.off) x ∨ (b.off ≤ x ∧ x < b.off + b.len) := by
    rw [covers_cons, or_comm]
    by_cases hx : b.off + b.len ≤ x
    · rw [hcov x hx]
    · have hnot : ¬ Covers (coverNext (b.off + b.len) (l.dropWhile fun s => s.off < b.off)) x := by
        rintro ⟨s, hs, hle, -⟩
        have := hge s hs
        omega
      rw [or_iff_right hnot]
      refine ⟨.inr, fun hor => hor.elim (fun ⟨s, hs, hle, hlt⟩ => ?_) id⟩
      have := hgeb s hs
      omega
  rw [covers_split (b := b) (l := l)]
  obtain ⟨hend, heq⟩ | ⟨init, p, hinit, hp, hlt, hin, ⟨hout, heq⟩ | ⟨-, heq⟩⟩ := insertSeg_cases h
  · rw [heq] at hins
    cases hins
    rw [covers_append, hnext, or_assoc]
  · rw [heq] at hins
    cases hins
    rw [hinit, covers_append, covers_cons, hnext, covers_append, covers_cons]
    have hnil : ¬ Covers ([] : List Seg) x := covers_nil
    dsimp only
    by_cases hinx : p.off ≤ x ∧ x < p.off + p.len
    · by_cases hx : x < b.off
      · simp only [hinx, true_and, true_or, or_true]
        simp [show p.off ≤ x ∧ x < p.off + (b.off - p.off) by omega]
      · simp [show b.off ≤ x ∧ x < b.off + b.len by omega]
    · simp only [hinx, or_false, hnil]
      have hcut : ¬ (p.off ≤ x ∧ x < p.off + (b.off - p.off)) := by omega
      simp only [hcut, false_or, or_assoc]
  · rw [heq] at hins
    cases hins

/-- A segment that is left out was covered. -/
theorem covers_of_insertSeg_none (h : l.Pairwise Seg.Before) (hins : insertSeg b l = none)
    (hx : b.off ≤ x ∧ x < b.off + b.len) : Covers l x := by
  obtain ⟨-, heq⟩ | ⟨init, p, hinit, -, hlt, -, ⟨-, heq⟩ | ⟨hcover, -⟩⟩ := insertSeg_cases h
  · rw [heq] at hins
    cases hins
  · rw [heq] at hins
    cases hins
  · rw [covers_split (b := b), hinit, covers_append, covers_cons]
    exact .inl (.inr (.inl (by omega)))

/-- Sorted segments that cover everything up to `e` are contiguous. -/
theorem full_of_covers (h : l.Pairwise Seg.Before) (hpos : pos < e)
    (hge : ∀ s ∈ l, pos ≤ s.off) (hle : ∀ s ∈ l, s.off + s.len ≤ e)
    (hcov : ∀ x, pos ≤ x → x < e → Covers l x) : full e pos l = true := by
  induction l generalizing pos with
  | nil => exact (covers_nil (hcov pos le_rfl hpos)).elim
  | cons s l ih =>
    obtain ⟨hs, hl⟩ := List.pairwise_cons.mp h
    have hoff : s.off = pos := by
      obtain ⟨t, ht, hto, -⟩ := hcov pos le_rfl hpos
      have hso := hge s List.mem_cons_self
      obtain rfl | ht := List.mem_cons.mp ht
      · omega
      · have : s.off + s.len ≤ t.off := hs t ht
        omega
    have hfin := hle s List.mem_cons_self
    rw [full, if_neg (not_not_intro hoff)]
    by_cases heq : s.off + s.len = e
    · rw [if_pos heq]
    · rw [if_neg heq]
      refine ih hl (by omega) hs (fun t ht => hle t (List.mem_cons_of_mem _ ht))
        fun x hx hxe => ?_
      refine (covers_cons.mp (hcov x (by omega) hxe)).resolve_left ?_
      omega

/-- What is held is covered. -/
theorem covers_of_full (h : full e pos l = true) (hle : pos ≤ x) (hlt : x < e) : Covers l x := by
  induction l generalizing pos with
  | nil => cases h
  | cons s l ih =>
    rw [full] at h
    split at h
    · cases h
    rename_i hoff
    have hoff : s.off = pos := not_not.mp hoff
    by_cases hx : x < s.off + s.len
    · exact covers_cons.mpr (.inl ⟨hoff ▸ hle, hx⟩)
    · split at h
      · omega
      · exact covers_cons.mpr (.inr (ih h (not_lt.mp hx)))

end

end PlanNine
