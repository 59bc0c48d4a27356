import PlanNine.Port.Ssl.Record
import Mathlib.Tactic

/-!
# Strings of blocks as bytes

What the routines that read records do to the bytes of a string of blocks, however it is cut, and to
the number of its blocks.

## Main definitions

* `weight`: the bytes and the blocks of a string.

## Main results

* `pullupblock_spec`, `pullupblock_none`: when there are bytes enough, and when not.
* `ensure_ok`, `ensure_wait`: the bytes of the connection and of its transport stay in order.
* `flatten_consume`, `flatten_qtake`, `flatten_qtake_rest`: bytes taken from the front.
-/

namespace PlanNine.Ssl

/-- The bytes and the blocks of a string. -/
def weight (l : List (List UInt8)) : ℕ := l.flatten.length + l.length

@[simp] theorem weight_nil : weight [] = 0 := rfl

@[simp] theorem weight_cons (b : List UInt8) (l : List (List UInt8)) :
    weight (b :: l) = b.length + 1 + weight l := by
  simp only [weight, List.flatten_cons, List.length_append, List.length_cons]
  omega

@[simp] theorem weight_append (l l' : List (List UInt8)) :
    weight (l ++ l') = weight l + weight l' := by
  simp only [weight, List.flatten_append, List.length_append]
  omega

/-! ### Pulling up -/

theorem pullupLoop_spec (bp : List UInt8) (next : List (List UInt8)) {n : ℕ} (hn : 0 < n)
    (hle : n ≤ next.flatten.length) :
    ∃ b bs, pullupLoop bp next n = some (b :: bs) ∧ b.length = bp.length + n ∧
      b ++ bs.flatten = bp ++ next.flatten ∧ bs.length ≤ next.length := by
  induction next generalizing bp n with
  | nil =>
    simp only [List.flatten_nil, List.length_nil] at hle
    omega
  | cons nbp next ih =>
    rw [pullupLoop]
    rw [List.flatten_cons, List.length_append] at hle
    by_cases hlt : n < nbp.length
    · rw [if_pos hlt]
      refine ⟨_, _, rfl, ?_, ?_, le_rfl⟩
      · rw [List.length_append, List.length_take, min_eq_left hlt.le]
      · rw [List.flatten_cons, List.flatten_cons, List.append_assoc,
          ← List.append_assoc (nbp.take n), List.take_append_drop]
    · rw [if_neg hlt]
      by_cases hz : n - nbp.length = 0
      · rw [if_pos hz]
        refine ⟨_, _, rfl, ?_, ?_, ?_⟩
        · rw [List.length_append]
          omega
        · rw [List.flatten_cons, List.append_assoc]
        · rw [List.length_cons]
          omega
      · rw [if_neg hz]
        obtain ⟨b, bs, hloop, hlen, hflat, hcount⟩ :=
          ih (bp ++ nbp) (n := n - nbp.length) (by omega) (by omega)
        refine ⟨b, bs, hloop, ?_, ?_, ?_⟩
        · rw [hlen, List.length_append]
          omega
        · rw [hflat, List.flatten_cons, List.append_assoc]
        · rw [List.length_cons]
          omega

theorem pullupLoop_none (bp : List UInt8) {next : List (List UInt8)} {n : ℕ}
    (hlt : next.flatten.length < n) : pullupLoop bp next n = none := by
  induction next generalizing bp n with
  | nil => rfl
  | cons nbp next ih =>
    rw [List.flatten_cons, List.length_append] at hlt
    rw [pullupLoop, if_neg (by omega), if_neg (by omega), ih _ (by omega)]

/-- Where a string has `n` bytes, they are pulled into its first block, which gets no longer than
it was or than `n`. -/
theorem pullupblock_spec {l : List (List UInt8)} {n : ℕ} (hl : l ≠ [])
    (hle : n ≤ l.flatten.length) :
    ∃ b bs, pullupblock l n = some (b :: bs) ∧ n ≤ b.length ∧
      (b.length = n ∨ ∃ next, l = b :: next) ∧ (b :: bs).flatten = l.flatten ∧
      (b :: bs).length ≤ l.length := by
  obtain ⟨bp, next, rfl⟩ := List.exists_cons_of_ne_nil hl
  rw [pullupblock]
  by_cases hfirst : n ≤ bp.length
  · rw [if_pos hfirst]
    exact ⟨bp, next, rfl, hfirst, .inr ⟨next, rfl⟩, rfl, le_rfl⟩
  · rw [if_neg hfirst]
    rw [List.flatten_cons, List.length_append] at hle
    obtain ⟨b, bs, hloop, hlen, hflat, hcount⟩ :=
      pullupLoop_spec bp next (n := n - bp.length) (by omega) (by omega)
    refine ⟨b, bs, hloop, by omega, .inl (by omega), hflat, ?_⟩
    simp only [List.length_cons]
    omega

theorem pullupblock_none {l : List (List UInt8)} {n : ℕ} (hlt : l.flatten.length < n) :
    pullupblock l n = none := by
  cases l with
  | nil => rfl
  | cons bp next =>
    rw [List.flatten_cons, List.length_append] at hlt
    rw [pullupblock, if_neg (by omega), pullupLoop_none _ (by omega)]

/-! ### The transport -/

/-- The transport gives at least one byte each time. -/
def Delivers (net : List (List (List UInt8))) : Prop := ∀ bl ∈ net, bl.flatten ≠ []

/-- Where there are `n` bytes, the connection gets them, and the bytes stay in order. -/
theorem ensure_ok {n : ℕ} {net : List (List (List UInt8))} {l : List (List UInt8)}
    (hnet : Delivers net) (hle : n ≤ (l.flatten ++ net.flatten.flatten).length) :
    ∃ l' net', ensure n net l = (.ok (), l', net') ∧ n ≤ l'.flatten.length ∧
      l.flatten.length ≤ l'.flatten.length ∧
      l'.flatten ++ net'.flatten.flatten = l.flatten ++ net.flatten.flatten ∧ Delivers net' ∧
      weight l' + weight net'.flatten = weight l + weight net.flatten := by
  induction net generalizing l with
  | nil =>
    simp only [List.flatten_nil, List.append_nil] at hle
    exact ⟨l, [], by rw [ensure, if_pos hle], hle, le_rfl, rfl, hnet, rfl⟩
  | cons bl net ih =>
    by_cases hhave : n ≤ l.flatten.length
    · exact ⟨l, bl :: net, by rw [ensure, if_pos hhave], hhave, le_rfl, rfl, hnet, rfl⟩
    · have hbl : ¬ bl.flatten.length = 0 := fun h =>
        hnet bl List.mem_cons_self (List.length_eq_zero_iff.mp h)
      simp only [List.flatten_cons, List.flatten_append] at hle
      obtain ⟨l', net', hens, hn, hgrow, hflat, hdel, hweight⟩ :=
        ih (l := l ++ bl) (fun b hb => hnet b (List.mem_cons_of_mem _ hb)) (by
          simp only [List.flatten_append, List.append_assoc]
          exact hle)
      rw [List.flatten_append, List.length_append] at hgrow
      refine ⟨l', net', ?_, hn, by omega, ?_, hdel, ?_⟩
      · rw [ensure, if_neg hhave, if_neg hbl, hens]
      · rw [hflat]
        simp only [List.flatten_append, List.flatten_cons, List.append_assoc]
      · rw [hweight, weight_append, List.flatten_cons, weight_append, Nat.add_assoc]

/-- Where there are not, the call waits. -/
theorem ensure_wait {n : ℕ} {net : List (List (List UInt8))} {l : List (List UInt8)}
    (hnet : Delivers net) (hlt : (l.flatten ++ net.flatten.flatten).length < n) :
    (ensure n net l).1 = .wait := by
  induction net generalizing l with
  | nil =>
    simp only [List.flatten_nil, List.append_nil] at hlt
    rw [ensure, if_neg (by omega)]
  | cons bl net ih =>
    have hbl : ¬ bl.flatten.length = 0 := fun h =>
      hnet bl List.mem_cons_self (List.length_eq_zero_iff.mp h)
    simp only [List.flatten_cons, List.flatten_append] at hlt
    have hl : ¬ n ≤ l.flatten.length := by
      rw [List.length_append] at hlt
      omega
    rw [ensure, if_neg hl, if_neg hbl]
    refine ih (fun b hb => hnet b (List.mem_cons_of_mem _ hb)) ?_
    simp only [List.flatten_append, List.append_assoc]
    exact hlt

/-! ### Taking bytes from the front -/

theorem flatten_consume (l : List (List UInt8)) (n : ℕ) :
    (consume l n).flatten = l.flatten.drop n := by
  induction l generalizing n with
  | nil => simp [consume]
  | cons b l ih =>
    rw [consume]
    split_ifs with h0 hlt
    · rw [h0, List.drop_zero]
    · rw [List.flatten_cons, List.flatten_cons, List.drop_append_of_le_length hlt.le]
    · rw [ih, List.flatten_cons, List.drop_append, List.drop_of_length_le (Nat.not_lt.mp hlt),
        List.nil_append]

theorem length_consume (l : List (List UInt8)) (n : ℕ) : (consume l n).length ≤ l.length := by
  induction l generalizing n with
  | nil => simp [consume]
  | cons b l ih =>
    rw [consume]
    split_ifs
    · exact le_rfl
    · simp
    · exact (ih _).trans (Nat.le_succ _)

theorem flatten_qtake (discard : Bool) (l : List (List UInt8)) (n : ℕ) :
    (qtake discard l n).1.flatten = l.flatten.take n := by
  induction l generalizing n with
  | nil => simp [qtake]
  | cons b l ih =>
    rw [qtake]
    by_cases heq : b.length = n
    · rw [if_pos heq]
      simp [← heq]
    · rw [if_neg heq]
      by_cases hlt : n < b.length
      · rw [if_pos hlt]
        simp [List.take_append_of_le_length hlt.le]
      · rw [if_neg hlt]
        simp only [List.flatten_cons, ih, List.take_append,
          List.take_of_length_le (Nat.not_lt.mp hlt)]

theorem flatten_qtake_rest (l : List (List UInt8)) (n : ℕ) :
    (qtake false l n).2.flatten = l.flatten.drop n := by
  induction l generalizing n with
  | nil => simp [qtake]
  | cons b l ih =>
    rw [qtake]
    by_cases heq : b.length = n
    · rw [if_pos heq]
      simp [← heq]
    · rw [if_neg heq]
      by_cases hlt : n < b.length
      · rw [if_pos hlt]
        simp [List.drop_append_of_le_length hlt.le]
      · rw [if_neg hlt]
        simp only [List.flatten_cons, ih, List.drop_append,
          List.drop_of_length_le (Nat.not_lt.mp hlt), List.nil_append]

theorem qtake_ne_nil {discard : Bool} {l : List (List UInt8)} (n : ℕ) (h : l ≠ []) :
    (qtake discard l n).1 ≠ [] := by
  obtain ⟨b, l, rfl⟩ := List.exists_cons_of_ne_nil h
  rw [qtake]
  split_ifs <;> exact List.cons_ne_nil _ _

/-- Taking bytes cuts at most one block in two. -/
theorem length_qtake (discard : Bool) (l : List (List UInt8)) (n : ℕ) :
    (qtake discard l n).1.length ≤ l.length ∧
      (qtake discard l n).1.length + (qtake discard l n).2.length ≤ l.length + 1 := by
  induction l generalizing n with
  | nil => simp [qtake]
  | cons b l ih =>
    have := ih (n - b.length)
    rw [qtake]
    cases discard <;> split_ifs <;> simp only [List.length_cons, List.length_nil] at * <;> omega

/-- What is left of a string after a byte or more were asked for is lighter. -/
theorem weight_qtake_rest {l : List (List UInt8)} {n : ℕ} (hn : 0 < n) (hl : l ≠ []) :
    weight (qtake false l n).2 < weight l := by
  induction l generalizing n with
  | nil => exact absurd rfl hl
  | cons b l ih =>
    rw [qtake]
    by_cases heq : b.length = n
    · rw [if_pos heq, weight_cons]
      simp only [Bool.false_eq_true, if_false]
      omega
    · rw [if_neg heq]
      by_cases hlt : n < b.length
      · rw [if_pos hlt]
        simp only [Bool.false_eq_true, if_false, weight_cons, List.length_drop]
        omega
      · rw [if_neg hlt, weight_cons]
        dsimp only
        rcases eq_or_ne l [] with rfl | hne
        · rw [qtake, weight_nil]
          omega
        · have := ih (n := n - b.length) (by omega) hne
          omega

end PlanNine.Ssl
