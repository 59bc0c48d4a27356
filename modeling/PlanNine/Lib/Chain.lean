import Mathlib.Data.List.Nodup
import Mathlib.Data.List.TakeWhile
import Mathlib.Data.Finset.Card
import Mathlib.Tactic

/-!
# Chains of pointers

Singly linked chains in memory, as C code handles them through the address of a pointer: a link is
a root or the `next` field of an element, and an element is put in or taken out by storing to the
link that leads to it.

## Main definitions

* `Link`, `Links`: the places of pointers, and what they hold.
* `Chain`: the elements from a link on, up to a nil pointer.
* `lastLink`: the link behind some elements.
* `walk`: the loop that looks for an element and keeps the link to it.
* `follow`: the elements of a chain, as the pointers give them.

## Main results

* `Chain.unique`: a link has one chain.
* `chain_append_set`: storing to a link inside a chain replaces the rest of it.
* `chain_set_of_ne`: storing elsewhere leaves a chain.
* `walk_eq`: the walk stops at the first element that is looked for, or at the end.
-/

namespace PlanNine

/-- A place that holds a pointer: a root or the `next` field of an element. -/
inductive Link (η : Type*)
  | root (h : η)
  | next (p : ℕ)
  deriving DecidableEq

/-- The pointers in memory. -/
structure Links (η : Type*) where
  root : η → Option ℕ
  next : ℕ → Option ℕ

namespace Links

variable {η : Type*}

/-- `*l`. -/
def get (s : Links η) : Link η → Option ℕ
  | .root h => s.root h
  | .next p => s.next p

/-- The chain from a link on, up to a nil pointer. -/
def Chain (s : Links η) : Link η → List ℕ → Prop
  | l, [] => s.get l = none
  | l, p :: ps => s.get l = some p ∧ Chain s (.next p) ps

/-- The link behind some elements. -/
def lastLink : Link η → List ℕ → Link η
  | l, [] => l
  | _, p :: ps => lastLink (.next p) ps

/-- Go along a chain to the first element with a property; the link to it, or the last one. -/
def walk (s : Links η) (P : ℕ → Bool) : ℕ → Link η → Option (Link η)
  | 0, _ => none
  | fuel + 1, l =>
      match s.get l with
      | none => some l
      | some p => if P p then some l else walk s P fuel (.next p)

/-- The elements from a link on, `fuel` of them at the most. -/
def follow (s : Links η) : ℕ → Link η → List ℕ
  | 0, _ => []
  | fuel + 1, l =>
      match s.get l with
      | none => []
      | some p => p :: follow s fuel (.next p)

variable {s : Links η} {l l' : Link η} {v : Option ℕ} {ps qs : List ℕ} {p : ℕ}

theorem Chain.unique (h : s.Chain l ps) (h' : s.Chain l qs) : ps = qs := by
  induction ps generalizing l qs with
  | nil =>
    cases qs with
    | nil => rfl
    | cons q qs => exact absurd (h.symm.trans h'.1) (by simp)
  | cons p ps ih =>
    cases qs with
    | nil => exact absurd (h'.symm.trans h.1) (by simp)
    | cons q qs =>
      obtain rfl : p = q := Option.some.inj (h.1.symm.trans h'.1)
      rw [ih h.2 h'.2]

theorem follow_eq (h : s.Chain l ps) {fuel : ℕ} (hfuel : ps.length ≤ fuel) :
    s.follow fuel l = ps := by
  induction ps generalizing l fuel with
  | nil =>
    cases fuel with
    | zero => rfl
    | succ fuel =>
      rw [follow, show s.get l = none from h]
  | cons p ps ih =>
    cases fuel with
    | zero => exact absurd hfuel (Nat.not_succ_le_zero _)
    | succ fuel =>
      rw [follow, h.1]
      exact congrArg (p :: ·) (ih h.2 (Nat.le_of_succ_le_succ hfuel))

theorem lastLink_append : lastLink l (ps ++ qs) = lastLink (lastLink l ps) qs := by
  induction ps generalizing l with
  | nil => rfl
  | cons p ps ih => exact ih

/-- The last link is the first one, or one of an element. -/
theorem lastLink_mem (l : Link η) (ps : List ℕ) :
    lastLink l ps = l ∨ ∃ p ∈ ps, lastLink l ps = .next p := by
  induction ps generalizing l with
  | nil => exact .inl rfl
  | cons p ps ih =>
    rcases ih (.next p) with h | ⟨q, hq, h⟩
    · exact .inr ⟨p, List.mem_cons_self, h⟩
    · exact .inr ⟨q, List.mem_cons_of_mem _ hq, h⟩

/-- Behind its first elements a chain goes on with the others. -/
theorem Chain.drop (h : s.Chain l (ps ++ qs)) : s.Chain (lastLink l ps) qs := by
  induction ps generalizing l with
  | nil => exact h
  | cons p ps ih => exact ih h.2

theorem walk_eq (h : s.Chain l ps) (P : ℕ → Bool) {fuel : ℕ} (hfuel : ps.length < fuel) :
    s.walk P fuel l = some (lastLink l (ps.takeWhile fun p => !P p)) := by
  induction fuel generalizing l ps with
  | zero => exact absurd hfuel (Nat.not_lt_zero _)
  | succ fuel ih =>
    unfold walk
    cases ps with
    | nil =>
      rw [show s.get l = none from h]
      rfl
    | cons p ps =>
      rw [h.1]
      by_cases hP : P p = true
      · simp [hP, lastLink]
      · have hlen : ps.length < fuel := Nat.lt_of_succ_lt_succ hfuel
        simp only [hP, Bool.false_eq_true, if_false, ih h.2 hlen, List.takeWhile_cons,
          Bool.not_false, if_true, lastLink]

section

variable [DecidableEq η]

/-- `*l = v`. -/
def set (s : Links η) (l : Link η) (v : Option ℕ) : Links η :=
  match l with
  | .root h => { s with root := Function.update s.root h v }
  | .next p => { s with next := Function.update s.next p v }

@[simp] theorem get_set_self : (s.set l v).get l = v := by
  cases l <;> exact Function.update_self _ _ _

theorem get_set_of_ne (h : l' ≠ l) : (s.set l v).get l' = s.get l' := by
  cases l <;> cases l' <;> simp only [set, get] <;>
    exact Function.update_of_ne (fun heq => h (congrArg _ heq)) _ _

/-- Storing to a link that a chain does not use leaves the chain. -/
theorem chain_set_of_ne (hl : l' ≠ l) (hps : ∀ p ∈ ps, l' ≠ .next p) :
    (s.set l' v).Chain l ps ↔ s.Chain l ps := by
  induction ps generalizing l with
  | nil => simp only [Chain, get_set_of_ne hl.symm]
  | cons p ps ih =>
    simp only [Chain, get_set_of_ne hl.symm,
      ih (hps p List.mem_cons_self) fun q hq => hps q (List.mem_cons_of_mem _ hq)]

/-- Storing to the link behind the first elements replaces the rest of the chain. -/
theorem chain_append_set {rest : List ℕ} (h : s.Chain l (ps ++ rest)) (hnodup : ps.Nodup)
    (hl : ∀ p ∈ ps, l ≠ .next p)
    (hqs : (s.set (lastLink l ps) v).Chain (lastLink l ps) qs) :
    (s.set (lastLink l ps) v).Chain l (ps ++ qs) := by
  induction ps generalizing l with
  | nil => exact hqs
  | cons p ps ih =>
    obtain ⟨hp, hnodup⟩ := List.nodup_cons.mp hnodup
    refine ⟨?_, ih h.2 hnodup (fun q hq heq => ?_) hqs⟩
    · rw [get_set_of_ne]
      · exact h.1
      · rcases lastLink_mem (.next p) ps with heq | ⟨q, hq, heq⟩
        · exact fun hlast => hl p List.mem_cons_self (hlast.trans heq)
        · exact fun hlast => hl q (List.mem_cons_of_mem _ hq) (hlast.trans heq)
    · exact hp ((Link.next.inj heq) ▸ hq)

/-- Take an element out of a chain. -/
theorem chain_unlink (h : s.Chain l (ps ++ p :: qs)) (hnodup : (ps ++ p :: qs).Nodup)
    (hl : ∀ p' ∈ ps ++ p :: qs, l ≠ .next p') :
    (s.set (lastLink l ps) (s.next p)).Chain l (ps ++ qs) := by
  obtain ⟨hps, hpqs, hdisj⟩ := List.nodup_append.mp hnodup
  refine chain_append_set h hps (fun q hq => hl q (List.mem_append_left _ hq)) ?_
  have hrest : s.Chain (.next p) qs := h.drop.2
  have hlast (q : ℕ) (hq : q ∈ p :: qs) : lastLink l ps ≠ .next q := by
    intro heq
    rcases lastLink_mem l ps with hl' | ⟨q', hq', hl'⟩
    · exact hl q (List.mem_append_right _ hq) (hl'.symm.trans heq)
    · exact hdisj q' hq' q hq (Link.next.inj (hl'.symm.trans heq))
  cases qs with
  | nil => exact get_set_self.trans hrest
  | cons q qs =>
    refine ⟨get_set_self.trans hrest.1, (chain_set_of_ne (hlast q ?_) fun q' hq' => hlast q' ?_).mpr
      hrest.2⟩
    · exact List.mem_cons_of_mem _ List.mem_cons_self
    · exact List.mem_cons_of_mem _ (List.mem_cons_of_mem _ hq')

/-- Put an element at the end of a chain. -/
theorem chain_concat (h : s.Chain l ps) (hnodup : ps.Nodup) (hl : ∀ p' ∈ ps, l ≠ .next p')
    (hp : p ∉ ps) (hlp : l ≠ .next p) (hnext : s.next p = none) :
    (s.set (lastLink l ps) (some p)).Chain l (ps ++ [p]) := by
  rw [← List.append_nil ps] at h
  refine chain_append_set h hnodup hl ⟨get_set_self, ?_⟩
  have hne : Link.next p ≠ lastLink l ps := by
    intro heq
    rcases lastLink_mem l ps with hl' | ⟨q, hq, hl'⟩
    · exact hlp (heq.trans hl').symm
    · exact hp (Link.next.inj (heq.trans hl') ▸ hq)
  exact (get_set_of_ne hne).trans hnext

end

/-- Different numbers below a bound are not more than it. -/
theorem length_le_of_nodup {n : ℕ} (h : ps.Nodup) (hlt : ∀ p ∈ ps, p < n) : ps.length ≤ n := by
  rw [← List.toFinset_card_of_nodup h, ← Finset.card_range n]
  exact Finset.card_le_card fun p hp => Finset.mem_range.mpr (hlt p (List.mem_toFinset.mp hp))

end Links

end PlanNine
