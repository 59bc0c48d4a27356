import Mathlib.Data.List.Nodup
import Mathlib.Tactic

/-!
# Doubly linked lists

Elements in memory that point to the next and to the previous element of a list, with nil pointers
in elements of no list. The pointers are those of a list when each is the neighbour there.

## Main definitions

* `Dlist`: the first element and the pointers.
* `succ`, `pred`: the neighbours in a list.
* `Dlist.Linked`: the pointers are those of a list.
* `Dlist.push`, `Dlist.remove`: the operations, as stores to the pointers.

## Main results

* `Dlist.Linked.push`, `Dlist.Linked.remove`: what the operations do.
-/

namespace PlanNine

/-- The pointers of a doubly linked list. -/
@[ext] structure Dlist (α : Type*) where
  head : Option α
  next : α → Option α
  prev : α → Option α

namespace Dlist

variable {α : Type*} [DecidableEq α]

/-- The element behind `a`. -/
def succ : List α → α → Option α
  | [], _ => none
  | x :: xs, a => if a = x then xs.head? else succ xs a

/-- The element before `a`, in a list that comes behind `p`. -/
def pred (p : Option α) : List α → α → Option α
  | [], _ => none
  | x :: xs, a => if a = x then p else pred (some x) xs a

/-- The pointers are those of the list `l`, and nil elsewhere. -/
structure Linked (d : Dlist α) (l : List α) : Prop where
  nodup : l.Nodup
  head : d.head = l.head?
  next : ∀ a, d.next a = succ l a
  prev : ∀ a, d.prev a = pred none l a

variable {d : Dlist α} {l xs ys : List α} {a t : α} {p : Option α}

theorem succ_of_not_mem (h : a ∉ l) : succ l a = none := by
  induction l with
  | nil => rfl
  | cons x xs ih =>
    rw [List.mem_cons, not_or] at h
    rw [succ, if_neg h.1, ih h.2]

/-- What comes behind something is in the list. -/
theorem mem_of_succ {b : α} (h : succ l a = some b) : b ∈ l := by
  induction l with
  | nil => cases h
  | cons x xs ih =>
    rw [succ] at h
    split at h
    · exact List.mem_cons_of_mem _ (List.mem_of_mem_head? h)
    · exact List.mem_cons_of_mem _ (ih h)

theorem pred_of_not_mem (h : a ∉ l) : pred p l a = none := by
  induction l generalizing p with
  | nil => rfl
  | cons x xs ih =>
    rw [List.mem_cons, not_or] at h
    rw [pred, if_neg h.1, ih h.2]

theorem succ_middle (h : (xs ++ t :: ys).Nodup) : succ (xs ++ t :: ys) t = ys.head? := by
  induction xs with
  | nil => exact if_pos rfl
  | cons x xs ih =>
    obtain ⟨hx, hxs⟩ := List.nodup_cons.mp h
    have hne : t ≠ x := fun heq => hx (heq ▸ List.mem_append_right _ List.mem_cons_self)
    rw [List.cons_append, succ, if_neg hne, ih hxs]

theorem pred_middle (h : (xs ++ t :: ys).Nodup) :
    pred p (xs ++ t :: ys) t = xs.getLast?.or p := by
  induction xs generalizing p with
  | nil => exact if_pos rfl
  | cons x xs ih =>
    obtain ⟨hx, hxs⟩ := List.nodup_cons.mp h
    have hne : t ≠ x := fun heq => hx (heq ▸ List.mem_append_right _ List.mem_cons_self)
    rw [List.cons_append, pred, if_neg hne, ih hxs, List.getLast?_cons]
    cases xs.getLast? <;> rfl

/-- The elements behind those of a list without `t`. -/
theorem succ_remove (h : (xs ++ t :: ys).Nodup) : succ (xs ++ ys) a =
    if a = t then none else if xs.getLast? = some a then ys.head? else
      succ (xs ++ t :: ys) a := by
  induction xs with
  | nil =>
    obtain ⟨ht, -⟩ := List.nodup_cons.mp h
    by_cases hat : a = t
    · rw [if_pos hat, hat]
      exact succ_of_not_mem ht
    · rw [if_neg hat, if_neg (by simp)]
      exact (if_neg hat).symm
  | cons x xs ih =>
    obtain ⟨hx, hxs⟩ := List.nodup_cons.mp h
    have htx : t ≠ x := fun heq => hx (heq ▸ List.mem_append_right _ List.mem_cons_self)
    rw [List.cons_append, List.cons_append, succ, succ, ih hxs]
    by_cases hax : a = x
    · subst hax
      rw [if_pos rfl, if_neg htx.symm, if_pos rfl]
      cases xs with
      | nil => simp
      | cons y zs =>
        have hlast : (a :: y :: zs).getLast? ≠ some a := fun heq => by
          rw [List.getLast?_cons_cons] at heq
          exact hx (List.mem_append_left _ (List.mem_of_getLast? heq))
        rw [if_neg hlast]
        rfl
    · rw [if_neg hax, if_neg hax]
      cases xs with
      | nil => simp [Ne.symm hax]
      | cons y zs => rw [List.getLast?_cons_cons]

/-- The elements before those of a list without `t`. -/
theorem pred_remove (h : (xs ++ t :: ys).Nodup) : pred p (xs ++ ys) a =
    if a = t then none else if ys.head? = some a then xs.getLast?.or p else
      pred p (xs ++ t :: ys) a := by
  induction xs generalizing p with
  | nil =>
    obtain ⟨ht, -⟩ := List.nodup_cons.mp h
    by_cases hat : a = t
    · rw [if_pos hat, hat]
      exact pred_of_not_mem ht
    rw [if_neg hat, List.nil_append, List.nil_append, pred, if_neg hat]
    cases ys with
    | nil => rfl
    | cons y zs =>
      by_cases hay : a = y
      · rw [hay, pred, if_pos rfl, List.head?_cons, if_pos rfl]
        rfl
      · rw [pred, if_neg hay, if_neg (by simp [Ne.symm hay]), pred, if_neg hay]
  | cons x xs ih =>
    obtain ⟨hx, hxs⟩ := List.nodup_cons.mp h
    have htx : t ≠ x := fun heq => hx (heq ▸ List.mem_append_right _ List.mem_cons_self)
    rw [List.cons_append, List.cons_append, pred, pred, ih hxs]
    by_cases hax : a = x
    · subst hax
      have hhead : ys.head? ≠ some a := fun heq =>
        hx (List.mem_append_right _ (List.mem_cons_of_mem _ (List.mem_of_mem_head? heq)))
      rw [if_pos rfl, if_neg htx.symm, if_neg hhead, if_pos rfl]
    · rw [if_neg hax, if_neg hax, List.getLast?_cons]
      cases xs.getLast? <;> rfl

/-- `a` comes behind the last element and before the first. -/
theorem pred_cons : pred none (t :: l) a =
    if a = t then none else if l.head? = some a then some t else pred none l a := by
  have htail : pred (some t) l a = if l.head? = some a then some t else pred none l a := by
    cases l with
    | nil => rfl
    | cons x xs =>
      by_cases hax : a = x
      · rw [pred, if_pos hax, List.head?_cons, if_pos (congrArg some hax.symm)]
      · have hne : ¬ (x :: xs).head? = some a := fun heq => hax (Option.some.inj heq).symm
        rw [if_neg hne, pred, pred, if_neg hax, if_neg hax]
  rw [← htail]
  rfl

/-! ### Operations -/

/-- Put an element in front. -/
def push (d : Dlist α) (t : α) : Dlist α where
  head := some t
  next := Function.update d.next t d.head
  prev := match d.head with
    | some f => Function.update (Function.update d.prev t none) f (some t)
    | none => Function.update d.prev t none

/-- Take an element out: its neighbours are linked to each other. -/
def remove (d : Dlist α) (t : α) : Dlist α where
  head := if d.head = some t then d.next t else d.head
  next := Function.update (match d.prev t with
    | some b => Function.update d.next b (d.next t)
    | none => d.next) t none
  prev := Function.update (match d.next t with
    | some f => Function.update d.prev f (d.prev t)
    | none => d.prev) t none

theorem Linked.push (h : d.Linked l) (ht : t ∉ l) : (d.push t).Linked (t :: l) where
  nodup := List.nodup_cons.mpr ⟨ht, h.nodup⟩
  head := rfl
  next a := by
    rw [succ, ← h.head, ← h.next]
    exact Function.update_apply _ _ _ _
  prev a := by
    rw [pred_cons, ← h.prev]
    unfold Dlist.push
    dsimp only
    rw [h.head]
    cases l with
    | nil => exact Function.update_apply _ _ _ _
    | cons x xs =>
      have hxt : x ≠ t := fun heq => ht (heq ▸ List.mem_cons_self)
      simp only [List.head?_cons, Function.update_apply, Option.some.injEq]
      by_cases hat : a = t
      · rw [if_neg (hat ▸ hxt.symm), if_pos hat, if_pos hat]
      · rw [if_neg hat, if_neg hat]
        simp only [eq_comm]

theorem Linked.remove (h : d.Linked (xs ++ t :: ys)) : (d.remove t).Linked (xs ++ ys) := by
  have hnodup := h.nodup
  have hnext : d.next t = ys.head? := (h.next t).trans (succ_middle hnodup)
  have hprev : d.prev t = xs.getLast? := by
    rw [h.prev, pred_middle hnodup, Option.or_none]
  refine ⟨(List.nodup_cons.mp (List.nodup_middle.mp hnodup)).2, ?_, fun a => ?_, fun a => ?_⟩
  · unfold Dlist.remove
    dsimp only
    rw [hnext, h.head]
    cases xs with
    | nil => simp
    | cons x zs =>
      have hne : x ≠ t := fun heq =>
        (List.nodup_cons.mp hnodup).1 (heq ▸ List.mem_append_right _ List.mem_cons_self)
      simp [hne]
  · rw [succ_remove hnodup, ← h.next]
    unfold Dlist.remove
    dsimp only
    rw [hprev, hnext, Function.update_apply]
    by_cases hat : a = t
    · rw [if_pos hat, if_pos hat]
    · rw [if_neg hat, if_neg hat]
      cases xs.getLast? with
      | none => rfl
      | some b => simp only [Function.update_apply, Option.some.injEq, eq_comm]
  · rw [pred_remove hnodup, Option.or_none, ← h.prev]
    unfold Dlist.remove
    dsimp only
    rw [hprev, hnext, Function.update_apply]
    by_cases hat : a = t
    · rw [if_pos hat, if_pos hat]
    · rw [if_neg hat, if_neg hat]
      cases ys.head? with
      | none => rfl
      | some b => simp only [Function.update_apply, Option.some.injEq, eq_comm]

end Dlist

end PlanNine
