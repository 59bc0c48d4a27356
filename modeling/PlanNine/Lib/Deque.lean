import PlanNine.Lib.Dlist

/-!
# Doubly linked lists with both ends

A doubly linked list in memory with pointers to its first and its last element, to which elements
are put in front and behind, and from which any of them is taken out.

## Main definitions

* `Deque`: the ends and the pointers.
* `Deque.Linked`: the ends and the pointers are those of a list.
* `Deque.unchain`, `Deque.chaintail`, `Deque.chainhead`: the operations, as stores to the pointers.
* `Deque.search`: the loop that looks for an element.
* `Deque.range`: the elements of an array, in order.

## Main results

* `Deque.Linked.unchain`, `Deque.Linked.chaintail`, `Deque.Linked.chainhead`: what the operations
  do.
-/

namespace PlanNine

/-- The pointers of a doubly linked list, with the last element. -/
structure Deque (α : Type*) extends Dlist α where
  tail : Option α

namespace Deque

variable {α : Type*} [DecidableEq α]

/-- The pointers are those of the list `l`, and nil elsewhere. -/
structure Linked (d : Deque α) (l : List α) : Prop where
  dlist : d.toDlist.Linked l
  tail : d.tail = l.getLast?

/-- Take an element out. -/
def unchain (d : Deque α) (p : α) : Deque α where
  head := match d.prev p with
    | some _ => d.head
    | none => d.next p
  next := Function.update (match d.prev p with
    | some b => Function.update d.next b (d.next p)
    | none => d.next) p none
  prev := Function.update (match d.next p with
    | some f => Function.update d.prev f (d.prev p)
    | none => d.prev) p none
  tail := match d.next p with
    | some _ => d.tail
    | none => d.prev p

/-- Put an element behind the others. -/
def chaintail (d : Deque α) (p : α) : Deque α where
  head := match d.tail with
    | some _ => d.head
    | none => some p
  next := Function.update (match d.tail with
    | some t => Function.update d.next t (some p)
    | none => d.next) p none
  prev := Function.update d.prev p d.tail
  tail := some p

/-- Put an element in front of the others. -/
def chainhead (d : Deque α) (p : α) : Deque α where
  head := some p
  next := Function.update d.next p d.head
  prev := Function.update (match d.head with
    | some f => Function.update d.prev f (some p)
    | none => d.prev) p none
  tail := match d.head with
    | some _ => d.tail
    | none => some p

/-- Look for an element along the list. A list that does not end has no result. -/
def search (d : Deque α) (P : α → Bool) : ℕ → Option α → Option (Option α)
  | 0, _ => none
  | _ + 1, none => some none
  | fuel + 1, some p => if P p then some (some p) else d.search P fuel (d.next p)

/-- The numbers below `n`, each linked to the one before and the one behind it. -/
def range (n : ℕ) : Deque ℕ where
  head := if n = 0 then none else some 0
  next p := if p + 1 < n then some (p + 1) else none
  prev p := if 0 < p ∧ p < n then some (p - 1) else none
  tail := if n = 0 then none else some (n - 1)

variable {d : Deque α} {l xs ys : List α} {a p t : α} {q : Option α}

/-! ### Neighbours -/

theorem succ_concat (h : (l ++ [t]).Nodup) : Dlist.succ (l ++ [t]) a =
    if l.getLast? = some a then some t else Dlist.succ l a := by
  have ht : t ∉ l := fun hin => (List.nodup_append.mp h).2.2 t hin t List.mem_cons_self rfl
  by_cases hlast : l.getLast? = some a
  · rw [if_pos hlast]
    obtain ⟨xs, rfl⟩ := List.getLast?_eq_some_iff.mp hlast
    rw [List.append_assoc] at h ⊢
    exact Dlist.succ_middle h
  · have hremove := Dlist.succ_remove (a := a) h
    rw [List.append_nil, if_neg hlast] at hremove
    rw [if_neg hlast, hremove]
    by_cases hat : a = t
    · subst hat
      rw [if_pos rfl]
      exact Dlist.succ_middle h
    · rw [if_neg hat]

theorem pred_concat (h : (l ++ [t]).Nodup) : Dlist.pred none (l ++ [t]) a =
    if a = t then l.getLast? else Dlist.pred none l a := by
  by_cases hat : a = t
  · subst hat
    rw [if_pos rfl, Dlist.pred_middle h, Option.or_none]
  · have hremove := Dlist.pred_remove (a := a) (p := none) h
    rw [List.append_nil, if_neg hat, List.head?_nil, if_neg nofun] at hremove
    rw [if_neg hat, hremove]

/-! ### Operations -/

theorem Linked.unchain (h : d.Linked (xs ++ p :: ys)) : (d.unchain p).Linked (xs ++ ys) := by
  have hnodup := h.dlist.nodup
  have hnext : d.next p = ys.head? := (h.dlist.next p).trans (Dlist.succ_middle hnodup)
  have hprev : d.prev p = xs.getLast? := by
    rw [h.dlist.prev, Dlist.pred_middle hnodup, Option.or_none]
  have hremove := h.dlist.remove
  refine ⟨⟨hremove.nodup, ?_, hremove.next, hremove.prev⟩, ?_⟩
  · unfold Deque.unchain
    dsimp only
    rw [hprev, hnext, h.dlist.head]
    cases hxs : xs.getLast? with
    | none =>
      rw [List.getLast?_eq_none_iff.mp hxs]
      rfl
    | some b =>
      obtain ⟨zs, rfl⟩ := List.getLast?_eq_some_iff.mp hxs
      cases zs <;> rfl
  · unfold Deque.unchain
    dsimp only
    rw [hprev, hnext, h.tail]
    cases ys with
    | nil =>
      rw [List.append_nil]
      rfl
    | cons y ys =>
      have hcons : (p :: y :: ys).getLast? = (y :: ys).getLast? := List.getLast?_cons_cons
      rw [List.head?_cons, List.getLast?_append, List.getLast?_append, hcons]

theorem Linked.chaintail (h : d.Linked l) (hp : p ∉ l) : (d.chaintail p).Linked (l ++ [p]) := by
  have hnodup : (l ++ [p]).Nodup :=
    List.nodup_append.mpr ⟨h.dlist.nodup, List.nodup_singleton p, fun a ha b hb =>
      List.mem_singleton.mp hb ▸ fun heq => hp (heq ▸ ha)⟩
  refine ⟨⟨hnodup, ?_, fun a => ?_, fun a => ?_⟩, List.getLast?_concat.symm⟩
  · unfold Deque.chaintail
    dsimp only
    rw [h.tail, h.dlist.head]
    cases l with
    | nil => rfl
    | cons x xs => rw [List.getLast?_cons]; rfl
  · rw [succ_concat hnodup, ← h.dlist.next, ← h.tail]
    unfold Deque.chaintail
    dsimp only
    by_cases hap : a = p
    · subst hap
      have hne : d.tail ≠ some a := fun heq => hp (List.mem_of_getLast? (h.tail.symm.trans heq))
      rw [Function.update_self, if_neg hne, h.dlist.next, Dlist.succ_of_not_mem hp]
    · rw [Function.update_of_ne hap]
      cases d.tail with
      | none => rfl
      | some t => simp only [Function.update_apply, Option.some.injEq, eq_comm]
  · rw [pred_concat hnodup, ← h.dlist.prev, ← h.tail]
    exact Function.update_apply _ _ _ _

theorem Linked.chainhead (h : d.Linked l) (hp : p ∉ l) : (d.chainhead p).Linked (p :: l) := by
  have hpush := h.dlist.push hp
  refine ⟨⟨hpush.nodup, rfl, hpush.next, fun a => ?_⟩, ?_⟩
  · rw [← hpush.prev]
    unfold Deque.chainhead Dlist.push
    dsimp only
    rw [h.dlist.head]
    cases l with
    | nil => rfl
    | cons x xs =>
      have hxp : x ≠ p := fun heq => hp (heq ▸ List.mem_cons_self)
      exact congrFun (Function.update_comm hxp.symm _ _ _).symm a
  · unfold Deque.chainhead
    dsimp only
    rw [h.dlist.head, h.tail]
    cases l with
    | nil => rfl
    | cons x xs => exact List.getLast?_cons_cons.symm

theorem search_append (h : d.Linked (xs ++ ys)) (P : α → Bool) {fuel : ℕ}
    (hfuel : ys.length < fuel) : d.search P fuel ys.head? = some (ys.find? P) := by
  induction ys generalizing xs fuel with
  | nil =>
    obtain ⟨fuel, rfl⟩ := Nat.exists_eq_succ_of_ne_zero hfuel.ne'
    rfl
  | cons y ys ih =>
    obtain ⟨fuel, rfl⟩ := Nat.exists_eq_succ_of_ne_zero (Nat.ne_zero_of_lt hfuel)
    have hnext : d.next y = ys.head? := (h.dlist.next y).trans (Dlist.succ_middle h.dlist.nodup)
    rw [List.head?_cons, search, hnext, List.find?_cons]
    cases P y with
    | true => rfl
    | false =>
      rw [← List.append_cons xs y ys |>.symm] at h
      exact ih h (Nat.lt_of_succ_lt_succ hfuel)

/-- The first element with a property. -/
theorem Linked.search (h : d.Linked l) (P : α → Bool) {fuel : ℕ} (hfuel : l.length < fuel) :
    d.search P fuel d.head = some (l.find? P) := by
  have h' : d.Linked ([] ++ l) := h
  rw [h.dlist.head]
  exact search_append h' P hfuel

theorem succ_range (n a : ℕ) :
    Dlist.succ (List.range n) a = if a + 1 < n then some (a + 1) else none := by
  induction n with
  | zero => rfl
  | succ n ih =>
    have hnodup : (List.range n ++ [n]).Nodup := List.range_succ ▸ List.nodup_range
    rw [List.range_succ, succ_concat hnodup, ih, List.getLast?_range]
    by_cases hn : n = 0
    · subst hn
      simp
    · simp only [hn, if_false, Option.some.injEq]
      split_ifs
      all_goals first | rfl | omega | (congr 1; omega)

theorem pred_range (n a : ℕ) : Dlist.pred none (List.range n) a =
    if 0 < a ∧ a < n then some (a - 1) else none := by
  induction n with
  | zero => simp [Dlist.pred]
  | succ n ih =>
    have hnodup : (List.range n ++ [n]).Nodup := List.range_succ ▸ List.nodup_range
    rw [List.range_succ, pred_concat hnodup, ih, List.getLast?_range]
    split_ifs
    all_goals first | rfl | omega | (congr 1; omega)

theorem linked_range (n : ℕ) : (range n).Linked (List.range n) := by
  refine ⟨⟨List.nodup_range, ?_, fun a => (succ_range n a).symm, fun a => (pred_range n a).symm⟩,
    List.getLast?_range.symm⟩
  rw [List.head?_range]
  rfl

end Deque

end PlanNine
