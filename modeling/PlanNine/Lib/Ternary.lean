import Mathlib.Data.Multiset.AddSub
import Mathlib.Order.Interval.Basic
import Mathlib.Tactic

/-!
# Search trees of nested intervals

A tree with three subtrees at each node. The entries of the left and of the right subtree have
intervals that end before the node's interval or begin behind it, those of the middle subtree lie
properly inside it. Where any two intervals are apart or one lies in the other, such a tree holds
any set of them, and one walk down the tree finds the smallest interval around a point.

## Main definitions

* `Ternary`: the trees, with a number at each node for whoever balances them.
* `Ternary.bag`: the entries.
* `Ternary.Ordered`: where the entries are, by their intervals.
* `Ternary.find`: the walk down.
* `Ternary.Sub`: a subtree.
* `Laminar`: two intervals are apart or one lies in the other.

## Main results

* `Ternary.Ordered.find_spec`: the walk finds the smallest interval around a point.
* `Ternary.Ordered.rotate_right`, `Ternary.Ordered.rotate_left`: rotations keep the order.
* `Ternary.Ordered.not_le_of_sub`: no interval outside a subtree lies in one inside.
* `Ternary.Ordered.nodup`: no interval is there twice.
-/

namespace PlanNine

/-- One interval ends before the other begins. -/
def Before {α : Type*} [LT α] [LE α] (s t : NonemptyInterval α) : Prop := s.snd < t.fst

/-- Two intervals are apart, or one lies in the other. -/
def Laminar {α : Type*} [LinearOrder α] (s t : NonemptyInterval α) : Prop :=
  Before s t ∨ Before t s ∨ s ≤ t ∨ t ≤ s

/-- Trees with three subtrees at each node. -/
inductive Ternary (β : Type*) where
  | nil
  | node (depth : ℕ) (e : β) (left mid right : Ternary β)
  deriving Repr

section Intervals

variable {α : Type*} [LinearOrder α] {s t u : NonemptyInterval α} {a : α}

theorem Laminar.symm (h : Laminar s t) : Laminar t s := by
  obtain h | h | h | h := h
  · exact .inr (.inl h)
  · exact .inl h
  · exact .inr (.inr (.inr h))
  · exact .inr (.inr (.inl h))

theorem Before.not_mem_left (h : Before s t) (ha : t.fst ≤ a) : ¬ a ≤ s.snd :=
  not_le.mpr (lt_of_lt_of_le h ha)

theorem Before.not_le (h : Before s t) : ¬ s ≤ t := fun hle =>
  h.not_mem_left (hle.1.trans s.fst_le_snd) le_rfl

theorem Before.not_ge (h : Before s t) : ¬ t ≤ s := fun hle =>
  h.not_mem_left t.fst_le_snd hle.2

theorem Before.of_le_left (h : Before s t) (hle : u ≤ s) : Before u t :=
  lt_of_le_of_lt hle.2 h

theorem Before.of_le_right (h : Before s t) (hle : u ≤ t) : Before s u :=
  lt_of_lt_of_le h hle.1

theorem Before.trans (h : Before s t) (h' : Before t u) : Before s u :=
  lt_of_lt_of_le h (t.fst_le_snd.trans (le_of_lt h'))

end Intervals

namespace Ternary

variable {α β : Type*} [LinearOrder α] {span : β → NonemptyInterval α}
  {t l m r : Ternary β} {d : ℕ} {e x y : β} {a : α}

/-- The entries. -/
def bag : Ternary β → Multiset β
  | nil => 0
  | node _ e l m r => e ::ₘ (l.bag + m.bag + r.bag)

@[simp] theorem bag_nil : (nil : Ternary β).bag = 0 := rfl

@[simp] theorem bag_node : (node d e l m r).bag = e ::ₘ (l.bag + m.bag + r.bag) := rfl

theorem mem_node : x ∈ (node d e l m r).bag ↔ x = e ∨ x ∈ l.bag ∨ x ∈ m.bag ∨ x ∈ r.bag := by
  rw [bag_node, Multiset.mem_cons, Multiset.mem_add, Multiset.mem_add, or_assoc]

/-- The entries to the left come before a node, those to the right come behind it, and those in the
middle lie properly inside. -/
inductive Ordered (span : β → NonemptyInterval α) : Ternary β → Prop
  | nil : Ordered span nil
  | node {d : ℕ} {e : β} {l m r : Ternary β} (left : Ordered span l) (mid : Ordered span m)
      (right : Ordered span r) (before : ∀ x ∈ l.bag, Before (span x) (span e))
      (within : ∀ x ∈ m.bag, span x < span e) (after : ∀ x ∈ r.bag, Before (span e) (span x)) :
      Ordered span (node d e l m r)

/-- The walk down the tree to the last interval around a point. -/
def find (span : β → NonemptyInterval α) (a : α) : Ternary β → Option β
  | nil => none
  | node _ e l m r =>
    if (span e).fst ≤ a then
      if a ≤ (span e).snd then (find span a m).or (some e) else find span a r
    else find span a l

/-- A subtree. -/
inductive Sub (p : Ternary β) : Ternary β → Prop
  | refl : Sub p p
  | left {d : ℕ} {e : β} {l m r : Ternary β} (h : Sub p l) : Sub p (node d e l m r)
  | mid {d : ℕ} {e : β} {l m r : Ternary β} (h : Sub p m) : Sub p (node d e l m r)
  | right {d : ℕ} {e : β} {l m r : Ternary β} (h : Sub p r) : Sub p (node d e l m r)

/-- The number at the root. -/
def depth : Ternary β → ℕ
  | nil => 0
  | node d _ _ _ _ => d

variable {p : Ternary β}

/-! ### Order -/

theorem Sub.mem (h : Sub p t) (hx : x ∈ p.bag) : x ∈ t.bag := by
  induction h with
  | refl => exact hx
  | left _ ih => exact mem_node.mpr (.inr (.inl ih))
  | mid _ ih => exact mem_node.mpr (.inr (.inr (.inl ih)))
  | right _ ih => exact mem_node.mpr (.inr (.inr (.inr ih)))

theorem Sub.ordered (h : Sub p t) (ht : Ordered span t) : Ordered span p := by
  induction h with
  | refl => exact ht
  | left _ ih =>
    cases ht with
    | node left _ _ _ _ _ => exact ih left
  | mid _ ih =>
    cases ht with
    | node _ mid _ _ _ _ => exact ih mid
  | right _ ih =>
    cases ht with
    | node _ _ right _ _ _ => exact ih right

/-- The walk finds the smallest interval around a point, if there is one. -/
theorem Ordered.find_spec (h : Ordered span t) (a : α) :
    (t.find span a = none ∧ ∀ x ∈ t.bag, a ∉ span x) ∨
      ∃ e, t.find span a = some e ∧ e ∈ t.bag ∧ a ∈ span e ∧
        ∀ x ∈ t.bag, a ∈ span x → span e ≤ span x := by
  induction h with
  | nil => exact .inl ⟨rfl, fun x hx => absurd hx (Multiset.notMem_zero x)⟩
  | @node d e l m r _ _ _ before within after ihl ihm ihr =>
    unfold find
    by_cases hfst : (span e).fst ≤ a
    · rw [if_pos hfst]
      have hl : ∀ x ∈ l.bag, a ∉ span x := fun x hx ha => (before x hx).not_mem_left hfst ha.2
      by_cases hsnd : a ≤ (span e).snd
      · rw [if_pos hsnd]
        have hr : ∀ x ∈ r.bag, a ∉ span x := fun x hx ha => (after x hx).not_mem_left ha.1 hsnd
        obtain ⟨hnone, hm⟩ | ⟨e', hsome, hmem, ha, hmin⟩ := ihm
        · refine .inr ⟨e, by rw [hnone]; rfl, mem_node.mpr (.inl rfl), ⟨hfst, hsnd⟩, ?_⟩
          intro x hx ha
          obtain rfl | hx | hx | hx := mem_node.mp hx
          · exact le_rfl
          · exact absurd ha (hl x hx)
          · exact absurd ha (hm x hx)
          · exact absurd ha (hr x hx)
        · refine .inr ⟨e', by rw [hsome]; rfl, mem_node.mpr (.inr (.inr (.inl hmem))), ha, ?_⟩
          intro x hx hax
          obtain rfl | hx | hx | hx := mem_node.mp hx
          · exact (within e' hmem).le
          · exact absurd hax (hl x hx)
          · exact hmin x hx hax
          · exact absurd hax (hr x hx)
      · rw [if_neg hsnd]
        have hm : ∀ x ∈ m.bag, a ∉ span x := fun x hx ha => hsnd (ha.2.trans (within x hx).le.2)
        obtain ⟨hnone, hr⟩ | ⟨e', hsome, hmem, ha, hmin⟩ := ihr
        · refine .inl ⟨hnone, fun x hx ha => ?_⟩
          obtain rfl | hx | hx | hx := mem_node.mp hx
          · exact hsnd ha.2
          · exact hl x hx ha
          · exact hm x hx ha
          · exact hr x hx ha
        · refine .inr ⟨e', hsome, mem_node.mpr (.inr (.inr (.inr hmem))), ha, fun x hx hax => ?_⟩
          obtain rfl | hx | hx | hx := mem_node.mp hx
          · exact absurd hax.2 hsnd
          · exact absurd hax (hl x hx)
          · exact absurd hax (hm x hx)
          · exact hmin x hx hax
    · rw [if_neg hfst]
      have hm : ∀ x ∈ m.bag, a ∉ span x := fun x hx ha => hfst ((within x hx).le.1.trans ha.1)
      have hr : ∀ x ∈ r.bag, a ∉ span x := fun x hx ha =>
        hfst (((span e).fst_le_snd.trans (le_of_lt (after x hx))).trans ha.1)
      obtain ⟨hnone, hl⟩ | ⟨e', hsome, hmem, ha, hmin⟩ := ihl
      · refine .inl ⟨hnone, fun x hx ha => ?_⟩
        obtain rfl | hx | hx | hx := mem_node.mp hx
        · exact hfst ha.1
        · exact hl x hx ha
        · exact hm x hx ha
        · exact hr x hx ha
      · refine .inr ⟨e', hsome, mem_node.mpr (.inr (.inl hmem)), ha, fun x hx hax => ?_⟩
        obtain rfl | hx | hx | hx := mem_node.mp hx
        · exact absurd hax.1 hfst
        · exact hmin x hx hax
        · exact absurd hax (hm x hx)
        · exact absurd hax (hr x hx)

/-- No interval outside a subtree lies in one of the subtree. -/
theorem Ordered.not_le_of_sub (h : Ordered span t) (hp : Sub p t) :
    ∃ rest, t.bag = p.bag + rest ∧ ∀ x ∈ rest, ∀ y ∈ p.bag, ¬ span x ≤ span y := by
  induction hp with
  | refl => exact ⟨0, (Multiset.add_zero _).symm, fun x hx => absurd hx (Multiset.notMem_zero x)⟩
  | @left d e l m r hp ih =>
    cases h with
    | node left _ _ before within after =>
      obtain ⟨rest, hbag, hrest⟩ := ih left
      refine ⟨e ::ₘ (rest + m.bag + r.bag), ?_, fun x hx y hy => ?_⟩
      · rw [bag_node, hbag, Multiset.add_cons]
        simp only [add_assoc]
      have hye := before y (hp.mem hy)
      simp only [Multiset.mem_cons, Multiset.mem_add] at hx
      obtain rfl | (hx | hx) | hx := hx
      · exact hye.not_ge
      · exact hrest x hx y hy
      · exact (hye.of_le_right (within x hx).le).not_ge
      · exact (hye.trans (after x hx)).not_ge
  | @mid d e l m r hp ih =>
    cases h with
    | node _ mid _ before within after =>
      obtain ⟨rest, hbag, hrest⟩ := ih mid
      refine ⟨e ::ₘ (l.bag + rest + r.bag), ?_, fun x hx y hy => ?_⟩
      · rw [bag_node, hbag, Multiset.add_cons]
        simp only [add_assoc, add_left_comm]
      have hye := within y (hp.mem hy)
      simp only [Multiset.mem_cons, Multiset.mem_add] at hx
      obtain rfl | (hx | hx) | hx := hx
      · exact not_le_of_gt hye
      · exact ((before x hx).of_le_right hye.le).not_le
      · exact hrest x hx y hy
      · exact ((after x hx).of_le_left hye.le).not_ge
  | @right d e l m r hp ih =>
    cases h with
    | node _ _ right before within after =>
      obtain ⟨rest, hbag, hrest⟩ := ih right
      refine ⟨e ::ₘ (l.bag + m.bag + rest), ?_, fun x hx y hy => ?_⟩
      · rw [bag_node, hbag, Multiset.add_cons]
        simp only [add_left_comm, add_assoc]
      have hye := after y (hp.mem hy)
      simp only [Multiset.mem_cons, Multiset.mem_add] at hx
      obtain rfl | (hx | hx) | hx := hx
      · exact hye.not_le
      · exact ((before x hx).trans hye).not_le
      · exact (hye.of_le_left (within x hx).le).not_le
      · exact hrest x hx y hy

/-- The intervals of an ordered tree are distinct. -/
theorem Ordered.nodup (h : Ordered span t) : (t.bag.map span).Nodup := by
  induction h with
  | nil => exact Multiset.nodup_zero
  | @node d e l m r _ _ _ before within after ihl ihm ihr =>
    rw [bag_node, Multiset.map_cons, Multiset.map_add, Multiset.map_add, Multiset.nodup_cons,
      Multiset.nodup_add, Multiset.nodup_add]
    refine ⟨fun he => ?_, ⟨ihl, ihm, ?_⟩, ihr, ?_⟩
    · simp only [Multiset.mem_add, Multiset.mem_map] at he
      obtain (⟨x, hx, heq⟩ | ⟨x, hx, heq⟩) | ⟨x, hx, heq⟩ := he
      · exact (before x hx).not_le heq.le
      · exact (within x hx).ne heq
      · exact (after x hx).not_ge heq.le
    · rw [Multiset.disjoint_left]
      intro s hl hm
      obtain ⟨x, hx, rfl⟩ := Multiset.mem_map.mp hl
      obtain ⟨y, hy, heq⟩ := Multiset.mem_map.mp hm
      exact ((before x hx).of_le_right (within y hy).le).not_ge heq.le
    · rw [Multiset.disjoint_left]
      intro s hlm hr
      obtain ⟨y, hy, rfl⟩ := Multiset.mem_map.mp hr
      obtain hl | hm := Multiset.mem_add.mp hlm
      · obtain ⟨x, hx, heq⟩ := Multiset.mem_map.mp hl
        exact ((before x hx).trans (after y hy)).not_le heq.le
      · obtain ⟨x, hx, heq⟩ := Multiset.mem_map.mp hm
        exact ((after y hy).of_le_left (within x hx).le).not_le heq.le

/-! ### Rotations -/

variable {e' : β} {d' d₁ d₂ : ℕ} {ll lm lr rl rm rr : Ternary β}

theorem bag_rotate_right : (node d₁ e' ll lm (node d₂ e lr m r)).bag =
    (node d e (node d' e' ll lm lr) m r).bag := by
  simp only [bag_node, Multiset.add_cons, Multiset.cons_add, add_assoc]
  exact Multiset.cons_swap _ _ _

theorem bag_rotate_left : (node d₁ e' (node d₂ e l m rl) rm rr).bag =
    (node d e l m (node d' e' rl rm rr)).bag := by
  simp only [bag_node, Multiset.add_cons, Multiset.cons_add, add_assoc]
  exact Multiset.cons_swap _ _ _

theorem Ordered.rotate_right
    (h : Ordered span (Ternary.node d e (Ternary.node d' e' ll lm lr) m r)) :
    Ordered span (Ternary.node d₁ e' ll lm (Ternary.node d₂ e lr m r)) := by
  cases h with
  | node left mid right before within after =>
    cases left with
    | node left' mid' right' before' within' after' =>
      have hee := before e' (mem_node.mpr (.inl rfl))
      refine .node left' mid' (.node right' mid right (fun x hx => ?_) within after) before' within'
        fun x hx => ?_
      · exact before x (mem_node.mpr (.inr (.inr (.inr hx))))
      · obtain rfl | hx | hx | hx := mem_node.mp hx
        · exact hee
        · exact after' x hx
        · exact hee.of_le_right (within x hx).le
        · exact hee.trans (after x hx)

theorem Ordered.rotate_left
    (h : Ordered span (Ternary.node d e l m (Ternary.node d' e' rl rm rr))) :
    Ordered span (Ternary.node d₁ e' (Ternary.node d₂ e l m rl) rm rr) := by
  cases h with
  | node left mid right before within after =>
    cases right with
    | node left' mid' right' before' within' after' =>
      have hee := after e' (mem_node.mpr (.inl rfl))
      refine .node (.node left mid left' before within fun x hx => ?_) mid' right' (fun x hx => ?_)
        within' after'
      · exact after x (mem_node.mpr (.inr (.inl hx)))
      · obtain rfl | hx | hx | hx := mem_node.mp hx
        · exact hee
        · exact (before x hx).trans hee
        · exact hee.of_le_left (within x hx).le
        · exact before' x hx

end Ternary

end PlanNine
