import PlanNine.Lib.Rows

/-!
# Queues through one pointer of each element

Elements in memory wait in queues. A queue has a pointer to its first element and one to its last,
and each element has one pointer, to the next one of the queue it is in; so an element is in one
queue at the most.

## Main definitions

* `Fifo`: the pointers.
* `Fifo.put`, `Fifo.pop`, `Fifo.settle`, `Fifo.unlink`: the ways of changing a queue.
* `Fifo.Strung`, `Fifo.Holds`: the queues have the elements of some lists, in this order.

## Main results

* `Fifo.Strung.put`, `Fifo.Strung.pop`: what the changes do to the lists.
* `Fifo.Holds.put`, `Fifo.Holds.take`, `Fifo.Holds.unlink`: the same with the pointers to the last
  elements.
-/

namespace PlanNine

open Links Rows

variable {η : Type*}

/-- The pointers of some queues: those to the first elements and between elements, and those to the
last ones. -/
structure Fifo (η : Type*) where
  links : Links η
  tail : η → Option ℕ

namespace Fifo

def empty : Fifo η := { links := ⟨fun _ => none, fun _ => none⟩, tail := fun _ => none }

def head (f : Fifo η) (l : η) : Option ℕ := f.links.get (.root l)

/-- The pointer behind the last element. -/
def behind (l : η) : Option ℕ → Link η
  | none => .root l
  | some p => .next p

/-- The queues have the elements of the lists, and no element is in two of them. -/
structure Strung (f : Fifo η) (q : η → List ℕ) : Prop where
  chain : ∀ l, f.links.Chain (.root l) (q l)
  nodup : ∀ l, (q l).Nodup
  disjoint : ∀ l l' p, p ∈ q l → p ∈ q l' → l = l'

/-- The pointers to the last elements are right as well. -/
structure Holds (f : Fifo η) (q : η → List ℕ) : Prop extends Strung f q where
  tail : ∀ l, f.tail l = (q l).getLast?

theorem holds_empty : (empty : Fifo η).Holds fun _ => [] :=
  ⟨⟨fun _ => rfl, fun _ => List.nodup_nil, nofun⟩, fun _ => rfl⟩

variable {f : Fifo η} {q : η → List ℕ} {l : η} {p : ℕ} {ps : List ℕ}

theorem Strung.head (h : f.Strung q) (l : η) : f.head l = (q l).head? := by
  have hchain := h.chain l
  cases hq : q l with
  | nil =>
    rw [hq] at hchain
    exact hchain
  | cons p ps =>
    rw [hq] at hchain
    exact hchain.1

/-- The pointer behind the last element is the one that a walk ends at. -/
theorem behind_getLast? (l : η) (ps : List ℕ) : behind l ps.getLast? = lastLink (.root l) ps := by
  induction ps using List.reverseRecOn with
  | nil => rfl
  | append_singleton ps p ih =>
    rw [List.getLast?_concat, lastLink_append]
    rfl

variable [DecidableEq η]

/-- Put an element behind the last one. -/
def put (f : Fifo η) (l : η) (p : ℕ) : Fifo η where
  links := (f.links.set (behind l (f.tail l)) (some p)).set (.next p) none
  tail := Function.update f.tail l (some p)

/-- Take the first element off; the pointer to the last one stays. -/
def pop (f : Fifo η) (l : η) (p : ℕ) : Fifo η :=
  { f with links := f.links.set (.root l) (f.links.next p) }

/-- The queue has no last element when it has no first one. -/
def settle (f : Fifo η) (l : η) : Fifo η :=
  if f.head l = none then { f with tail := Function.update f.tail l none } else f

/-- The element that has a link, if it is none of a queue. -/
def owner : Link η → Option ℕ
  | .root _ => none
  | .next p => some p

/-- Take the element behind a link out, and go back to the one before it if it was the last. -/
def unlink (f : Fifo η) (l : η) (link : Link η) (p : ℕ) : Fifo η where
  links := f.links.set link (f.links.next p)
  tail := if f.links.next p = none then Function.update f.tail l (owner link) else f.tail

/-- Lists of which one is changed are disjoint when it has elements of none of the others. -/
theorem Strung.disjoint_update (h : f.Strung q) (hps : ∀ p ∈ ps, ∀ l', p ∈ q l' → l = l') :
    ∀ l₁ l₂ p, p ∈ Function.update q l ps l₁ → p ∈ Function.update q l ps l₂ → l₁ = l₂ := by
  intro l₁ l₂ p h₁ h₂
  by_cases hl₁ : l₁ = l <;> by_cases hl₂ : l₂ = l
  · rw [hl₁, hl₂]
  · subst hl₁
    rw [Function.update_self] at h₁
    rw [Function.update_of_ne hl₂] at h₂
    exact hps p h₁ l₂ h₂
  · subst hl₂
    rw [Function.update_self] at h₂
    rw [Function.update_of_ne hl₁] at h₁
    exact (hps p h₂ l₁ h₁).symm
  · rw [Function.update_of_ne hl₁] at h₁
    rw [Function.update_of_ne hl₂] at h₂
    exact h.disjoint l₁ l₂ p h₁ h₂

theorem Holds.put (h : f.Holds q) (l : η) (hp : ∀ l, p ∉ q l) :
    (f.put l p).Holds (Function.update q l (q l ++ [p])) := by
  have hbehind : behind l (f.tail l) = lastLink (.root l) (q l) := by
    rw [h.tail, behind_getLast?]
  have hnext : ∀ l', ∀ r ∈ q l', Link.next p ≠ (.next r : Link η) := by
    rintro l' r hr heq
    exact hp l' (Link.next.inj heq ▸ hr)
  have hlast : Link.next p ≠ lastLink (.root l) (q l) :=
    ne_lastLink (root_ne l p).symm (hnext l)
  refine ⟨⟨fun l' => ?_, fun l' => ?_, h.toStrung.disjoint_update fun r hr l' hr' => ?_⟩,
    fun l' => ?_⟩
  · unfold Fifo.put
    dsimp only
    rw [hbehind]
    by_cases hl : l' = l
    · subst hl
      rw [Function.update_self, set_comm hlast.symm]
      have hnil : (f.links.set (.next p) none).Chain (.root l') (q l') :=
        (chain_set_of_ne (root_ne l' p).symm (hnext l')).mpr (h.chain l')
      exact chain_concat hnil (h.nodup l') (fun r _ => root_ne l' r) (hp l') (root_ne l' p)
        (Function.update_self _ _ _)
    · rw [Function.update_of_ne hl]
      refine (chain_set_of_ne (root_ne l' p).symm (hnext l')).mpr ?_
      refine (chain_set_of_ne ?_ fun r hr => ?_).mpr (h.chain l')
      · refine (ne_lastLink (fun heq => hl (Link.root.inj heq)) fun _ _ => nofun).symm
      · refine (ne_lastLink (root_ne l r).symm fun r' hr' heq => hl ?_).symm
        exact h.disjoint l' l r hr (Link.next.inj heq ▸ hr')
  · by_cases hl : l' = l
    · subst hl
      rw [Function.update_self]
      rw [← List.concat_eq_append]
      exact (List.nodup_concat _ _).mpr ⟨hp l', h.nodup l'⟩
    · rw [Function.update_of_ne hl]
      exact h.nodup l'
  · obtain hr | hr := List.mem_append.mp hr
    · exact h.disjoint l l' r hr hr'
    · obtain rfl := List.mem_singleton.mp hr
      exact absurd hr' (hp l')
  · unfold Fifo.put
    dsimp only
    by_cases hl : l' = l
    · subst hl
      rw [Function.update_self, Function.update_self, List.getLast?_concat]
    · rw [Function.update_of_ne hl, Function.update_of_ne hl]
      exact h.tail l'

theorem Strung.pop (h : f.Strung q) (hq : q l = p :: ps) :
    (f.pop l p).Strung (Function.update q l ps) := by
  have hchain := h.chain l
  have hnodup := h.nodup l
  rw [hq] at hchain hnodup
  refine ⟨fun l' => ?_, fun l' => ?_, h.disjoint_update fun r hr l' hr' => ?_⟩
  · unfold Fifo.pop
    dsimp only
    by_cases hl : l' = l
    · subst hl
      rw [Function.update_self]
      have hself : (f.links.set (.root l') (f.links.next p)).get (.root l') = f.links.next p :=
        get_set_self
      cases ps with
      | nil => exact hself.trans hchain.2
      | cons r rs =>
        refine ⟨hself.trans hchain.2.1, ?_⟩
        exact (chain_set_of_ne (root_ne l' r) fun r' _ => root_ne l' r').mpr hchain.2.2
    · rw [Function.update_of_ne hl]
      exact (chain_set_of_ne (fun heq => hl (Link.root.inj heq).symm)
        fun r' _ => root_ne l r').mpr (h.chain l')
  · by_cases hl : l' = l
    · subst hl
      rw [Function.update_self]
      exact (List.nodup_cons.mp hnodup).2
    · rw [Function.update_of_ne hl]
      exact h.nodup l'
  · refine h.disjoint l l' r ?_ hr'
    rw [hq]
    exact List.mem_cons_of_mem _ hr

/-- The pointer to the last element is right once it is cleared for an empty queue. -/
theorem Strung.settle (h : f.Strung q) (hl : q l = [] ∨ f.tail l = (q l).getLast?)
    (hothers : ∀ l' ≠ l, f.tail l' = (q l').getLast?) : (f.settle l).Holds q := by
  unfold Fifo.settle
  rw [h.head l]
  cases hq : q l with
  | nil =>
    rw [if_pos List.head?_nil]
    refine ⟨⟨h.chain, h.nodup, h.disjoint⟩, fun l' => ?_⟩
    by_cases hl' : l' = l
    · subst hl'
      dsimp only
      rw [Function.update_self, hq, List.getLast?_nil]
    · dsimp only
      rw [Function.update_of_ne hl']
      exact hothers l' hl'
  | cons p ps =>
    rw [hq] at hl
    rw [if_neg (by simp)]
    refine ⟨h, fun l' => ?_⟩
    by_cases hl' : l' = l
    · subst hl'
      rw [hq]
      exact hl.resolve_left nofun
    · exact hothers l' hl'

/-- The first element is taken off. -/
theorem Holds.take (h : f.Holds q) (hq : q l = p :: ps) :
    ((f.pop l p).settle l).Holds (Function.update q l ps) := by
  refine (h.toStrung.pop hq).settle ?_ fun l' hl' => ?_
  · rw [Function.update_self]
    have htail : (f.pop l p).tail l = (q l).getLast? := h.tail l
    rw [htail, hq]
    cases ps with
    | nil => exact .inl rfl
    | cons r rs => exact .inr (List.getLast?_cons_cons)
  · rw [Function.update_of_ne hl']
    exact h.tail l'

theorem owner_lastLink (l : η) (ps : List ℕ) : owner (lastLink (.root l) ps) = ps.getLast? := by
  rw [← behind_getLast?]
  cases ps.getLast? <;> rfl

/-- An element is taken out of the middle. -/
theorem Holds.unlink {qs : List ℕ} (h : f.Holds q) (hq : q l = ps ++ p :: qs) :
    (f.unlink l (lastLink (.root l) ps) p).Holds (Function.update q l (ps ++ qs)) := by
  have hchain := h.chain l
  have hnodup := h.nodup l
  rw [hq] at hchain hnodup
  have hnext : f.links.next p = qs.head? := by
    have hrest := hchain.drop.2
    cases qs with
    | nil => exact hrest
    | cons r rs => exact hrest.1
  refine ⟨⟨fun l' => ?_, fun l' => ?_, h.disjoint_update fun r hr l' hr' => ?_⟩, fun l' => ?_⟩
  · by_cases hl : l' = l
    · subst hl
      rw [Function.update_self]
      exact chain_unlink hchain hnodup fun r _ => root_ne l' r
    · rw [Function.update_of_ne hl]
      have hother : ∀ r ∈ q l', lastLink (.root l) ps ≠ .next r := by
        refine fun r hr => (ne_lastLink (root_ne l r).symm fun r' hr' heq => hl ?_).symm
        refine h.disjoint l' l r hr ?_
        rw [hq, Link.next.inj heq]
        exact List.mem_append_left _ hr'
      refine (chain_set_of_ne ?_ hother).mpr (h.chain l')
      exact (ne_lastLink (fun heq => hl (Link.root.inj heq)) fun _ _ => nofun).symm
  · by_cases hl : l' = l
    · subst hl
      rw [Function.update_self]
      exact (List.nodup_cons.mp (List.nodup_middle.mp hnodup)).2
    · rw [Function.update_of_ne hl]
      exact h.nodup l'
  · refine h.disjoint l l' r ?_ hr'
    rw [hq]
    obtain hr | hr := List.mem_append.mp hr
    · exact List.mem_append_left _ hr
    · exact List.mem_append_right _ (List.mem_cons_of_mem _ hr)
  · unfold Fifo.unlink
    dsimp only
    rw [hnext, owner_lastLink]
    by_cases hl : l' = l
    · subst hl
      rw [Function.update_self]
      cases qs with
      | nil => rw [List.head?_nil, if_pos rfl, Function.update_self, List.append_nil]
      | cons r rs =>
        rw [if_neg (by simp), h.tail, hq, List.getLast?_append_cons, List.getLast?_append_cons,
          List.getLast?_cons_cons]
    · rw [Function.update_of_ne hl]
      split_ifs
      · rw [Function.update_of_ne hl]
        exact h.tail l'
      · exact h.tail l'

end Fifo

end PlanNine
