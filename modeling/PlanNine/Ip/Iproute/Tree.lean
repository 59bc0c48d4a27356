import PlanNine.Lib.Ternary

/-!
# Routing trees

The routes whose addresses have one hash are kept in a tree. A new route is put where its range
belongs; when it contains the range of a route that is there, it takes the place of that route, and
the subtree is queued and added again, as are the subtrees of a route that is deleted. On the way
back the tree is balanced.

## Main definitions

* `Route`: a route, with the number of times it was added and the interface it was found on.
* `rangecompare`, `addnode`, `walkadd`, `balancetree`, `looknode`: the operations on trees.
* `reinject`: the loop that empties the queue.
* `Holds`: the routes of a tree are those of a table.

## Main results

* `Holds.add`, `Holds.del`: a tree is changed as the table is, and the queue runs empty.
-/

namespace PlanNine.Iproute

def Rv4 : ℕ := 1 <<< 0
def Rifc : ℕ := 1 <<< 1

/-- What a route says beside its range: the gateway, the type, the tag and how often it was
added. -/
structure Attr where
  gate : List UInt8
  type : ℕ
  tag : List UInt8
  ref : ℤ
  deriving DecidableEq, Repr

/-- A route, with the interface that was found for it and the id the interface had then. -/
structure Route (α : Type*) [LinearOrder α] extends Attr where
  address : α
  endaddress : α
  le : address ≤ endaddress
  ifc : Option ℕ := none
  ifcid : ℕ := 0

variable {α : Type*} [LinearOrder α]

/-- The addresses of a route. -/
def Route.span (r : Route α) : NonemptyInterval α := ⟨(r.address, r.endaddress), r.le⟩

inductive RangeCompare where
  | Rpreceeds | Rfollows | Requals | Rcontains | Rcontained
  deriving DecidableEq, Repr

def rangecompare (a b : NonemptyInterval α) : RangeCompare :=
  if a.snd < b.fst then .Rpreceeds
  else if a.fst > b.snd then .Rfollows
  else if a.fst ≤ b.fst ∧ a.snd ≥ b.snd then
    if a.fst = b.fst ∧ a.snd = b.snd then .Requals else .Rcontains
  else .Rcontained

/-- `left`, `mid` and `right` of a `RouteTree`, with its `depth`. -/
abbrev Tree (α : Type*) [LinearOrder α] := Ternary (Route α)

/-- `depth` is an `uchar`. -/
def calcd : Tree α → Tree α
  | .nil => .nil
  | .node _ p l m r => .node ((max (max l.depth r.depth) m.depth + 1) % 256) p l m r

def balancetree : Tree α → Tree α
  | .nil => .nil
  | .node d p l m r =>
    if l.depth > r.depth + 1 then
      match l with
      | .nil => calcd (.node d p l m r)
      | .node dl pl ll lm lr => calcd (.node dl pl ll lm (calcd (.node d p lr m r)))
    else if r.depth > l.depth + 1 then
      match r with
      | .nil => calcd (.node d p l m r)
      | .node dr pr rl rm rr => calcd (.node dr pr (calcd (.node d p l m rl)) rm rr)
    else calcd (.node d p l m r)

/-- What becomes of a route when one with its range is added. The id -1 is that of no interface
yet. -/
def Route.supersede (p new : Route α) : Route α :=
  if p.type &&& Rifc = 0 then { p with type := new.type, ifcid := 255, gate := new.gate }
  else if new.type &&& Rifc ≠ 0 then { p with ref := p.ref + 1 }
  else p

/-- Add the route `new`, whose middle subtree is `mid`. Beside the tree, what is put on the
queue. -/
def addnode (new : Route α) (mid : Tree α) : Tree α → Tree α × List (Tree α)
  | .nil => (.node 1 new .nil mid .nil, [])
  | .node d p l m r =>
    match rangecompare new.span p.span with
    | .Rpreceeds =>
      let (l, q) := addnode new mid l
      (balancetree (.node d p l m r), q)
    | .Rfollows =>
      let (r, q) := addnode new mid r
      (balancetree (.node d p l m r), q)
    | .Rcontains => (balancetree (.node 1 new .nil mid .nil), [.node d p l m r])
    | .Requals => (balancetree (.node d (p.supersede new) l m r), [])
    | .Rcontained =>
      let (m, q) := addnode new mid m
      (balancetree (.node d p l m r), q)

/-- Add the nodes of a tree, each with its middle subtree. -/
def walkadd (root : Tree α) : Tree α → Tree α × List (Tree α)
  | .nil => (root, [])
  | .node _ p l m r =>
    let (root, q₁) := addnode p m root
    let (root, q₂) := walkadd root l
    let (root, q₃) := walkadd root r
    (root, q₃ ++ q₂ ++ q₁)

/-- Add what is queued, until the queue is empty. -/
def reinject : ℕ → Tree α → List (Tree α) → Option (Tree α)
  | _, root, [] => some root
  | 0, _, _ :: _ => none
  | fuel + 1, root, p :: queue =>
    let (root, q) := walkadd root p
    reinject fuel root (q ++ queue)

/-- Put a tree that is not empty on the queue. -/
def addqueue (q : List (Tree α)) : Tree α → List (Tree α)
  | .nil => q
  | r => r :: q

/-- The body of the loop of `v4addroute` and of `v6addroute`. -/
def addroute (fuel : ℕ) (new : Route α) (root : Tree α) : Option (Tree α) :=
  let (root, q) := addnode new .nil root
  reinject fuel root q

/-- The node with a range, and the store through the pointer to it. -/
def looknode (s : NonemptyInterval α) : Tree α → Option (Tree α × (Tree α → Tree α))
  | .nil => none
  | .node d p l m r =>
    match rangecompare s p.span with
    | .Rcontains => none
    | .Rpreceeds => (looknode s l).map fun cur => (cur.1, fun t => .node d p (cur.2 t) m r)
    | .Rfollows => (looknode s r).map fun cur => (cur.1, fun t => .node d p l m (cur.2 t))
    | .Rcontained => (looknode s m).map fun cur => (cur.1, fun t => .node d p l (cur.2 t) r)
    | .Requals => some (.node d p l m r, id)

/-- The body of the loop of `v4delroute` and of `v6delroute`. -/
def delroute (fuel : ℕ) (s : NonemptyInterval α) (root : Tree α) : Option (Tree α) :=
  match looknode s root with
  | some (.node d p l m r, store) =>
    if p.ref - 1 = 0 then
      reinject fuel (store .nil) (addqueue (addqueue (addqueue [] l) m) r)
    else some (store (.node d { p with ref := p.ref - 1 } l m r))
  | _ => some root

/-! ### Tables -/

/-- The routes that are known, by their ranges. -/
abbrev Table (α : Type*) [LinearOrder α] := NonemptyInterval α → Option Attr

/-- A route that is not of an interface is replaced, one of an interface is counted. -/
def Attr.supersede (old new : Attr) : Attr :=
  if old.type &&& Rifc = 0 then { old with type := new.type, gate := new.gate }
  else if new.type &&& Rifc ≠ 0 then { old with ref := old.ref + 1 }
  else old

def Table.add (s : NonemptyInterval α) (new : Attr) (T : Table α) : Table α :=
  Function.update T s (some (match T s with
    | some old => old.supersede new
    | none => new))

/-- A route is removed when it was deleted as often as it was added. -/
def Table.del (s : NonemptyInterval α) (T : Table α) : Table α :=
  Function.update T s (match T s with
    | some old => if old.ref - 1 = 0 then none else some { old with ref := old.ref - 1 }
    | none => none)

/-- The routes of a tree are those of a table. -/
structure Holds (t : Tree α) (T : Table α) : Prop where
  ordered : t.Ordered Route.span
  routes : ∀ s c, (∃ x ∈ t.bag, x.span = s ∧ x.toAttr = c) ↔ T s = some c

variable {t t' u u' p mid : Tree α} {new e : Route α} {s : NonemptyInterval α} {T : Table α}
  {q queue : List (Tree α)} {fuel : ℕ} {U : Set (NonemptyInterval α)}

/-! ### Ranges -/

/-- What the comparison says of ranges that are apart or contain each other. -/
theorem rangecompare_spec {a b : NonemptyInterval α} (h : Laminar a b) :
    rangecompare a b = .Rpreceeds ∧ Before a b ∨ rangecompare a b = .Rfollows ∧ Before b a ∨
      rangecompare a b = .Requals ∧ a = b ∨ rangecompare a b = .Rcontains ∧ b < a ∨
      rangecompare a b = .Rcontained ∧ a < b := by
  unfold rangecompare
  by_cases hbefore : a.snd < b.fst
  · exact .inl ⟨if_pos hbefore, hbefore⟩
  rw [if_neg hbefore]
  by_cases hbehind : a.fst > b.snd
  · exact .inr (.inl ⟨if_pos hbehind, hbehind⟩)
  rw [if_neg hbehind]
  by_cases hcontains : a.fst ≤ b.fst ∧ a.snd ≥ b.snd
  · rw [if_pos hcontains]
    by_cases heq : a.fst = b.fst ∧ a.snd = b.snd
    · exact .inr (.inr (.inl ⟨if_pos heq, NonemptyInterval.ext (Prod.ext heq.1 heq.2)⟩))
    · rw [if_neg heq]
      refine .inr (.inr (.inr (.inl ⟨rfl, lt_of_le_of_ne hcontains fun hab => heq ?_⟩)))
      rw [hab]
      exact ⟨rfl, rfl⟩
  · rw [if_neg hcontains]
    obtain h | h | h | h := h
    · exact absurd h hbefore
    · exact absurd h hbehind
    · exact .inr (.inr (.inr (.inr ⟨rfl, lt_of_le_not_ge h hcontains⟩)))
    · exact absurd h hcontains

/-! ### Balancing -/

theorem calcd_spec (h : t.Ordered Route.span) :
    (calcd t).Ordered Route.span ∧ (calcd t).bag = t.bag := by
  cases h with
  | nil => exact ⟨.nil, rfl⟩
  | node left mid right before within after =>
    exact ⟨.node left mid right before within after, rfl⟩

theorem balancetree_spec (h : t.Ordered Route.span) :
    (balancetree t).Ordered Route.span ∧ (balancetree t).bag = t.bag := by
  cases t with
  | nil => exact ⟨.nil, rfl⟩
  | node d p l m r =>
    unfold balancetree
    dsimp only
    split_ifs
    · cases l with
      | nil => exact calcd_spec h
      | node dl pl ll lm lr =>
        obtain ⟨hordered, hbag⟩ := calcd_spec (t := .node dl pl ll lm (calcd (.node d p lr m r)))
          h.rotate_right
        exact ⟨hordered, hbag.trans Ternary.bag_rotate_right⟩
    · cases r with
      | nil => exact calcd_spec h
      | node dr pr rl rm rr =>
        obtain ⟨hordered, hbag⟩ := calcd_spec (t := .node dr pr (calcd (.node d p l m rl)) rm rr)
          h.rotate_left
        exact ⟨hordered, hbag.trans Ternary.bag_rotate_left⟩
    · exact calcd_spec h

/-! ### Adding a route -/

theorem span_supersede (p new : Route α) : (p.supersede new).span = p.span := by
  unfold Route.supersede
  split_ifs <;> rfl

theorem toAttr_supersede (p new : Route α) :
    (p.supersede new).toAttr = p.toAttr.supersede new.toAttr := by
  unfold Route.supersede Attr.supersede
  split_ifs <;> rfl

/-- What comes of adding a route with its middle subtree: it is put in, or counted where one with
its range is, or it takes the place of a subtree. -/
inductive Added (new : Route α) (mid t t' : Tree α) (q : List (Tree α)) : Prop
  | fresh (hq : q = []) (hbag : t'.bag = new ::ₘ (mid.bag + t.bag))
  | equal (x : Route α) (rest : Multiset (Route α)) (hq : q = []) (hspan : x.span = new.span)
      (hbag : t.bag = x ::ₘ rest) (hbag' : t'.bag = x.supersede new ::ₘ rest)
  | covers (p : Tree α) (rest : Multiset (Route α)) (hq : q = [p]) (hsub : p.Sub t)
      (hroot : ∃ y ∈ p.bag, y.span ≤ new.span) (hnot : ∀ y ∈ p.bag, ¬ new.span ≤ y.span)
      (hbag : t.bag = p.bag + rest) (hbag' : t'.bag = new ::ₘ (mid.bag + rest))

theorem Added.span (h : Added new mid t t' q) (hin : ∀ x ∈ mid.bag, x.span < new.span) :
    ∀ x ∈ t'.bag, x.span ≤ new.span ∨ ∃ y ∈ t.bag, y.span = x.span := by
  intro x hx
  cases h with
  | fresh _ hbag =>
    rw [hbag, Multiset.mem_cons, Multiset.mem_add] at hx
    obtain rfl | hx | hx := hx
    · exact .inl le_rfl
    · exact .inl (hin x hx).le
    · exact .inr ⟨x, hx, rfl⟩
  | equal y rest _ _ hbag hbag' =>
    rw [hbag', Multiset.mem_cons] at hx
    rw [hbag]
    obtain rfl | hx := hx
    · exact .inr ⟨y, Multiset.mem_cons_self _ _, (span_supersede _ _).symm⟩
    · exact .inr ⟨x, Multiset.mem_cons_of_mem hx, rfl⟩
  | covers p rest _ _ _ _ hbag hbag' =>
    rw [hbag', Multiset.mem_cons, Multiset.mem_add] at hx
    rw [hbag]
    obtain rfl | hx | hx := hx
    · exact .inl le_rfl
    · exact .inl (hin x hx).le
    · exact .inr ⟨x, Multiset.mem_add.mpr (.inr hx), rfl⟩

/-- What holds of a subtree holds of a tree that has it. -/
theorem Added.lift {c : Multiset (Route α)} (h : Added new mid t t' q)
    (hsub : ∀ p : Tree α, p.Sub t → p.Sub u) (hu : u.bag = t.bag + c) (hu' : u'.bag = t'.bag + c) :
    Added new mid u u' q := by
  cases h with
  | fresh hq hbag =>
    refine .fresh hq ?_
    rw [hu', hbag, hu, Multiset.cons_add, add_assoc]
  | equal x rest hq hspan hbag hbag' =>
    refine .equal x (rest + c) hq hspan ?_ ?_
    · rw [hu, hbag, Multiset.cons_add]
    · rw [hu', hbag', Multiset.cons_add]
  | covers p rest hq hp hroot hnot hbag hbag' =>
    refine .covers p (rest + c) hq (hsub p hp) hroot hnot ?_ ?_
    · rw [hu, hbag, add_assoc]
    · rw [hu', hbag', Multiset.cons_add, add_assoc]

theorem addnode_spec (ht : t.Ordered Route.span) (hmid : mid.Ordered Route.span)
    (hin : ∀ x ∈ mid.bag, x.span < new.span) (hlam : ∀ x ∈ t.bag, Laminar new.span x.span) :
    (addnode new mid t).1.Ordered Route.span ∧
      Added new mid t (addnode new mid t).1 (addnode new mid t).2 := by
  have hleaf : (Ternary.node 1 new .nil mid .nil).Ordered Route.span :=
    .node .nil hmid .nil (fun x hx => absurd hx (Multiset.notMem_zero x)) hin
      fun x hx => absurd hx (Multiset.notMem_zero x)
  have hleafbag : (Ternary.node 1 new .nil mid .nil).bag = new ::ₘ mid.bag := by
    simp only [Ternary.bag_node, Ternary.bag_nil, zero_add, add_zero]
  induction ht with
  | nil =>
    refine ⟨hleaf, .fresh rfl ?_⟩
    exact hleafbag.trans (by rw [Ternary.bag_nil, add_zero])
  | @node d p l m r left middle right before within after ihl ihm ihr =>
    have hchildren : ∀ x, x ∈ l.bag ∨ x ∈ m.bag ∨ x ∈ r.bag → x ∈ (Ternary.node d p l m r).bag :=
      fun x hx => Ternary.mem_node.mpr (.inr hx)
    unfold addnode
    obtain ⟨hcmp, hspan⟩ | ⟨hcmp, hspan⟩ | ⟨hcmp, hspan⟩ | ⟨hcmp, hspan⟩ | ⟨hcmp, hspan⟩ :=
      rangecompare_spec (hlam p (Ternary.mem_node.mpr (.inl rfl)))
    all_goals
      rw [hcmp]
      dsimp only
    · obtain ⟨hordered, hadded⟩ := ihl fun x hx => hlam x (hchildren x (.inl hx))
      have hbefore : ∀ x ∈ (addnode new mid l).1.bag, Before x.span p.span := by
        intro x hx
        obtain hx | ⟨y, hy, heq⟩ := hadded.span hin x hx
        · exact hspan.of_le_left hx
        · exact heq ▸ before y hy
      obtain ⟨hbal, hbag⟩ := balancetree_spec (t := .node d p (addnode new mid l).1 m r)
        (.node hordered middle right hbefore within after)
      refine ⟨hbal, hadded.lift (c := p ::ₘ (m.bag + r.bag)) (fun _ h => h.left) ?_ ?_⟩
      · rw [Ternary.bag_node, Multiset.add_cons, add_assoc]
      · rw [hbag, Ternary.bag_node, Multiset.add_cons, add_assoc]
    · obtain ⟨hordered, hadded⟩ := ihr fun x hx => hlam x (hchildren x (.inr (.inr hx)))
      have hafter : ∀ x ∈ (addnode new mid r).1.bag, Before p.span x.span := by
        intro x hx
        obtain hx | ⟨y, hy, heq⟩ := hadded.span hin x hx
        · exact hspan.of_le_right hx
        · exact heq ▸ after y hy
      obtain ⟨hbal, hbag⟩ := balancetree_spec (t := .node d p l m (addnode new mid r).1)
        (.node left middle hordered before within hafter)
      refine ⟨hbal, hadded.lift (c := p ::ₘ (l.bag + m.bag)) (fun _ h => h.right) ?_ ?_⟩
      · rw [Ternary.bag_node, Multiset.add_cons, add_comm r.bag]
      · rw [hbag, Ternary.bag_node, Multiset.add_cons, add_comm (addnode new mid r).1.bag]
    · have hsup := span_supersede p new
      obtain ⟨hbal, hbag⟩ := balancetree_spec (t := .node d (p.supersede new) l m r)
        (.node left middle right (hsup ▸ before) (hsup ▸ within) (hsup ▸ after))
      exact ⟨hbal, .equal p _ rfl hspan.symm rfl hbag⟩
    · obtain ⟨hbal, hbag⟩ := balancetree_spec hleaf
      refine ⟨hbal, .covers _ 0 rfl .refl ⟨p, Ternary.mem_node.mpr (.inl rfl), hspan.le⟩ ?_
        (add_zero _).symm ?_⟩
      · intro y hy hle
        have hpy := hspan.trans_le hle
        obtain rfl | hy | hy | hy := Ternary.mem_node.mp hy
        · exact lt_irrefl _ hpy
        · exact (before y hy).not_ge hpy.le
        · exact lt_asymm hpy (within y hy)
        · exact (after y hy).not_le hpy.le
      · rw [hbag, hleafbag, add_zero]
    · obtain ⟨hordered, hadded⟩ := ihm fun x hx => hlam x (hchildren x (.inr (.inl hx)))
      have hwithin : ∀ x ∈ (addnode new mid m).1.bag, x.span < p.span := by
        intro x hx
        obtain hx | ⟨y, hy, heq⟩ := hadded.span hin x hx
        · exact hx.trans_lt hspan
        · exact heq ▸ within y hy
      obtain ⟨hbal, hbag⟩ := balancetree_spec (t := .node d p l (addnode new mid m).1 r)
        (.node left hordered right before hwithin after)
      refine ⟨hbal, hadded.lift (c := p ::ₘ (l.bag + r.bag)) (fun _ h => h.mid) ?_ ?_⟩
      · rw [Ternary.bag_node, Multiset.add_cons, add_comm l.bag, add_assoc]
      · rw [hbag, Ternary.bag_node, Multiset.add_cons, add_comm l.bag, add_assoc]

/-- A route that contains none of a tree is put in with its middle subtree. -/
theorem addnode_fresh (ht : t.Ordered Route.span) (hmid : mid.Ordered Route.span)
    (hin : ∀ x ∈ mid.bag, x.span < new.span) (hlam : ∀ x ∈ t.bag, Laminar new.span x.span)
    (hnot : ∀ x ∈ t.bag, ¬ x.span ≤ new.span) :
    ∃ t', addnode new mid t = (t', []) ∧ t'.Ordered Route.span ∧
      t'.bag = new ::ₘ (mid.bag + t.bag) := by
  obtain ⟨hordered, hadded⟩ := addnode_spec ht hmid hin hlam
  cases hadded with
  | fresh hq hbag => exact ⟨_, Prod.ext rfl hq, hordered, hbag⟩
  | equal x rest _ hspan hbag _ =>
    exact absurd hspan.le (hnot x (hbag ▸ Multiset.mem_cons_self x rest))
  | covers p rest _ hsub hroot _ _ _ =>
    obtain ⟨y, hy, hle⟩ := hroot
    exact absurd hle (hnot y (hsub.mem hy))

/-- The nodes of a tree that contain no route of another are all put in. -/
theorem walkadd_spec (hp : p.Ordered Route.span) (ht : t.Ordered Route.span)
    (hlam : ∀ y ∈ p.bag, ∀ x ∈ t.bag, Laminar y.span x.span)
    (hnot : ∀ y ∈ p.bag, ∀ x ∈ t.bag, ¬ x.span ≤ y.span) :
    ∃ t', walkadd t p = (t', []) ∧ t'.Ordered Route.span ∧ t'.bag = t.bag + p.bag := by
  induction hp generalizing t with
  | nil => exact ⟨t, rfl, ht, (add_zero _).symm⟩
  | @node d e l m r left middle right before within after ihl ihm ihr =>
    have hmem {x : Route α} (hx : x = e ∨ x ∈ l.bag ∨ x ∈ m.bag ∨ x ∈ r.bag) :
        x ∈ (Ternary.node d e l m r).bag := Ternary.mem_node.mpr hx
    obtain ⟨t₁, h₁, ht₁, hbag₁⟩ := addnode_fresh ht middle within (hlam e (hmem (.inl rfl)))
      (hnot e (hmem (.inl rfl)))
    -- what has been put in is apart from what is to the left and to the right
    have hleft : ∀ y ∈ l.bag, ∀ x ∈ t₁.bag, Laminar y.span x.span ∧ ¬ x.span ≤ y.span := by
      intro y hy x hx
      rw [hbag₁, Multiset.mem_cons, Multiset.mem_add] at hx
      obtain rfl | hx | hx := hx
      · exact ⟨.inl (before y hy), (before y hy).not_ge⟩
      · have hyx := (before y hy).of_le_right (within x hx).le
        exact ⟨.inl hyx, hyx.not_ge⟩
      · exact ⟨hlam y (hmem (.inr (.inl hy))) x hx, hnot y (hmem (.inr (.inl hy))) x hx⟩
    obtain ⟨t₂, h₂, ht₂, hbag₂⟩ := ihl ht₁ (fun y hy x hx => (hleft y hy x hx).1)
      fun y hy x hx => (hleft y hy x hx).2
    have hright : ∀ y ∈ r.bag, ∀ x ∈ t₂.bag, Laminar y.span x.span ∧ ¬ x.span ≤ y.span := by
      intro y hy x hx
      rw [hbag₂, hbag₁, Multiset.mem_add, Multiset.mem_cons, Multiset.mem_add] at hx
      obtain (rfl | hx | hx) | hx := hx
      · exact ⟨.inr (.inl (after y hy)), (after y hy).not_le⟩
      · have hxy := (after y hy).of_le_left (within x hx).le
        exact ⟨.inr (.inl hxy), hxy.not_le⟩
      · exact ⟨hlam y (hmem (.inr (.inr (.inr hy)))) x hx,
          hnot y (hmem (.inr (.inr (.inr hy)))) x hx⟩
      · have hxy := (before x hx).trans (after y hy)
        exact ⟨.inr (.inl hxy), hxy.not_le⟩
    obtain ⟨t₃, h₃, ht₃, hbag₃⟩ := ihr ht₂ (fun y hy x hx => (hright y hy x hx).1)
      fun y hy x hx => (hright y hy x hx).2
    refine ⟨t₃, ?_, ht₃, ?_⟩
    · unfold walkadd
      rw [h₁]
      dsimp only
      rw [h₂]
      dsimp only
      rw [h₃]
      rfl
    · rw [hbag₃, hbag₂, hbag₁, Ternary.bag_node, Multiset.cons_add, Multiset.cons_add,
        Multiset.add_cons]
      simp only [add_comm, add_left_comm, add_assoc]

/-- The queue runs empty, and all that was queued is put in. -/
theorem reinject_spec (fuel : ℕ) (ht : t.Ordered Route.span)
    (hq : ∀ p ∈ queue, p.Ordered Route.span)
    (hlam : ∀ p ∈ queue, ∀ y ∈ p.bag, ∀ x ∈ t.bag, Laminar y.span x.span)
    (hnot : ∀ p ∈ queue, ∀ y ∈ p.bag, ∀ x ∈ t.bag, ¬ x.span ≤ y.span)
    (hpair : queue.Pairwise fun p p' => ∀ y ∈ p'.bag, ∀ x ∈ p.bag,
      Laminar y.span x.span ∧ ¬ x.span ≤ y.span) (hfuel : queue.length ≤ fuel) :
    ∃ t', reinject fuel t queue = some t' ∧ t'.Ordered Route.span ∧
      t'.bag = t.bag + (queue.map Ternary.bag).sum := by
  induction queue generalizing fuel t with
  | nil =>
    refine ⟨t, ?_, ht, (add_zero _).symm⟩
    cases fuel <;> rfl
  | cons p queue ih =>
    obtain _ | fuel := fuel
    · exact absurd hfuel (Nat.not_succ_le_zero _)
    rw [List.forall_mem_cons] at hq hlam hnot
    obtain ⟨hfirst, hpair⟩ := List.pairwise_cons.mp hpair
    obtain ⟨t₁, h₁, ht₁, hbag₁⟩ := walkadd_spec hq.1 ht hlam.1 hnot.1
    have hnext : ∀ p' ∈ queue, ∀ y ∈ p'.bag, ∀ x ∈ t₁.bag,
        Laminar y.span x.span ∧ ¬ x.span ≤ y.span := by
      intro p' hp' y hy x hx
      rw [hbag₁, Multiset.mem_add] at hx
      obtain hx | hx := hx
      · exact ⟨hlam.2 p' hp' y hy x hx, hnot.2 p' hp' y hy x hx⟩
      · exact hfirst p' hp' y hy x hx
    obtain ⟨t', hrun, ht', hbag⟩ := ih _ ht₁ hq.2 (fun p' hp' y hy x hx => (hnext p' hp' y hy x hx).1)
      (fun p' hp' y hy x hx => (hnext p' hp' y hy x hx).2) hpair (Nat.le_of_succ_le_succ hfuel)
    refine ⟨t', ?_, ht', ?_⟩
    · unfold reinject
      rw [h₁]
      exact hrun
    · rw [hbag, hbag₁, List.map_cons, List.sum_cons, add_assoc]

/-! ### Looking for a range -/

/-- What comes of looking for a range: there is no node with it, or one that can be replaced by a
tree whose ranges it has. -/
inductive Found (s : NonemptyInterval α) (t : Tree α) : Option (Tree α × (Tree α → Tree α)) → Prop
  | none (hnot : ∀ x ∈ t.bag, x.span ≠ s) : Found s t none
  | some {d : ℕ} {e : Route α} {l m r : Tree α} {store : Tree α → Tree α} (hspan : e.span = s)
      (hsub : (Ternary.node d e l m r).Sub t)
      (hstore : ∀ u : Tree α, u.Ordered Route.span →
        (∀ y ∈ u.bag, ∃ x ∈ (Ternary.node d e l m r).bag, x.span = y.span) →
        (store u).Ordered Route.span ∧
          (store u).bag + (Ternary.node d e l m r).bag = u.bag + t.bag) :
      Found s t (some (.node d e l m r, store))

/-- The ranges of what replaces a subtree are ranges of the tree. -/
theorem span_of_store {v : Tree α} (hv : v.Sub t)
    (hu : ∀ y ∈ u.bag, ∃ x ∈ v.bag, x.span = y.span) (hbag : u'.bag + v.bag = u.bag + t.bag) :
    ∀ x ∈ u'.bag, ∃ y ∈ t.bag, y.span = x.span := by
  intro x hx
  obtain hx | hx := Multiset.mem_add.mp (hbag ▸ Multiset.mem_add.mpr (.inl hx))
  · obtain ⟨y, hy, heq⟩ := hu x hx
    exact ⟨y, hv.mem hy, heq⟩
  · exact ⟨x, hx, rfl⟩

theorem bag_of_store {v : Tree α} (hbag : u'.bag + v.bag = u.bag + t.bag)
    (c : Multiset (Route α)) {a b : Multiset (Route α)} (ha : a = u'.bag + c) (hb : b = t.bag + c) :
    e ::ₘ a + v.bag = u.bag + e ::ₘ b := by
  rw [ha, hb, ← Multiset.singleton_add, ← Multiset.singleton_add]
  calc {e} + (u'.bag + c) + v.bag = {e} + (u'.bag + v.bag) + c := by abel
    _ = u.bag + ({e} + (t.bag + c)) := by
      rw [hbag]
      abel

theorem looknode_spec (ht : t.Ordered Route.span) (hlam : ∀ x ∈ t.bag, Laminar s x.span) :
    Found s t (looknode s t) := by
  induction ht with
  | nil => exact .none fun x hx => absurd hx (Multiset.notMem_zero x)
  | @node d e l m r left middle right before within after ihl ihm ihr =>
    have hmem {x : Route α} (hx : x = e ∨ x ∈ l.bag ∨ x ∈ m.bag ∨ x ∈ r.bag) :
        x ∈ (Ternary.node d e l m r).bag := Ternary.mem_node.mpr hx
    unfold looknode
    obtain ⟨hcmp, hspan⟩ | ⟨hcmp, hspan⟩ | ⟨hcmp, hspan⟩ | ⟨hcmp, hspan⟩ | ⟨hcmp, hspan⟩ :=
      rangecompare_spec (hlam e (hmem (.inl rfl)))
    all_goals
      rw [hcmp]
      dsimp only
    · have hfound := ihl fun x hx => hlam x (hmem (.inr (.inl hx)))
      generalize looknode s l = cur at hfound ⊢
      cases hfound with
      | none hnot =>
        refine .none fun x hx heq => ?_
        obtain rfl | hx | hx | hx := Ternary.mem_node.mp hx
        · exact hspan.not_ge heq.le
        · exact hnot x hx heq
        · exact (hspan.of_le_right (within x hx).le).not_ge heq.le
        · exact (hspan.trans (after x hx)).not_ge heq.le
      | some hs hsub hstore =>
        refine .some hs hsub.left fun u hu huspan => ?_
        obtain ⟨hordered, hbag⟩ := hstore u hu huspan
        refine ⟨.node hordered middle right (fun x hx => ?_) within after, ?_⟩
        · obtain ⟨y, hy, heq⟩ := span_of_store hsub huspan hbag x hx
          exact heq ▸ before y hy
        · exact bag_of_store hbag (m.bag + r.bag) (add_assoc _ _ _) (add_assoc _ _ _)
    · have hfound := ihr fun x hx => hlam x (hmem (.inr (.inr (.inr hx))))
      generalize looknode s r = cur at hfound ⊢
      cases hfound with
      | none hnot =>
        refine .none fun x hx heq => ?_
        obtain rfl | hx | hx | hx := Ternary.mem_node.mp hx
        · exact hspan.not_le heq.le
        · exact ((before x hx).trans hspan).not_le heq.le
        · exact (hspan.of_le_left (within x hx).le).not_le heq.le
        · exact hnot x hx heq
      | some hs hsub hstore =>
        refine .some hs hsub.right fun u hu huspan => ?_
        obtain ⟨hordered, hbag⟩ := hstore u hu huspan
        refine ⟨.node left middle hordered before within fun x hx => ?_, ?_⟩
        · obtain ⟨y, hy, heq⟩ := span_of_store hsub huspan hbag x hx
          exact heq ▸ after y hy
        · exact bag_of_store hbag (l.bag + m.bag) (add_comm _ _) (add_comm _ _)
    · refine .some hspan.symm .refl fun u hu huspan => ⟨hu, rfl⟩
    · refine .none fun x hx heq => ?_
      obtain rfl | hx | hx | hx := Ternary.mem_node.mp hx
      · exact hspan.ne heq
      · exact (before x hx).not_ge (hspan.le.trans heq.ge)
      · exact lt_asymm hspan (heq ▸ within x hx)
      · exact (after x hx).not_le (hspan.le.trans heq.ge)
    · have hfound := ihm fun x hx => hlam x (hmem (.inr (.inr (.inl hx))))
      generalize looknode s m = cur at hfound ⊢
      cases hfound with
      | none hnot =>
        refine .none fun x hx heq => ?_
        obtain rfl | hx | hx | hx := Ternary.mem_node.mp hx
        · exact hspan.ne' heq
        · exact (before x hx).not_le (heq.le.trans hspan.le)
        · exact hnot x hx heq
        · exact (after x hx).not_ge (heq.le.trans hspan.le)
      | some hs hsub hstore =>
        refine .some hs hsub.mid fun u hu huspan => ?_
        obtain ⟨hordered, hbag⟩ := hstore u hu huspan
        refine ⟨.node left hordered right before (fun x hx => ?_) after, ?_⟩
        · obtain ⟨y, hy, heq⟩ := span_of_store hsub huspan hbag x hx
          exact heq ▸ within y hy
        · refine bag_of_store hbag (l.bag + r.bag) ?_ ?_
          · rw [add_comm l.bag, add_assoc]
          · rw [add_comm l.bag, add_assoc]

/-! ### Tables -/

/-- The table of a tree to which a route with a new range is added. -/
theorem Holds.cons (h : Holds t T) (ht' : t'.Ordered Route.span) (hbag : t'.bag = new ::ₘ t.bag) :
    Holds t' (T.add new.span new.toAttr) := by
  have hnodup := ht'.nodup
  rw [hbag, Multiset.map_cons, Multiset.nodup_cons] at hnodup
  have hnone : T new.span = none := by
    refine Option.eq_none_iff_forall_ne_some.mpr fun c hc => hnodup.1 ?_
    obtain ⟨x, hx, hspan, -⟩ := (h.routes _ _).mpr hc
    exact Multiset.mem_map.mpr ⟨x, hx, hspan⟩
  refine ⟨ht', fun s c => ?_⟩
  unfold Table.add
  rw [hnone, hbag]
  by_cases hs : s = new.span
  · rw [hs, Function.update_self, Option.some_inj]
    constructor
    · rintro ⟨x, hx, hspan, rfl⟩
      obtain rfl | hx := Multiset.mem_cons.mp hx
      · rfl
      · exact absurd (Multiset.mem_map.mpr ⟨x, hx, hspan⟩) hnodup.1
    · rintro rfl
      exact ⟨new, Multiset.mem_cons_self _ _, rfl, rfl⟩
  · rw [Function.update_of_ne hs, ← h.routes]
    constructor
    · rintro ⟨x, hx, hspan, hc⟩
      obtain rfl | hx := Multiset.mem_cons.mp hx
      · exact absurd hspan.symm hs
      · exact ⟨x, hx, hspan, hc⟩
    · rintro ⟨x, hx, hspan, hc⟩
      exact ⟨x, Multiset.mem_cons_of_mem hx, hspan, hc⟩

/-- The table of a tree in which a route is changed, or from which it is taken. -/
theorem Holds.change {rest : Multiset (Route α)} (h : Holds t T) (ht' : t'.Ordered Route.span)
    (hbag : t.bag = e ::ₘ rest) {v : Option (Route α)} (hv : ∀ x ∈ v, x.span = e.span)
    (hbag' : t'.bag = v.elim rest (· ::ₘ rest)) :
    Holds t' (Function.update T e.span (v.map Route.toAttr)) := by
  have hnodup := h.ordered.nodup
  rw [hbag, Multiset.map_cons, Multiset.nodup_cons] at hnodup
  have hrest {x : Route α} (hx : x ∈ rest) : x.span ≠ e.span := fun heq =>
    hnodup.1 (Multiset.mem_map.mpr ⟨x, hx, heq⟩)
  have hmem {x : Route α} : x ∈ t'.bag ↔ x ∈ v ∨ x ∈ rest := by
    rw [hbag']
    cases v with
    | none => exact ⟨.inr, fun h => h.resolve_left (Option.not_mem_none x)⟩
    | some y =>
      rw [Option.mem_some, eq_comm]
      exact Multiset.mem_cons
  refine ⟨ht', fun s c => ?_⟩
  by_cases hs : s = e.span
  · rw [hs, Function.update_self, Option.map_eq_some_iff]
    constructor
    · rintro ⟨x, hx, hspan, hc⟩
      obtain hx | hx := hmem.mp hx
      · exact ⟨x, hx, hc⟩
      · exact absurd hspan (hrest hx)
    · rintro ⟨x, hx, hc⟩
      exact ⟨x, hmem.mpr (.inl hx), hv x hx, hc⟩
  · rw [Function.update_of_ne hs, ← h.routes, hbag]
    constructor
    · rintro ⟨x, hx, hspan, hc⟩
      obtain hx | hx := hmem.mp hx
      · exact absurd ((hspan.symm.trans (hv x hx))) hs
      · exact ⟨x, Multiset.mem_cons_of_mem hx, hspan, hc⟩
    · rintro ⟨x, hx, hspan, hc⟩
      obtain rfl | hx := Multiset.mem_cons.mp hx
      · exact absurd hspan.symm hs
      · exact ⟨x, hmem.mpr (.inr hx), hspan, hc⟩

theorem Holds.eq_some (h : Holds t T) (hx : e ∈ t.bag) : T e.span = some e.toAttr :=
  (h.routes _ _).mp ⟨e, hx, rfl, rfl⟩

/-- A route is added to a tree as it is to the table. -/
theorem Holds.add (hU : ∀ s ∈ U, ∀ s' ∈ U, Laminar s s') (hT : ∀ s c, T s = some c → s ∈ U)
    (h : Holds t T) (hnew : new.span ∈ U) (hfuel : 0 < fuel) :
    ∃ t', addroute fuel new t = some t' ∧ Holds t' (T.add new.span new.toAttr) := by
  have hspans (x : Route α) (hx : x ∈ t.bag) : x.span ∈ U := hT _ _ (h.eq_some hx)
  obtain ⟨hordered, hadded⟩ := addnode_spec h.ordered .nil
    (fun x hx => absurd hx (Multiset.notMem_zero x)) fun x hx => hU _ hnew _ (hspans x hx)
  unfold addroute
  dsimp only
  cases hadded with
  | fresh hq hbag =>
    rw [hq]
    rw [Ternary.bag_nil, zero_add] at hbag
    refine ⟨_, ?_, h.cons hordered hbag⟩
    cases fuel <;> rfl
  | equal x rest hq hspan hbag hbag' =>
    rw [hq]
    refine ⟨(addnode new .nil t).1, ?_, ?_⟩
    · cases fuel <;> rfl
    · have hchange := h.change hordered hbag (v := some (x.supersede new)) (fun y hy => by
        rw [← Option.some.inj hy]
        exact span_supersede x new) hbag'
      rw [Option.map_some, toAttr_supersede] at hchange
      unfold Table.add
      rw [← hspan, h.eq_some (hbag ▸ Multiset.mem_cons_self x rest)]
      exact hchange
  | covers p rest hq hsub hroot hnot hbag hbag' =>
    obtain ⟨rest', hbag'', hrest⟩ := h.ordered.not_le_of_sub hsub
    obtain rfl : rest = rest' := add_left_cancel (hbag.symm.trans hbag'')
    have hone : ∀ p' ∈ [p], ∀ y ∈ p'.bag, ∀ x ∈ (addnode new .nil t).1.bag,
        Laminar y.span x.span ∧ ¬ x.span ≤ y.span := by
      intro p' hp' y hy x hx
      rw [List.mem_singleton.mp hp'] at hy
      rw [hbag', Ternary.bag_nil, zero_add, Multiset.mem_cons] at hx
      have hyU := hspans y (hsub.mem hy)
      obtain rfl | hx := hx
      · exact ⟨hU _ hyU _ hnew, hnot y hy⟩
      · exact ⟨hU _ hyU _ (hspans x (hbag ▸ Multiset.mem_add.mpr (.inr hx))), hrest x hx y hy⟩
    obtain ⟨t', hrun, ht', hbag₁⟩ := reinject_spec fuel hordered
      (fun p' hp' => List.mem_singleton.mp hp' ▸ hsub.ordered h.ordered)
      (fun p' hp' y hy x hx => (hone p' hp' y hy x hx).1)
      (fun p' hp' y hy x hx => (hone p' hp' y hy x hx).2) (List.pairwise_singleton _ _) hfuel
    rw [hq]
    refine ⟨t', hrun, h.cons ht' ?_⟩
    rw [hbag₁, hbag', hbag, List.map_singleton, List.sum_singleton, Ternary.bag_nil, zero_add,
      Multiset.cons_add, add_comm]

theorem sum_addqueue (q : List (Tree α)) (t : Tree α) :
    ((addqueue q t).map Ternary.bag).sum = t.bag + (q.map Ternary.bag).sum := by
  cases t with
  | nil => exact (zero_add _).symm
  | node => exact List.sum_cons

theorem length_addqueue (q : List (Tree α)) (t : Tree α) :
    (addqueue q t).length ≤ q.length + 1 := by
  cases t with
  | nil => exact Nat.le_succ _
  | node => exact le_rfl

theorem mem_addqueue (h : p ∈ addqueue q t) : p = t ∨ p ∈ q := by
  cases t with
  | nil => exact .inr h
  | node => exact List.mem_cons.mp h

theorem pairwise_addqueue {R : Tree α → Tree α → Prop} (h : q.Pairwise R) (ht : ∀ p ∈ q, R t p) :
    (addqueue q t).Pairwise R := by
  cases t with
  | nil => exact h
  | node => exact List.pairwise_cons.mpr ⟨ht, h⟩

/-- A route is deleted from a tree as it is from the table. -/
theorem Holds.del (hU : ∀ s ∈ U, ∀ s' ∈ U, Laminar s s') (hT : ∀ s c, T s = some c → s ∈ U)
    (h : Holds t T) (hs : s ∈ U) (hfuel : 3 ≤ fuel) :
    ∃ t', delroute fuel s t = some t' ∧ Holds t' (T.del s) := by
  have hspans (x : Route α) (hx : x ∈ t.bag) : x.span ∈ U := hT _ _ (h.eq_some hx)
  have hfound := looknode_spec h.ordered fun x hx => hU _ hs _ (hspans x hx)
  unfold delroute
  generalize looknode s t = cur at hfound ⊢
  cases hfound with
  | none hnot =>
    have hnone : T s = none := Option.eq_none_iff_forall_ne_some.mpr fun c hc => by
      obtain ⟨x, hx, hspan, -⟩ := (h.routes _ _).mpr hc
      exact hnot x hx hspan
    have hsame : T.del s = T := by
      unfold Table.del
      rw [hnone]
      exact Function.update_eq_self_iff.mpr hnone.symm
    refine ⟨t, rfl, ?_⟩
    rw [hsame]
    exact h
  | @some d e l m r store hspan hsub hstore =>
    have hmem {x : Route α} (hx : x = e ∨ x ∈ l.bag ∨ x ∈ m.bag ∨ x ∈ r.bag) : x ∈ t.bag :=
      hsub.mem (Ternary.mem_node.mpr hx)
    have hsome : T s = some e.toAttr := hspan ▸ h.eq_some (hmem (.inl rfl))
    have hnode := hsub.ordered h.ordered
    unfold Table.del
    rw [hsome, ← hspan]
    dsimp only
    by_cases hlast : e.ref - 1 = 0
    · rw [if_pos hlast, if_pos hlast]
      obtain ⟨hordered, hbag⟩ := hstore .nil .nil fun y hy => absurd hy (Multiset.notMem_zero y)
      rw [Ternary.bag_nil, zero_add] at hbag
      obtain ⟨rest, hrest, hnot⟩ := h.ordered.not_le_of_sub hsub
      obtain rfl : (store .nil).bag = rest := by
        rw [← hbag, add_comm] at hrest
        exact add_left_cancel hrest
      have hqueue : ∀ p ∈ addqueue (addqueue (addqueue [] l) m) r, p = r ∨ p = m ∨ p = l := by
        intro p hp
        obtain hp | hp := mem_addqueue hp
        · exact .inl hp
        obtain hp | hp := mem_addqueue hp
        · exact .inr (.inl hp)
        obtain hp | hp := mem_addqueue hp
        · exact .inr (.inr hp)
        · exact absurd hp List.not_mem_nil
      have hin : ∀ p ∈ addqueue (addqueue (addqueue [] l) m) r, ∀ y ∈ p.bag,
          y ∈ (Ternary.node d e l m r).bag := by
        intro p hp y hy
        obtain rfl | rfl | rfl := hqueue p hp
        · exact Ternary.mem_node.mpr (.inr (.inr (.inr hy)))
        · exact Ternary.mem_node.mpr (.inr (.inr (.inl hy)))
        · exact Ternary.mem_node.mpr (.inr (.inl hy))
      cases hnode with
      | node left middle right before within after =>
        have hmr : ∀ y ∈ m.bag, ∀ x ∈ r.bag, Laminar y.span x.span ∧ ¬ x.span ≤ y.span := by
          intro y hy x hx
          have hyx := (after x hx).of_le_left (within y hy).le
          exact ⟨.inl hyx, hyx.not_ge⟩
        have hlr : ∀ y ∈ l.bag, ∀ x ∈ r.bag, Laminar y.span x.span ∧ ¬ x.span ≤ y.span := by
          intro y hy x hx
          have hyx := (before y hy).trans (after x hx)
          exact ⟨.inl hyx, hyx.not_ge⟩
        have hlm : ∀ y ∈ l.bag, ∀ x ∈ m.bag, Laminar y.span x.span ∧ ¬ x.span ≤ y.span := by
          intro y hy x hx
          have hyx := (before y hy).of_le_right (within x hx).le
          exact ⟨.inl hyx, hyx.not_ge⟩
        have hpair : (addqueue (addqueue (addqueue [] l) m) r).Pairwise fun p p' => ∀ y ∈ p'.bag,
            ∀ x ∈ p.bag, Laminar y.span x.span ∧ ¬ x.span ≤ y.span := by
          refine pairwise_addqueue (pairwise_addqueue (pairwise_addqueue .nil ?_) ?_) ?_
          · exact fun p hp => absurd hp List.not_mem_nil
          · intro p hp
            obtain rfl | hp := mem_addqueue hp
            · exact hlm
            · exact absurd hp List.not_mem_nil
          · intro p hp
            obtain rfl | hp := mem_addqueue hp
            · exact hmr
            obtain rfl | hp := mem_addqueue hp
            · exact hlr
            · exact absurd hp List.not_mem_nil
        have hlen : (addqueue (addqueue (addqueue [] l) m) r).length ≤ 3 := by
          have h1 := length_addqueue (addqueue (addqueue [] l) m) r
          have h2 := length_addqueue (addqueue [] l) m
          have h3 := length_addqueue [] l
          rw [List.length_nil] at h3
          omega
        obtain ⟨t', hrun, ht', hbag'⟩ := reinject_spec fuel hordered (fun p hp => by
            obtain rfl | rfl | rfl := hqueue p hp
            · exact right
            · exact middle
            · exact left)
          (fun p hp y hy x hx => hU _ (hspans y (hsub.mem (hin p hp y hy))) _
            (hspans x (hrest ▸ Multiset.mem_add.mpr (.inr hx))))
          (fun p hp y hy x hx => hnot x hx y (hin p hp y hy)) hpair (hlen.trans hfuel)
        refine ⟨t', hrun, h.change (v := none) ht' ?_
          (fun x hx => absurd hx (Option.not_mem_none x)) hbag'⟩
        rw [hrest, sum_addqueue, sum_addqueue, sum_addqueue, Ternary.bag_node, List.map_nil,
          List.sum_nil, Multiset.cons_add]
        congr 1
        abel
    · rw [if_neg hlast, if_neg hlast]
      obtain ⟨hordered, hbag⟩ := hstore (.node d { e with ref := e.ref - 1 } l m r) (by
          cases hnode with
          | node left middle right before within after =>
            exact .node left middle right before within after) fun y hy => by
        obtain rfl | hy := Ternary.mem_node.mp hy
        · exact ⟨e, Ternary.mem_node.mpr (.inl rfl), rfl⟩
        · exact ⟨y, Ternary.mem_node.mpr (.inr hy), rfl⟩
      obtain ⟨rest, hrest⟩ : ∃ rest, t.bag = e ::ₘ rest :=
        Multiset.exists_cons_of_mem (hmem (.inl rfl))
      refine ⟨_, rfl, h.change hordered hrest (v := some { e with ref := e.ref - 1 })
        (fun x hx => Option.some.inj hx ▸ rfl) ?_⟩
      rw [hrest, Ternary.bag_node, Ternary.bag_node] at hbag
      refine add_right_cancel (hbag.trans ?_)
      show _ ::ₘ _ + e ::ₘ rest = _ ::ₘ rest + e ::ₘ _
      rw [Multiset.cons_add, Multiset.cons_add, Multiset.add_cons, Multiset.add_cons, add_comm rest]

/-- The walk finds the smallest range around an address. -/
theorem Holds.find (h : Holds t T) (a : α) :
    (t.find Route.span a = none ∧ ∀ s c, T s = some c → a ∉ s) ∨
      ∃ e, t.find Route.span a = some e ∧ T e.span = some e.toAttr ∧ a ∈ e.span ∧
        ∀ s c, T s = some c → a ∈ s → e.span ≤ s := by
  obtain ⟨hnone, hnot⟩ | ⟨e, hsome, he, ha, hmin⟩ := h.ordered.find_spec a
  · refine .inl ⟨hnone, fun s c hc => ?_⟩
    obtain ⟨x, hx, rfl, -⟩ := (h.routes _ _).mpr hc
    exact hnot x hx
  · refine .inr ⟨e, hsome, h.eq_some he, ha, fun s c hc => ?_⟩
    obtain ⟨x, hx, rfl, -⟩ := (h.routes _ _).mpr hc
    exact hmin x hx

end PlanNine.Iproute
