import PlanNine.Ip.Iproute.Tree

/-!
# Routing forests

A table of trees, one for each hash of an address. A route is in all trees from the hash of its
first address to that of its last one. An address is looked for in the tree of its hash; the
interface found for the route is kept in it, and a conversation keeps the route until the routes
change. To flush the routes with a tag, one after the other is looked for and deleted.

## Main definitions

* `addroutes`, `delroutes`, `lookup`, `flushroutes`, `walkroutes`: the operations on the trees.
* `Rcache`: the route that a conversation keeps.
* `Grows`: the trees of a table have the routes that are known.
* `Hashed`: ranges that are apart or contain each other, with hashes in order.

## Main results

* `Grows.add`, `Grows.del`, `Grows.flush`: the trees follow the routes that are known.
* `Grows.lookup`: a lookup gives the route with the smallest range.
* `Grows.walk`: each route that is known is listed once.
-/

namespace PlanNine.Iproute

variable {α : Type*} [LinearOrder α]

/-- The trees, by hash. -/
abbrev Forest (α : Type*) [LinearOrder α] := ℕ → Tree α

/-- The trees, and the generation of their routes. -/
structure Routes (α : Type*) [LinearOrder α] where
  root : Forest α
  generation : BitVec 32

/-- Do something to the trees with the hashes from `lo` to `hi`. -/
def everytree (f : Tree α → Option (Tree α)) (lo hi : ℕ) (root : Forest α) : Option (Forest α) :=
  (List.range' lo (hi + 1 - lo)).foldlM
    (fun root h => (f (root h)).map (Function.update root h)) root

def addroutes (fuel : ℕ) (hash : α → ℕ) (new : Route α) (f : Routes α) : Option (Routes α) :=
  (everytree (addroute fuel new) (hash new.address) (hash new.endaddress) f.root).map
    fun root => ⟨root, f.generation + 1⟩

def delroutes (fuel : ℕ) (hash : α → ℕ) (s : NonemptyInterval α) (f : Routes α) :
    Option (Routes α) :=
  (everytree (delroute fuel s) (hash s.fst) (hash s.snd) f.root).map
    fun root => ⟨root, f.generation + 1⟩

/-- What is known of the interfaces: the id of each, and the one for a gateway and a type. -/
structure Ifcs where
  ifcid : ℕ → ℕ
  findipifc : List UInt8 → ℕ → Option ℕ

/-- The walk of a lookup. -/
def lookwalk (a : α) : Option (Route α) → Tree α → Option (Route α)
  | q, .nil => q
  | q, .node _ p l m r =>
    if p.address ≤ a then
      if a ≤ p.endaddress then lookwalk a (some p) m else lookwalk a q r
    else lookwalk a q l

/-- A store to the route that the walk finds. -/
def storeroute (a : α) (f : Route α → Route α) : Tree α → Tree α
  | .nil => .nil
  | .node d p l m r =>
    if p.address ≤ a then
      if a ≤ p.endaddress then
        if (lookwalk a none m).isSome then .node d p l (storeroute a f m) r else .node d (f p) l m r
      else .node d p l m (storeroute a f r)
    else .node d p (storeroute a f l) m r

/-- The route for an address if there is one, unless no interface is found for it. `gate` is what
the interface is looked for by. -/
def lookroute (ifcs : Ifcs) (gate : Route α → List UInt8) (a : α) (root : Tree α) :
    Option (Option (Route α)) × Tree α :=
  match lookwalk a none root with
  | none => (some none, root)
  | some q =>
    if q.ifc.all fun i => decide (q.ifcid ≠ ifcs.ifcid i) then
      match ifcs.findipifc (gate q) q.type with
      | none => (none, root)
      | some i =>
        let q' (q : Route α) : Route α := { q with ifc := some i, ifcid := ifcs.ifcid i }
        (some (some (q' q)), storeroute a q' root)
    else (some (some q), root)

/-- `r` and `rgen` of a conversation. The route is known by its tree and its range. -/
structure Rcache (α : Type*) [LinearOrder α] where
  r : Option (ℕ × NonemptyInterval α) := none
  rgen : BitVec 32 := 0

/-- The route at a node. -/
def atnode : Tree α → Option (Route α)
  | .nil => none
  | .node _ p _ _ _ => some p

/-- The route that a conversation has kept, if it still counts. -/
def cached (f : Routes α) (c : Rcache α) : Option (Route α) :=
  c.r.bind fun p => ((looknode p.2 (f.root p.1)).bind fun cur => atnode cur.1).filter fun r =>
    r.ifc.isSome ∧ c.rgen = f.generation

/-- The body of `v4lookup` and of `v6lookup`, for a conversation if there is one. -/
def lookup (hash : α → ℕ) (gate : Route α → List UInt8) (ifcs : Ifcs) (a : α)
    (c : Option (Rcache α)) (f : Routes α) : Option (Route α) × Option (Rcache α) × Routes α :=
  match c.bind (cached f) with
  | some r => (some r, c, f)
  | none =>
    let (q, t) := lookroute ifcs gate a (f.root (hash a))
    let f := { f with root := Function.update f.root (hash a) t }
    match q with
    | none => (none, c, f)
    | some q => (q, c.map fun _ => ⟨q.map fun q => (hash a, q.span), f.generation⟩, f)

/-- `strncmp(tag, r->tag, sizeof(r->tag)) == 0`. -/
def sametag : ℕ → List UInt8 → List UInt8 → Bool
  | 0, _, _ => true
  | n + 1, s, t =>
    if s.headD 0 ≠ t.headD 0 then false
    else if s.headD 0 = 0 then true
    else sametag n s.tail t.tail

/-- A route that is flushed: one that is not of an interface, with the tag if there is one. -/
def Attr.Flushed (tag : Option (List UInt8)) (c : Attr) : Prop :=
  c.type &&& Rifc = 0 ∧ tag.all fun t => sametag 4 t c.tag

instance (tag : Option (List UInt8)) (c : Attr) : Decidable (c.Flushed tag) :=
  inferInstanceAs (Decidable (_ ∧ _))

/-- The route that `routeflush` deletes in a tree. -/
def routeflush (tag : Option (List UInt8)) : Tree α → Option (Route α)
  | .nil => none
  | .node _ p l m r =>
    (routeflush tag m).or ((routeflush tag l).or ((routeflush tag r).or
      (if p.Flushed tag then some p else none)))

/-- Delete the routes of a tree that are flushed, until there are none. `rangeof` is the range that
is deleted for a route. -/
def flushtree (fuel : ℕ) (hash : α → ℕ) (rangeof : Route α → NonemptyInterval α)
    (tag : Option (List UInt8)) (h : ℕ) : ℕ → Routes α → Option (Routes α)
  | 0, _ => none
  | n + 1, f =>
    match routeflush tag (f.root h) with
    | none => some f
    | some r => (delroutes fuel hash (rangeof r) f).bind (flushtree fuel hash rangeof tag h n)

/-- `n` is the number of trees. -/
def flushroutes (fuel : ℕ) (hash : α → ℕ) (rangeof : Route α → NonemptyInterval α)
    (tag : Option (List UInt8)) (n : ℕ) (f : Routes α) : Option (Routes α) :=
  (List.range n).foldlM (fun f h => flushtree fuel hash rangeof tag h fuel f) f

/-- The routes of a tree with a hash, in the order in which they are walked. -/
def rr (hash : α → ℕ) (h : ℕ) : Tree α → List (Route α)
  | .nil => []
  | .node _ p l m r =>
    rr hash h l ++ (if hash p.address = h then [p] else []) ++ rr hash h m ++ rr hash h r

def walkroutes (hash : α → ℕ) (n : ℕ) (root : Forest α) : List (Route α) :=
  (List.range n).flatMap fun h => rr hash h (root h)

/-- The ranges are apart or contain each other, and the hash of an address lies between those of the
ends of its ranges. -/
structure Hashed (hash : α → ℕ) (U : Set (NonemptyInterval α)) : Prop where
  laminar : ∀ s ∈ U, ∀ s' ∈ U, Laminar s s'
  hash : ∀ s ∈ U, ∀ a ∈ s, hash s.fst ≤ hash a ∧ hash a ≤ hash s.snd

/-- The routes that are in the tree with a hash. -/
def Table.within (hash : α → ℕ) (h : ℕ) (T : Table α) : Table α :=
  fun s => if hash s.fst ≤ h ∧ h ≤ hash s.snd then T s else none

/-- The ranges are in the family, and a route that is not of an interface counts as added once. -/
structure Table.Good (U : Set (NonemptyInterval α)) (T : Table α) : Prop where
  mem : ∀ s c, T s = some c → s ∈ U
  ref : ∀ s c, T s = some c → c.type &&& Rifc = 0 → c.ref = 1

/-- The trees have the routes that are known. -/
def Grows (hash : α → ℕ) (root : Forest α) (T : Table α) : Prop :=
  ∀ h, Holds (root h) (T.within hash h)

/-- The route with the smallest range around an address. -/
structure Longest (T : Table α) (a : α) (e : Route α) : Prop where
  live : T e.span = some e.toAttr
  mem : a ∈ e.span
  smallest : ∀ s c, T s = some c → a ∈ s → e.span ≤ s

/-- A lookup says that there is no route for an address: none is known, or no interface is found for
the one that is. -/
def Unrouted (ifcs : Ifcs) (gate : Route α → List UInt8) (T : Table α) (a : α) : Prop :=
  (∀ s c, T s = some c → a ∉ s) ∨ ∃ e, Longest T a e ∧ ifcs.findipifc (gate e) e.type = none

/-- The route that a conversation keeps is the one for its address, if the routes have not changed
since. `k` is how often they have. -/
def Rcache.Kept (hash : α → ℕ) (a : α) (T : Table α) (k : ℕ) (c : Rcache α) : Prop :=
  ∀ p, c.r = some p → ∃ j ≤ k, c.rgen = BitVec.ofNat 32 j ∧
    (j = k → p.1 = hash a ∧ ∃ e, Longest T a e ∧ e.span = p.2)

def Table.flush (tag : Option (List UInt8)) (T : Table α) : Table α :=
  fun s => (T s).filter fun c => ¬ c.Flushed tag

variable {t t' : Tree α} {new e q : Route α} {s : NonemptyInterval α} {T T' : Table α} {fuel h : ℕ}
  {U : Set (NonemptyInterval α)} {hash : α → ℕ} {root : Forest α} {f : Routes α} {a : α}
  {ifcs : Ifcs} {gate : Route α → List UInt8} {tag : Option (List UInt8)}

/-! ### Every tree -/

theorem foldlM_update {β : Type*} {f : β → Option β} {l : List ℕ} (hl : l.Nodup)
    (root : ℕ → β) {R : ℕ → β → Prop} (hf : ∀ h ∈ l, ∃ t, f (root h) = some t ∧ R h t) :
    ∃ root', l.foldlM (fun root h => (f (root h)).map (Function.update root h)) root = some root' ∧
      (∀ h ∈ l, R h (root' h)) ∧ ∀ h ∉ l, root' h = root h := by
  induction l generalizing root with
  | nil => exact ⟨root, rfl, List.forall_mem_nil _, fun _ _ => rfl⟩
  | cons h l ih =>
    obtain ⟨hnot, hl⟩ := List.nodup_cons.mp hl
    obtain ⟨t, ht, hR⟩ := hf h List.mem_cons_self
    have hother {h' : ℕ} (hh : h' ≠ h) : Function.update root h t h' = root h' :=
      Function.update_of_ne hh t root
    obtain ⟨root', hrun, hin, hout⟩ := ih hl (Function.update root h t) fun h' hh' => by
      rw [hother fun heq => hnot (heq ▸ hh')]
      exact hf h' (List.mem_cons_of_mem h hh')
    refine ⟨root', ?_, fun h' hh' => ?_, fun h' hh' => ?_⟩
    · rw [List.foldlM_cons, ht]
      exact hrun
    · obtain rfl | hh' := List.mem_cons.mp hh'
      · rw [hout _ hnot, Function.update_self]
        exact hR
      · exact hin h' hh'
    · rw [List.mem_cons, not_or] at hh'
      rw [hout h' hh'.2, hother hh'.1]

theorem mem_range'_hash {lo hi : ℕ} : h ∈ List.range' lo (hi + 1 - lo) ↔ lo ≤ h ∧ h ≤ hi := by
  rw [List.mem_range'_1]
  omega

theorem Table.Good.within (h : T.Good U) (hash : α → ℕ) (n : ℕ) (s : NonemptyInterval α)
    (c : Attr) (hc : T.within hash n s = some c) : s ∈ U := by
  unfold Table.within at hc
  split_ifs at hc
  exact h.mem s c hc

theorem within_update (v : Option Attr) (hin : hash s.fst ≤ h ∧ h ≤ hash s.snd) :
    Table.within hash h (Function.update T s v) =
      Function.update (T.within hash h) s v := by
  funext s'
  unfold Table.within
  by_cases hs : s' = s
  · rw [hs, Function.update_self, Function.update_self, if_pos hin]
  · rw [Function.update_of_ne hs, Function.update_of_ne hs]

theorem within_update_of_not (v : Option Attr) (hout : ¬ (hash s.fst ≤ h ∧ h ≤ hash s.snd)) :
    Table.within hash h (Function.update T s v) = T.within hash h := by
  funext s'
  unfold Table.within
  by_cases hs : s' = s
  · rw [hs, if_neg hout, if_neg hout]
  · rw [Function.update_of_ne hs]

/-- Where the trees are changed as their parts of a table are. -/
theorem Grows.every {f : Tree α → Option (Tree α)} {v : Option Attr} (hroot : Grows hash root T)
    (hf : ∀ h, hash s.fst ≤ h ∧ h ≤ hash s.snd → ∃ t', f (root h) = some t' ∧
      Holds t' (Function.update (T.within hash h) s v)) :
    ∃ root', everytree f (hash s.fst) (hash s.snd) root = some root' ∧
      Grows hash root' (Function.update T s v) := by
  obtain ⟨root', hrun, hin, hout⟩ := foldlM_update (f := f)
    (l := List.range' (hash s.fst) (hash s.snd + 1 - hash s.fst)) List.nodup_range' root
    (R := fun h t => Holds t (Function.update (T.within hash h) s v)) fun h hh =>
      hf h (mem_range'_hash.mp hh)
  refine ⟨root', hrun, fun h => ?_⟩
  by_cases hh : hash s.fst ≤ h ∧ h ≤ hash s.snd
  · rw [within_update v hh]
    exact hin h (mem_range'_hash.mpr hh)
  · rw [within_update_of_not v hh, hout h (mt mem_range'_hash.mp hh)]
    exact hroot h

theorem within_self (hin : hash s.fst ≤ h ∧ h ≤ hash s.snd) : T.within hash h s = T s := if_pos hin

theorem Grows.add (hU : Hashed hash U) (hT : T.Good U) (hroot : Grows hash f.root T)
    (hnew : new.span ∈ U) (hfuel : 0 < fuel) : ∃ root', addroutes fuel hash new f =
      some ⟨root', f.generation + 1⟩ ∧ Grows hash root' (T.add new.span new.toAttr) := by
  unfold addroutes Table.add
  obtain ⟨root', hrun, hroot'⟩ := hroot.every (f := addroute fuel new) (s := new.span)
    fun h hin => by
      have hadd := (hroot h).add hU.laminar (hT.within hash h) hnew hfuel
      unfold Table.add at hadd
      rwa [within_self hin] at hadd
  exact ⟨root', hrun ▸ rfl, hroot'⟩

theorem Grows.del (hU : Hashed hash U) (hT : T.Good U) (hroot : Grows hash f.root T)
    (hs : s ∈ U) (hfuel : 3 ≤ fuel) : ∃ root', delroutes fuel hash s f =
      some ⟨root', f.generation + 1⟩ ∧ Grows hash root' (T.del s) := by
  unfold delroutes Table.del
  obtain ⟨root', hrun, hroot'⟩ := hroot.every (f := delroute fuel s) fun h hin => by
    have hdel := (hroot h).del hU.laminar (hT.within hash h) hs hfuel
    unfold Table.del at hdel
    rwa [within_self hin] at hdel
  exact ⟨root', hrun ▸ rfl, hroot'⟩

theorem Table.Good.add {new : Attr} (hT : T.Good U) (hs : s ∈ U) (href : new.ref = 1) :
    (T.add s new).Good U := by
  have hcase (s' : NonemptyInterval α) (c : Attr) (hc : T.add s new s' = some c) :
      (s' = s ∧ (T s = none ∧ c = new ∨ ∃ old, T s = some old ∧ c = old.supersede new)) ∨
        T s' = some c := by
    unfold Table.add at hc
    by_cases heq : s' = s
    · rw [heq, Function.update_self, Option.some_inj] at hc
      refine .inl ⟨heq, ?_⟩
      cases hold : T s with
      | none =>
        rw [hold] at hc
        exact .inl ⟨rfl, hc.symm⟩
      | some old =>
        rw [hold] at hc
        exact .inr ⟨old, rfl, hc.symm⟩
    · rw [Function.update_of_ne heq] at hc
      exact .inr hc
  refine ⟨fun s' c hc => ?_, fun s' c hc htype => ?_⟩
  · obtain ⟨rfl, -⟩ | hc := hcase s' c hc
    · exact hs
    · exact hT.mem s' c hc
  · obtain ⟨rfl, ⟨-, rfl⟩ | ⟨old, hold, rfl⟩⟩ | hc := hcase s' c hc
    · exact href
    · unfold Attr.supersede at htype ⊢
      split_ifs at htype ⊢ with h1
      · exact (hT.ref s' old hold h1 : old.ref = 1)
      · exact absurd htype h1
      · exact absurd htype h1
    · exact hT.ref s' c hc htype

theorem Table.Good.of_le (hT : T.Good U) (h : ∀ s c, T' s = some c → T s = some c) : T'.Good U :=
  ⟨fun s c hc => hT.mem s c (h s c hc), fun s c hc => hT.ref s c (h s c hc)⟩

theorem Table.Good.del (hT : T.Good U) : (T.del s).Good U := by
  have hcase (s' : NonemptyInterval α) (c : Attr) (hc : T.del s s' = some c) :
      (∃ old, T s' = some old ∧ old.ref - 1 ≠ 0 ∧ c = { old with ref := old.ref - 1 }) ∨
        T s' = some c := by
    unfold Table.del at hc
    by_cases heq : s' = s
    · rw [heq, Function.update_self] at hc
      cases hold : T s with
      | none =>
        rw [hold] at hc
        cases hc
      | some old =>
        rw [hold] at hc
        dsimp only at hc
        split_ifs at hc with hlast
        exact .inl ⟨old, heq ▸ hold, hlast, (Option.some.inj hc).symm⟩
    · rw [Function.update_of_ne heq] at hc
      exact .inr hc
  refine ⟨fun s' c hc => ?_, fun s' c hc htype => ?_⟩
  · obtain ⟨old, hold, -, -⟩ | hc := hcase s' c hc
    · exact hT.mem s' old hold
    · exact hT.mem s' c hc
  · obtain ⟨old, hold, hmore, rfl⟩ | hc := hcase s' c hc
    · exact absurd (by rw [hT.ref s' old hold htype, sub_self]) hmore
    · exact hT.ref s' c hc htype

/-! ### Lookups -/

theorem lookwalk_eq (a : α) (q : Option (Route α)) (t : Tree α) :
    lookwalk a q t = (t.find Route.span a).or q := by
  induction t generalizing q with
  | nil => exact (Option.none_or).symm
  | node d p l m r ihl ihm ihr =>
    unfold lookwalk Ternary.find
    change (if p.address ≤ a then if a ≤ p.endaddress then lookwalk a (some p) m else lookwalk a q r
      else lookwalk a q l) = Option.or (if p.address ≤ a then if a ≤ p.endaddress then
        (m.find Route.span a).or (some p) else r.find Route.span a else l.find Route.span a) q
    split_ifs
    · rw [ihm, Option.or_assoc]
      rfl
    · exact ihr q
    · exact ihl q

/-- A store that changes neither the range nor what a route says. -/
theorem storeroute_spec {f : Route α → Route α} (hf : ∀ p, (f p).span = p.span ∧
    (f p).toAttr = p.toAttr) (ht : t.Ordered Route.span) :
    (storeroute a f t).Ordered Route.span ∧
      (storeroute a f t).bag.map (fun x => (x.span, x.toAttr)) =
        t.bag.map fun x => (x.span, x.toAttr) := by
  have hspan {u u' : Tree α} (hu : u'.bag.map (fun x => (x.span, x.toAttr)) =
      u.bag.map fun x => (x.span, x.toAttr)) (x : Route α) (hx : x ∈ u'.bag) :
      ∃ y ∈ u.bag, y.span = x.span := by
    obtain ⟨y, hy, heq⟩ := Multiset.mem_map.mp (hu ▸ Multiset.mem_map_of_mem _ hx)
    exact ⟨y, hy, congrArg Prod.fst heq⟩
  induction ht with
  | nil => exact ⟨.nil, rfl⟩
  | @node d p l m r left middle right before within after ihl ihm ihr =>
    unfold storeroute
    split_ifs
    · refine ⟨.node left ihm.1 right before (fun x hx => ?_) after, ?_⟩
      · obtain ⟨y, hy, heq⟩ := hspan ihm.2 x hx
        exact heq ▸ within y hy
      · simp only [Ternary.bag_node, Multiset.map_cons, Multiset.map_add, ihm.2]
    · have hp := (hf p).1
      refine ⟨.node left middle right (hp ▸ before) (hp ▸ within) (hp ▸ after), ?_⟩
      simp only [Ternary.bag_node, Multiset.map_cons, hp, (hf p).2]
    · refine ⟨.node left middle ihr.1 before within fun x hx => ?_, ?_⟩
      · obtain ⟨y, hy, heq⟩ := hspan ihr.2 x hx
        exact heq ▸ after y hy
      · simp only [Ternary.bag_node, Multiset.map_cons, Multiset.map_add, ihr.2]
    · refine ⟨.node ihl.1 middle right (fun x hx => ?_) within after, ?_⟩
      · obtain ⟨y, hy, heq⟩ := hspan ihl.2 x hx
        exact heq ▸ before y hy
      · simp only [Ternary.bag_node, Multiset.map_cons, Multiset.map_add, ihl.2]

theorem Holds.store {f : Route α → Route α} (h : Holds t T) (hf : ∀ p, (f p).span = p.span ∧
    (f p).toAttr = p.toAttr) : Holds (storeroute a f t) T := by
  obtain ⟨hordered, hbag⟩ := storeroute_spec (a := a) hf h.ordered
  refine ⟨hordered, fun s c => ?_⟩
  have hmem (u : Tree α) : (∃ x ∈ u.bag, x.span = s ∧ x.toAttr = c) ↔
      (s, c) ∈ u.bag.map fun x => (x.span, x.toAttr) := by
    rw [Multiset.mem_map]
    simp only [Prod.mk.injEq]
  rw [hmem, hbag, ← hmem, h.routes]

theorem Holds.look (h : Holds t T) (ifcs : Ifcs) (gate : Route α → List UInt8) (a : α) :
    Holds (lookroute ifcs gate a t).2 T ∧
      (∀ q, (lookroute ifcs gate a t).1 = some q →
        (∀ e, q = some e → Longest T a e) ∧ (q = none → Unrouted ifcs gate T a)) ∧
      ((lookroute ifcs gate a t).1 = none → Unrouted ifcs gate T a) := by
  unfold lookroute
  rw [lookwalk_eq, Option.or_none]
  obtain ⟨hnone, hnot⟩ | ⟨q, hsome, hlive, hmem, hmin⟩ := h.find a
  · rw [hnone]
    refine ⟨h, fun q hq => ?_, by rintro ⟨⟩⟩
    rw [← Option.some.inj hq]
    exact ⟨by rintro _ ⟨⟩, fun _ => .inl hnot⟩
  rw [hsome]
  dsimp only
  split_ifs
  · cases hifc : ifcs.findipifc (gate q) q.type with
    | none =>
      exact ⟨h, by rintro _ ⟨⟩, fun _ => .inr ⟨q, ⟨hlive, hmem, hmin⟩, hifc⟩⟩
    | some i =>
      refine ⟨h.store fun p => ⟨rfl, rfl⟩, fun q' hq' => ?_, by rintro ⟨⟩⟩
      rw [← Option.some.inj hq']
      refine ⟨fun e he => ?_, by rintro ⟨⟩⟩
      rw [← Option.some.inj he]
      exact ⟨hlive, hmem, hmin⟩
  · refine ⟨h, fun q' hq' => ?_, by rintro ⟨⟩⟩
    rw [← Option.some.inj hq']
    refine ⟨fun e he => ?_, by rintro ⟨⟩⟩
    rw [← Option.some.inj he]
    exact ⟨hlive, hmem, hmin⟩

/-- What is in the tree of an address decides on the address. -/
theorem Table.Good.longest (hU : Hashed hash U) (hT : T.Good U)
    (he : Longest (T.within hash (hash a)) a e) : Longest T a e := by
  refine ⟨?_, he.mem, fun s c hc ha => ?_⟩
  · have hlive := he.live
    unfold Table.within at hlive
    split_ifs at hlive
    exact hlive
  · exact he.smallest s c ((within_self (hU.hash s (hT.mem s c hc) a ha)).trans hc) ha

theorem Table.Good.unrouted (hU : Hashed hash U) (hT : T.Good U)
    (h : Unrouted ifcs gate (T.within hash (hash a)) a) : Unrouted ifcs gate T a := by
  obtain h | ⟨e, he, hifc⟩ := h
  · refine .inl fun s c hc ha => h s c ?_ ha
    exact (within_self (hU.hash s (hT.mem s c hc) a ha)).trans hc
  · exact .inr ⟨e, hT.longest hU he, hifc⟩

/-- The node of a route that is known has the route. -/
theorem Holds.atnode (hU : Hashed hash U) (hT : ∀ s c, T s = some c → s ∈ U) (h : Holds t T)
    (hs : s ∈ U) (he : ((looknode s t).bind fun cur => atnode cur.1) = some e) :
    e.span = s ∧ T e.span = some e.toAttr := by
  have hfound := looknode_spec h.ordered fun x hx => hU.laminar s hs _ (hT _ _ (h.eq_some hx))
  generalize looknode s t = cur at hfound he
  cases hfound with
  | none _ => cases he
  | some hspan hsub _ =>
    obtain rfl := Option.some.inj he
    exact ⟨hspan, h.eq_some (hsub.mem (Ternary.mem_node.mpr (.inl rfl)))⟩

theorem Rcache.Kept.cached {c : Rcache α} {k : ℕ} (hU : Hashed hash U) (hT : T.Good U)
    (hroot : Grows hash f.root T) (hgen : f.generation = BitVec.ofNat 32 k) (hk : k < 2 ^ 32)
    (hc : c.Kept hash a T k) (he : cached f c = some e) : Longest T a e := by
  unfold Iproute.cached at he
  obtain ⟨p, hp, he⟩ := Option.bind_eq_some_iff.mp he
  obtain ⟨he, hvalid⟩ := Option.filter_eq_some_iff.mp he
  obtain ⟨j, hj, hrgen, hsame⟩ := hc p hp
  have heq : j = k := by
    have hbits := hrgen.symm.trans ((of_decide_eq_true hvalid).2.trans hgen)
    have hnat := congrArg BitVec.toNat hbits
    rwa [BitVec.toNat_ofNat, BitVec.toNat_ofNat, Nat.mod_eq_of_lt hk,
      Nat.mod_eq_of_lt (hj.trans_lt hk)] at hnat
  obtain ⟨hhash, e', he', hspan⟩ := hsame heq
  obtain ⟨hspan', hlive⟩ := (hroot p.1).atnode hU (hT.within hash p.1)
    (hspan ▸ hT.mem _ _ he'.live) he
  rw [hhash] at hlive
  have hin : e.span = e'.span := hspan'.trans hspan.symm
  refine ⟨?_, hin ▸ he'.mem, hin ▸ he'.smallest⟩
  unfold Table.within at hlive
  split_ifs at hlive
  exact hlive

/-- A lookup gives the route with the smallest range around the address, also where a conversation
has kept it. -/
theorem Grows.lookup (ifcs : Ifcs) (gate : Route α → List UInt8) {c : Option (Rcache α)} {k : ℕ}
    (hU : Hashed hash U) (hT : T.Good U) (hroot : Grows hash f.root T)
    (hgen : f.generation = BitVec.ofNat 32 k) (hk : k < 2 ^ 32)
    (hc : ∀ c' ∈ c, c'.Kept hash a T k) : ∃ q c' f', lookup hash gate ifcs a c f = (q, c', f') ∧
      Grows hash f'.root T ∧ f'.generation = f.generation ∧ (c = none → c' = none) ∧
      (∀ c'' ∈ c', c''.Kept hash a T k) ∧ (∀ e, q = some e → Longest T a e) ∧
      (q = none → Unrouted ifcs gate T a) := by
  unfold Iproute.lookup
  cases hcached : c.bind (cached f) with
  | some e =>
    obtain ⟨c', hc', he⟩ := Option.bind_eq_some_iff.mp hcached
    refine ⟨some e, c, f, rfl, hroot, rfl, id, hc, fun e' he' => ?_, by rintro ⟨⟩⟩
    rw [← Option.some.inj he']
    exact (hc c' hc').cached hU hT hroot hgen hk he
  | none =>
    obtain ⟨hholds, hsome, hnone⟩ := (hroot (hash a)).look ifcs gate a
    dsimp only
    generalize lookroute ifcs gate a (f.root (hash a)) = out at hholds hsome hnone
    have hroot' : Grows hash (Function.update f.root (hash a) out.2) T := by
      intro h
      by_cases hh : h = hash a
      · rw [hh, Function.update_self]
        exact hholds
      · rw [Function.update_of_ne hh]
        exact hroot h
    cases hq : out.1 with
    | none =>
      exact ⟨none, c, _, rfl, hroot', rfl, id, hc, by rintro _ ⟨⟩,
        fun _ => hT.unrouted hU (hnone hq)⟩
    | some q =>
      obtain ⟨hlong, hun⟩ := hsome q hq
      refine ⟨q, _, _, rfl, hroot', rfl, fun hc => by rw [hc]; rfl, fun c' hc' p hp => ?_,
        fun e he => hT.longest hU (hlong e he), fun hq => hT.unrouted hU (hun hq)⟩
      obtain ⟨-, -, rfl⟩ := Option.map_eq_some_iff.mp hc'
      obtain ⟨e, he, rfl⟩ := Option.map_eq_some_iff.mp hp
      exact ⟨k, le_rfl, hgen, fun _ => ⟨rfl, e, hT.longest hU (hlong e he), rfl⟩⟩

/-! ### Flushing -/

theorem routeflush_spec (tag : Option (List UInt8)) (t : Tree α) :
    (∀ x ∈ routeflush tag t, x ∈ t.bag ∧ x.Flushed tag) ∧
      (routeflush tag t = none → ∀ x ∈ t.bag, ¬ x.Flushed tag) := by
  induction t with
  | nil => exact ⟨by rintro _ ⟨⟩, fun _ x hx => absurd hx (Multiset.notMem_zero x)⟩
  | node d p l m r ihl ihm ihr =>
    unfold routeflush
    constructor
    · intro x hx
      simp only [Option.mem_def, Option.or_eq_some_iff] at hx
      obtain hx | ⟨-, hx | ⟨-, hx | ⟨-, hx⟩⟩⟩ := hx
      · obtain ⟨hmem, hflush⟩ := ihm.1 x hx
        exact ⟨Ternary.mem_node.mpr (.inr (.inr (.inl hmem))), hflush⟩
      · obtain ⟨hmem, hflush⟩ := ihl.1 x hx
        exact ⟨Ternary.mem_node.mpr (.inr (.inl hmem)), hflush⟩
      · obtain ⟨hmem, hflush⟩ := ihr.1 x hx
        exact ⟨Ternary.mem_node.mpr (.inr (.inr (.inr hmem))), hflush⟩
      · split_ifs at hx with hflush
        obtain rfl := Option.some.inj hx
        exact ⟨Ternary.mem_node.mpr (.inl rfl), hflush⟩
    · intro hnone x hx
      simp only [Option.or_eq_none_iff] at hnone
      obtain ⟨hm, hl, hr, hp⟩ := hnone
      obtain rfl | hx | hx | hx := Ternary.mem_node.mp hx
      · intro hflush
        rw [if_pos hflush] at hp
        cases hp
      · exact ihl.2 hl x hx
      · exact ihm.2 hm x hx
      · exact ihr.2 hr x hx

/-- What a tree has are the routes of its table, each once. -/
theorem Holds.mem_map (h : Holds t T) (x : NonemptyInterval α × Attr) :
    x ∈ t.bag.map (fun e => (e.span, e.toAttr)) ↔ T x.1 = some x.2 := by
  rw [← h.routes, Multiset.mem_map]
  simp only [Prod.ext_iff]

theorem Holds.nodup_map (h : Holds t T) :
    (t.bag.map fun e => (e.span, e.toAttr)).Nodup := by
  refine Multiset.Nodup.of_map Prod.fst ?_
  rw [Multiset.map_map]
  exact h.ordered.nodup

/-- A tree with fewer routes is smaller. -/
theorem Holds.card_lt {c : Attr} (h : Holds t T) (h' : Holds t' T')
    (hle : ∀ s c, T' s = some c → T s = some c) (hs : T s = some c) (hs' : T' s = none) :
    t'.bag.card < t.bag.card := by
  rw [← Multiset.card_map (fun e => (e.span, e.toAttr)) t'.bag,
    ← Multiset.card_map (fun e => (e.span, e.toAttr)) t.bag]
  refine Multiset.card_lt_card (lt_of_le_of_ne ?_ fun heq => ?_)
  · refine (Multiset.le_iff_subset h'.nodup_map).mpr fun x hx => ?_
    exact (h.mem_map x).mpr (hle _ _ ((h'.mem_map x).mp hx))
  · have hin := (h.mem_map (s, c)).mpr hs
    rw [← heq, h'.mem_map, hs'] at hin
    cases hin

theorem Holds.card_le (h : Holds t T) (h' : Holds t' T')
    (hle : ∀ s c, T' s = some c → T s = some c) : t'.bag.card ≤ t.bag.card := by
  rw [← Multiset.card_map (fun e => (e.span, e.toAttr)) t'.bag,
    ← Multiset.card_map (fun e => (e.span, e.toAttr)) t.bag]
  refine Multiset.card_le_card ((Multiset.le_iff_subset h'.nodup_map).mpr fun x hx => ?_)
  exact (h.mem_map x).mpr (hle _ _ ((h'.mem_map x).mp hx))

/-- Some routes that are flushed are gone, and nothing else. -/
structure Table.Pruned (tag : Option (List UInt8)) (T T' : Table α) : Prop where
  le : ∀ s c, T' s = some c → T s = some c
  kept : ∀ s c, T s = some c → ¬ c.Flushed tag → T' s = some c

theorem Table.Pruned.refl (tag : Option (List UInt8)) (T : Table α) : T.Pruned tag T :=
  ⟨fun _ _ h => h, fun _ _ h _ => h⟩

theorem Table.Pruned.trans {T'' : Table α} (h : T.Pruned tag T') (h' : T'.Pruned tag T'') :
    T.Pruned tag T'' :=
  ⟨fun s c hc => h.le s c (h'.le s c hc), fun s c hc hnot => h'.kept s c (h.kept s c hc hnot) hnot⟩

/-- A route of no interface is gone once it is deleted. -/
theorem Table.Good.del_eq (hT : T.Good U) {c : Attr} (hs : T s = some c)
    (htype : c.type &&& Rifc = 0) : T.del s = Function.update T s none := by
  unfold Table.del
  rw [hs]
  dsimp only
  rw [if_pos (by rw [hT.ref s c hs htype, sub_self])]

theorem within_le (hle : ∀ s c, T' s = some c → T s = some c) (s : NonemptyInterval α) (c : Attr)
    (hc : T'.within hash h s = some c) : T.within hash h s = some c := by
  unfold Table.within at hc ⊢
  split_ifs at hc ⊢
  exact hle s c hc

/-- The ranges of the routes that are known are among some ranges. -/
def Table.Among (T : Table α) (S : Finset (NonemptyInterval α)) : Prop :=
  ∀ s c, T s = some c → s ∈ S

theorem Holds.card_le_of_among {S : Finset (NonemptyInterval α)} (h : Holds t T) (hS : T.Among S) :
    t.bag.card ≤ S.card := by
  rw [← Multiset.card_map Route.span, ← Multiset.toFinset_card_of_nodup h.ordered.nodup]
  refine Finset.card_le_card fun s hs => ?_
  obtain ⟨x, hx, rfl⟩ := Multiset.mem_map.mp (Multiset.mem_toFinset.mp hs)
  exact hS _ _ (h.eq_some hx)

/-- What a loop that flushes leaves: it has deleted `k` routes, and there are as many fewer. -/
structure Flushing (hash : α → ℕ) (tag : Option (List UInt8)) (f f' : Routes α) (T T' : Table α) :
    Prop where
  grows : Grows hash f'.root T'
  pruned : T.Pruned tag T'
  deleted : ∀ S, T.Among S → ∃ k S', T'.Among S' ∧ S'.card + k = S.card ∧
    f'.generation = f.generation + BitVec.ofNat 32 k ∧ (k = 0 → T' = T)

theorem Flushing.refl (hroot : Grows hash f.root T) : Flushing hash tag f f T T :=
  ⟨hroot, .refl tag T, fun S hS => ⟨0, S, hS, rfl, (BitVec.add_zero _).symm, fun _ => rfl⟩⟩

theorem Flushing.trans {f' f'' : Routes α} {T'' : Table α} (h : Flushing hash tag f f' T T')
    (h' : Flushing hash tag f' f'' T' T'') : Flushing hash tag f f'' T T'' := by
  refine ⟨h'.grows, h.pruned.trans h'.pruned, fun S hS => ?_⟩
  obtain ⟨k, S', hS', hcard, hgen, hsame⟩ := h.deleted S hS
  obtain ⟨k', S'', hS'', hcard', hgen', hsame'⟩ := h'.deleted S' hS'
  refine ⟨k + k', S'', hS'', by omega, ?_, fun hk => ?_⟩
  · rw [hgen', hgen, BitVec.ofNat_add, BitVec.add_assoc]
  · exact (hsame' (by omega)).trans (hsame (by omega))

/-- A route that is flushed is deleted. -/
theorem Flushing.del (hU : Hashed hash U) (hT : T.Good U) (hroot : Grows hash f.root T)
    (hfuel : 3 ≤ fuel) (hlive : T e.span = some e.toAttr) (hflush : e.Flushed tag) :
    ∃ f', delroutes fuel hash e.span f = some f' ∧
      Flushing hash tag f f' T (Function.update T e.span none) := by
  obtain ⟨root', hrun, hroot'⟩ := hroot.del hU hT (hT.mem _ _ hlive) hfuel
  rw [hT.del_eq hlive hflush.1] at hroot'
  have hpruned : T.Pruned tag (Function.update T e.span none) := by
    refine ⟨fun s c hc => ?_, fun s c hc hnot => ?_⟩
    · by_cases hs : s = e.span
      · rw [hs, Function.update_self] at hc
        cases hc
      · rwa [Function.update_of_ne hs] at hc
    · rw [Function.update_of_ne fun hs => ?_]
      · exact hc
      · rw [hs, hlive] at hc
        exact hnot (Option.some.inj hc ▸ hflush)
  refine ⟨⟨root', f.generation + 1⟩, hrun, hroot', hpruned, fun S hS => ?_⟩
  refine ⟨1, S.erase e.span, fun s c hc => ?_, Finset.card_erase_add_one (hS _ _ hlive), rfl,
    fun h => absurd h one_ne_zero⟩
  refine Finset.mem_erase.mpr ⟨fun hs => ?_, hS s c (hpruned.le s c hc)⟩
  rw [hs, Function.update_self] at hc
  cases hc

/-- The loop over one tree ends, and the routes that are flushed are no longer in it. -/
theorem flushtree_spec (tag : Option (List UInt8)) {rangeof : Route α → NonemptyInterval α}
    (hU : Hashed hash U)
    (hrange : ∀ r : Route α, r.span ∈ U → rangeof r = r.span) (hfuel : 3 ≤ fuel) {n : ℕ}
    (hT : T.Good U) (hroot : Grows hash f.root T) (hcard : (f.root h).bag.card < n) :
    ∃ f' T', flushtree fuel hash rangeof tag h n f = some f' ∧ Flushing hash tag f f' T T' ∧
      ∀ s c, T' s = some c → hash s.fst ≤ h ∧ h ≤ hash s.snd → ¬ c.Flushed tag := by
  induction n generalizing f T with
  | zero => exact absurd hcard (Nat.not_lt_zero _)
  | succ n ih =>
    obtain ⟨hsome, hnone⟩ := routeflush_spec tag (f.root h)
    unfold flushtree
    cases hr : routeflush tag (f.root h) with
    | none =>
      refine ⟨f, T, rfl, .refl hroot, fun s c hc hin => ?_⟩
      obtain ⟨x, hx, -, rfl⟩ := ((hroot h).routes s c).mpr (by rwa [within_self hin])
      exact hnone hr x hx
    | some r =>
      obtain ⟨hmem, hflush⟩ := hsome r hr
      have hwithin := (hroot h).eq_some hmem
      have hin : hash r.span.fst ≤ h ∧ h ≤ hash r.span.snd := by
        unfold Table.within at hwithin
        split_ifs at hwithin with hin
        exact hin
      have hlive : T r.span = some r.toAttr := by rwa [within_self hin] at hwithin
      obtain ⟨f₁, hdel, hstep⟩ := Flushing.del hU hT hroot hfuel hlive hflush
      have hless : (f₁.root h).bag.card < (f.root h).bag.card := by
        refine (hroot h).card_lt (hstep.grows h) (within_le hstep.pruned.le) hwithin ?_
        rw [within_self hin, Function.update_self]
      obtain ⟨f', T', hrun, hloop, hall⟩ := ih (hT.of_le hstep.pruned.le) hstep.grows (by omega)
      refine ⟨f', T', ?_, hstep.trans hloop, hall⟩
      dsimp only
      rw [hrange r (hT.mem _ _ hlive), hdel]
      exact hrun

/-- The flush ends, and the routes that are flushed are gone. -/
theorem Grows.flush (tag : Option (List UInt8)) {rangeof : Route α → NonemptyInterval α}
    (hU : Hashed hash U)
    (hrange : ∀ r : Route α, r.span ∈ U → rangeof r = r.span) {n : ℕ}
    (hn : ∀ s ∈ U, hash s.fst < n) (hT : T.Good U) (hroot : Grows hash f.root T)
    (hfuel : 3 ≤ fuel) (hcard : ∀ h, (f.root h).bag.card < fuel) :
    ∃ f', flushroutes fuel hash rangeof tag n f = some f' ∧
      Flushing hash tag f f' T (T.flush tag) := by
  -- the trees below `k` have been flushed
  have hloop (k : ℕ) : ∃ f' T', (List.range k).foldlM
      (fun f h => flushtree fuel hash rangeof tag h fuel f) f = some f' ∧
      Flushing hash tag f f' T T' ∧ ∀ s c, T' s = some c → hash s.fst < k → ¬ c.Flushed tag := by
    induction k with
    | zero => exact ⟨f, T, rfl, .refl hroot, fun s c _ hlt => absurd hlt (Nat.not_lt_zero _)⟩
    | succ k ih =>
      obtain ⟨f₁, T₁, hrun, hstep, hdone⟩ := ih
      have hle := (hroot k).card_le (hstep.grows k) (within_le hstep.pruned.le)
      obtain ⟨f₂, T₂, hrun₂, hstep₂, hdone₂⟩ := flushtree_spec tag hU hrange
        hfuel (hT.of_le hstep.pruned.le) hstep.grows (hle.trans_lt (hcard k))
      refine ⟨f₂, T₂, ?_, hstep.trans hstep₂, fun s c hc hlt => ?_⟩
      · rw [List.range_succ, List.foldlM_append, hrun]
        simp only [List.foldlM_cons, List.foldlM_nil, Option.bind_eq_bind, Option.bind_some, hrun₂,
          Option.pure_def]
      · obtain hlt | heq := Nat.lt_succ_iff_lt_or_eq.mp hlt
        · exact hdone s c (hstep₂.pruned.le s c hc) hlt
        · have hs := hT.mem s c (hstep.pruned.le s c (hstep₂.pruned.le s c hc))
          exact hdone₂ s c hc ⟨heq.le, heq ▸ (hU.hash s hs s.fst ⟨le_rfl, s.fst_le_snd⟩).2⟩
  obtain ⟨f', T', hrun, hstep, hdone⟩ := hloop n
  refine ⟨f', hrun, ?_⟩
  have heq : T.flush tag = T' := by
    funext s
    unfold Table.flush
    cases hs : T s with
    | none =>
      refine (Option.eq_none_iff_forall_ne_some.mpr fun c hc => ?_).symm
      rw [hstep.pruned.le s c hc] at hs
      cases hs
    | some c =>
      rw [Option.filter_some]
      by_cases hflush : c.Flushed tag
      · rw [if_neg (by simpa using hflush)]
        refine (Option.eq_none_iff_forall_ne_some.mpr fun c' hc' => ?_).symm
        obtain rfl := Option.some.inj (hs.symm.trans (hstep.pruned.le s c' hc'))
        exact hdone s c hc' (hn s (hT.mem s c hs)) hflush
      · rw [if_pos (by simpa using hflush), hstep.pruned.kept s c hs hflush]
  rw [heq]
  exact hstep

/-! ### Soundness -/

/-- The trees have the routes that are known, and a conversation's route counts while they are
unchanged. `k` is how often the routes have changed. That and the number of routes are at most
`m`. -/
structure Sound (hash : α → ℕ) (U : Set (NonemptyInterval α)) (a : α) (f : Routes α) (T : Table α)
    (c : Rcache α) (k m : ℕ) : Prop where
  grows : Grows hash f.root T
  good : T.Good U
  generation : f.generation = BitVec.ofNat 32 k
  kept : c.Kept hash a T k
  few : ∃ S, T.Among S ∧ S.card + k ≤ m

variable {c : Rcache α} {k m m' : ℕ}

theorem Rcache.Kept.later {k' : ℕ} (h : c.Kept hash a T k) (hk : k < k') : c.Kept hash a T' k' := by
  intro p hp
  obtain ⟨j, hj, hrgen, -⟩ := h p hp
  exact ⟨j, hj.trans hk.le, hrgen, fun heq => absurd heq (hj.trans_lt hk).ne⟩

theorem Sound.mono (h : Sound hash U a f T c k m) (hm : m ≤ m') : Sound hash U a f T c k m' :=
  ⟨h.grows, h.good, h.generation, h.kept, h.few.imp fun _ hS => ⟨hS.1, hS.2.trans hm⟩⟩

theorem Sound.add (hU : Hashed hash U) (h : Sound hash U a f T c k m) (hnew : new.span ∈ U)
    (href : new.ref = 1) (hfuel : 0 < fuel) : ∃ f', addroutes fuel hash new f = some f' ∧
      Sound hash U a f' (T.add new.span new.toAttr) c (k + 1) (m + 2) := by
  obtain ⟨root', hrun, hroot'⟩ := h.grows.add hU h.good hnew hfuel
  obtain ⟨S, hS, hcard⟩ := h.few
  refine ⟨_, hrun, hroot', h.good.add hnew href, ?_, h.kept.later k.lt_succ_self,
    insert new.span S, fun s c hc => ?_, ?_⟩
  · rw [h.generation, BitVec.ofNat_add]
    rfl
  · by_cases hs : s = new.span
    · exact Finset.mem_insert.mpr (.inl hs)
    · unfold Table.add at hc
      rw [Function.update_of_ne hs] at hc
      exact Finset.mem_insert_of_mem (hS s c hc)
  · have hins := Finset.card_insert_le new.span S
    omega

theorem Sound.del (hU : Hashed hash U) (h : Sound hash U a f T c k m) (hs : s ∈ U)
    (hfuel : 3 ≤ fuel) : ∃ f', delroutes fuel hash s f = some f' ∧
      Sound hash U a f' (T.del s) c (k + 1) (m + 1) := by
  obtain ⟨root', hrun, hroot'⟩ := h.grows.del hU h.good hs hfuel
  obtain ⟨S, hS, hcard⟩ := h.few
  refine ⟨_, hrun, hroot', h.good.del, ?_, h.kept.later k.lt_succ_self, S, fun s' c hc => ?_, ?_⟩
  · rw [h.generation, BitVec.ofNat_add]
    rfl
  · unfold Table.del at hc
    by_cases heq : s' = s
    · rw [heq, Function.update_self] at hc
      cases hold : T s with
      | none =>
        rw [hold] at hc
        cases hc
      | some old => exact heq ▸ hS s old hold
    · rw [Function.update_of_ne heq] at hc
      exact hS s' c hc
  · omega

theorem Sound.flush {rangeof : Route α → NonemptyInterval α} (hU : Hashed hash U)
    (hrange : ∀ r : Route α, r.span ∈ U → rangeof r = r.span) {n : ℕ}
    (hn : ∀ s ∈ U, hash s.fst < n) (h : Sound hash U a f T c k m) (hfuel : m + 3 ≤ fuel)
    (tag : Option (List UInt8)) : ∃ f' k', flushroutes fuel hash rangeof tag n f = some f' ∧
      Sound hash U a f' (T.flush tag) c k' m := by
  obtain ⟨S, hS, hcard⟩ := h.few
  obtain ⟨f', hrun, hflush⟩ := h.grows.flush tag hU hrange hn h.good
    (by omega : 3 ≤ fuel) fun h' => by
      have hle := (h.grows h').card_le_of_among (S := S) fun s c hc => by
        unfold Table.within at hc
        split_ifs at hc
        exact hS s c hc
      omega
  obtain ⟨k', S', hS', hcard', hgen, hsame⟩ := hflush.deleted S hS
  refine ⟨f', k + k', hrun, hflush.grows, h.good.of_le hflush.pruned.le, ?_, ?_, S', hS', by omega⟩
  · rw [hgen, h.generation, BitVec.ofNat_add]
  · obtain rfl | hk' := Nat.eq_zero_or_pos k'
    · rw [hsame rfl]
      exact h.kept
    · exact h.kept.later (Nat.lt_add_of_pos_right hk')

/-- Lookups for no conversation, and those of the conversation for its address. -/
theorem Sound.lookup (hU : Hashed hash U) (h : Sound hash U a f T c k m) (hm : m < 2 ^ 32)
    (ifcs : Ifcs) (gate : Route α → List UInt8) {a' : α} {c? : Option (Rcache α)}
    (hc : c? = none ∨ a' = a ∧ c? = some c) :
    ∃ q c' f', Iproute.lookup hash gate ifcs a' c? f = (q, c', f') ∧
      Sound hash U a f' T (c'.getD c) k m ∧ (c? = none → c' = none) ∧
      (∀ e, q = some e → Longest T a' e) ∧ (q = none → Unrouted ifcs gate T a') := by
  obtain ⟨S, hS, hcard⟩ := h.few
  obtain ⟨q, c', f', hrun, hroot', hgen, hnil, hkept, hsome, hnone⟩ := h.grows.lookup
    ifcs gate (c := c?) (a := a') hU h.good h.generation (by omega) fun c' hc' => by
      obtain rfl | ⟨rfl, rfl⟩ := hc
      · cases hc'
      · exact Option.some.inj hc' ▸ h.kept
  refine ⟨q, c', f', hrun, ⟨hroot', h.good, hgen.trans h.generation, ?_, h.few⟩, hnil, hsome,
    hnone⟩
  obtain rfl | ⟨rfl, rfl⟩ := hc
  · rw [hnil rfl]
    exact h.kept
  · cases c' with
    | none => exact h.kept
    | some c' => exact hkept c' rfl

/-! ### Walking -/

theorem coe_rr (hash : α → ℕ) (h : ℕ) (t : Tree α) :
    (rr hash h t : Multiset (Route α)) = t.bag.filter fun p => hash p.address = h := by
  induction t with
  | nil => rfl
  | node d p l m r ihl ihm ihr =>
    have hcoe : (rr hash h (.node d p l m r) : Multiset (Route α)) =
        rr hash h l + (if hash p.address = h then [p] else [] : List (Route α)) + rr hash h m +
          rr hash h r := by
      simp only [rr, Multiset.coe_add]
    rw [hcoe, ihl, ihm, ihr, Ternary.bag_node]
    split_ifs with hp
    · rw [Multiset.filter_cons_of_pos (p := fun p : Route α => hash p.address = h) _ hp,
        Multiset.filter_add, Multiset.filter_add, Multiset.coe_singleton, ← Multiset.singleton_add]
      abel
    · rw [Multiset.filter_cons_of_neg (p := fun p : Route α => hash p.address = h) _ hp,
        Multiset.filter_add, Multiset.filter_add, Multiset.coe_nil, add_zero]

/-- The routes of a tree are listed by their addresses, those inside a range behind it. -/
theorem pairwise_rr (hash : α → ℕ) (h : ℕ) (ht : t.Ordered Route.span) :
    (rr hash h t).Pairwise fun x y => Before x.span y.span ∨ y.span < x.span := by
  have hmem {u : Tree α} {x : Route α} (hx : x ∈ rr hash h u) : x ∈ u.bag := by
    have hx : x ∈ (rr hash h u : Multiset (Route α)) := hx
    rw [coe_rr] at hx
    exact Multiset.mem_of_mem_filter hx
  induction ht with
  | nil => exact .nil
  | @node d p l m r left middle right before within after ihl ihm ihr =>
    have hp {x : Route α} (hx : x ∈ (if hash p.address = h then [p] else [] : List (Route α))) :
        x = p := by
      split_ifs at hx
      · exact List.mem_singleton.mp hx
      · exact absurd hx List.not_mem_nil
    unfold rr
    rw [List.pairwise_append, List.pairwise_append, List.pairwise_append]
    refine ⟨⟨⟨ihl, ?_, fun x hx y hy => ?_⟩, ihm, fun x hx y hy => ?_⟩, ihr, fun x hx y hy => ?_⟩
    · split_ifs
      · exact List.pairwise_singleton _ _
      · exact .nil
    · exact .inl (hp hy ▸ before x (hmem hx))
    · obtain hx | hx := List.mem_append.mp hx
      · exact .inl ((before x (hmem hx)).of_le_right (within y (hmem hy)).le)
      · exact .inr (hp hx ▸ within y (hmem hy))
    · obtain hx | hx := List.mem_append.mp hx
      · obtain hx | hx := List.mem_append.mp hx
        · exact .inl ((before x (hmem hx)).trans (after y (hmem hy)))
        · exact .inl (hp hx ▸ after y (hmem hy))
      · exact .inl ((after y (hmem hy)).of_le_left (within x (hmem hx)).le)

/-- A range is listed before another one. -/
def Listed (hash : α → ℕ) (s s' : NonemptyInterval α) : Prop :=
  hash s.fst < hash s'.fst ∨ hash s.fst = hash s'.fst ∧ (Before s s' ∨ s' < s)

theorem Listed.asymm {s s' : NonemptyInterval α} (h : Listed hash s s') : ¬ Listed hash s' s := by
  rintro (h' | ⟨heq, h'⟩)
  · obtain h | ⟨heq, -⟩ := h
    · exact lt_asymm h h'
    · exact h'.ne heq.symm
  · obtain h | ⟨-, h⟩ := h
    · exact h.ne heq.symm
    · obtain h | h := h
      · obtain h' | h' := h'
        · exact (h.trans h').not_le le_rfl
        · exact h.not_le h'.le
      · obtain h' | h' := h'
        · exact h'.not_le h.le
        · exact lt_asymm h h'

/-- What a walk shows of a route. -/
def Route.entry (r : Route α) : NonemptyInterval α × Attr := (r.span, r.toAttr)

/-- The routes that are known are listed, in the order of hash and address. -/
theorem Grows.walk (hU : Hashed hash U) (hT : T.Good U) (hroot : Grows hash root T) {n : ℕ}
    (hn : ∀ s ∈ U, hash s.fst < n) :
    ((walkroutes hash n root).map Route.entry).Pairwise (fun x y => Listed hash x.1 y.1) ∧
      ∀ x, x ∈ (walkroutes hash n root).map Route.entry ↔ T x.1 = some x.2 := by
  have hmem {h : ℕ} {x : Route α} : x ∈ rr hash h (root h) ↔
      x ∈ (root h).bag ∧ hash x.address = h := by
    rw [← Multiset.mem_coe, coe_rr, Multiset.mem_filter]
  constructor
  · unfold walkroutes
    rw [List.pairwise_map, List.pairwise_flatMap]
    refine ⟨fun h _ => ?_, ?_⟩
    · refine (pairwise_rr hash h (hroot h).ordered).imp_of_mem fun {x y} hx hy hxy => ?_
      exact .inr ⟨(hmem.mp hx).2.trans (hmem.mp hy).2.symm, hxy⟩
    · refine List.pairwise_lt_range.imp fun {h h'} hlt x hx y hy => .inl ?_
      change hash x.address < hash y.address
      rwa [(hmem.mp hx).2, (hmem.mp hy).2]
  · intro x
    rw [List.mem_map]
    constructor
    · rintro ⟨x, hx, rfl⟩
      obtain ⟨h, -, hx⟩ := List.mem_flatMap.mp hx
      have hwithin := (hroot h).eq_some (hmem.mp hx).1
      unfold Table.within at hwithin
      split_ifs at hwithin
      exact hwithin
    · intro hc
      have hs := hT.mem x.1 x.2 hc
      have hin : hash x.1.fst ≤ hash x.1.fst ∧ hash x.1.fst ≤ hash x.1.snd :=
        hU.hash x.1 hs x.1.fst ⟨le_rfl, x.1.fst_le_snd⟩
      obtain ⟨e, he, hspan, hattr⟩ := ((hroot (hash x.1.fst)).routes x.1 x.2).mpr
        (by rwa [within_self hin])
      have hhash : hash e.address = hash x.1.fst := by rw [← hspan]; rfl
      exact ⟨e, List.mem_flatMap.mpr ⟨_, List.mem_range.mpr (hn _ hs), hmem.mpr ⟨he, hhash⟩⟩,
        Prod.ext hspan hattr⟩

/-- There is one list of the routes that are known. -/
theorem Listed.unique {l l' : List (NonemptyInterval α × Attr)}
    (h : l.Pairwise fun x y => Listed hash x.1 y.1)
    (h' : l'.Pairwise fun x y => Listed hash x.1 y.1) (hmem : ∀ x, x ∈ l ↔ x ∈ l') : l = l' := by
  have hnodup {l : List (NonemptyInterval α × Attr)}
      (h : l.Pairwise fun x y => Listed hash x.1 y.1) : l.Nodup := by
    refine h.imp fun {x y} hxy heq => ?_
    rw [heq] at hxy
    exact hxy.asymm hxy
  refine List.Perm.eq_of_pairwise (fun x y _ _ hxy hyx => absurd hyx hxy.asymm) h h' ?_
  exact (List.perm_ext_iff_of_nodup (hnodup h) (hnodup h')).mpr hmem

end PlanNine.Iproute
