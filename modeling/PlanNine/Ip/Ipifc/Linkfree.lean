import PlanNine.Lib.Run
import PlanNine.Lib.Ulong

/-!
# Links and self entries put aside

`iplinkfree` and `ipselffree` of `ipifc.c`. An element that is unlinked may still be in use; it is
put on a list, to be freed by a later call that finds its time over.

## Main definitions

* `walk`: the loop over a list, with the elements that stay and those freed.
* `Aside.putaside`: the routine on one of the two lists.
* `State.Honours`: what the grace period asks for.

## Main results

* `Aside.Inv.nodup_freed`: nothing is freed twice.
* `honours_iff`: a run honours the grace period just when no call finds an element on its list, but
  those put aside just 5000 ms ago and those whose time wraps.
* `not_honours`: two calls one after the other.
-/

namespace PlanNine.Linkfree

/-- The element `p` put aside, the time at which that was, and its field `expire`. -/
structure Elem where
  p : ℕ
  put : ℕ
  expire : ℕ
  deriving DecidableEq

/-- The elements that stay on the list, and those freed. -/
def walk (now : ℕ) : List Elem → List Elem × List Elem
  | [] => ([], [])
  | np :: l =>
    if now < np.expire then ((walk now l).1, np :: (walk now l).2)
    else (np :: (walk now l).1, (walk now l).2)

/-- A list, the elements freed with the times at which they were, and all elements put aside. -/
structure Aside where
  list : List Elem := []
  freed : List (Elem × ℕ) := []
  aside : List Elem := []

namespace Aside

/-- The call for `p` at the time `now`. -/
def putaside (a : Aside) (p now : ℕ) : Aside :=
  let e : Elem := ⟨p, now, ulong (now + 5000)⟩
  { list := (walk now a.list).1 ++ [e]
    freed := a.freed ++ (walk now a.list).2.map (·, now)
    aside := a.aside ++ [e] }

end Aside

/-- The two lists. -/
inductive Kind
  | freeiplink
  | freeipself
  deriving DecidableEq

/-- The lists and the time of the last call, with its list. -/
structure State where
  lists : Kind → Aside := fun _ => {}
  now : ℕ := 0
  last : Option Kind := none

/-- A call for an element at a time. -/
inductive Op
  | iplinkfree (p now : ℕ)
  | ipselffree (p now : ℕ)

namespace Op

def kind : Op → Kind
  | iplinkfree _ _ => .freeiplink
  | ipselffree _ _ => .freeipself

def p : Op → ℕ
  | iplinkfree p _ => p
  | ipselffree p _ => p

def now : Op → ℕ
  | iplinkfree _ now => now
  | ipselffree _ now => now

end Op

namespace State

/-- A call, where the time has not gone back and the element was not put aside before: it is just
unlinked from its chains. -/
def exec (s : State) (op : Op) : Option State :=
  if s.now ≤ op.now ∧ op.now < 4294967296 ∧ op.p ∉ (s.lists op.kind).aside.map (·.p) then
    some { lists := Function.update s.lists op.kind ((s.lists op.kind).putaside op.p op.now)
           now := op.now
           last := some op.kind }
  else none

/-- No element is freed before its 5000 ms are over and none twice, and those whose time is over at
the last call are freed. -/
structure Honours (s : State) : Prop where
  late : ∀ k, ∀ f ∈ (s.lists k).freed, f.1.put + 5000 ≤ f.2
  once : ∀ k, ((s.lists k).freed.map (·.1.p)).Nodup
  due : ∀ k ∈ s.last, ∀ e ∈ (s.lists k).aside, e.put + 5000 < s.now →
    e ∈ (s.lists k).freed.map (·.1)

/-- A call that finds on its list only elements put aside 5000 ms before, or whose time wraps. -/
def Meets (s : State) (op : Op) : Prop :=
  ∀ e ∈ (s.lists op.kind).list, op.now = e.put + 5000 ∨ 4294967296 ≤ e.put + 5000

end State

/-! ### One list -/

theorem walk_fst (now : ℕ) (l : List Elem) :
    (walk now l).1 = l.filter (fun e => ¬now < e.expire) := by
  induction l with
  | nil => rfl
  | cons e l ih =>
    rw [walk, List.filter_cons]
    by_cases he : now < e.expire
    · rw [if_pos he, if_neg (by simpa using he), ih]
    · rw [if_neg he, if_pos (by simpa using he), ih]

theorem walk_snd (now : ℕ) (l : List Elem) :
    (walk now l).2 = l.filter (fun e => now < e.expire) := by
  induction l with
  | nil => rfl
  | cons e l ih =>
    rw [walk, List.filter_cons]
    by_cases he : now < e.expire
    · rw [if_pos he, if_pos (by simpa using he), ih]
    · rw [if_neg he, if_neg (by simpa using he), ih]

theorem mem_walk_fst {now : ℕ} {l : List Elem} {e : Elem} :
    e ∈ (walk now l).1 ↔ e ∈ l ∧ ¬now < e.expire := by
  rw [walk_fst, List.mem_filter, decide_eq_true_iff]

theorem mem_walk_snd {now : ℕ} {l : List Elem} {e : Elem} :
    e ∈ (walk now l).2 ↔ e ∈ l ∧ now < e.expire := by
  rw [walk_snd, List.mem_filter, decide_eq_true_iff]

/-- What is on the list stays there or is freed. -/
theorem walk_perm (now : ℕ) (l : List Elem) : ((walk now l).2 ++ (walk now l).1).Perm l := by
  rw [walk_fst, walk_snd]
  simp only [decide_not]
  exact List.filter_append_perm _ _

namespace Aside

/-- What is put aside is on the list or freed, each element once, and was put aside before `now`. -/
structure Inv (a : Aside) (now : ℕ) : Prop where
  perm : (a.freed.map (·.1) ++ a.list).Perm a.aside
  nodup : (a.aside.map (·.p)).Nodup
  expire : ∀ e ∈ a.list, e.expire = ulong (e.put + 5000)
  put : ∀ e ∈ a.list, e.put ≤ now

variable {a : Aside} {p now later : ℕ}

theorem Inv.mono (h : a.Inv now) (hl : now ≤ later) : a.Inv later :=
  ⟨h.perm, h.nodup, h.expire, fun e he => (h.put e he).trans hl⟩

/-- Nothing is freed twice. -/
theorem Inv.nodup_freed (h : a.Inv now) : (a.freed.map (·.1.p)).Nodup := by
  have hall := ((h.perm.map (·.p)).nodup_iff).mpr h.nodup
  rw [List.map_append, List.map_map] at hall
  exact hall.of_append_left

theorem Inv.putaside (h : a.Inv now) (hp : p ∉ a.aside.map (·.p)) (hl : now ≤ later) :
    (a.putaside p later).Inv later := by
  refine ⟨?_, ?_, ?_, ?_⟩
  · have hfreed : (a.freed ++ (walk later a.list).2.map (·, later)).map (·.1) =
        a.freed.map (·.1) ++ (walk later a.list).2 := by
      rw [List.map_append, List.map_map]
      exact congrArg _ (List.map_id _)
    show (List.map _ (a.freed ++ (walk later a.list).2.map (·, later)) ++ (_ ++ _)).Perm _
    rw [hfreed, List.append_assoc, ← List.append_assoc (walk later a.list).2,
      ← List.append_assoc]
    exact (((walk_perm later a.list).append_left _).trans h.perm).append_right _
  · show (List.map _ (a.aside ++ [_])).Nodup
    rw [List.map_append, List.nodup_append]
    refine ⟨h.nodup, List.nodup_singleton _, ?_⟩
    intro q hq r hr
    rw [List.mem_singleton.mp hr]
    exact ne_of_mem_of_not_mem hq hp
  · intro e he
    rcases List.mem_append.mp he with he | he
    · exact h.expire e (mem_walk_fst.mp he).1
    · rw [List.mem_singleton.mp he]
  · intro e he
    rcases List.mem_append.mp he with he | he
    · exact (h.put e (mem_walk_fst.mp he).1).trans hl
    · rw [List.mem_singleton.mp he]

/-- What a call frees is freed in time, and all that is due, when each element of its list is put
aside just 5000 ms before, or its time wraps. -/
theorem Inv.meets_iff (h : a.Inv now) (hl : now ≤ later) (hw : later < 4294967296) :
    ((∀ f ∈ (walk later a.list).2, f.put + 5000 ≤ later) ∧
      (∀ e ∈ (walk later a.list).1, ¬e.put + 5000 < later)) ↔
      ∀ e ∈ a.list, later = e.put + 5000 ∨ 4294967296 ≤ e.put + 5000 := by
  have hone : ∀ e ∈ a.list, (e.expire : ℤ) = ((e.put : ℤ) + 5000) % 4294967296 ∧ e.put ≤ later := by
    intro e he
    have hexp := h.expire e he
    have hput := h.put e he
    rw [hexp, ulong]
    omega
  constructor
  · rintro ⟨hfreed, hkept⟩ e he
    obtain ⟨hexp, hput⟩ := hone e he
    by_cases hnow : later < e.expire
    · have hlate := hfreed e (mem_walk_snd.mpr ⟨he, hnow⟩)
      omega
    · have hdue := hkept e (mem_walk_fst.mpr ⟨he, hnow⟩)
      omega
  · intro hmeets
    constructor
    · intro e he
      obtain ⟨hmem, hnow⟩ := mem_walk_snd.mp he
      obtain ⟨hexp, hput⟩ := hone e hmem
      have heq := hmeets e hmem
      omega
    · intro e he hdue
      obtain ⟨hmem, hnow⟩ := mem_walk_fst.mp he
      obtain ⟨hexp, hput⟩ := hone e hmem
      have heq := hmeets e hmem
      omega

theorem mem_freed_putaside {f : Elem × ℕ} : f ∈ (a.putaside p later).freed ↔
    f ∈ a.freed ∨ f.1 ∈ (walk later a.list).2 ∧ f.2 = later := by
  obtain ⟨e, t⟩ := f
  simp only [putaside, List.mem_append, List.mem_map, Prod.mk.injEq, eq_comm (a := later)]
  refine or_congr_right ⟨?_, fun h => ⟨e, h.1, rfl, h.2⟩⟩
  rintro ⟨e, he, rfl, rfl⟩
  exact ⟨he, rfl⟩

/-- What is due after a call is freed just when the call leaves nothing due on the list. -/
theorem Inv.due_iff (h : (a.putaside p later).Inv later) :
    (∀ e ∈ (a.putaside p later).aside, e.put + 5000 < later →
      e ∈ (a.putaside p later).freed.map (·.1)) ↔
      ∀ e ∈ (walk later a.list).1, ¬e.put + 5000 < later := by
  have hmem : ∀ e, e ∈ (a.putaside p later).aside ↔
      e ∈ (a.putaside p later).freed.map (·.1) ∨ e ∈ (a.putaside p later).list := by
    intro e
    rw [← h.perm.mem_iff, List.mem_append]
  have hnodup : ((a.putaside p later).freed.map (·.1) ++ (a.putaside p later).list).Nodup :=
    h.perm.nodup_iff.mpr (List.Nodup.of_map _ h.nodup)
  constructor
  · intro hall e he hdue
    have hlist : e ∈ (a.putaside p later).list := List.mem_append_left _ he
    have hfreed := hall e ((hmem e).mpr (.inr hlist)) hdue
    exact (List.disjoint_of_nodup_append hnodup) hfreed hlist
  · intro hkept e he hdue
    rcases (hmem e).mp he with hfreed | hlist
    · exact hfreed
    · rcases List.mem_append.mp hlist with hl | hl
      · exact absurd hdue (hkept e hl)
      · rw [List.mem_singleton.mp hl] at hdue
        exact absurd hdue (by simp)

end Aside

/-! ### Runs -/

namespace State

def Inv (s : State) : Prop := ∀ k, (s.lists k).Inv s.now

variable {s t : State} {op : Op}

theorem exec_eq (h : s.exec op = some t) :
    (s.now ≤ op.now ∧ op.now < 4294967296 ∧ op.p ∉ (s.lists op.kind).aside.map (·.p)) ∧
      t = { lists := Function.update s.lists op.kind ((s.lists op.kind).putaside op.p op.now)
            now := op.now
            last := some op.kind } := by
  rw [exec] at h
  split_ifs at h with hguard
  exact ⟨hguard, (Option.some.inj h).symm⟩

theorem Inv.exec (hs : s.Inv) (h : s.exec op = some t) : t.Inv := by
  obtain ⟨⟨hnow, -, hp⟩, rfl⟩ := exec_eq h
  intro k
  by_cases hk : k = op.kind
  · subst hk
    show (Function.update s.lists op.kind _ op.kind).Inv op.now
    rw [Function.update_self]
    exact (hs _).putaside hp hnow
  · show (Function.update s.lists op.kind _ k).Inv op.now
    rw [Function.update_of_ne hk]
    exact (hs k).mono hnow

/-- A call honours the grace period just when it meets the condition. -/
theorem honours_exec_iff (hs : s.Inv) (hp : s.Honours) (h : s.exec op = some t) :
    t.Honours ↔ s.Meets op := by
  have ht := hs.exec h
  obtain ⟨⟨hnow, hwrap, -⟩, rfl⟩ := exec_eq h
  have hself : (Function.update s.lists op.kind ((s.lists op.kind).putaside op.p op.now)) op.kind =
      (s.lists op.kind).putaside op.p op.now := Function.update_self ..
  have hkind := ht op.kind
  dsimp only at hkind
  rw [hself] at hkind
  rw [Meets, ← (hs op.kind).meets_iff hnow hwrap]
  constructor
  · intro hh
    constructor
    · intro e he
      have hlate := hh.late op.kind
      dsimp only at hlate
      rw [hself] at hlate
      exact hlate (e, op.now) (Aside.mem_freed_putaside.mpr (.inr ⟨he, rfl⟩))
    · have hdue := hh.due op.kind rfl
      dsimp only at hdue
      rw [hself] at hdue
      exact hkind.due_iff.mp hdue
  · rintro ⟨hfreed, hkept⟩
    refine ⟨?_, fun k => (ht k).nodup_freed, ?_⟩
    · intro k f hf
      dsimp only at hf
      by_cases hk : k = op.kind
      · subst hk
        rw [hself] at hf
        rcases Aside.mem_freed_putaside.mp hf with hf | ⟨hf, hat⟩
        · exact hp.late _ f hf
        · rw [hat]
          exact hfreed _ hf
      · rw [Function.update_of_ne hk] at hf
        exact hp.late k f hf
    · intro k hk
      obtain rfl : op.kind = k := Option.some.inj hk
      dsimp only
      rw [hself]
      exact hkind.due_iff.mpr hkept

end State

theorem inv_init : ({} : State).Inv := fun _ => ⟨.refl _, .nil, nofun, nofun⟩

theorem honours_init : ({} : State).Honours := ⟨fun _ => nofun, fun _ => .nil, fun _ => nofun⟩

/-- A run honours the grace period just when all of its calls meet the condition. -/
theorem honours_iff (ops : List Op) :
    (∀ s ∈ Run.states State.exec {} ops, s.Honours) ↔ Run.Meets State.exec State.Meets {} ops :=
  Run.forall_states_iff State.Inv inv_init honours_init (fun _ _ _ hs _ _ h => hs.exec h)
    (fun _ _ _ hs hp h => State.honours_exec_iff hs hp h) ops

/-- A second link put aside one millisecond after the first frees it. -/
theorem not_honours : ¬∀ ops, ∀ s ∈ Run.states State.exec {} ops, s.Honours := by
  intro h
  let ops : List Op := [.iplinkfree 0 0, .iplinkfree 1 1]
  have hlate : ∀ s ∈ Run.states State.exec {} ops,
      ∀ f ∈ (s.lists .freeiplink).freed, f.1.put + 5000 ≤ f.2 := fun s hs => (h ops s hs).late _
  revert hlate
  decide +kernel

end PlanNine.Linkfree
