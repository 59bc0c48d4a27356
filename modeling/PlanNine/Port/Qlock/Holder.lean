import PlanNine.Port.Qlock.Safe

/-!
# Where a process is with a queueing lock

A process that uses a queueing lock is away from it, has called `qlock`, or is past that call. The
counts of a lock tell these places apart, and each routine moves the process that calls it from
place to place and leaves the others where they are. A program that keeps to the places unlocks
only what it holds, and is alone with what it holds.

## Main definitions

* `Place`, `QLock.Has`: the places, and what the counts of a lock say of them.
* `QLock.gone`: how often a process let the lock go.

## Main results

* `has_qlock`, `has_canqlock`, `has_qunlock`: what the routines do to the places.
* `QLock.Has.inside_of_runs`: a process that runs and has called `qlock` holds the lock.
* `QLock.Has.unique`: one process holds the lock.
-/

namespace PlanNine.Qlock

/-- The places of a process: away, in a call of `qlock` or after it, and after it. -/
inductive Place where
  | out | called | inside
  deriving DecidableEq, Repr

/-- The process `r` is at a place with respect to the lock. -/
def QLock.Has (w : QLock) (r : ℕ) : Place → Prop
  | .out => w.arrived.count r = w.granted.count r ∧ w.holding.count r = 0
  | .called => w.arrived.count r = w.granted.count r + 1 ∧ w.holding.count r = 0 ∨
      w.arrived.count r = w.granted.count r ∧ w.holding.count r = 1
  | .inside => w.arrived.count r = w.granted.count r ∧ w.holding.count r = 1

theorem QLock.Has.mem {w : QLock} {r : ℕ} (h : w.Has r .inside) : r ∈ w.holding :=
  List.count_pos_iff.mp (h.2 ▸ one_pos)

variable {nproc i j p r : ℕ} {t : State} {q : Wait → List ℕ} {l : Place}

/-- How often a process waits. -/
theorem Inv.count_waiting (h : Inv nproc t q) (i r : ℕ) :
    (t.ql i).arrived.count r = (t.ql i).granted.count r + (q (.q i)).count r := by
  rw [(h.ql i).order, List.count_append]

/-- A process that runs and has called `qlock` holds the lock. -/
theorem QLock.Has.inside_of_runs (hinv : Inv nproc t q) (hr : t.Runs nproc r)
    (h : (t.ql i).Has r .called) : (t.ql i).Has r .inside := by
  have hcount := hinv.count_waiting i r
  have hout : (q (.q i)).count r = 0 :=
    List.count_eq_zero.mpr fun hin => hinv.queues.stopped _ r hin hr.2
  rcases h with ⟨hasked, -⟩ | hin
  · omega
  · exact hin

/-- One process holds the lock. -/
theorem QLock.Has.unique (hinv : Inv nproc t q) (hp : (t.ql i).Has p .inside)
    (hr : (t.ql i).Has r .inside) : p = r := by
  obtain ⟨-, hnone⟩ := (hinv.ql i).leave hp.mem
  by_contra hne
  have hin : r ∈ ((t.ql i).left p).holding := (List.mem_erase_of_ne (Ne.symm hne)).mpr hr.mem
  rw [hnone] at hin
  cases hin

/-! ### Taking the lock -/

theorem ql_qlock_of_ne (hj : j ≠ i) : (qlock t i p).ql j = t.ql j := by
  unfold qlock
  dsimp only
  split <;> exact Function.update_of_ne hj _ _

theorem ql_canqlock_of_ne (can : Bool) (hj : j ≠ i) : (canqlock t can i p).ql j = t.ql j := by
  unfold canqlock
  dsimp only
  split
  · rfl
  split
  · rfl
  · exact Function.update_of_ne hj _ _

theorem ql_qlock_self : (qlock t i p).ql i =
    if (t.ql i).locked = false then { ((t.ql i).asked p).given p with locked := true }
    else (t.ql i).asked p := by
  unfold qlock
  dsimp only
  split
  · rename_i hfree
    exact (Function.update_self _ _ _).trans (if_pos hfree).symm
  · rename_i htaken
    exact (Function.update_self _ _ _).trans (if_neg htaken).symm

theorem has_qlock (h : (t.ql i).Has p .out) : ((qlock t i p).ql i).Has p .called := by
  obtain ⟨harr, hhold⟩ := h
  rw [ql_qlock_self]
  split
  · exact Or.inr (by simp [QLock.given, QLock.asked, harr, hhold])
  · exact Or.inl (by simp [QLock.asked, harr, hhold])

theorem has_qlock_of_ne (hne : r ≠ p) (h : (t.ql i).Has r l) : ((qlock t i p).ql i).Has r l := by
  have hpr : (p == r) = false := beq_eq_false_iff_ne.mpr hne.symm
  rw [ql_qlock_self]
  split <;> cases l <;>
    simpa [QLock.Has, QLock.given, QLock.asked, List.count_cons, List.count_singleton, hpr] using h

/-- What `canqlock` returns. -/
def gets (t : State) (can : Bool) (i : ℕ) : Bool := can && !(t.ql i).locked

theorem canqlock_of_not_gets {can : Bool} (hg : gets t can i = false) : canqlock t can i p = t := by
  unfold canqlock
  cases can with
  | false => rfl
  | true =>
    have hw : (t.ql i).locked = true := by simpa [gets] using hg
    simp [hw]

theorem ql_canqlock_self {can : Bool} (hg : gets t can i = true) : (canqlock t can i p).ql i =
    { ((t.ql i).asked p).given p with locked := true } := by
  obtain ⟨rfl, hw⟩ : can = true ∧ (t.ql i).locked = false := by simpa [gets] using hg
  unfold canqlock
  dsimp only
  rw [if_neg (not_not_intro rfl), if_neg (by rw [hw]; exact Bool.false_ne_true)]
  exact Function.update_self _ _ _

theorem has_canqlock {can : Bool} (hg : gets t can i = true) (h : (t.ql i).Has p .out) :
    ((canqlock t can i p).ql i).Has p .inside := by
  obtain ⟨harr, hhold⟩ := h
  rw [ql_canqlock_self hg]
  exact ⟨by simp [QLock.given, QLock.asked, harr], by simp [QLock.given, QLock.asked, hhold]⟩

theorem has_canqlock_of_ne {can : Bool} (hne : r ≠ p) (h : (t.ql i).Has r l) :
    ((canqlock t can i p).ql i).Has r l := by
  have hpr : (p == r) = false := beq_eq_false_iff_ne.mpr hne.symm
  cases hg : gets t can i with
  | false => rwa [canqlock_of_not_gets hg]
  | true =>
    rw [ql_canqlock_self hg]
    cases l <;>
      simpa [QLock.Has, QLock.given, QLock.asked, List.count_cons, List.count_singleton, hpr]
        using h

/-! ### Letting the lock go -/

theorem ql_qunlock_of_ne (hj : j ≠ i) : (qunlock t i p).ql j = t.ql j := by
  unfold qunlock
  dsimp only
  split <;> exact Function.update_of_ne hj _ _

theorem ql_qunlock_self (h : Inv nproc t q) : (qunlock t i p).ql i =
    match q (.q i) with
    | r :: _ => ((t.ql i).left p).given r
    | [] => { (t.ql i).left p with locked := false } := by
  unfold qunlock
  dsimp only
  rw [h.holds.head]
  cases q (.q i) <;> exact Function.update_self _ _ _

/-- A process in front of the queue has called `qlock` and was not given the lock. -/
theorem QLock.Has.of_front {rs : List ℕ} (hinv : Inv nproc t q) (hq : q (.q i) = r :: rs)
    (h : (t.ql i).Has r l) :
    (t.ql i).arrived.count r = (t.ql i).granted.count r + 1 ∧ (t.ql i).holding.count r = 0 ∧
      l = .called := by
  have hcount := hinv.count_waiting i r
  rw [hq, List.count_cons_self] at hcount
  cases l with
  | out =>
    obtain ⟨harr, -⟩ := h
    omega
  | inside =>
    obtain ⟨harr, -⟩ := h
    omega
  | called =>
    rcases h with ⟨harr, hhold⟩ | ⟨harr, -⟩
    · exact ⟨harr, hhold, rfl⟩
    · omega

theorem has_qunlock (hinv : Inv nproc t q) (h : (t.ql i).Has p .inside) :
    ((qunlock t i p).ql i).Has p .out := by
  rw [ql_qunlock_self hinv]
  obtain ⟨harr, hhold⟩ := h
  cases hq : q (.q i) with
  | nil => exact ⟨harr, by simp [QLock.left, hhold]⟩
  | cons r rs =>
    have hne : r ≠ p := by
      rintro rfl
      exact absurd (QLock.Has.of_front hinv hq (l := .inside) ⟨harr, hhold⟩).2.2 (by rintro ⟨⟩)
    have hrp : (r == p) = false := beq_eq_false_iff_ne.mpr hne
    constructor
    · simpa [QLock.given, QLock.left, List.count_cons, List.count_singleton, hrp] using harr
    · simp [QLock.given, QLock.left, List.count_cons, hrp, hhold]

theorem has_qunlock_of_ne (hinv : Inv nproc t q) (hne : r ≠ p) (h : (t.ql i).Has r l) :
    ((qunlock t i p).ql i).Has r l := by
  have herase : ((t.ql i).holding.erase p).count r = (t.ql i).holding.count r :=
    List.count_erase_of_ne hne
  rw [ql_qunlock_self hinv]
  cases hq : q (.q i) with
  | nil => cases l <;> simpa [QLock.Has, QLock.left, herase] using h
  | cons f rs =>
    by_cases hf : f = r
    · subst hf
      obtain ⟨harr, hhold, rfl⟩ := h.of_front hinv hq
      exact Or.inr (by simp [QLock.given, QLock.left, harr, herase, hhold])
    · have hfr : (f == r) = false := beq_eq_false_iff_ne.mpr hf
      cases l <;>
        simpa [QLock.Has, QLock.given, QLock.left, herase, List.count_cons, List.count_singleton,
          hfr] using h

/-! ### How often the lock was let go -/

/-- How often a process let the lock go: it was given the lock that often and does not hold it. -/
def QLock.gone (w : QLock) (r : ℕ) : ℤ := w.granted.count r - w.holding.count r

theorem gone_qlock (i p r : ℕ) : ((qlock t i p).ql i).gone r = (t.ql i).gone r := by
  rw [ql_qlock_self]
  split
  · simp only [QLock.gone, QLock.given, QLock.asked, List.count_append, List.count_cons,
      List.count_nil]
    push_cast
    ring
  · rfl

theorem gone_canqlock (can : Bool) (i p r : ℕ) :
    ((canqlock t can i p).ql i).gone r = (t.ql i).gone r := by
  cases hg : gets t can i with
  | false => rw [canqlock_of_not_gets hg]
  | true =>
    rw [ql_canqlock_self hg]
    simp only [QLock.gone, QLock.given, QLock.asked, List.count_append, List.count_cons,
      List.count_nil]
    push_cast
    ring

theorem gone_qunlock (hinv : Inv nproc t q) (hp : p ∈ (t.ql i).holding) (r : ℕ) :
    ((qunlock t i p).ql i).gone r = (t.ql i).gone r + if r = p then 1 else 0 := by
  have hleft : ((t.ql i).left p).gone r = (t.ql i).gone r + if r = p then 1 else 0 := by
    dsimp only [QLock.gone, QLock.left]
    split
    · rename_i heq
      have hpos := List.count_pos_iff.mpr hp
      rw [heq, List.count_erase_self]
      omega
    · rename_i hne
      rw [List.count_erase_of_ne hne, add_zero]
  rw [← hleft, ql_qunlock_self hinv]
  cases q (.q i) with
  | nil => rfl
  | cons f rs =>
    simp only [QLock.gone, QLock.given, List.count_append, List.count_cons, List.count_nil]
    push_cast
    ring

end PlanNine.Qlock
