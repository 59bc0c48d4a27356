import PlanNine.Lib.Run
import PlanNine.Port.Qlock.Lock

/-!
# The locks are safe

A lock that is handed on stays taken, so that only the process it is handed to has it; and the
process in front of the queue of a read-write lock that no writer holds is a writer, who waits for
the readers.

## Main definitions

* `QLock.Good`, `RWlock.Good`: a lock, and the processes in its queue.
* `Inv`: all locks are good, and the queues are strung right.
* `Safe`: what a lock is for.

## Main results

* `inv_exec`: a step that can be done does not panic, and keeps the invariant.
* `locks_safe_of_run`: the locks are safe in every state reached.
-/

namespace PlanNine.Qlock

/-- A lock that is free has an empty queue, one that is not is held once. -/
structure QLock.Good (w : QLock) (st : ℕ → Status) (ps : List ℕ) : Prop where
  status : ∀ p ∈ ps, st p = .Queueing
  locked : w.holding.length = if w.locked then 1 else 0
  free : w.locked = false → ps = []
  order : w.arrived = w.granted ++ ps

/-- The counts are right, and when no writer holds the lock, readers do and a writer is in front of
its queue, or the queue is empty. -/
structure RWlock.Good (w : RWlock) (st : ℕ → Status) (ps : List ℕ) : Prop where
  status : ∀ p ∈ ps, st p = .QueueingR ∨ st p = .QueueingW
  readers : w.readers = w.reading.length
  writer : w.writing.length = if w.writer then 1 else 0
  excl : w.writer = true → w.reading = []
  front : ∀ p, ps.head? = some p → w.writer = false → st p = .QueueingW ∧ w.reading ≠ []
  order : w.arrived = w.granted ++ ps

/-- The processes in the queues are stopped, as are those that were handed a lock, which are in no
queue. -/
structure Queues (nproc : ℕ) (st : ℕ → Status) (handed : List ℕ) (q : Wait → List ℕ) : Prop where
  lt : ∀ l, ∀ p ∈ q l, p < nproc
  stopped : ∀ l, ∀ p ∈ q l, st p ≠ .Running
  out : ∀ p ∈ handed, st p ≠ .Running ∧ ∀ l, p ∉ q l
  nodup : handed.Nodup

structure Inv (nproc : ℕ) (t : State) (q : Wait → List ℕ) : Prop where
  holds : t.fifo.Holds q
  queues : Queues nproc t.state t.handed q
  ql : ∀ i, (t.ql i).Good t.state (q (.q i))
  rw : ∀ i, (t.rw i).Good t.state (q (.rw i))

/-! ### Queues -/

variable {nproc i p : ℕ} {l : Wait} {fifo : Fifo Wait} {st st' : ℕ → Status} {handed ps : List ℕ}
  {q q' : Wait → List ℕ} {s : Status}

/-- A process that runs is in no queue. -/
theorem Queues.ne_of_mem (h : Queues nproc st handed q) (hp : st p = .Running) {r : ℕ}
    (hr : r ∈ q l) : r ≠ p := by
  rintro rfl
  exact h.stopped l r hr hp

/-- A process that runs stops in a queue. -/
theorem Queues.queue (h : Queues nproc st handed q) (l : Wait) (hp : st p = .Running)
    (hlt : p < nproc) (hs : s ≠ .Running) :
    Queues nproc (Function.update st p s) handed (Function.update q l (q l ++ [p])) := by
  have hnot : ∀ l, p ∉ q l := fun l hin => h.ne_of_mem hp hin rfl
  have hmem : ∀ l' r, r ∈ Function.update q l (q l ++ [p]) l' → r = p ∨ r ∈ q l' := by
    intro l' r hr
    by_cases hl : l' = l
    · subst hl
      rw [Function.update_self] at hr
      obtain hr | hr := List.mem_append.mp hr
      · exact .inr hr
      · exact .inl (List.mem_singleton.mp hr)
    · rw [Function.update_of_ne hl] at hr
      exact .inr hr
  have hstop : ∀ r, r ≠ p → Function.update st p s r = st r := fun r hr =>
    Function.update_of_ne hr _ _
  refine ⟨fun l' r hr => ?_, fun l' r hr => ?_, fun r hr => ?_, h.nodup⟩
  · obtain rfl | hr := hmem l' r hr
    · exact hlt
    · exact h.lt l' r hr
  · obtain rfl | hr := hmem l' r hr
    · rw [Function.update_self]
      exact hs
    · rw [hstop r (h.ne_of_mem hp hr)]
      exact h.stopped l' r hr
  · obtain ⟨hrun, hout⟩ := h.out r hr
    have hne : r ≠ p := fun heq => hrun (heq ▸ hp)
    rw [hstop r hne]
    exact ⟨hrun, fun l' hin => (hmem l' r hin).elim hne (hout l')⟩

/-- What is left of the queues when the first process of one is taken off. -/
theorem mem_of_tail (hq : q l = p :: ps) {l' : Wait} {r : ℕ}
    (hr : r ∈ Function.update q l ps l') : r ∈ q l' := by
  by_cases hl : l' = l
  · subst hl
    rw [Function.update_self] at hr
    rw [hq]
    exact List.mem_cons_of_mem _ hr
  · rwa [Function.update_of_ne hl] at hr

/-- The first process of a queue is in no queue once it is taken off. -/
theorem not_mem_tail (h : fifo.Strung q) (hq : q l = p :: ps) (l' : Wait) :
    p ∉ Function.update q l ps l' := by
  intro hin
  have hmem : p ∈ q l := hq ▸ List.mem_cons_self
  obtain rfl := h.disjoint l l' p hmem (mem_of_tail hq hin)
  rw [Function.update_self] at hin
  have hnodup := h.nodup l
  rw [hq] at hnodup
  exact (List.nodup_cons.mp hnodup).1 hin

/-- The first process of a queue is handed the lock. -/
theorem Queues.hand (h : Queues nproc st handed q) (hs : fifo.Strung q) (hq : q l = p :: ps) :
    Queues nproc st (p :: handed) (Function.update q l ps) := by
  have hmem : p ∈ q l := hq ▸ List.mem_cons_self
  refine ⟨fun l' r hr => h.lt l' r (mem_of_tail hq hr),
    fun l' r hr => h.stopped l' r (mem_of_tail hq hr), fun r hr => ?_,
    List.nodup_cons.mpr ⟨fun hin => (h.out p hin).2 l hmem, h.nodup⟩⟩
  obtain rfl | hr := List.mem_cons.mp hr
  · exact ⟨h.stopped l r hmem, not_mem_tail hs hq⟩
  · obtain ⟨hrun, hout⟩ := h.out r hr
    exact ⟨hrun, fun l' hin => hout l' (mem_of_tail hq hin)⟩

/-! ### Locks -/

theorem QLock.Good.congr {w : QLock} (h : w.Good st ps) (hst : ∀ p ∈ ps, st' p = st p) :
    w.Good st' ps :=
  ⟨fun p hp => (hst p hp).trans (h.status p hp), h.locked, h.free, h.order⟩

theorem RWlock.Good.congr {w : RWlock} (h : w.Good st ps) (hst : ∀ p ∈ ps, st' p = st p) :
    w.Good st' ps := by
  refine ⟨fun p hp => ?_, h.readers, h.writer, h.excl, fun p hp hw => ?_, h.order⟩
  · rw [hst p hp]
    exact h.status p hp
  · rw [hst p (List.mem_of_head? hp)]
    exact h.front p hp hw

variable {t : State} {handed' : List ℕ} {fifo' : Fifo Wait}

theorem Inv.put (h : Inv nproc t q) (hr : t.Runs nproc p) (l : Wait) :
    (t.fifo.put l p).Holds (Function.update q l (q l ++ [p])) :=
  h.holds.put l fun _ hin => h.queues.ne_of_mem hr.2 hin rfl

/-- A step on one queueing lock. -/
theorem Inv.withQ (h : Inv nproc t q) {w : QLock} (hf : fifo'.Holds q')
    (hq : Queues nproc st' handed' q')
    (hgood : w.Good st' (q' (.q i)))
    (hother : ∀ l ≠ .q i, q' l = q l ∧ ∀ p ∈ q l, st' p = t.state p) :
    Inv nproc { t.setQ i w with fifo := fifo', state := st', handed := handed' } q' := by
  refine ⟨hf, hq, fun j => ?_, fun j => ?_⟩
  · by_cases hj : j = i
    · subst hj
      dsimp only [State.setQ]
      rw [Function.update_self]
      exact hgood
    · obtain ⟨heq, hst⟩ := hother (.q j) fun heq => hj (Wait.q.inj heq)
      dsimp only [State.setQ]
      rw [Function.update_of_ne hj, heq]
      exact (h.ql j).congr hst
  · obtain ⟨heq, hst⟩ := hother (.rw j) nofun
    dsimp only [State.setQ]
    rw [heq]
    exact (h.rw j).congr hst

/-- A step on one read-write lock. -/
theorem Inv.withRW (h : Inv nproc t q) {w : RWlock} (hf : fifo'.Holds q')
    (hq : Queues nproc st' handed' q')
    (hgood : w.Good st' (q' (.rw i)))
    (hother : ∀ l ≠ .rw i, q' l = q l ∧ ∀ p ∈ q l, st' p = t.state p) :
    Inv nproc { t.setRW i w with fifo := fifo', state := st', handed := handed' } q' := by
  refine ⟨hf, hq, fun j => ?_, fun j => ?_⟩
  · obtain ⟨heq, hst⟩ := hother (.q j) nofun
    dsimp only [State.setRW]
    rw [heq]
    exact (h.ql j).congr hst
  · by_cases hj : j = i
    · subst hj
      dsimp only [State.setRW]
      rw [Function.update_self]
      exact hgood
    · obtain ⟨heq, hst⟩ := hother (.rw j) fun heq => hj (Wait.rw.inj heq)
      dsimp only [State.setRW]
      rw [Function.update_of_ne hj, heq]
      exact (h.rw j).congr hst

/-- The other queues, when a process that runs stops in one. -/
theorem Queues.others_queue (h : Queues nproc st handed q) (hp : st p = .Running) :
    ∀ l' ≠ l, Function.update q l (q l ++ [p]) l' = q l' ∧
      ∀ r ∈ q l', Function.update st p s r = st r :=
  fun _ hl' => ⟨Function.update_of_ne hl' _ _,
    fun _ hr => Function.update_of_ne (h.ne_of_mem hp hr) _ _⟩

theorem others_hand : ∀ l' ≠ l, Function.update q l ps l' = q l' ∧ ∀ r ∈ q l', st r = st r :=
  fun _ hl' => ⟨Function.update_of_ne hl' _ _, fun _ _ => rfl⟩

/-! ### Queueing locks -/

/-- A free lock is given. -/
theorem QLock.Good.give {w : QLock} (h : w.Good st ps) (hw : w.locked = false) (p : ℕ) :
    ({ (w.asked p).given p with locked := true } : QLock).Good st ps := by
  have hnil := h.free hw
  subst hnil
  have hlen := h.locked
  have horder := h.order
  rw [hw, if_neg Bool.false_ne_true] at hlen
  refine ⟨nofun, ?_, nofun, ?_⟩
  · dsimp only [QLock.given, QLock.asked]
    rw [List.length_cons, hlen, if_pos rfl]
  · dsimp only [QLock.given, QLock.asked]
    rw [horder, List.append_nil, List.append_nil]

theorem inv_qlock (h : Inv nproc t q) (hr : t.Runs nproc p) (i : ℕ) :
    ∃ q', Inv nproc (qlock t i p) q' := by
  have hg := h.ql i
  unfold qlock
  dsimp only
  split
  · rename_i hfree
    exact ⟨q, h.withQ h.holds h.queues (hg.give hfree p) fun l _ => ⟨rfl, fun _ _ => rfl⟩⟩
  · rename_i htaken
    refine ⟨_, h.withQ (h.put hr (.q i))
      (h.queues.queue (.q i) hr.2 hr.1 (s := .Queueing) nofun) ?_
      (h.queues.others_queue hr.2)⟩
    rw [Function.update_self]
    refine ⟨fun r hr' => ?_, hg.locked, fun hw => absurd hw htaken, ?_⟩
    · obtain hr' | hr' := List.mem_append.mp hr'
      · rw [Function.update_of_ne (h.queues.ne_of_mem hr.2 hr')]
        exact hg.status r hr'
      · rw [List.mem_singleton.mp hr', Function.update_self]
    · dsimp only [QLock.asked]
      rw [hg.order, List.append_assoc]

theorem inv_canqlock (h : Inv nproc t q) (can : Bool) (i p : ℕ) :
    ∃ q', Inv nproc (canqlock t can i p) q' := by
  unfold canqlock
  dsimp only
  split
  · exact ⟨q, h⟩
  split
  · exact ⟨q, h⟩
  · rename_i hfree
    exact ⟨q, h.withQ h.holds h.queues ((h.ql i).give (Bool.not_eq_true _ ▸ hfree) p)
      fun l _ => ⟨rfl, fun _ _ => rfl⟩⟩

/-- Who lets a lock go held it alone. -/
theorem QLock.Good.leave {w : QLock} (h : w.Good st ps) (hp : p ∈ w.holding) :
    w.locked = true ∧ (w.left p).holding = [] := by
  have hlen := h.locked
  have hpos := List.length_pos_of_mem hp
  have hlocked : w.locked = true := by
    by_contra hw
    rw [if_neg hw] at hlen
    omega
  refine ⟨hlocked, List.length_eq_zero_iff.mp ?_⟩
  rw [if_pos hlocked] at hlen
  rw [QLock.left, List.length_erase_of_mem hp, hlen]

theorem inv_qunlock (h : Inv nproc t q) (hp : p ∈ (t.ql i).holding) :
    ∃ q', Inv nproc (qunlock t i p) q' := by
  have hg := h.ql i
  obtain ⟨hlocked, hnone⟩ := hg.leave hp
  unfold qunlock
  dsimp only
  rw [h.holds.head]
  cases hq : q (.q i) with
  | nil =>
    refine ⟨q, h.withQ h.holds h.queues ?_ fun l _ => ⟨rfl, fun _ _ => rfl⟩⟩
    refine ⟨hg.status, ?_, fun _ => hq, hg.order⟩
    dsimp only
    rw [hnone]
    rfl
  | cons r rs =>
    refine ⟨_, h.withQ (h.holds.take hq)
      (h.queues.hand h.holds.toStrung hq) ?_ others_hand⟩
    rw [Function.update_self]
    have horder := hg.order
    rw [hq] at horder
    refine ⟨fun r' hr' => hg.status r' (hq ▸ List.mem_cons_of_mem _ hr'), ?_, fun hw => ?_, ?_⟩
    · dsimp only [QLock.given]
      rw [hnone, List.length_singleton]
      exact (if_pos hlocked).symm
    · cases hlocked.symm.trans hw
    · dsimp only [QLock.given, QLock.left]
      rw [horder, List.append_assoc, List.singleton_append]

/-! ### Read-write locks -/

/-- The queue of a lock that no writer holds is empty or has a writer in front, while readers hold
the lock. -/
theorem RWlock.Good.reading_ne {w : RWlock} (h : w.Good st (p :: ps)) (hw : w.writer = false) :
    st p = .QueueingW ∧ w.reading ≠ [] :=
  h.front p rfl hw

/-- A process asks for a lock that it cannot have now. -/
theorem RWlock.Good.queue {w : RWlock} (h : w.Good st ps) (hp : p ∉ ps)
    (hs : s = .QueueingR ∨ s = .QueueingW)
    (hfront : w.writer = false → ps = [] → s = .QueueingW ∧ w.reading ≠ []) :
    (w.asked p).Good (Function.update st p s) (ps ++ [p]) := by
  have hst : ∀ r ∈ ps, Function.update st p s r = st r := fun r hr =>
    Function.update_of_ne (fun heq : r = p => hp (heq ▸ hr)) _ _
  refine ⟨fun r hr => ?_, h.readers, h.writer, h.excl, fun r hr hw => ?_, ?_⟩
  · obtain hr | hr := List.mem_append.mp hr
    · rw [hst r hr]
      exact h.status r hr
    · rw [List.mem_singleton.mp hr, Function.update_self]
      exact hs
  · cases ps with
    | nil =>
      obtain rfl := Option.some.inj hr
      rw [Function.update_self]
      exact hfront hw rfl
    | cons r' rs =>
      obtain rfl := Option.some.inj hr
      rw [hst r' List.mem_cons_self]
      exact h.reading_ne hw
  · dsimp only [RWlock.asked]
    rw [h.order, List.append_assoc]

/-- A lock that no one waits for is given to a reader. -/
theorem RWlock.Good.giveR {w : RWlock} (h : w.Good st []) (hw : w.writer = false) (p : ℕ) :
    ({ (w.asked p).givenR p with readers := w.readers + 1 } : RWlock).Good st [] := by
  refine ⟨nofun, ?_, h.writer, fun hw' => ?_, nofun, ?_⟩
  · dsimp only [RWlock.givenR, RWlock.asked]
    rw [h.readers, List.length_cons, Nat.cast_succ]
  · cases hw.symm.trans hw'
  · dsimp only [RWlock.givenR, RWlock.asked]
    rw [h.order, List.append_nil, List.append_nil]

theorem inv_rlock (h : Inv nproc t q) (hr : t.Runs nproc p) (i : ℕ) :
    ∃ q', Inv nproc (rlock t i p) q' := by
  have hg := h.rw i
  unfold rlock
  dsimp only
  rw [h.holds.head]
  split
  · rename_i hfree
    have hnil : q (.rw i) = [] := List.head?_eq_none_iff.mp hfree.2
    refine ⟨q, h.withRW h.holds h.queues ?_ fun l _ => ⟨rfl, fun _ _ => rfl⟩⟩
    rw [hnil] at hg ⊢
    exact hg.giveR hfree.1 p
  · rename_i hwait
    refine ⟨_, h.withRW (h.put hr (.rw i))
      (h.queues.queue (.rw i) hr.2 hr.1 (s := .QueueingR) nofun) ?_ (h.queues.others_queue hr.2)⟩
    rw [Function.update_self]
    refine hg.queue (fun hin => h.queues.ne_of_mem hr.2 hin rfl) (.inl rfl) fun hw hnil => ?_
    exact absurd ⟨hw, List.head?_eq_none_iff.mpr hnil⟩ hwait

theorem inv_canrlock (h : Inv nproc t q) (i p : ℕ) : ∃ q', Inv nproc (canrlock t i p) q' := by
  have hg := h.rw i
  unfold canrlock
  dsimp only
  rw [h.holds.head]
  split
  · rename_i hfree
    have hnil : q (.rw i) = [] := List.head?_eq_none_iff.mp hfree.2
    refine ⟨q, h.withRW h.holds h.queues ?_ fun l _ => ⟨rfl, fun _ _ => rfl⟩⟩
    rw [hnil] at hg ⊢
    exact hg.giveR hfree.1 p
  · exact ⟨q, h⟩

/-- A lock that has no readers left is given to a writer. -/
theorem RWlock.Good.giveW {w : RWlock} (h : w.Good st ps) (hw : w.writer = false)
    {v : RWlock} (hreading : v.reading = []) (hreaders : v.readers = 0)
    (hwriting : v.writing = w.writing) {rs : List ℕ} (hrs : ∀ r ∈ rs, r ∈ ps)
    (horder : v.arrived = v.granted ++ p :: rs) :
    ({ v.givenW p with writer := true } : RWlock).Good st rs := by
  have hlen := h.writer
  rw [hw, if_neg Bool.false_ne_true] at hlen
  refine ⟨fun r hr => h.status r (hrs r hr), ?_, ?_, fun _ => hreading, nofun, ?_⟩
  · dsimp only [RWlock.givenW]
    rw [hreaders, hreading]
    rfl
  · dsimp only [RWlock.givenW]
    rw [List.length_cons, hwriting, hlen, if_pos rfl]
  · dsimp only [RWlock.givenW]
    rw [horder, List.append_assoc, List.singleton_append]

theorem inv_wlock (h : Inv nproc t q) (hr : t.Runs nproc p) (i : ℕ) :
    ∃ q', Inv nproc (wlock t i p) q' := by
  have hg := h.rw i
  have hreaders : (t.rw i).readers = 0 ↔ (t.rw i).reading = [] := by
    rw [hg.readers, Nat.cast_eq_zero, List.length_eq_zero_iff]
  unfold wlock
  dsimp only
  split
  · rename_i hfree
    obtain ⟨hzero, hw⟩ := hfree
    have hreading := hreaders.mp hzero
    have hnil : q (.rw i) = [] := by
      cases hq : q (.rw i) with
      | nil => rfl
      | cons r rs =>
        rw [hq] at hg
        exact absurd hreading (hg.reading_ne hw).2
    refine ⟨q, h.withRW h.holds h.queues ?_ fun l _ => ⟨rfl, fun _ _ => rfl⟩⟩
    rw [hnil] at hg ⊢
    refine hg.giveW (v := (t.rw i).asked p) hw hreading hzero rfl (fun _ hr' => hr') ?_
    dsimp only [RWlock.asked]
    rw [hg.order, List.append_nil]
  · rename_i hwait
    refine ⟨_, h.withRW (h.put hr (.rw i))
      (h.queues.queue (.rw i) hr.2 hr.1 (s := .QueueingW) nofun) ?_ (h.queues.others_queue hr.2)⟩
    rw [Function.update_self]
    refine hg.queue (fun hin => h.queues.ne_of_mem hr.2 hin rfl) (.inr rfl) fun hw _ => ⟨rfl, ?_⟩
    exact fun hnil => hwait ⟨hreaders.mpr hnil, hw⟩

/-- Readers hold no lock that a writer holds. -/
theorem RWlock.Good.not_writer {w : RWlock} (h : w.Good st ps) (hp : p ∈ w.reading) :
    w.writer = false := by
  by_contra hw
  rw [h.excl (Bool.of_not_eq_false hw)] at hp
  cases hp

theorem inv_runlock (h : Inv nproc t q) (hp : p ∈ (t.rw i).reading) :
    ∃ t' q', runlock t i p = some t' ∧ Inv nproc t' q' := by
  have hg := h.rw i
  have hw := hg.not_writer hp
  have hlen : ((t.rw i).readers - 1 : ℤ) = ((t.rw i).reading.erase p).length := by
    have hpos := List.length_pos_of_mem hp
    rw [hg.readers, List.length_erase_of_mem hp]
    omega
  -- the lock as the reader leaves it, while others have it
  have hleft : (q (.rw i) = [] ∨ (t.rw i).reading.erase p ≠ []) →
      ({ (t.rw i).leftR p with readers := (t.rw i).readers - 1 } : RWlock).Good t.state
        (q (.rw i)) := by
    intro hor
    refine ⟨hg.status, hlen, hg.writer, fun hw' => ?_, fun r hr _ => ?_, hg.order⟩
    · cases hw.symm.trans hw'
    · refine ⟨(hg.front r hr hw).1, ?_⟩
      refine hor.resolve_left fun hnil => ?_
      rw [hnil] at hr
      cases hr
  unfold runlock
  dsimp only [RWlock.leftR] at hleft ⊢
  rw [h.holds.head]
  cases hq : q (.rw i) with
  | nil =>
    exact ⟨_, q, rfl, h.withRW h.holds h.queues (hleft (.inl hq)) fun l _ => ⟨rfl, fun _ _ => rfl⟩⟩
  | cons r rs =>
    simp only [List.head?_cons]
    split
    · rename_i hmore
      refine ⟨_, q, rfl, h.withRW h.holds h.queues (hleft (.inr fun hnil => ?_))
        fun l _ => ⟨rfl, fun _ _ => rfl⟩⟩
      rw [hlen, hnil] at hmore
      exact absurd hmore (by decide)
    · rename_i hlast
      rw [hq] at hg
      rw [if_neg (not_not.mpr (hg.reading_ne hw).1)]
      have hnil : (t.rw i).reading.erase p = [] := by
        rw [hlen] at hlast
        rw [← List.length_eq_zero_iff]
        omega
      refine ⟨_, _, rfl, h.withRW (h.holds.take hq) (h.queues.hand h.holds.toStrung hq) ?_
        others_hand⟩
      rw [Function.update_self]
      refine hg.giveW (v := { t.rw i with
        readers := (t.rw i).readers - 1
        reading := (t.rw i).reading.erase p }) hw hnil ?_ rfl
        (fun r' hr' => List.mem_cons_of_mem _ hr') hg.order
      dsimp only
      rw [hlen, hnil]
      rfl

/-- While readers are taken off a queue: the pointer to its last process is left for later, and so
is the flag of the writer who lets the lock go. -/
structure Waking (nproc i : ℕ) (t : State) (q : Wait → List ℕ) : Prop where
  strung : t.fifo.Strung q
  queues : Queues nproc t.state t.handed q
  ends : q (.rw i) = [] ∨ t.fifo.tail (.rw i) = (q (.rw i)).getLast?
  tail : ∀ l ≠ .rw i, t.fifo.tail l = (q l).getLast?
  ql : ∀ j, (t.ql j).Good t.state (q (.q j))
  others : ∀ j ≠ i, (t.rw j).Good t.state (q (.rw j))
  status : ∀ p ∈ q (.rw i), t.state p = .QueueingR ∨ t.state p = .QueueingW
  readers : (t.rw i).readers = (t.rw i).reading.length
  writing : (t.rw i).writing = []
  order : (t.rw i).arrived = (t.rw i).granted ++ q (.rw i)

/-- One reader is taken off and made ready. -/
theorem Waking.wake (h : Waking nproc i t q) (hq : q (.rw i) = p :: ps) :
    Waking nproc i (t.wake i p) (Function.update q (.rw i) ps) := by
  have hin : p ∈ q (.rw i) := hq ▸ List.mem_cons_self
  have hst : ∀ l, ∀ r ∈ Function.update q (.rw i) ps l,
      Function.update t.state p .Running r = t.state r := by
    refine fun l r hr => Function.update_of_ne ?_ _ _
    rintro rfl
    exact not_mem_tail h.strung hq l hr
  have hother : ∀ l ≠ .rw i, Function.update q (.rw i) ps l = q l := fun l hl =>
    Function.update_of_ne hl _ _
  have horder := h.order
  rw [hq] at horder
  have hqueues : Queues nproc (t.wake i p).state t.handed (Function.update q (.rw i) ps) := by
    refine ⟨fun l r hr => h.queues.lt l r (mem_of_tail hq hr), fun l r hr => ?_, fun r hr => ?_,
      h.queues.nodup⟩
    · exact (hst l r hr).trans_ne (h.queues.stopped l r (mem_of_tail hq hr))
    · obtain ⟨hrun, hout⟩ := h.queues.out r hr
      have hne : r ≠ p := fun heq => hout _ (heq ▸ hin)
      exact ⟨(Function.update_of_ne hne _ _).trans_ne hrun, fun l hl => hout l (mem_of_tail hq hl)⟩
  refine ⟨h.strung.pop hq, hqueues, ?_, fun l hl => ?_, fun j => ?_, fun j hj => ?_,
    fun r hr => ?_, ?_, ?_, ?_⟩
  all_goals dsimp only [State.wake, State.setRW]
  · rw [Function.update_self]
    cases ps with
    | nil => exact .inl rfl
    | cons r rs =>
      have hends := h.ends
      rw [hq] at hends
      exact .inr ((hends.resolve_left nofun).trans List.getLast?_cons_cons)
  · rw [hother l hl]
    exact h.tail l hl
  · have hne : Wait.q j ≠ .rw i := nofun
    have hgood := (h.ql j).congr (fun r hr => hst (.q j) r (by rwa [hother _ hne]))
    rwa [hother _ hne]
  · have hne : Wait.rw j ≠ .rw i := fun heq => hj (Wait.rw.inj heq)
    have hgood := (h.others j hj).congr (fun r hr => hst (.rw j) r (by rwa [hother _ hne]))
    rwa [hother _ hne, Function.update_of_ne hj]
  · rw [hst _ r hr]
    exact h.status r (mem_of_tail hq hr)
  all_goals rw [Function.update_self]
  · dsimp only [RWlock.givenR]
    rw [h.readers, List.length_cons, Nat.cast_succ]
  · exact h.writing
  · rw [Function.update_self]
    dsimp only [RWlock.givenR]
    rw [horder, List.append_assoc, List.singleton_append]

/-- The loop takes off all readers in front. -/
theorem wakeReaders_spec (ps : List ℕ) : ∀ (fuel : ℕ) (t : State) (q : Wait → List ℕ),
    Waking nproc i t q → q (.rw i) = ps → ps.length < fuel →
    ∃ t' q', wakeReaders i fuel t = some t' ∧ Waking nproc i t' q' ∧
      (∀ r, (q' (.rw i)).head? = some r → t'.state r = .QueueingW) ∧
      ((t.rw i).reading ≠ [] ∨ (∃ r, ps.head? = some r ∧ t.state r = .QueueingR) →
        (t'.rw i).reading ≠ []) := by
  induction ps with
  | nil =>
    intro fuel t q h hq hfuel
    cases fuel with
    | zero => exact absurd hfuel (Nat.not_lt_zero _)
    | succ fuel =>
      unfold wakeReaders
      rw [h.strung.head, hq]
      refine ⟨t, q, rfl, h, fun r hr => ?_, fun hor => ?_⟩
      · rw [hq] at hr
        cases hr
      · obtain hne | ⟨r, hr, -⟩ := hor
        · exact hne
        · cases hr
  | cons p ps ih =>
    intro fuel t q h hq hfuel
    cases fuel with
    | zero => exact absurd hfuel (Nat.not_lt_zero _)
    | succ fuel =>
      unfold wakeReaders
      rw [h.strung.head, hq]
      simp only [List.head?_cons]
      split
      · obtain ⟨t', q', hwake, hw, hfront, hreading⟩ := ih fuel _ _ (h.wake hq)
          (Function.update_self _ _ _) (Nat.lt_of_succ_lt_succ hfuel)
        refine ⟨t', q', hwake, hw, hfront, fun _ => hreading (.inl ?_)⟩
        simp [State.wake, State.setRW, RWlock.givenR]
      · rename_i hnot
        refine ⟨t, q, rfl, h, fun r hr => ?_, fun hor => ?_⟩
        · rw [hq] at hr
          obtain rfl := Option.some.inj hr
          exact (h.status p (hq ▸ List.mem_cons_self)).resolve_left hnot
        · obtain hne | ⟨r, hr, hR⟩ := hor
          · exact hne
          · obtain rfl := Option.some.inj hr
            exact absurd hR hnot

/-- Who writes holds the lock alone. -/
theorem RWlock.Good.leaveW {w : RWlock} (h : w.Good st ps) (hp : p ∈ w.writing) :
    w.writer = true ∧ w.reading = [] ∧ w.writing.erase p = [] := by
  have hlen := h.writer
  have hpos := List.length_pos_of_mem hp
  have hw : w.writer = true := by
    by_contra hw
    rw [if_neg hw] at hlen
    omega
  refine ⟨hw, h.excl hw, List.length_eq_zero_iff.mp ?_⟩
  rw [if_pos hw] at hlen
  rw [List.length_erase_of_mem hp, hlen]

theorem inv_wunlock (h : Inv nproc t q) (hp : p ∈ (t.rw i).writing) :
    ∃ t' q', wunlock t nproc i p = some t' ∧ Inv nproc t' q' := by
  have hg := h.rw i
  obtain ⟨hw, hreading, hwriting⟩ := hg.leaveW hp
  have hreaders : (t.rw i).readers = 0 := by
    rw [hg.readers, hreading]
    rfl
  unfold wunlock
  dsimp only [RWlock.leftW]
  rw [h.holds.head]
  cases hq : q (.rw i) with
  | nil =>
    refine ⟨_, q, rfl, h.withRW h.holds h.queues ?_ fun l _ => ⟨rfl, fun _ _ => rfl⟩⟩
    refine ⟨hg.status, hg.readers, ?_, nofun, fun r hr => ?_, hg.order⟩
    · dsimp only
      rw [hwriting]
      rfl
    · rw [hq] at hr
      cases hr
  | cons r rs =>
    simp only [List.head?_cons]
    have hstatus := hg.status r (hq ▸ List.mem_cons_self)
    have horder := hg.order
    rw [hq] at horder
    split
    · refine ⟨_, _, rfl, h.withRW (h.holds.take hq) (h.queues.hand h.holds.toStrung hq) ?_
        others_hand⟩
      rw [Function.update_self]
      refine ⟨fun r' hr' => hg.status r' (hq ▸ List.mem_cons_of_mem _ hr'), hg.readers, ?_,
        fun _ => hreading, fun r' _ hw' => ?_, ?_⟩
      · dsimp only [RWlock.givenW]
        rw [hwriting, hw]
        rfl
      · cases hw.symm.trans hw'
      · dsimp only [RWlock.givenW]
        rw [horder, List.append_assoc, List.singleton_append]
    · rename_i hnot
      have hR := hstatus.resolve_right hnot
      rw [if_neg (not_not.mpr hR)]
      have hlen : (r :: rs).length < nproc + 1 := by
        rw [← hq]
        exact Nat.lt_succ_of_le (Links.length_le_of_nodup (h.holds.nodup _) (h.queues.lt _))
      have hwaking : Waking nproc i
          (t.setRW i { t.rw i with writing := (t.rw i).writing.erase p }) q := by
        refine ⟨h.holds.toStrung, h.queues, .inr (h.holds.tail _), fun l _ => h.holds.tail l, h.ql,
          fun j hj => ?_, hg.status, ?_, ?_, ?_⟩
        · dsimp only [State.setRW]
          rw [Function.update_of_ne hj]
          exact h.rw j
        all_goals
          dsimp only [State.setRW]
          rw [Function.update_self]
        · exact hg.readers
        · exact hwriting
        · exact hg.order
      obtain ⟨t', q', hwake, hend, hfront, hreading'⟩ :=
        wakeReaders_spec (r :: rs) _ _ _ hwaking hq hlen
      rw [hwake, Option.map_some]
      refine ⟨_, q', rfl, hend.strung.settle hend.ends hend.tail, hend.queues, hend.ql, fun j => ?_⟩
      by_cases hj : j = i
      · subst hj
        dsimp only [State.setRW]
        rw [Function.update_self]
        refine ⟨hend.status, hend.readers, ?_, nofun, fun r' hr' _ => ⟨hfront r' hr', ?_⟩,
          hend.order⟩
        · dsimp only
          rw [hend.writing]
          rfl
        · exact hreading' (.inr ⟨r, rfl, hR⟩)
      · dsimp only [State.setRW]
        rw [Function.update_of_ne hj]
        exact hend.others j hj

/-! ### Runs -/

theorem inv_ready (h : Inv nproc t q) (hp : p ∈ t.handed) : Inv nproc (ready t p) q := by
  have hout := (h.queues.out p hp).2
  have hst : ∀ l, ∀ r ∈ q l, Function.update t.state p .Running r = t.state r := by
    refine fun l r hr => Function.update_of_ne ?_ _ _
    rintro rfl
    exact hout l hr
  refine ⟨h.holds, ⟨h.queues.lt, fun l r hr => ?_, fun r hr => ?_, h.queues.nodup.erase p⟩,
    fun j => (h.ql j).congr (hst (.q j)), fun j => (h.rw j).congr (hst (.rw j))⟩
  · exact (hst l r hr).trans_ne (h.queues.stopped l r hr)
  · obtain ⟨hne, hin⟩ := h.queues.nodup.mem_erase_iff.mp hr
    obtain ⟨hrun, hout'⟩ := h.queues.out r hin
    exact ⟨(Function.update_of_ne hne _ _).trans_ne hrun, hout'⟩

/-- A step that can be done does not panic, and keeps the invariant. -/
theorem inv_exec {op : Op} (h : Inv nproc t q) (ha : Able nproc t op) :
    ∃ t' q', exec nproc t op = some t' ∧ Inv nproc t' q' := by
  have hmade : ∀ {t'}, (∃ q', Inv nproc t' q') → ∃ t'' q', some t' = some t'' ∧ Inv nproc t'' q' :=
    fun ⟨q', hinv⟩ => ⟨_, q', rfl, hinv⟩
  cases op with
  | qlock i p => exact hmade (inv_qlock h ha i)
  | canqlock can i p => exact hmade (inv_canqlock h can i p)
  | qunlock i p => exact hmade (inv_qunlock h ha.2)
  | rlock i p => exact hmade (inv_rlock h ha i)
  | canrlock i p => exact hmade (inv_canrlock h i p)
  | runlock i p => exact inv_runlock h ha.2
  | wlock i p => exact hmade (inv_wlock h ha i)
  | wunlock i p => exact inv_wunlock h ha.2
  | ready p => exact hmade ⟨q, inv_ready h ha⟩

/-- What a queueing lock is for: one process holds it at the most; those that asked for it and were
not given it wait, in the order in which they asked, between the pointers to the first and to the
last one; and no one waits for a lock that is free. -/
structure QLock.Safe (w : QLock) (fifo : Fifo Wait) (l : Wait) : Prop where
  excl : w.holding.length ≤ 1
  order : ∃ ps, fifo.links.Chain (.root l) ps ∧ fifo.tail l = ps.getLast? ∧
    w.arrived = w.granted ++ ps ∧ (w.holding = [] → ps = [])
  locked : w.locked = true ↔ w.holding ≠ []

/-- What a read-write lock is for: one process writes at the most, and no one reads meanwhile; those
that asked for the lock and were not given it wait in the order in which they asked; a reader is in
front only while a writer holds the lock, as all readers in front are given it together; and no one
waits for a lock that is free. -/
structure RWlock.Safe (w : RWlock) (st : ℕ → Status) (fifo : Fifo Wait) (l : Wait) : Prop where
  writer : w.writing.length ≤ 1
  excl : w.writing ≠ [] → w.reading = []
  order : ∃ ps, fifo.links.Chain (.root l) ps ∧ fifo.tail l = ps.getLast? ∧
    w.arrived = w.granted ++ ps ∧
    (∀ p, ps.head? = some p → st p = .QueueingR → w.writing ≠ []) ∧
    (w.reading = [] → w.writing = [] → ps = [])
  counts : w.readers = w.reading.length ∧ (w.writer = true ↔ w.writing ≠ [])

/-- All locks are safe, and no step that can be done panics. -/
structure Safe (nproc : ℕ) (t : State) : Prop where
  ql : ∀ i, (t.ql i).Safe t.fifo (.q i)
  rw : ∀ i, (t.rw i).Safe t.state t.fifo (.rw i)
  panics : ∀ op, Able nproc t op → exec nproc t op ≠ none

theorem QLock.Good.safe {w : QLock} (h : w.Good st (q l)) (hf : fifo.Holds q) : w.Safe fifo l := by
  have hlen := h.locked
  have hlocked : w.locked = true ↔ w.holding ≠ [] := by
    rw [← List.length_pos_iff, hlen]
    split <;> simp_all
  refine ⟨?_, ⟨q l, hf.chain l, hf.tail l, h.order, fun hnil => h.free ?_⟩, hlocked⟩
  · rw [hlen]
    split <;> decide
  · exact Bool.eq_false_iff.mpr fun hw => hlocked.mp hw hnil

theorem RWlock.Good.safe {w : RWlock} (h : w.Good st (q l)) (hf : fifo.Holds q) :
    w.Safe st fifo l := by
  have hlen := h.writer
  have hwriter : w.writer = true ↔ w.writing ≠ [] := by
    rw [← List.length_pos_iff, hlen]
    split <;> simp_all
  have hfree : w.writing = [] → w.writer = false := fun hnil =>
    Bool.eq_false_iff.mpr fun hw => hwriter.mp hw hnil
  refine ⟨?_, fun hne => h.excl (hwriter.mpr hne), ⟨q l, hf.chain l, hf.tail l, h.order,
    fun p hp hR hnil => ?_, fun hreading hnil => ?_⟩, h.readers, hwriter⟩
  · rw [hlen]
    split <;> decide
  · cases hR.symm.trans (h.front p hp (hfree hnil)).1
  · cases hq : q l with
    | nil => rfl
    | cons p ps =>
      rw [hq] at h
      exact absurd hreading (h.reading_ne (hfree hnil)).2

theorem Inv.safe (h : Inv nproc t q) : Safe nproc t := by
  refine ⟨fun i => (h.ql i).safe h.holds, fun i => (h.rw i).safe h.holds, fun op ha => ?_⟩
  obtain ⟨t', -, ht', -⟩ := inv_exec h ha
  rw [ht']
  nofun

theorem inv_start (nproc : ℕ) : Inv nproc {} fun _ => [] :=
  ⟨Fifo.holds_empty, ⟨nofun, nofun, nofun, List.nodup_nil⟩,
    fun _ => ⟨nofun, rfl, fun _ => rfl, rfl⟩, fun _ => ⟨nofun, rfl, rfl, nofun, nofun, rfl⟩⟩

theorem inv_of_run (h : Run (step nproc) (Able nproc) {} t) : ∃ q, Inv nproc t q := by
  induction h with
  | nil => exact ⟨_, inv_start nproc⟩
  | snoc _ ha hstep ih =>
    obtain ⟨q, hinv⟩ := ih
    obtain ⟨t', q', ht', hinv'⟩ := inv_exec hinv ha
    exact ⟨q', Option.some.inj (ht'.symm.trans hstep) ▸ hinv'⟩

/-- The locks are safe in every state that processes reach which let go only what they hold. -/
theorem locks_safe_of_run (nproc : ℕ) (t : State) (h : Run (step nproc) (Able nproc) {} t) :
    Safe nproc t := by
  obtain ⟨q, hinv⟩ := inv_of_run h
  exact hinv.safe

/-- Two readers and a writer ask for a lock that a writer holds. -/
def batch : List Op :=
  [.wlock 0 0, .rlock 0 1, .rlock 0 2, .wlock 0 3, .wunlock 0 0, .runlock 0 2, .runlock 0 1,
    .ready 3]

/-- The readers are given the lock together, and the writer when both have let it go. -/
theorem safe_batch : ∃ t, (t.rw 0).granted = [0, 1, 2, 3] ∧ (t.rw 0).writing = [3] ∧ Safe 4 t := by
  have hcheck : (batch.foldlM (fun t op => if Able 4 t op then exec 4 t op else none)
      ({} : State)).any (fun t =>
        decide ((t.rw 0).granted = [0, 1, 2, 3] ∧ (t.rw 0).writing = [3])) = true := by
    decide +kernel
  obtain ⟨t, ht, hprops⟩ := (Option.any_eq_true _ _).mp hcheck
  obtain ⟨hgranted, hwriting⟩ := of_decide_eq_true hprops
  exact ⟨t, hgranted, hwriting, locks_safe_of_run 4 t (Run.of_foldlM_of_test ht)⟩

end PlanNine.Qlock
