import PlanNine.Lib.History
import PlanNine.Lib.Rows
import PlanNine.Lib.Run

/-!
# Timers

The list of timers of a processor, after `portclock.c`. A timer is put on the list at its time, and
`timerintr` takes off those whose time has come and calls their functions with the list unlocked. A
function may put timers on the list and take them off, its own one too. When it returns, its timer
is put on again if it has a period.

A timer is known by a number. The interrupt is taken in steps, from one call of a function to the
next, and what a function does are the calls between. What the clock shows is an input each time it
is read. Other processors, which have lists of their own, are left out. What has happened to the
timers is recorded.

## Main definitions

* `Timer`, `Timers`: a timer, and the list of a processor.
* `tadd`, `timeradd`, `timerdel`: the routines of the list.
* `Sys`, `exec`: the calls and the interrupt, in steps.
* `Orderly`: the list is in order, and has the timers that it should have.

## Main results

* `orderly_of_run`: this holds in every state reached, and every step can be made.
-/

namespace PlanNine.Portclock

open Links

structure Timer where
  /-- The time at which the function is called. -/
  when : ℕ
  period : ℕ
  /-- There is a function; a timer without one is that of `hzclock`. -/
  f : Bool
  deriving DecidableEq, Repr

/-- The list of a processor, with the memory that the timers are in. -/
structure Timers where
  n : ℕ
  timer : ℕ → Timer
  links : Links Unit
  /-- The time that the hardware was set to last. -/
  timerset : Option ℕ

/-- Where the pointer to the first timer is. -/
def head : Link Unit := .root ()

namespace Timers

/-- Go along to a timer. The link to it, and the last timer before it with the same period. -/
def look (tt : Timers) (nt : ℕ) : ℕ → Link Unit → Option ℕ → Option (Link Unit × Option ℕ)
  | 0, _, _ => none
  | fuel + 1, last, pt =>
      match tt.links.get last with
      | none => some (last, pt)
      | some t =>
          if t = nt then some (last, pt)
          else look tt nt fuel (.next t)
            (if (tt.timer t).period = (tt.timer nt).period then some t else pt)

/-- Take out the timer behind a link, if there is one. -/
def off (s : Links Unit) (last : Link Unit) (t : ℕ) : Links Unit :=
  if s.get last = none then s else s.set last (s.next t)

/-- Put a timer on the list, or move it there to its time. The result is its time when it comes
first. A timer without a time and a period is an error. -/
def tadd (tt : Timers) (nt fastticks : ℕ) : Option (ℕ × Timers) :=
  (tt.look nt (tt.n + 1) head none).bind fun (last, pt) =>
    let links := off tt.links last nt
    let t := tt.timer nt
    if t.when = 0 ∧ t.period = 0 then none
    else
      let when :=
        if t.when = 0 then
          match pt with
          | some pt => (tt.timer pt).when
          | none => (fastticks + t.period) % 2 ^ 64
        else t.when
      (links.walk (fun p => decide (when < (tt.timer p).when)) (tt.n + 1) head).map fun last =>
        (if last = head then when else 0,
          { tt with
            timer := Function.update tt.timer nt { t with when := when }
            links := links.push last nt })

def timeradd (tt : Timers) (nt fastticks : ℕ) : Option Timers :=
  (tt.tadd nt fastticks).map fun (when, tt) =>
    if when = 0 then tt else { tt with timerset := some when }

def timerdel (tt : Timers) (dt : ℕ) : Option Timers :=
  (tt.links.walk (fun t => t = dt) (tt.n + 1) head).map fun last =>
    let links := off tt.links last dt
    match links.get head with
    | some t =>
        if last = head then { tt with links := links, timerset := some (tt.timer t).when }
        else { tt with links := links }
    | none => { tt with links := links }

/-- The timers on the list, as the pointers give them. -/
def list (tt : Timers) : List ℕ := tt.links.follow (tt.n + 1) head

end Timers

/-! ### Steps -/

/-- What happens to timers. -/
inductive Act
  | added (t : ℕ)
  | deleted (t : ℕ)
  | fired (t when now : ℕ) (periodic : Bool)
  | rearmed (t : ℕ)

namespace Act

/-- The timer was added, or re-armed after firing. -/
def Arms (t : ℕ) : Act → Prop
  | added t' => t' = t
  | rearmed t' => t' = t
  | _ => False

/-- The timer was deleted, or fired as a one-shot. -/
def Disarms (t : ℕ) : Act → Prop
  | deleted t' => t' = t
  | fired t' _ _ periodic => t' = t ∧ periodic = false
  | _ => False

/-- The timer was deleted, or fired. -/
def Unlinks (t : ℕ) : Act → Prop
  | deleted t' => t' = t
  | fired t' _ _ _ => t' = t
  | _ => False

end Act

/-- An interrupt that has called the function of a timer. -/
structure Intr where
  t : ℕ
  now : ℕ
  callhzclock : ℕ

structure Sys where
  tt : Timers
  intr : Option Intr
  fcallcount : ℕ
  /-- The calls of `hzclock`. -/
  hzclock : ℕ
  log : List Act

inductive Event
  | timeradd (t when period fastticks : ℕ)
  | timerdel (t : ℕ)
  | timerintr (fastticks : ℕ)
  /-- The function of a timer returns. -/
  | return (fastticks : ℕ)

namespace Sys

/-- A timer that is added has a time or a period. An interrupt comes when none is there, and between
its calls of functions nothing else is done. -/
def Allows (s : Sys) : Event → Prop
  | .timeradd t when period _ =>
      t < s.tt.n ∧ ¬ (when = 0 ∧ period = 0) ∧ ∀ i, s.intr = some i → (s.tt.timer i.t).f = true
  | .timerdel _ => ∀ i, s.intr = some i → (s.tt.timer i.t).f = true
  | .timerintr _ => s.intr = none
  | .return _ => s.intr ≠ none

/-- The interrupt goes on with the first timer, if its time has come. -/
def next (s : Sys) (now callhzclock : ℕ) : Sys :=
  match s.tt.links.get head with
  | none => { s with intr := none }
  | some t =>
      let when := (s.tt.timer t).when
      if now < when then
        { s with
          tt := { s.tt with timerset := some when }
          intr := none
          hzclock := if callhzclock = 0 then s.hzclock else s.hzclock + 1 }
      else
        { s with
          tt := { s.tt with links := s.tt.links.set head (s.tt.links.next t) }
          intr := some
            ⟨t, now, if (s.tt.timer t).f then callhzclock else callhzclock + 1⟩
          fcallcount := s.fcallcount + 1
          log := .fired t when now (decide ((s.tt.timer t).period ≠ 0)) :: s.log }

def exec (s : Sys) : Event → Option Sys
  | .timeradd t when period fastticks =>
      let timer := { s.tt.timer t with when := when, period := period }
      let tt := { s.tt with timer := Function.update s.tt.timer t timer }
      (tt.timeradd t fastticks).map fun tt => { s with tt := tt, log := .added t :: s.log }
  | .timerdel t =>
      (s.tt.timerdel t).map fun tt => { s with tt := tt, log := .deleted t :: s.log }
  | .timerintr fastticks => some (s.next fastticks 0)
  | .return fastticks =>
      match s.intr with
      | none => none
      | some i =>
          let t := s.tt.timer i.t
          if t.period = 0 then some (s.next i.now i.callhzclock)
          else
            let timer := { t with when := (t.when + t.period) % 2 ^ 64 }
            let tt := { s.tt with timer := Function.update s.tt.timer i.t timer }
            (tt.tadd i.t fastticks).map fun (_, tt) =>
              { s with tt := tt, log := .rearmed i.t :: s.log }.next i.now i.callhzclock

/-- The list is in the order of the times and has each timer once. When no interrupt is there, it
has the timers that were added or re-armed and not deleted or fired as one-shots since. Those that
fired had a time that had come. -/
structure Orderly (s : Sys) : Prop where
  ends : s.tt.links.Chain head s.tt.list
  sorted : s.tt.list.Pairwise fun t t' => (s.tt.timer t).when ≤ (s.tt.timer t').when
  once : s.tt.list.Nodup
  armed : s.intr = none → ∀ t, t ∈ s.tt.list ↔ Since (Act.Arms t) (Act.Disarms t) s.log
  due : ∀ t when now periodic, .fired t when now periodic ∈ s.log → when ≤ now

end Sys

open Timers Sys

variable {s u : Sys} {tt : Timers} {l xs ys : List ℕ} {nt t k fuel fastticks : ℕ} {pt : Option ℕ}
  {last : Link Unit} {a : Act} {e : Event} {log : List Act}

/-! ### The list -/

/-- The list has the timers `l`, in order. -/
structure Good (tt : Timers) (l : List ℕ) : Prop where
  chain : tt.links.Chain head l
  nodup : l.Nodup
  lt : ∀ t ∈ l, t < tt.n
  sorted : l.Pairwise fun t t' => (tt.timer t).when ≤ (tt.timer t').when

theorem head_ne (t : ℕ) : head ≠ .next t := nofun

theorem Good.length_lt (h : Good tt l) : l.length < tt.n + 1 :=
  Nat.lt_succ_of_le (length_le_of_nodup h.nodup h.lt)

theorem Good.list_eq (h : Good tt l) : tt.list = l :=
  follow_eq h.chain h.length_lt.le

/-- The first walk comes to the link that a walk for the timer comes to. -/
theorem look_eq (tt : Timers) (nt fuel : ℕ) (last : Link Unit) (pt : Option ℕ) :
    (tt.look nt fuel last pt).map Prod.fst = tt.links.walk (fun t => t = nt) fuel last := by
  induction fuel generalizing last pt with
  | zero => rfl
  | succ fuel ih =>
    unfold look walk
    cases tt.links.get last with
    | none => rfl
    | some t =>
      by_cases ht : t = nt
      · simp [ht]
      · simp only [ht, if_false, decide_false, Bool.false_eq_true]
        exact ih _ _

/-- A timer is taken off the list. -/
theorem Good.off (h : Good tt l) (t : ℕ) : ∃ last,
    tt.links.walk (fun p => p = t) (tt.n + 1) head = some last ∧
      (off tt.links last t).Chain head (l.erase t) := by
  obtain ⟨links, hlinks, hchain, -⟩ :=
    remove_spec h.chain h.nodup (fun q _ => head_ne q) h.length_lt t
  obtain ⟨last, hlast, rfl⟩ := Option.map_eq_some_iff.mp hlinks
  exact ⟨last, hlast, hchain⟩

theorem Good.erase (h : Good tt l) (t : ℕ) {links : Links Unit} {timerset : Option ℕ}
    (hlinks : links.Chain head (l.erase t)) :
    Good { tt with links := links, timerset := timerset } (l.erase t) where
  chain := hlinks
  nodup := h.nodup.erase t
  lt p hp := h.lt p (List.mem_of_mem_erase hp)
  sorted := h.sorted.sublist List.erase_sublist

theorem Good.timerdel (h : Good tt l) (dt : ℕ) :
    ∃ tt', tt.timerdel dt = some tt' ∧ Good tt' (l.erase dt) ∧ tt'.timer = tt.timer ∧
      tt'.n = tt.n := by
  obtain ⟨last, hlast, hoff⟩ := h.off dt
  unfold Timers.timerdel
  rw [hlast, Option.map_some]
  refine ⟨_, rfl, ?_⟩
  dsimp only
  split
  · split_ifs
    · exact ⟨h.erase dt hoff, rfl, rfl⟩
    · exact ⟨h.erase dt hoff, rfl, rfl⟩
  · exact ⟨h.erase dt hoff, rfl, rfl⟩

/-- Before the first that is greater, a new element keeps the order. -/
theorem pairwise_insert {key : ℕ → ℕ} {P : ℕ → Bool} (hP : ∀ t ∈ l, P t = true ↔ key nt < key t)
    (h : l.Pairwise fun t t' => key t ≤ key t') :
    (l.takeWhile (fun t => !P t) ++ nt :: l.dropWhile (fun t => !P t)).Pairwise
      fun t t' => key t ≤ key t' := by
  have hbefore : ∀ t ∈ l.takeWhile (fun t => !P t), key t ≤ key nt := by
    intro t ht
    have hnot : P t ≠ true := by simpa using List.mem_takeWhile_imp ht
    exact not_lt.mp fun hlt => hnot ((hP t (List.takeWhile_subset _ ht)).mpr hlt)
  have hafter : ∀ t ∈ l.dropWhile (fun t => !P t), key nt ≤ key t := by
    have hsub := h.sublist (List.dropWhile_sublist fun t => !P t)
    have hnot := List.head?_dropWhile_not (fun t => !P t) l
    have hmem := List.dropWhile_subset (fun t => !P t) (l := l)
    cases hrest : l.dropWhile (fun t => !P t) with
    | nil => exact nofun
    | cons r rest =>
      rw [hrest] at hsub hnot hmem
      have hr : key nt < key r := (hP r (hmem List.mem_cons_self)).mp (by simpa using hnot)
      intro t ht
      obtain rfl | ht := List.mem_cons.mp ht
      · exact hr.le
      · exact hr.le.trans ((List.pairwise_cons.mp hsub).1 t ht)
  rw [← List.takeWhile_append_dropWhile (p := fun t => !P t) (l := l)] at h
  obtain ⟨htake, hdrop, hcross⟩ := List.pairwise_append.mp h
  refine List.pairwise_append.mpr ⟨htake, List.pairwise_cons.mpr ⟨hafter, hdrop⟩, ?_⟩
  intro t ht t' ht'
  obtain rfl | ht' := List.mem_cons.mp ht'
  · exact hbefore t ht
  · exact hcross t ht t' ht'

/-- The timers whose order does not depend on the record that changes. -/
theorem Good.pairwise_update (h : Good tt l) (nt : ℕ) (timer : Timer) :
    (l.erase nt).Pairwise fun t t' => (Function.update tt.timer nt timer t).when ≤
      (Function.update tt.timer nt timer t').when := by
  have hne : ∀ t ∈ l.erase nt, Function.update tt.timer nt timer t = tt.timer t := fun t ht =>
    Function.update_of_ne (fun heq => h.nodup.not_mem_erase (heq ▸ ht)) _ _
  refine (h.sorted.sublist List.erase_sublist).imp_of_mem fun ht ht' hle => ?_
  rwa [hne _ ht, hne _ ht']

/-- A timer is put on the list, whatever its record was changed to before. -/
theorem Good.tadd (h : Good tt l) (hlt : nt < tt.n) (timer : Timer)
    (hset : ¬ (timer.when = 0 ∧ timer.period = 0)) (fastticks : ℕ) :
    ∃ r tt' l', { tt with timer := Function.update tt.timer nt timer }.tadd nt fastticks =
        some (r, tt') ∧ Good tt' l' ∧ (∀ t, t ∈ l' ↔ t = nt ∨ t ∈ l) ∧ tt'.n = tt.n ∧
      ∀ t, t ≠ nt → tt'.timer t = tt.timer t := by
  obtain ⟨last, hlast, hoff⟩ := h.off nt
  have hlook := look_eq { tt with timer := Function.update tt.timer nt timer } nt (tt.n + 1) head
    none
  rw [hlast] at hlook
  obtain ⟨⟨last, pt⟩, hpt, rfl⟩ := Option.map_eq_some_iff.mp hlook
  unfold Timers.tadd
  rw [hpt, Option.bind_some]
  dsimp only
  rw [Function.update_self, if_neg hset]
  -- The time that the timer gets does not matter for what follows.
  generalize (if timer.when = 0 then _ else timer.when : ℕ) = when
  rw [Function.update_idem]
  set m := l.erase nt
  have hm : m.Nodup := h.nodup.erase nt
  have hnt : nt ∉ m := h.nodup.not_mem_erase
  have hlen : m.length < tt.n + 1 := (List.erase_sublist.length_le).trans_lt h.length_lt
  set P : ℕ → Bool := fun t => decide (when < (Function.update tt.timer nt timer t).when)
  have hP : ∀ t ∈ m, P t = true ↔
      (Function.update tt.timer nt { timer with when := when } nt).when <
        (Function.update tt.timer nt { timer with when := when } t).when := by
    intro t ht
    have hne : t ≠ nt := fun heq => hnt (heq ▸ ht)
    simp only [P, decide_eq_true_eq, Function.update_self, Function.update_of_ne hne]
  rw [walk_eq hoff P hlen, Option.map_some]
  have hsplit := List.takeWhile_append_dropWhile (p := fun t => !P t) (l := m)
  refine ⟨_, _, m.takeWhile (fun t => !P t) ++ nt :: m.dropWhile (fun t => !P t), rfl,
    ⟨?_, ?_, ?_, ?_⟩, ?_, rfl, ?_⟩
  · refine Links.push_lastLink ?_ ?_ (fun q _ => head_ne q) ?_ (head_ne nt)
    · rwa [hsplit]
    · rwa [hsplit]
    · rwa [hsplit]
  · rw [List.nodup_middle, List.nodup_cons, hsplit]
    exact ⟨hnt, hm⟩
  · intro t ht
    obtain rfl | ht := List.mem_cons.mp (List.perm_middle.mem_iff.mp ht)
    · exact hlt
    · rw [hsplit] at ht
      exact h.lt t (List.mem_of_mem_erase ht)
  · exact pairwise_insert hP (h.pairwise_update nt _)
  · intro t
    rw [List.perm_middle.mem_iff, List.mem_cons, hsplit, h.nodup.mem_erase_iff]
    tauto
  · intro t ht
    exact Function.update_of_ne ht _ _

/-! ### Steps -/

/-- The timer was added or re-armed, and has neither been deleted nor fired since. -/
def Linked (log : List Act) (t : ℕ) : Prop := Since (Act.Arms t) (Act.Unlinks t) log

/-- The timer was added or re-armed, and has neither been deleted nor fired as a one-shot since. -/
def Armed (log : List Act) (t : ℕ) : Prop := Since (Act.Arms t) (Act.Disarms t) log

theorem linked_cons : Linked (a :: log) t ↔ a.Arms t ∨ (¬ a.Unlinks t ∧ Linked log t) :=
  since_cons

theorem armed_cons : Armed (a :: log) t ↔ a.Arms t ∨ (¬ a.Disarms t ∧ Armed log t) :=
  since_cons

/-- What holds between the calls of functions: the list has the timers that should be on it. -/
structure Settled (s : Sys) (l : List ℕ) : Prop where
  good : Good s.tt l
  linked : ∀ t, t ∈ l ↔ Linked s.log t
  armed : ∀ t, Linked s.log t ↔ Armed s.log t
  due : ∀ t when now periodic, .fired t when now periodic ∈ s.log → when ≤ now

/-- What every step keeps. A periodic timer that has fired is off the list until its function
returns. -/
structure Inv (s : Sys) (l : List ℕ) : Prop where
  good : Good s.tt l
  intr : ∀ i, s.intr = some i → i.t < s.tt.n
  linked : ∀ t, t ∈ l ↔ Linked s.log t
  armed : ∀ t, (∃ i, s.intr = some i ∧ i.t = t ∧ (s.tt.timer t).period ≠ 0) ∨
    (Linked s.log t ↔ Armed s.log t)
  due : ∀ t when now periodic, .fired t when now periodic ∈ s.log → when ≤ now

theorem Inv.settled (h : Inv s l) (hintr : ∀ i, s.intr = some i → (s.tt.timer i.t).period = 0) :
    Settled s l := by
  refine ⟨h.good, h.linked, fun t => ?_, h.due⟩
  obtain ⟨i, hi, rfl, hper⟩ | harmed := h.armed t
  · exact absurd (hintr i hi) hper
  · exact harmed

theorem Inv.orderly (h : Inv s l) : s.Orderly := by
  have hlist := h.good.list_eq
  refine ⟨?_, ?_, ?_, fun hintr t => ?_, h.due⟩
  · rw [hlist]
    exact h.good.chain
  · rw [hlist]
    exact h.good.sorted
  · rw [hlist]
    exact h.good.nodup
  · rw [hlist, h.linked]
    exact (h.settled fun i hi => nomatch hintr.symm.trans hi).armed t

/-- The interrupt goes on, or it is over. -/
theorem Settled.next (h : Settled s l) (now callhzclock : ℕ) :
    ∃ l', Inv (s.next now callhzclock) l' := by
  unfold Sys.next
  cases l with
  | nil =>
    rw [show s.tt.links.get head = none from h.good.chain]
    exact ⟨[], h.good, nofun, h.linked, fun t => .inr (h.armed t), h.due⟩
  | cons t l =>
    rw [show s.tt.links.get head = some t from h.good.chain.1]
    dsimp only
    by_cases hnow : now < (s.tt.timer t).when
    · rw [if_pos hnow]
      exact ⟨t :: l, ⟨h.good.chain, h.good.nodup, h.good.lt, h.good.sorted⟩, nofun, h.linked,
        fun t => .inr (h.armed t), h.due⟩
    · rw [if_neg hnow]
      obtain ⟨ht, hl⟩ := List.nodup_cons.mp h.good.nodup
      refine ⟨l, ⟨?_, hl, fun p hp => h.good.lt p (List.mem_cons_of_mem _ hp),
        (List.pairwise_cons.mp h.good.sorted).2⟩, ?_, fun p => ?_, fun p => ?_, ?_⟩
      · have hchain : s.tt.links.Chain head ([] ++ t :: l) := h.good.chain
        exact chain_unlink hchain h.good.nodup fun q _ => head_ne q
      · rintro i hi
        obtain rfl := Option.some.inj hi
        exact h.good.lt t List.mem_cons_self
      · rw [linked_cons, ← h.linked, List.mem_cons]
        simp only [Act.Arms, Act.Unlinks, false_or]
        constructor
        · exact fun hp => ⟨fun heq => ht (heq ▸ hp), .inr hp⟩
        · rintro ⟨hne, rfl | hp⟩
          · exact absurd rfl hne
          · exact hp
      · rw [linked_cons, armed_cons, h.armed]
        simp only [Act.Arms, Act.Unlinks, Act.Disarms, false_or]
        by_cases hper : t = p ∧ (s.tt.timer p).period ≠ 0
        · obtain ⟨rfl, hper⟩ := hper
          exact .inl ⟨_, rfl, rfl, hper⟩
        · refine .inr (and_congr_left fun _ => not_congr ?_)
          rw [decide_eq_false_iff_not]
          constructor
          · rintro rfl
            exact ⟨rfl, fun hne => hper ⟨rfl, hne⟩⟩
          · exact And.left
      · intro p when now' periodic hin
        obtain heq | hin := List.mem_cons.mp hin
        · obtain ⟨rfl, rfl, rfl, -⟩ := Act.fired.inj heq
          exact not_lt.mp hnow
        · exact h.due p when now' periodic hin

/-- How the list changes when a timer is put on it. -/
theorem linked_arm {l' : List ℕ} (h : ∀ p, p ∈ l ↔ Linked log p)
    (hmem : ∀ p, p ∈ l' ↔ p = t ∨ p ∈ l) (ha : ∀ p, a.Arms p ↔ p = t) (hu : ∀ p, ¬ a.Unlinks p)
    (p : ℕ) : p ∈ l' ↔ Linked (a :: log) p := by
  rw [hmem, linked_cons, ha, h]
  exact or_congr_right (and_iff_right (hu p)).symm

theorem linked_iff_armed_of_arms (h : a.Arms t) : Linked (a :: log) t ↔ Armed (a :: log) t :=
  iff_of_true (.now h) (.now h)

theorem Inv.timeradd (h : Inv s l) (hlt : t < s.tt.n) {when period : ℕ}
    (hset : ¬ (when = 0 ∧ period = 0)) (fastticks : ℕ) :
    ∃ u l', s.exec (.timeradd t when period fastticks) = some u ∧ Inv u l' := by
  obtain ⟨r, tt', l', htadd, hgood, hmem, hn, hother⟩ :=
    h.good.tadd hlt { s.tt.timer t with when := when, period := period } hset fastticks
  rw [Sys.exec, Timers.timeradd, htadd, Option.map_some, Option.map_some]
  set tt'' := if r = 0 then tt' else { tt' with timerset := some r } with htt
  have hparts : Good tt'' l' ∧ tt''.n = tt'.n ∧ tt''.timer = tt'.timer := by
    rw [htt]
    split_ifs
    · exact ⟨hgood, rfl, rfl⟩
    · exact ⟨⟨hgood.chain, hgood.nodup, hgood.lt, hgood.sorted⟩, rfl, rfl⟩
  obtain ⟨hgood', hn', htimer⟩ := hparts
  refine ⟨_, l', rfl, hgood', fun i hi => ?_, ?_, fun p => ?_, ?_⟩
  · rw [hn', hn]
    exact h.intr i hi
  · exact linked_arm h.linked hmem (fun p => eq_comm) fun p => id
  · by_cases hp : p = t
    · subst hp
      exact .inr (linked_iff_armed_of_arms rfl)
    · obtain ⟨i, hi, rfl, hper⟩ | harmed := h.armed p
      · refine .inl ⟨i, hi, rfl, ?_⟩
        rwa [htimer, hother _ hp]
      · refine .inr ?_
        rw [linked_cons, armed_cons, harmed]
        rfl
  · intro p when now periodic hin
    exact h.due p when now periodic ((List.mem_cons.mp hin).resolve_left nofun)

theorem Inv.timerdel (h : Inv s l) (t : ℕ) :
    ∃ u l', s.exec (.timerdel t) = some u ∧ Inv u l' := by
  obtain ⟨tt', htt, hgood, htimer, hn⟩ := h.good.timerdel t
  rw [Sys.exec, htt, Option.map_some]
  refine ⟨_, _, rfl, hgood, fun i hi => ?_, fun p => ?_, fun p => ?_, ?_⟩
  · rw [hn]
    exact h.intr i hi
  · rw [h.good.nodup.mem_erase_iff, h.linked, linked_cons]
    simp only [Act.Arms, Act.Unlinks, false_or]
    exact and_congr_left fun _ => not_congr eq_comm
  · dsimp only
    rw [linked_cons, armed_cons, htimer]
    refine (h.armed p).imp id fun harmed => ?_
    rw [harmed]
    rfl
  · intro p when now periodic hin
    exact h.due p when now periodic ((List.mem_cons.mp hin).resolve_left nofun)

/-- The timer whose function has returned is put on the list again, or not, and the interrupt goes
on. -/
theorem Inv.return (h : Inv s l) (hintr : s.intr ≠ none) (fastticks : ℕ) :
    ∃ u l', s.exec (.return fastticks) = some u ∧ Inv u l' := by
  obtain ⟨i, hi⟩ := Option.ne_none_iff_exists'.mp hintr
  rw [Sys.exec, hi]
  dsimp only
  by_cases hper : (s.tt.timer i.t).period = 0
  · rw [if_pos hper]
    have hsettled := h.settled fun i' hi' => by rwa [Option.some.inj (hi'.symm.trans hi)]
    obtain ⟨l', hl'⟩ := hsettled.next i.now i.callhzclock
    exact ⟨_, l', rfl, hl'⟩
  · rw [if_neg hper]
    let timer := { s.tt.timer i.t with
      when := ((s.tt.timer i.t).when + (s.tt.timer i.t).period) % 2 ^ 64 }
    obtain ⟨r, tt', l', htadd, hgood, hmem, hn, -⟩ := h.good.tadd (h.intr i hi) timer
      (fun hzero => hper hzero.2) fastticks
    rw [htadd, Option.map_some]
    have hsettled : Settled { s with tt := tt', log := .rearmed i.t :: s.log } l' := by
      refine ⟨hgood, ?_, fun p => ?_, ?_⟩
      · exact linked_arm h.linked hmem (fun p => eq_comm) fun p => id
      · by_cases hp : p = i.t
        · exact linked_iff_armed_of_arms hp.symm
        · obtain ⟨i', hi', rfl, -⟩ | harmed := h.armed p
          · exact absurd (congrArg Intr.t (Option.some.inj (hi'.symm.trans hi))) hp
          · dsimp only
            rw [linked_cons, armed_cons, harmed]
            rfl
      · intro p when now periodic hin
        exact h.due p when now periodic ((List.mem_cons.mp hin).resolve_left nofun)
    obtain ⟨l'', hl''⟩ := hsettled.next i.now i.callhzclock
    exact ⟨_, l'', rfl, hl''⟩

/-- Every step that may be made can be made, and keeps the invariant. -/
theorem Inv.exec (h : Inv s l) (he : s.Allows e) : ∃ u l', s.exec e = some u ∧ Inv u l' := by
  cases e with
  | timeradd t when period fastticks => exact h.timeradd he.1 he.2.1 fastticks
  | timerdel t => exact h.timerdel t
  | timerintr fastticks =>
    have hsettled := h.settled fun i hi => nomatch (show s.intr = none from he).symm.trans hi
    obtain ⟨l', hl'⟩ := hsettled.next fastticks 0
    exact ⟨_, l', rfl, hl'⟩
  | «return» fastticks => exact h.return he fastticks

/-! ### Runs -/

/-- No timer is on the list. -/
def start (n : ℕ) (timer : ℕ → Timer) : Sys where
  tt := { n := n, timer := timer, links := ⟨fun _ => none, fun _ => none⟩, timerset := none }
  intr := none
  fcallcount := 0
  hzclock := 0
  log := []

theorem inv_start (n : ℕ) (timer : ℕ → Timer) : Inv (start n timer) [] := by
  refine ⟨⟨rfl, .nil, nofun, .nil⟩, nofun, fun t => ?_, fun t => .inr ?_, nofun⟩
  · exact iff_of_false nofun not_since_nil
  · exact iff_of_false not_since_nil not_since_nil

/-- The list is in order and has the timers that it should have in every state that steps lead to,
and the next step can be made. -/
theorem orderly_of_run {n : ℕ} {timer : ℕ → Timer}
    (hrun : Run (fun s e u => s.exec e = some u) Sys.Allows (start n timer) u) :
    u.Orderly ∧ ∀ e, u.Allows e → (u.exec e).isSome = true := by
  obtain ⟨l, hl⟩ : ∃ l, Inv u l := by
    refine @Run.invariant _ _ _ _ _ _ (fun u => ∃ l, Inv u l) ⟨[], inv_start n timer⟩ ?_ hrun
    rintro s e u ⟨l, hl⟩ he hexec
    obtain ⟨u', l', hu', hl'⟩ := hl.exec he
    obtain rfl := Option.some.inj (hexec.symm.trans hu')
    exact ⟨l', hl'⟩
  refine ⟨hl.orderly, fun e he => ?_⟩
  obtain ⟨u', l', hu', -⟩ := hl.exec he
  rw [hu']
  rfl

/-- A timer with a period is added without a time, and a clock read later finds it due. -/
theorem orderly_of_fire : ∃ u, ((start 1 fun _ => ⟨0, 0, true⟩).exec (.timeradd 0 0 5 10)).bind
    (fun u => (u.exec (.timerintr 17)).bind fun u => u.exec (.return 18)) = some u ∧ u.Orderly ∧
      u.tt.list = [0] ∧ (u.tt.timer 0).when = 20 := by
  have hrun : Run (fun s e u => s.exec e = some u) Sys.Allows (start 1 fun _ => ⟨0, 0, true⟩) _ :=
    .snoc (e := .return 18) (.snoc (e := .timerintr 17) (.snoc (e := .timeradd 0 0 5 10) .nil
      ⟨by decide, by decide, nofun⟩ rfl) rfl rfl) (Option.some_ne_none _) rfl
  exact ⟨_, rfl, (orderly_of_run hrun).1, by decide, by decide⟩

end PlanNine.Portclock
