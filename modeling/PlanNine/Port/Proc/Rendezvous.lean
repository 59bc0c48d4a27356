import PlanNine.Lib.Rows
import PlanNine.Lib.Run

/-!
# Rendezvous

Two processes of a group that call `sysrendezvous` with the same tag exchange their values. The one
that comes first waits on a hash chain of the group, and the other one takes it off; or a note does.
What is done under the lock of the group is one step, and so is the end of a call that has waited.

Every call is recorded with its tag, its value and what came of it.

## Main definitions

* `Proc`, `Call`, `State`: a process, a call, and the state of a group.
* `sysrendezvous`, `postnote`, `resume`: the steps.
* `Exchanged`: calls are paired, and waiting processes are on their chains.

## Main results

* `inv_exec`: a step ends, and keeps the invariant.
* `exchanged_of_run`: this holds in every state reached.
-/

namespace PlanNine.Rendez

def RENDHASH : ℕ := 32

/-- `~0`. -/
def interrupted : ℕ := 4294967295

/-- A process that waits is in the state `Rendezvous`, and then `Ready` till its call ends. -/
inductive Status where
  | Running | Rendezvous | Ready
  deriving DecidableEq

structure Proc where
  state : Status := .Running
  rendtag : ℕ := 0
  rendval : ℕ := 0
  /-- The last call that waits. -/
  call : ℕ := 0
  deriving DecidableEq

/-- A call of `sysrendezvous`. -/
structure Call where
  tag : ℕ
  val : ℕ
  /-- A note has taken it off its chain. -/
  noted : Bool := false
  /-- What it returned. -/
  result : Option ℕ := none
  deriving DecidableEq

/-- A rendezvous group of `nproc` processes: the chains of those that wait, with their `rendhash`
fields, and the calls made. -/
structure State where
  nproc : ℕ
  rendhash : Links ℕ := ⟨fun _ => none, fun _ => none⟩
  proc : ℕ → Proc := fun _ => {}
  calls : List Call := []

namespace State

variable (t : State)

def setProc (p : ℕ) (e : Proc) : State := { t with proc := Function.update t.proc p e }

def setCall (i : ℕ) (f : Call → Call) : State := { t with calls := t.calls.modify i f }

/-- Look for a process with a tag on its chain. -/
def find (tag : ℕ) : Option (Link ℕ) :=
  t.rendhash.walk (fun p => (t.proc p).rendtag = tag) (t.nproc + 1) (.root (tag % RENDHASH))

end State

variable (t : State)

/-- The part of `sysrendezvous` under the lock, by the process `up`. -/
def sysrendezvous (up tag val : ℕ) : Option State :=
  let t := t.setProc up { t.proc up with rendval := interrupted }
  (t.find tag).map fun l =>
    match t.rendhash.get l with
    | some p =>
        let t := { t with rendhash := t.rendhash.set l (t.rendhash.next p) }
        let theirs := (t.proc p).rendval
        let t := t.setProc p { t.proc p with rendval := val, state := .Ready }
        { t with calls := t.calls ++ [{ tag := tag, val := val, result := some theirs }] }
    | none =>
        let t := { t with rendhash := t.rendhash.push l up }
        let t := t.setProc up
          { rendtag := tag, rendval := val, state := .Rendezvous, call := t.calls.length }
        { t with calls := t.calls ++ [{ tag := tag, val := val }] }

/-- The end of `postnote`: try and pull out of a rendezvous. -/
def postnote (p : ℕ) : Option State :=
  let e := t.proc p
  if e.state ≠ .Rendezvous then some t
  else
    (t.rendhash.remove (t.nproc + 1) (.root (e.rendtag % RENDHASH)) p).map fun rendhash =>
      let t := { t with rendhash := rendhash }
      let t := t.setProc p { e with rendval := interrupted, state := .Ready }
      t.setCall e.call fun c => { c with noted := true }

/-- The end of a call that has waited. -/
def resume (p : ℕ) : State :=
  let e := t.proc p
  let t := t.setProc p { e with state := .Running }
  t.setCall e.call fun c => { c with result := some e.rendval }

inductive Op where
  | sysrendezvous (up tag val : ℕ)
  | postnote (p : ℕ)
  | resume (p : ℕ)
  deriving DecidableEq

def exec : Op → Option State
  | .sysrendezvous up tag val => sysrendezvous t up tag val
  | .postnote p => postnote t p
  | .resume p => some (resume t p)

/-- A process calls when it runs, and goes on when it is ready. -/
def Able : Op → Prop
  | .sysrendezvous up _ _ => up < t.nproc ∧ (t.proc up).state = .Running
  | .postnote _ => True
  | .resume p => (t.proc p).state = .Ready

instance (op : Op) : Decidable (Able t op) := by
  cases op <;> unfold Able <;> infer_instance

def step (t : State) (op : Op) (t' : State) : Prop := exec t op = some t'

/-- The partners of calls. -/
abbrev Match := ℕ → Option ℕ

/-- What calls return. -/
structure Paired (t : State) (m : Match) : Prop where
  /-- A call is the partner of its partner, which is another call with its tag. -/
  symm : ∀ i j, m i = some j → m j = some i ∧ i ≠ j ∧ i < t.calls.length
  tag : ∀ i j c d, m i = some j → t.calls[i]? = some c → t.calls[j]? = some d → c.tag = d.tag
  /-- It returns the value of its partner. -/
  val : ∀ i j c d v, m i = some j → t.calls[i]? = some c → t.calls[j]? = some d →
    c.result = some v → v = d.val
  /-- A call that a note has interrupted has no partner. -/
  noted : ∀ i c, t.calls[i]? = some c → c.noted = true → m i = none
  returned : ∀ i c v, t.calls[i]? = some c → c.result = some v →
    if c.noted then v = interrupted else ∃ j, m i = some j
  /-- A call that has not returned is that of a process. -/
  pending : ∀ i c, t.calls[i]? = some c → c.result = none →
    ∃ p, (t.proc p).call = i ∧ (t.proc p).state ≠ .Running
  waits : ∀ p, (t.proc p).state = .Rendezvous → ∃ c, t.calls[(t.proc p).call]? = some c ∧
    c.tag = (t.proc p).rendtag ∧ c.val = (t.proc p).rendval ∧ c.noted = false ∧
    c.result = none ∧ m (t.proc p).call = none
  /-- A process that is ready will return its result. -/
  ready : ∀ p, (t.proc p).state = .Ready → ∃ c, t.calls[(t.proc p).call]? = some c ∧
    c.result = none ∧ if c.noted then (t.proc p).rendval = interrupted
      else ∃ j d, m (t.proc p).call = some j ∧ t.calls[j]? = some d ∧ (t.proc p).rendval = d.val

/-- Which process waits for a tag, where it is, and which calls got whose values. -/
structure Exchanged (t : State) : Prop where
  one : ∀ p q, (t.proc p).state = .Rendezvous → (t.proc q).state = .Rendezvous →
    (t.proc p).rendtag = (t.proc q).rendtag → p = q
  chain : ∀ h, ∃ ps, t.rendhash.Chain (.root h) ps ∧ ps.Nodup ∧
    ∀ p, p ∈ ps ↔ (t.proc p).state = .Rendezvous ∧ (t.proc p).rendtag % RENDHASH = h
  pairs : ∃ m, Paired t m

/-! ### The invariant -/

variable {t : State} {m : Match} {p q up tag val : ℕ} {e : Proc}

/-- The chain of a process. -/
def Proc.key (e : Proc) : Option ℕ :=
  if e.state = .Rendezvous then some (e.rendtag % RENDHASH) else none

structure Inv (t : State) (m : Match) : Prop where
  rows : Rows t.rendhash (fun p => (t.proc p).key) t.nproc
  lt : ∀ p, (t.proc p).state = .Rendezvous → p < t.nproc
  one : ∀ p q, (t.proc p).state = .Rendezvous → (t.proc q).state = .Rendezvous →
    (t.proc p).rendtag = (t.proc q).rendtag → p = q
  call : ∀ p q, (t.proc p).state ≠ .Running → (t.proc q).state ≠ .Running →
    (t.proc p).call = (t.proc q).call → p = q
  paired : Paired t m

theorem proc_setProc_self (t : State) (p : ℕ) (e : Proc) : (t.setProc p e).proc p = e :=
  Function.update_self _ _ _

theorem proc_setProc_of_ne (h : q ≠ p) : (t.setProc p e).proc q = t.proc q :=
  Function.update_of_ne h _ _

theorem key_setProc (t : State) (p : ℕ) (e : Proc) : (fun q => ((t.setProc p e).proc q).key) =
    Function.update (fun q => (t.proc q).key) p e.key := by
  funext q
  by_cases hq : q = p
  · subst hq
    rw [proc_setProc_self, Function.update_self]
  · rw [proc_setProc_of_ne hq, Function.update_of_ne hq]

/-- A process that runs may change. -/
theorem Inv.idle (h : Inv t m) (hp : (t.proc p).state = .Running) (he : e.state = .Running) :
    Inv (t.setProc p e) m := by
  have hne {q : ℕ} (hq : ((t.setProc p e).proc q).state ≠ .Running) : q ≠ p := by
    rintro rfl
    rw [proc_setProc_self] at hq
    exact hq he
  have hsame {q : ℕ} (hq : ((t.setProc p e).proc q).state ≠ .Running) :
      (t.setProc p e).proc q = t.proc q := proc_setProc_of_ne (hne hq)
  have hw {q : ℕ} (hq : ((t.setProc p e).proc q).state = .Rendezvous) :
      (t.setProc p e).proc q = t.proc q := hsame (by rw [hq]; decide)
  constructor
  · refine h.rows.congr fun q _ => ?_
    by_cases hq : q = p
    · subst hq
      rw [proc_setProc_self, Proc.key, Proc.key, he, hp]
      rfl
    · rw [proc_setProc_of_ne hq]
  · intro q hq
    exact h.lt q (by rw [← hw hq]; exact hq)
  · intro q q' hq hq' htag
    rw [hw hq, hw hq'] at htag
    exact h.one q q' (by rw [← hw hq]; exact hq) (by rw [← hw hq']; exact hq') htag
  · intro q q' hq hq' hcall
    rw [hsame hq, hsame hq'] at hcall
    exact h.call q q' (by rw [← hsame hq]; exact hq) (by rw [← hsame hq']; exact hq') hcall
  · refine { h.paired with pending := ?_, waits := ?_, ready := ?_ }
    · intro i c hc hres
      obtain ⟨q, hcall, hq⟩ := h.paired.pending i c hc hres
      have hqp : q ≠ p := by
        rintro rfl
        exact hq hp
      exact ⟨q, by rw [proc_setProc_of_ne hqp]; exact ⟨hcall, hq⟩⟩
    · intro q hq
      rw [hw hq]
      exact h.paired.waits q (by rw [← hw hq]; exact hq)
    · intro q hq
      have hq' := hsame (by rw [hq]; decide)
      rw [hq']
      exact h.paired.ready q (by rw [← hq']; exact hq)

theorem Paired.eq_none (h : Paired t m) {i : ℕ} (hi : t.calls.length ≤ i) : m i = none := by
  cases hm : m i with
  | none => rfl
  | some j =>
    have := (h.symm i j hm).2.2
    omega

/-- The calls so far, behind a new one. -/
theorem getElem?_concat_cases {α : Type} {l : List α} {a c : α} {i : ℕ}
    (h : (l ++ [a])[i]? = some c) : l[i]? = some c ∨ i = l.length ∧ c = a := by
  rcases Nat.lt_or_ge i l.length with hi | hi
  · rw [List.getElem?_append_left hi] at h
    exact .inl h
  · rw [List.getElem?_append_right hi] at h
    obtain ⟨h0, hc⟩ := List.getElem?_eq_some_iff.mp h
    rw [List.length_singleton] at h0
    right
    refine ⟨by omega, ?_⟩
    rw [← hc, List.getElem_singleton]

theorem Inv.call_lt (h : Inv t m) (hq : (t.proc q).state ≠ .Running) :
    (t.proc q).call < t.calls.length := by
  cases hs : (t.proc q).state with
  | Running => exact absurd hs hq
  | Rendezvous =>
    obtain ⟨c, hc, -⟩ := h.paired.waits q hs
    exact (List.getElem?_eq_some_iff.mp hc).1
  | Ready =>
    obtain ⟨c, hc, -⟩ := h.paired.ready q hs
    exact (List.getElem?_eq_some_iff.mp hc).1

/-- A process waits. -/
theorem Inv.wait (h : Inv t m) (hup : (t.proc up).state = .Running) (hlt : up < t.nproc)
    (hnone : ∀ q, (t.proc q).state = .Rendezvous → (t.proc q).rendtag ≠ tag) {l : Links ℕ}
    (hrows : Rows l (Function.update (fun q => (t.proc q).key) up (some (tag % RENDHASH)))
      t.nproc) :
    Inv { State.setProc { t with rendhash := l } up
      { rendtag := tag, rendval := val, state := .Rendezvous, call := t.calls.length } with
      calls := t.calls ++ [{ tag := tag, val := val }] } m := by
  set e : Proc := { rendtag := tag, rendval := val, state := .Rendezvous, call := t.calls.length }
    with he
  set t' : State := { State.setProc { t with rendhash := l } up e with
    calls := t.calls ++ [{ tag := tag, val := val }] } with ht'
  have hself : t'.proc up = e := Function.update_self _ _ _
  have hother {q : ℕ} (hq : q ≠ up) : t'.proc q = t.proc q := Function.update_of_ne hq _ _
  have hold {i : ℕ} {c : Call} (hc : t.calls[i]? = some c) : t'.calls[i]? = some c :=
    (List.getElem?_append_left (List.getElem?_eq_some_iff.mp hc).1).trans hc
  have hnew {i : ℕ} {c : Call} (hc : t'.calls[i]? = some c) : t.calls[i]? = some c ∨
      i = t.calls.length ∧ c = { tag := tag, val := val } := getElem?_concat_cases hc
  have hm : m t.calls.length = none := h.paired.eq_none le_rfl
  constructor
  · have hkey : (fun q => (t'.proc q).key) =
        Function.update (fun q => (t.proc q).key) up (some (tag % RENDHASH)) :=
      key_setProc { t with rendhash := l } up e
    rw [hkey]
    exact hrows
  · intro q hq
    by_cases hqu : q = up
    · exact hqu ▸ hlt
    · rw [hother hqu] at hq
      exact h.lt q hq
  · intro q q' hq hq' htag
    by_cases hqu : q = up <;> by_cases hqu' : q' = up
    · rw [hqu, hqu']
    · rw [hother hqu'] at hq' htag
      rw [hqu, hself] at htag
      exact absurd htag.symm (hnone q' hq')
    · rw [hother hqu] at hq htag
      rw [hqu', hself] at htag
      exact absurd htag (hnone q hq)
    · rw [hother hqu] at hq htag
      rw [hother hqu'] at hq' htag
      exact h.one q q' hq hq' htag
  · intro q q' hq hq' heq
    by_cases hqu : q = up <;> by_cases hqu' : q' = up
    · rw [hqu, hqu']
    · rw [hother hqu'] at hq' heq
      rw [hqu, hself] at heq
      exact absurd heq (h.call_lt hq').ne'
    · rw [hother hqu] at hq heq
      rw [hqu', hself] at heq
      exact absurd heq (h.call_lt hq).ne
    · rw [hother hqu] at hq heq
      rw [hother hqu'] at hq' heq
      exact h.call q q' hq hq' heq
  · constructor
    · intro i j hij
      obtain ⟨hji, hne, hi⟩ := h.paired.symm i j hij
      refine ⟨hji, hne, ?_⟩
      rw [List.length_append]
      omega
    · intro i j c d hij hc hd
      rcases hnew hc with hc | ⟨rfl, -⟩
      · rcases hnew hd with hd | ⟨rfl, -⟩
        · exact h.paired.tag i j c d hij hc hd
        · cases (h.paired.symm i _ hij).1.symm.trans hm
      · cases hm.symm.trans hij
    · intro i j c d v hij hc hd hres
      rcases hnew hc with hc | ⟨rfl, -⟩
      · rcases hnew hd with hd | ⟨rfl, -⟩
        · exact h.paired.val i j c d v hij hc hd hres
        · cases (h.paired.symm i _ hij).1.symm.trans hm
      · cases hm.symm.trans hij
    · intro i c hc hnoted
      rcases hnew hc with hc | ⟨rfl, rfl⟩
      · exact h.paired.noted i c hc hnoted
      · exact hm
    · intro i c v hc hres
      rcases hnew hc with hc | ⟨rfl, rfl⟩
      · exact h.paired.returned i c v hc hres
      · cases hres
    · intro i c hc hres
      rcases hnew hc with hc | ⟨rfl, rfl⟩
      · obtain ⟨q, hcall, hq⟩ := h.paired.pending i c hc hres
        have hqu : q ≠ up := by
          rintro rfl
          exact hq hup
        exact ⟨q, by rw [hother hqu]; exact ⟨hcall, hq⟩⟩
      · exact ⟨up, by rw [hself]; exact ⟨rfl, nofun⟩⟩
    · intro q hq
      by_cases hqu : q = up
      · subst hqu
        rw [hself]
        exact ⟨_, List.getElem?_concat_length, rfl, rfl, rfl, rfl, hm⟩
      · rw [hother hqu] at hq ⊢
        obtain ⟨c, hc, hrest⟩ := h.paired.waits q hq
        exact ⟨c, hold hc, hrest⟩
    · intro q hq
      by_cases hqu : q = up
      · subst hqu
        rw [hself] at hq
        cases hq
      · rw [hother hqu] at hq ⊢
        obtain ⟨c, hc, hres, hif⟩ := h.paired.ready q hq
        refine ⟨c, hold hc, hres, ?_⟩
        split_ifs at hif ⊢
        · exact hif
        · obtain ⟨j, d, hj, hd, hval⟩ := hif
          exact ⟨j, d, hj, hold hd, hval⟩

/-- Two calls become partners. -/
def Match.join (m : Match) (i j : ℕ) : Match :=
  Function.update (Function.update m i (some j)) j (some i)

theorem Match.join_left (m : Match) {i j : ℕ} (h : i ≠ j) : m.join i j i = some j := by
  rw [join, Function.update_of_ne h, Function.update_self]

theorem Match.join_right (m : Match) (i j : ℕ) : m.join i j j = some i := Function.update_self _ _ _

theorem Match.join_of_ne (m : Match) {i j a : ℕ} (hi : a ≠ i) (hj : a ≠ j) :
    m.join i j a = m a := by
  rw [join, Function.update_of_ne hj, Function.update_of_ne hi]

/-- A process that waits meets a call with its tag. -/
theorem Inv.meet (h : Inv t m) (hp : (t.proc p).state = .Rendezvous)
    (htag : (t.proc p).rendtag = tag) {l : Links ℕ}
    (hrows : Rows l (Function.update (fun q => (t.proc q).key) p none) t.nproc) :
    Inv { State.setProc { t with rendhash := l } p
      { t.proc p with rendval := val, state := .Ready } with
      calls := t.calls ++ [{ tag := tag, val := val, result := some (t.proc p).rendval }] }
      (m.join (t.proc p).call t.calls.length) := by
  set e : Proc := { t.proc p with rendval := val, state := .Ready } with he
  set cn : Call := { tag := tag, val := val, result := some (t.proc p).rendval } with hcn
  set n := t.calls.length with hn
  set i₀ := (t.proc p).call with hi₀
  set t' : State := { State.setProc { t with rendhash := l } p e with calls := t.calls ++ [cn] }
  obtain ⟨c₀, hc₀, htag₀, hval₀, hnoted₀, hres₀, hm₀⟩ := h.paired.waits p hp
  have hlt₀ : i₀ < n := (List.getElem?_eq_some_iff.mp hc₀).1
  have hself : t'.proc p = e := Function.update_self _ _ _
  have hother {q : ℕ} (hq : q ≠ p) : t'.proc q = t.proc q := Function.update_of_ne hq _ _
  have hold {i : ℕ} {c : Call} (hc : t.calls[i]? = some c) : t'.calls[i]? = some c :=
    (List.getElem?_append_left (List.getElem?_eq_some_iff.mp hc).1).trans hc
  have hnew {i : ℕ} {c : Call} (hc : t'.calls[i]? = some c) : t.calls[i]? = some c ∨
      i = n ∧ c = cn := getElem?_concat_cases hc
  have hlast : t'.calls[n]? = some cn := List.getElem?_concat_length
  have hm : m n = none := h.paired.eq_none le_rfl
  have hwait {q : ℕ} (hq : (t'.proc q).state = .Rendezvous) : q ≠ p ∧ t'.proc q = t.proc q := by
    by_cases hqp : q = p
    · rw [hqp, hself] at hq
      cases hq
    · exact ⟨hqp, hother hqp⟩
  -- the partners of other calls are what they were
  have hjoin {i j : ℕ} (hij : m.join i₀ n i = some j) :
      i = i₀ ∧ j = n ∨ i = n ∧ j = i₀ ∨ (i ≠ i₀ ∧ i ≠ n ∧ j ≠ i₀ ∧ j ≠ n ∧ m i = some j) := by
    by_cases hi : i = i₀
    · rw [hi, Match.join_left m hlt₀.ne] at hij
      exact .inl ⟨hi, (Option.some.inj hij).symm⟩
    · by_cases hin : i = n
      · rw [hin, Match.join_right] at hij
        exact .inr (.inl ⟨hin, (Option.some.inj hij).symm⟩)
      · rw [Match.join_of_ne m hi hin] at hij
        refine .inr (.inr ⟨hi, hin, ?_, ?_, hij⟩)
        · rintro rfl
          cases (h.paired.symm i _ hij).1.symm.trans hm₀
        · rintro rfl
          cases (h.paired.symm i _ hij).1.symm.trans hm
  constructor
  · have hkey : (fun q => (t'.proc q).key) = Function.update (fun q => (t.proc q).key) p none :=
      key_setProc { t with rendhash := l } p e
    rw [hkey]
    exact hrows
  · intro q hq
    obtain ⟨-, hsame⟩ := hwait hq
    exact h.lt q (hsame ▸ hq)
  · intro q q' hq hq' heq
    obtain ⟨-, hsame⟩ := hwait hq
    obtain ⟨-, hsame'⟩ := hwait hq'
    rw [hsame, hsame'] at heq
    exact h.one q q' (hsame ▸ hq) (hsame' ▸ hq') heq
  · have hcall (q : ℕ) : (t'.proc q).call = (t.proc q).call := by
      by_cases hqp : q = p
      · rw [hqp, hself]
      · rw [hother hqp]
    have hstate {q : ℕ} (hq : (t'.proc q).state ≠ .Running) : (t.proc q).state ≠ .Running := by
      by_cases hqp : q = p
      · rw [hqp, hp]
        decide
      · rwa [hother hqp] at hq
    intro q q' hq hq' heq
    rw [hcall, hcall] at heq
    exact h.call q q' (hstate hq) (hstate hq') heq
  · constructor
    · intro i j hij
      have hlen : t'.calls.length = n + 1 := List.length_append
      rw [hlen]
      rcases hjoin hij with ⟨rfl, rfl⟩ | ⟨rfl, rfl⟩ | ⟨hi, hin, hj, hjn, hij⟩
      · exact ⟨Match.join_right _ _ _, hlt₀.ne, by omega⟩
      · exact ⟨Match.join_left _ hlt₀.ne, hlt₀.ne', by omega⟩
      · obtain ⟨hji, hne, hlt⟩ := h.paired.symm i j hij
        exact ⟨(Match.join_of_ne m hj hjn).trans hji, hne, by omega⟩
    · intro i j c d hij hc hd
      rcases hjoin hij with ⟨rfl, rfl⟩ | ⟨rfl, rfl⟩ | ⟨hi, hin, hj, hjn, hij⟩
      · cases Option.some.inj ((hold hc₀).symm.trans hc)
        cases Option.some.inj (hlast.symm.trans hd)
        rw [htag₀, htag]
      · cases Option.some.inj (hlast.symm.trans hc)
        cases Option.some.inj ((hold hc₀).symm.trans hd)
        rw [htag₀, htag]
      · rcases hnew hc with hc | ⟨h0, -⟩
        · rcases hnew hd with hd | ⟨h0, -⟩
          · exact h.paired.tag i j c d hij hc hd
          · exact absurd h0 hjn
        · exact absurd h0 hin
    · intro i j c d v hij hc hd hres
      rcases hjoin hij with ⟨rfl, rfl⟩ | ⟨rfl, rfl⟩ | ⟨hi, hin, hj, hjn, hij⟩
      · cases Option.some.inj ((hold hc₀).symm.trans hc)
        cases hres₀.symm.trans hres
      · cases Option.some.inj (hlast.symm.trans hc)
        cases Option.some.inj ((hold hc₀).symm.trans hd)
        rw [hval₀]
        exact (Option.some.inj hres).symm
      · rcases hnew hc with hc | ⟨h0, -⟩
        · rcases hnew hd with hd | ⟨h0, -⟩
          · exact h.paired.val i j c d v hij hc hd hres
          · exact absurd h0 hjn
        · exact absurd h0 hin
    · intro i c hc hnoted
      rcases hnew hc with hc | ⟨rfl, rfl⟩
      · have hi : i ≠ i₀ := by
          rintro rfl
          cases Option.some.inj (hc₀.symm.trans hc)
          rw [hnoted₀] at hnoted
          cases hnoted
        rw [Match.join_of_ne m hi (List.getElem?_eq_some_iff.mp hc).1.ne]
        exact h.paired.noted i c hc hnoted
      · cases hnoted
    · intro i c v hc hres
      rcases hnew hc with hc | ⟨rfl, rfl⟩
      · have hi : i ≠ i₀ := by
          rintro rfl
          cases Option.some.inj (hc₀.symm.trans hc)
          cases hres₀.symm.trans hres
        rw [Match.join_of_ne m hi (List.getElem?_eq_some_iff.mp hc).1.ne]
        exact h.paired.returned i c v hc hres
      · exact ⟨i₀, Match.join_right _ _ _⟩
    · intro i c hc hres
      rcases hnew hc with hc | ⟨rfl, rfl⟩
      · obtain ⟨q, hcall, hq⟩ := h.paired.pending i c hc hres
        by_cases hqp : q = p
        · refine ⟨p, ?_⟩
          rw [hself, ← hcall, hqp]
          exact ⟨rfl, nofun⟩
        · exact ⟨q, by rw [hother hqp]; exact ⟨hcall, hq⟩⟩
      · cases hres
    · intro q hq
      obtain ⟨hqp, hsame⟩ := hwait hq
      rw [hsame] at hq ⊢
      obtain ⟨c, hc, h1, h2, h3, h4, h5⟩ := h.paired.waits q hq
      have hne : (t.proc q).call ≠ i₀ := fun heq =>
        hqp (h.call q p (by rw [hq]; decide) (by rw [hp]; decide) heq)
      refine ⟨c, hold hc, h1, h2, h3, h4, ?_⟩
      rw [Match.join_of_ne m hne (List.getElem?_eq_some_iff.mp hc).1.ne]
      exact h5
    · intro q hq
      by_cases hqp : q = p
      · subst hqp
        rw [hself]
        refine ⟨c₀, hold hc₀, hres₀, ?_⟩
        rw [hnoted₀, if_neg (by decide)]
        exact ⟨n, cn, Match.join_left m hlt₀.ne, hlast, rfl⟩
      · rw [hother hqp] at hq ⊢
        obtain ⟨c, hc, hres, hif⟩ := h.paired.ready q hq
        have hne : (t.proc q).call ≠ i₀ := fun heq =>
          hqp (h.call q p (by rw [hq]; decide) (by rw [hp]; decide) heq)
        refine ⟨c, hold hc, hres, ?_⟩
        rw [Match.join_of_ne m hne (List.getElem?_eq_some_iff.mp hc).1.ne]
        split_ifs at hif ⊢
        · exact hif
        · obtain ⟨j, d, hj, hd, hval⟩ := hif
          exact ⟨j, d, hj, hold hd, hval⟩

theorem calls_setCall {f : Call → Call} {i j : ℕ} : (t.setCall i f).calls[j]? =
    (t.calls[j]?).map fun c => if j = i then f c else c := by
  rw [State.setCall, List.getElem?_modify]
  by_cases h : i = j
  · subst h
    simp
  · have h' : ¬ j = i := fun heq => h heq.symm
    simp [h, h']

/-- A process that waits is pulled out by a note. -/
theorem Inv.pull (h : Inv t m) (hp : (t.proc p).state = .Rendezvous) {l : Links ℕ}
    (hrows : Rows l (Function.update (fun q => (t.proc q).key) p none) t.nproc) :
    Inv (State.setCall (State.setProc { t with rendhash := l } p
      { t.proc p with rendval := interrupted, state := .Ready }) (t.proc p).call
        fun c => { c with noted := true }) m := by
  set e : Proc := { t.proc p with rendval := interrupted, state := .Ready } with he
  set i₀ := (t.proc p).call with hi₀
  set t' : State := State.setCall (State.setProc { t with rendhash := l } p e) i₀
    fun c => { c with noted := true }
  obtain ⟨c₀, hc₀, htag₀, hval₀, hnoted₀, hres₀, hm₀⟩ := h.paired.waits p hp
  have hself : t'.proc p = e := Function.update_self _ _ _
  have hother {q : ℕ} (hq : q ≠ p) : t'.proc q = t.proc q := Function.update_of_ne hq _ _
  have hcalls (j : ℕ) : t'.calls[j]? =
      (t.calls[j]?).map fun c => if j = i₀ then { c with noted := true } else c := calls_setCall
  have hnew {i : ℕ} {c : Call} (hc : t'.calls[i]? = some c) : ∃ c₁, t.calls[i]? = some c₁ ∧
      c.tag = c₁.tag ∧ c.val = c₁.val ∧ c.result = c₁.result ∧ (i ≠ i₀ → c = c₁) ∧
      (i = i₀ → c.noted = true) := by
    rw [hcalls] at hc
    obtain ⟨c₁, hc₁, rfl⟩ := Option.map_eq_some_iff.mp hc
    refine ⟨c₁, hc₁, ?_⟩
    split_ifs with hi
    · exact ⟨rfl, rfl, rfl, fun hne => absurd hi hne, fun _ => rfl⟩
    · exact ⟨rfl, rfl, rfl, fun _ => rfl, fun heq => absurd heq hi⟩
  have hold {i : ℕ} {c : Call} (hi : i ≠ i₀) (hc : t.calls[i]? = some c) :
      t'.calls[i]? = some c := by
    rw [hcalls, hc, Option.map_some, if_neg hi]
  have hwait {q : ℕ} (hq : (t'.proc q).state = .Rendezvous) : q ≠ p ∧ t'.proc q = t.proc q := by
    by_cases hqp : q = p
    · rw [hqp, hself] at hq
      cases hq
    · exact ⟨hqp, hother hqp⟩
  have hne {q : ℕ} (hqp : q ≠ p) (hq : (t.proc q).state ≠ .Running) : (t.proc q).call ≠ i₀ :=
    fun heq => hqp (h.call q p hq (by rw [hp]; decide) heq)
  constructor
  · have hkey : (fun q => (t'.proc q).key) = Function.update (fun q => (t.proc q).key) p none :=
      key_setProc { t with rendhash := l } p e
    rw [hkey]
    exact hrows
  · intro q hq
    obtain ⟨-, hsame⟩ := hwait hq
    exact h.lt q (hsame ▸ hq)
  · intro q q' hq hq' heq
    obtain ⟨-, hsame⟩ := hwait hq
    obtain ⟨-, hsame'⟩ := hwait hq'
    rw [hsame, hsame'] at heq
    exact h.one q q' (hsame ▸ hq) (hsame' ▸ hq') heq
  · have hcall (q : ℕ) : (t'.proc q).call = (t.proc q).call := by
      by_cases hqp : q = p
      · rw [hqp, hself]
      · rw [hother hqp]
    have hstate {q : ℕ} (hq : (t'.proc q).state ≠ .Running) : (t.proc q).state ≠ .Running := by
      by_cases hqp : q = p
      · rw [hqp, hp]
        decide
      · rwa [hother hqp] at hq
    intro q q' hq hq' heq
    rw [hcall, hcall] at heq
    exact h.call q q' (hstate hq) (hstate hq') heq
  · constructor
    · intro i j hij
      have hlen : t'.calls.length = t.calls.length := List.length_modify _ _ _
      rw [hlen]
      exact h.paired.symm i j hij
    · intro i j c d hij hc hd
      obtain ⟨c₁, hc₁, htag, -⟩ := hnew hc
      obtain ⟨d₁, hd₁, htag', -⟩ := hnew hd
      rw [htag, htag']
      exact h.paired.tag i j c₁ d₁ hij hc₁ hd₁
    · intro i j c d v hij hc hd hres
      obtain ⟨c₁, hc₁, -, -, hresult, -⟩ := hnew hc
      obtain ⟨d₁, hd₁, -, hval, -⟩ := hnew hd
      rw [hval]
      exact h.paired.val i j c₁ d₁ v hij hc₁ hd₁ (hresult ▸ hres)
    · intro i c hc hnoted
      by_cases hi : i = i₀
      · rw [hi]
        exact hm₀
      · obtain ⟨c₁, hc₁, -, -, -, heq, -⟩ := hnew hc
        rw [heq hi] at hnoted
        exact h.paired.noted i c₁ hc₁ hnoted
    · intro i c v hc hres
      obtain ⟨c₁, hc₁, -, -, hresult, heq, -⟩ := hnew hc
      have hi : i ≠ i₀ := by
        rintro rfl
        cases Option.some.inj (hc₀.symm.trans hc₁)
        cases hres₀.symm.trans (hresult ▸ hres)
      rw [heq hi]
      exact h.paired.returned i c₁ v hc₁ (hresult ▸ hres)
    · intro i c hc hres
      obtain ⟨c₁, hc₁, -, -, hresult, -⟩ := hnew hc
      obtain ⟨q, hcall, hq⟩ := h.paired.pending i c₁ hc₁ (hresult ▸ hres)
      by_cases hqp : q = p
      · refine ⟨p, ?_⟩
        rw [hself, ← hcall, hqp]
        exact ⟨rfl, nofun⟩
      · exact ⟨q, by rw [hother hqp]; exact ⟨hcall, hq⟩⟩
    · intro q hq
      obtain ⟨hqp, hsame⟩ := hwait hq
      rw [hsame] at hq ⊢
      obtain ⟨c, hc, hrest⟩ := h.paired.waits q hq
      exact ⟨c, hold (hne hqp (by rw [hq]; decide)) hc, hrest⟩
    · intro q hq
      by_cases hqp : q = p
      · subst hqp
        rw [hself]
        refine ⟨{ c₀ with noted := true }, ?_, hres₀, ?_⟩
        · rw [hcalls, hc₀, Option.map_some, if_pos rfl]
        · rw [if_pos rfl]
      · rw [hother hqp] at hq ⊢
        obtain ⟨c, hc, hres, hif⟩ := h.paired.ready q hq
        refine ⟨c, hold (hne hqp (by rw [hq]; decide)) hc, hres, ?_⟩
        split_ifs at hif ⊢
        · exact hif
        · obtain ⟨j, d, hj, hd, hval⟩ := hif
          refine ⟨j, d, hj, hold ?_ hd, hval⟩
          rintro rfl
          cases (h.paired.symm _ _ hj).1.symm.trans hm₀

/-- A call that has waited returns. -/
theorem Inv.resume (h : Inv t m) (hp : (t.proc p).state = .Ready) : Inv (resume t p) m := by
  set e : Proc := { t.proc p with state := .Running } with he
  set i₀ := (t.proc p).call with hi₀
  set t' := Rendez.resume t p with ht'
  obtain ⟨c₀, hc₀, hres₀, hready⟩ := h.paired.ready p hp
  have hself : t'.proc p = e := Function.update_self _ _ _
  have hother {q : ℕ} (hq : q ≠ p) : t'.proc q = t.proc q := Function.update_of_ne hq _ _
  have hcalls (j : ℕ) : t'.calls[j]? = (t.calls[j]?).map fun c =>
      if j = i₀ then { c with result := some (t.proc p).rendval } else c := calls_setCall
  have hnew {i : ℕ} {c : Call} (hc : t'.calls[i]? = some c) : ∃ c₁, t.calls[i]? = some c₁ ∧
      c.tag = c₁.tag ∧ c.val = c₁.val ∧ c.noted = c₁.noted ∧ (i ≠ i₀ → c = c₁) ∧
      (i = i₀ → c.result = some (t.proc p).rendval) := by
    rw [hcalls] at hc
    obtain ⟨c₁, hc₁, rfl⟩ := Option.map_eq_some_iff.mp hc
    refine ⟨c₁, hc₁, ?_⟩
    split_ifs with hi
    · exact ⟨rfl, rfl, rfl, fun hne => absurd hi hne, fun _ => rfl⟩
    · exact ⟨rfl, rfl, rfl, fun _ => rfl, fun heq => absurd heq hi⟩
  have hold {i : ℕ} {c : Call} (hi : i ≠ i₀) (hc : t.calls[i]? = some c) :
      t'.calls[i]? = some c := by
    rw [hcalls, hc, Option.map_some, if_neg hi]
  have hbusy {q : ℕ} (hq : (t'.proc q).state ≠ .Running) : q ≠ p ∧ t'.proc q = t.proc q := by
    by_cases hqp : q = p
    · rw [hqp, hself] at hq
      exact absurd rfl hq
    · exact ⟨hqp, hother hqp⟩
  have hne {q : ℕ} (hqp : q ≠ p) (hq : (t.proc q).state ≠ .Running) : (t.proc q).call ≠ i₀ :=
    fun heq => hqp (h.call q p hq (by rw [hp]; decide) heq)
  constructor
  · refine h.rows.congr fun q _ => ?_
    by_cases hqp : q = p
    · rw [hqp, hself, Proc.key, Proc.key, hp]
      rfl
    · rw [hother hqp]
  · intro q hq
    obtain ⟨-, hsame⟩ := hbusy (by rw [hq]; decide)
    exact h.lt q (hsame ▸ hq)
  · intro q q' hq hq' heq
    obtain ⟨-, hsame⟩ := hbusy (q := q) (by rw [hq]; decide)
    obtain ⟨-, hsame'⟩ := hbusy (q := q') (by rw [hq']; decide)
    rw [hsame, hsame'] at heq
    exact h.one q q' (hsame ▸ hq) (hsame' ▸ hq') heq
  · intro q q' hq hq' heq
    obtain ⟨-, hsame⟩ := hbusy hq
    obtain ⟨-, hsame'⟩ := hbusy hq'
    rw [hsame] at hq heq
    rw [hsame'] at hq' heq
    exact h.call q q' hq hq' heq
  · constructor
    · intro i j hij
      have hlen : t'.calls.length = t.calls.length := List.length_modify _ _ _
      rw [hlen]
      exact h.paired.symm i j hij
    · intro i j c d hij hc hd
      obtain ⟨c₁, hc₁, htag, -⟩ := hnew hc
      obtain ⟨d₁, hd₁, htag', -⟩ := hnew hd
      rw [htag, htag']
      exact h.paired.tag i j c₁ d₁ hij hc₁ hd₁
    · intro i j c d v hij hc hd hres
      obtain ⟨c₁, hc₁, -, -, hnoted, heq, hresult⟩ := hnew hc
      obtain ⟨d₁, hd₁, -, hval, -⟩ := hnew hd
      rw [hval]
      by_cases hi : i = i₀
      · have hno : c₀.noted = false := by
          by_contra hno
          have := h.paired.noted i₀ c₀ hc₀ (by simpa using hno)
          rw [hi, this] at hij
          cases hij
        rw [hno, if_neg (by decide)] at hready
        obtain ⟨j', d', hj', hd', hval'⟩ := hready
        rw [hi] at hij
        cases Option.some.inj (hj'.symm.trans hij)
        cases Option.some.inj (hd'.symm.trans hd₁)
        rw [← hval']
        exact Option.some.inj (hres.symm.trans (hresult hi))
      · rw [heq hi] at hres
        exact h.paired.val i j c₁ d₁ v hij hc₁ hd₁ hres
    · intro i c hc hnoted
      obtain ⟨c₁, hc₁, -, -, hsame, -⟩ := hnew hc
      exact h.paired.noted i c₁ hc₁ (hsame ▸ hnoted)
    · intro i c v hc hres
      obtain ⟨c₁, hc₁, -, -, hnoted, heq, hresult⟩ := hnew hc
      by_cases hi : i = i₀
      · rw [hi] at hc₁
        cases Option.some.inj (hc₀.symm.trans hc₁)
        have hv := Option.some.inj (hres.symm.trans (hresult hi))
        rw [hnoted, hi]
        split_ifs at hready ⊢
        · rw [hv, hready]
        · obtain ⟨j, d, hj, -⟩ := hready
          exact ⟨j, hj⟩
      · rw [heq hi] at hres ⊢
        exact h.paired.returned i c₁ v hc₁ hres
    · intro i c hc hres
      obtain ⟨c₁, hc₁, -, -, -, heq, hresult⟩ := hnew hc
      have hi : i ≠ i₀ := by
        intro hi
        cases hres.symm.trans (hresult hi)
      rw [heq hi] at hres
      obtain ⟨q, hcall, hq⟩ := h.paired.pending i c₁ hc₁ hres
      have hqp : q ≠ p := by
        rintro rfl
        exact hi hcall.symm
      exact ⟨q, by rw [hother hqp]; exact ⟨hcall, hq⟩⟩
    · intro q hq
      obtain ⟨hqp, hsame⟩ := hbusy (q := q) (by rw [hq]; decide)
      rw [hsame] at hq ⊢
      obtain ⟨c, hc, hrest⟩ := h.paired.waits q hq
      exact ⟨c, hold (hne hqp (by rw [hq]; decide)) hc, hrest⟩
    · intro q hq
      obtain ⟨hqp, hsame⟩ := hbusy (q := q) (by rw [hq]; decide)
      rw [hsame] at hq ⊢
      obtain ⟨c, hc, hres, hif⟩ := h.paired.ready q hq
      refine ⟨c, hold (hne hqp (by rw [hq]; decide)) hc, hres, ?_⟩
      split_ifs at hif ⊢
      · exact hif
      · obtain ⟨j, d, hj, hd, hval⟩ := hif
        have hd' : t'.calls[j]? = some (if j = i₀ then
            { d with result := some (t.proc p).rendval } else d) := by
          rw [hcalls, hd, Option.map_some]
        refine ⟨j, _, hj, hd', ?_⟩
        rw [hval]
        split_ifs <;> rfl

/-! ### Runs -/

theorem key_eq_none (hup : (t.proc up).state ≠ .Rendezvous) : (t.proc up).key = none := if_neg hup

/-- A step that can be done ends, and keeps the invariant. -/
theorem inv_exec {op : Op} (h : Inv t m) (ha : Able t op) :
    ∃ t' m', exec t op = some t' ∧ Inv t' m' := by
  cases op with
  | sysrendezvous up tag val =>
    obtain ⟨hlt, hup⟩ := ha
    have hidle := h.idle (e := { t.proc up with rendval := interrupted }) hup hup
    set u := t.setProc up { t.proc up with rendval := interrupted } with hu
    have hup' : (u.proc up).state = .Running := by
      rw [hu, proc_setProc_self]
      exact hup
    obtain ⟨l, hwalk, hfound⟩ := hidle.rows.find (fun p => (u.proc p).rendtag = tag)
      (tag % RENDHASH) (Nat.lt_succ_self _)
    simp only [exec, sysrendezvous, State.find, ← hu, hwalk, Option.map_some]
    cases hget : u.rendhash.get l with
    | some p =>
      obtain ⟨-, hkey, htag⟩ := hfound p hget
      have hp : (u.proc p).state = .Rendezvous := by
        by_contra hno
        rw [key_eq_none hno] at hkey
        cases hkey
      exact ⟨_, _, rfl, hidle.meet hp (of_decide_eq_true htag)
        (hidle.rows.unlink (Nat.lt_succ_self _) hwalk hget)⟩
    | none =>
      have hkey : (u.proc up).key = none := key_eq_none (by rw [hup']; decide)
      refine ⟨_, _, rfl, hidle.wait hup' hlt (fun q hq htag => ?_)
        (hidle.rows.enter hkey hlt (Nat.lt_succ_self _) hwalk hget)⟩
      have hno := hidle.rows.absent (Nat.lt_succ_self _) hwalk hget (hidle.lt q hq)
        (by rw [Proc.key, if_pos hq, htag])
      rw [htag] at hno
      exact absurd hno (by simp)
  | postnote p =>
    simp only [exec, postnote]
    by_cases hp : (t.proc p).state = .Rendezvous
    · rw [if_neg (not_not.mpr hp)]
      have hkey : (t.proc p).key = some ((t.proc p).rendtag % RENDHASH) := if_pos hp
      obtain ⟨l, hl, hrows⟩ := h.rows.remove (.inl hkey) (Nat.lt_succ_self _)
      rw [hl, Option.map_some]
      exact ⟨_, m, rfl, h.pull hp hrows⟩
    · rw [if_pos hp]
      exact ⟨t, m, rfl, h⟩
  | resume p => exact ⟨_, m, rfl, h.resume ha⟩

theorem Inv.exchanged (h : Inv t m) : Exchanged t where
  one := h.one
  chain i := by
    obtain ⟨ps, hps, hnodup, hmem⟩ := h.rows i
    refine ⟨ps, hps, hnodup, fun p => ?_⟩
    rw [hmem p]
    constructor
    · rintro ⟨-, hkey⟩
      change (t.proc p).key = some i at hkey
      unfold Proc.key at hkey
      split_ifs at hkey with hp
      exact ⟨hp, Option.some.inj hkey⟩
    · rintro ⟨hp, hi⟩
      exact ⟨h.lt p hp, (if_pos hp).trans (congrArg some hi)⟩
  pairs := ⟨m, h.paired⟩

theorem inv_start (n : ℕ) : Inv { nproc := n } fun _ => none := by
  refine ⟨fun i => ⟨[], rfl, List.nodup_nil, fun p => ?_⟩, nofun, nofun, fun p q hp => ?_, ?_⟩
  · exact iff_of_false List.not_mem_nil fun hp => by cases hp.2
  · exact absurd rfl hp
  · exact ⟨nofun, nofun, nofun, nofun, nofun, nofun, nofun, nofun⟩

def Sound (t : State) : Prop := ∃ m, Inv t m

/-- In every state reached one process at most waits for a tag, it is on its chain, and calls have
exchanged their values in pairs; and every step ends. -/
theorem exchanged_of_run (n : ℕ) (t : State) (h : Run step Able { nproc := n } t) :
    Exchanged t ∧ ∀ op, Able t op → ∃ t', exec t op = some t' := by
  have hinv : Sound t := by
    refine h.invariant (show Sound { nproc := n } from ⟨_, inv_start n⟩) ?_
    rintro t op t' ⟨m, hm⟩ hok hstep
    obtain ⟨u, m', hu, hm'⟩ := inv_exec hm hok
    cases Option.some.inj (hu.symm.trans hstep)
    exact ⟨m', hm'⟩
  obtain ⟨m, hm⟩ := hinv
  refine ⟨hm.exchanged, fun op ha => ?_⟩
  obtain ⟨t', -, ht', -⟩ := inv_exec hm ha
  exact ⟨t', ht'⟩

/-- Two processes exchange the values 5 and 6, and a third waits and is interrupted. -/
def threeCalls : List Op :=
  [.sysrendezvous 0 7 5, .sysrendezvous 2 39 1, .sysrendezvous 1 7 6, .postnote 2, .resume 2,
    .resume 0]

theorem exchanged_three : ∃ t, t.calls.map Call.result = [some 6, some interrupted, some 5] ∧
    Exchanged t := by
  have heval : ((threeCalls.foldlM (fun t op => if Able t op then exec t op else none)
      { nproc := 3 }).any fun t =>
        t.calls.map Call.result = [some 6, some interrupted, some 5]) = true := by decide +kernel
  obtain ⟨t, ht, hcalls⟩ := (Option.any_eq_true _ _).mp heval
  exact ⟨t, of_decide_eq_true hcalls, (exchanged_of_run 3 t (Run.of_foldlM_of_test ht)).1⟩

end PlanNine.Rendez
