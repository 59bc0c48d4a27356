import Mathlib.Logic.Basic

/-!
# Runs of a step relation

A system takes steps, each with a label that holds its inputs. `Run` are the states reached by
steps that meet a condition on the state before the step and on its label. An invariant is proved
once for the start and once for a step.

## Main definitions

* `Run step ok s t`: the state `t` is reached from `s` by steps that meet `ok`.
* `Run.states`, `Run.Meets`: where a step is a function, the states that a list of labels passes,
  and that its steps meet a condition.

## Main results

* `Run.invariant`: what holds at the start and is kept by every step holds in every state reached.
* `Run.mono`: a weaker condition allows more runs.
* `Run.of_foldlM`, `Run.of_foldlM_of_test`: the run of a list of labels.
* `Run.forall_states_iff`: a property holds in all states passed just when all steps meet the
  condition that is exact for one step.
-/

namespace PlanNine

variable {σ ε : Type*}

/-- The states reached from `s` by steps that meet `ok`. -/
inductive Run (step : σ → ε → σ → Prop) (ok : σ → ε → Prop) (s : σ) : σ → Prop
  | nil : Run step ok s s
  | snoc {t u : σ} {e : ε} (h : Run step ok s t) (hok : ok t e) (hstep : step t e u) :
      Run step ok s u

namespace Run

variable {step : σ → ε → σ → Prop} {ok ok' : σ → ε → Prop} {s t u : σ}

/-- An invariant of the steps that meet the condition holds in every state reached. -/
theorem invariant {Inv : σ → Prop} (h0 : Inv s)
    (hstep : ∀ t e u, Inv t → ok t e → step t e u → Inv u) (h : Run step ok s t) : Inv t := by
  induction h with
  | nil => exact h0
  | snoc _ hok hst ih => exact hstep _ _ _ ih hok hst

theorem mono_step {step' : σ → ε → σ → Prop} (hstep : ∀ s e t, step s e t → step' s e t)
    (h : Run step ok s t) : Run step' ok s t := by
  induction h with
  | nil => exact .nil
  | snoc _ h hst ih => exact ih.snoc h (hstep _ _ _ hst)

theorem trans (h : Run step ok s t) (h' : Run step ok t u) : Run step ok s u := by
  induction h' with
  | nil => exact h
  | snoc _ hok hst ih => exact ih.snoc hok hst

/-- Where a step is a function, a list of labels that meet the condition is a run. -/
theorem of_foldlM_of_forall {exec : σ → ε → Option σ} {l : List ε}
    (hok : ∀ t, ∀ e ∈ l, ok t e) (h : l.foldlM exec s = some t) :
    Run (fun s e t => exec s e = some t) ok s t := by
  induction l generalizing s with
  | nil =>
    cases h
    exact .nil
  | cons e l ih =>
    rw [List.foldlM_cons] at h
    cases hu : exec s e with
    | none =>
      rw [hu] at h
      cases h
    | some u =>
      rw [hu] at h
      exact (Run.nil.snoc (hok s e List.mem_cons_self) hu).trans
        (ih (fun t e he => hok t e (List.mem_cons_of_mem _ he)) h)

/-- Where a step is a function, a list of labels is a run. -/
theorem of_foldlM {exec : σ → ε → Option σ} {l : List ε} (h : l.foldlM exec s = some t) :
    Run (fun s e t => exec s e = some t) (fun _ _ => True) s t :=
  of_foldlM_of_forall (fun _ _ _ => trivial) h

/-- Where a step is a function, a list of labels, each tested before its step, is a run. -/
theorem of_foldlM_of_test {exec : σ → ε → Option σ} [∀ t e, Decidable (ok t e)] {l : List ε}
    (h : l.foldlM (fun t e => if ok t e then exec t e else none) s = some t) :
    Run (fun s e t => exec s e = some t) ok s t := by
  induction l generalizing s with
  | nil =>
    cases h
    exact .nil
  | cons e l ih =>
    rw [List.foldlM_cons] at h
    obtain ⟨u, hu, h⟩ := Option.bind_eq_some_iff.mp h
    split at hu
    · exact (Run.nil.snoc ‹_› hu).trans (ih h)
    · cases hu

/-! ### Exact conditions -/

/-- The states passed, up to the end or to a step that cannot be taken. -/
def states (exec : σ → ε → Option σ) : σ → List ε → List σ
  | s, [] => [s]
  | s, e :: l =>
    s :: match exec s e with
      | some t => states exec t l
      | none => []

/-- The steps taken meet `ok`. -/
def Meets (exec : σ → ε → Option σ) (ok : σ → ε → Prop) : σ → List ε → Prop
  | _, [] => True
  | s, e :: l =>
    match exec s e with
    | some t => ok s e ∧ Meets exec ok t l
    | none => True

/-- Where, from the states of an invariant, a step keeps a property just when it meets a condition,
a list of labels keeps the property throughout just when all of its steps meet the condition. -/
theorem forall_states_iff {exec : σ → ε → Option σ} {P : σ → Prop} (Inv : σ → Prop)
    (hinv : Inv s) (hp : P s)
    (hstep : ∀ s e t, Inv s → P s → ok s e → exec s e = some t → Inv t)
    (hiff : ∀ s e t, Inv s → P s → exec s e = some t → (P t ↔ ok s e)) (l : List ε) :
    (∀ t ∈ states exec s l, P t) ↔ Meets exec ok s l := by
  induction l generalizing s with
  | nil =>
    rw [Meets, iff_true]
    intro t ht
    rwa [List.mem_singleton.mp ht]
  | cons e l ih =>
    rw [states, Meets, List.forall_mem_cons]
    cases he : exec s e with
    | none => exact iff_of_true ⟨hp, nofun⟩ trivial
    | some t =>
      have hs := hiff s e t hinv hp he
      constructor
      · rintro ⟨-, h⟩
        have ht : P t := h t (by cases l <;> exact List.mem_cons_self)
        have hok := hs.mp ht
        exact ⟨hok, (ih (hstep s e t hinv hp hok he) ht).mp h⟩
      · rintro ⟨hok, h⟩
        exact ⟨hp, (ih (hstep s e t hinv hp hok he) (hs.mpr hok)).mpr h⟩

end Run

end PlanNine
