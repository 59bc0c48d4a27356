import Mathlib.Data.List.Basic

/-!
# Histories

What has happened, the latest first, and what still holds because of it.

## Main definitions

* `Since P Q h`: something with `P` has happened, and nothing with `Q` since.

## Main results

* `since_cons`: how one more event changes this.
-/

namespace PlanNine

variable {ε : Type*} {P Q : ε → Prop} {e : ε} {h : List ε}

/-- Something with `P` has happened, and nothing with `Q` since. -/
def Since (P Q : ε → Prop) (h : List ε) : Prop :=
  ∃ later e earlier, h = later ++ e :: earlier ∧ P e ∧ ∀ e' ∈ later, ¬ Q e'

theorem not_since_nil : ¬ Since P Q [] := by
  rintro ⟨later, e, earlier, h, -⟩
  exact List.append_ne_nil_of_right_ne_nil later (List.cons_ne_nil e earlier) h.symm

theorem since_cons : Since P Q (e :: h) ↔ P e ∨ (¬ Q e ∧ Since P Q h) := by
  constructor
  · rintro ⟨later, e', earlier, heq, hP, hQ⟩
    cases later with
    | nil =>
      obtain ⟨rfl, -⟩ := List.cons.inj heq
      exact .inl hP
    | cons d later =>
      obtain ⟨rfl, rfl⟩ := List.cons.inj heq
      exact .inr ⟨hQ e List.mem_cons_self, later, e', earlier, rfl, hP,
        fun d hd => hQ d (List.mem_cons_of_mem _ hd)⟩
  · rintro (hP | ⟨hQ, later, e', earlier, rfl, hP, hlater⟩)
    · exact ⟨[], e, h, rfl, hP, nofun⟩
    · refine ⟨e :: later, e', earlier, rfl, hP, fun d hd => ?_⟩
      obtain rfl | hd := List.mem_cons.mp hd
      · exact hQ
      · exact hlater d hd

/-- An event that brings it about. -/
theorem Since.now (hP : P e) : Since P Q (e :: h) :=
  since_cons.mpr (.inl hP)

end PlanNine
