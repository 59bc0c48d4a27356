import Mathlib.Logic.Basic

/-!
# Kernel routines that raise errors

A kernel routine works on a state, may raise an error that an enclosing `waserror` catches, and
may panic. Raising an error does not undo the changes made so far, so the state is kept on every
way out. `Kern π σ α` is the type of such routines, `Kern.wp` their weakest preconditions.

## Main definitions

* `Stop`: the two ways of stopping early, an error and a panic.
* `Kern`: routines over a state `σ` with panics of type `π`.
* `Kern.waserror`: run a routine, handle its error, let a panic through.
* `Kern.wp`: the weakest precondition for a postcondition on results and one on early stops.
* `Kern.Maintains`, `Kern.Leaves`: a routine keeps an invariant, or a part of the state.
* `Kern.Fails`, `Kern.Alike`, `Kern.Akin`: a routine never returns; two routines leave the same
  state, and end alike or panic alike.

## Main results

* `Kern.wp_bind`, `Kern.wp_waserror`: the rules of sequencing and of error handling.
* `Kern.wp_mono`: weakening both postconditions.
* `Kern.Maintains.bind`, `Kern.Maintains.waserror`: invariants of composed routines.
-/

namespace PlanNine

/-- Why a routine stopped early. -/
inductive Stop (π : Type) where
  | error (msg : String)
  | panic (why : π)
  deriving DecidableEq, Repr

/-- A routine over the state `σ`: a result or an early stop, and the state it leaves. -/
def Kern (π σ α : Type) : Type :=
  σ → Except (Stop π) α × σ

namespace Kern

variable {π σ α β : Type}

instance : Monad (Kern π σ) where
  pure a := fun s => (.ok a, s)
  bind m f := fun s =>
    match m s with
    | (.ok a, s') => f a s'
    | (.error e, s') => (.error e, s')

/-- The current state. -/
def get : Kern π σ σ := fun s => (.ok s, s)

/-- Change the state. -/
def modify (f : σ → σ) : Kern π σ Unit := fun s => (.ok (), f s)

/-- Raise an error. -/
def error (msg : String) : Kern π σ α := fun s => (.error (.error msg), s)

/-- Stop the machine. -/
def panic (why : π) : Kern π σ α := fun s => (.error (.panic why), s)

/-- Stop the machine unless `b` holds. -/
def assert (b : Bool) (why : π) : Kern π σ Unit :=
  if b then pure () else panic why

/-- Run `m`; if it raises an error, go on with `handler` from the state `m` left. -/
def waserror (m : Kern π σ α) (handler : String → Kern π σ α) : Kern π σ α := fun s =>
  match m s with
  | (.error (.error msg), s') => handler msg s'
  | r => r

/-- Weakest precondition: `Q` of the result or `E` of the early stop, with the state left. -/
def wp (m : Kern π σ α) (Q : α → σ → Prop) (E : Stop π → σ → Prop) (s : σ) : Prop :=
  match m s with
  | (.ok a, s') => Q a s'
  | (.error e, s') => E e s'

variable {m : Kern π σ α} {f : α → Kern π σ β} {Q : α → σ → Prop} {R : β → σ → Prop}
  {E : Stop π → σ → Prop} {s : σ}

@[simp] theorem wp_pure (a : α) : (pure a : Kern π σ α).wp Q E s ↔ Q a s := Iff.rfl

@[simp] theorem wp_bind : (m >>= f).wp R E s ↔ m.wp (fun a s' => (f a).wp R E s') E s := by
  change (match (match m s with
    | (.ok a, s') => f a s'
    | (.error e, s') => (.error e, s')) with
    | (.ok b, s') => R b s'
    | (.error e, s') => E e s') ↔ _
  unfold wp
  rcases m s with ⟨_ | a, s'⟩ <;> rfl

@[simp] theorem wp_get {Q : σ → σ → Prop} : (get : Kern π σ σ).wp Q E s ↔ Q s s := Iff.rfl

@[simp] theorem wp_modify {g : σ → σ} {Q : Unit → σ → Prop} :
    (modify g : Kern π σ Unit).wp Q E s ↔ Q () (g s) := Iff.rfl

@[simp] theorem wp_error (msg : String) :
    (error msg : Kern π σ α).wp Q E s ↔ E (.error msg) s := Iff.rfl

@[simp] theorem wp_panic (why : π) :
    (panic why : Kern π σ α).wp Q E s ↔ E (.panic why) s := Iff.rfl

@[simp] theorem wp_assert {b : Bool} {why : π} {Q : Unit → σ → Prop} :
    (assert b why : Kern π σ Unit).wp Q E s ↔ if b then Q () s else E (.panic why) s := by
  cases b <;> rfl

/-- The postcondition on early stops under a handler: `H` of an error, `E` of a panic. -/
def caught (H : String → σ → Prop) (E : Stop π → σ → Prop) : Stop π → σ → Prop
  | .error msg => H msg
  | .panic why => E (.panic why)

@[simp] theorem caught_error (H : String → σ → Prop) (E : Stop π → σ → Prop) (msg : String) :
    caught H E (.error msg) = H msg := rfl

@[simp] theorem caught_panic (H : String → σ → Prop) (E : Stop π → σ → Prop) (why : π) :
    caught H E (.panic why) = E (.panic why) := rfl

@[simp] theorem wp_waserror {handler : String → Kern π σ α} :
    (waserror m handler).wp Q E s ↔ m.wp Q (caught (fun msg => (handler msg).wp Q E) E) s := by
  change (match (match m s with
    | (.error (.error msg), s') => handler msg s'
    | r => r) with
    | (.ok a, s') => Q a s'
    | (.error e, s') => E e s') ↔ _
  unfold wp
  rcases m s with ⟨(_ | _) | _, s'⟩ <;> rfl

@[simp] theorem wp_ite {c : Prop} [Decidable c] {m' : Kern π σ α} :
    (if c then m else m').wp Q E s ↔ if c then m.wp Q E s else m'.wp Q E s := by
  split <;> rfl

/-- Weaken both postconditions of a routine. -/
theorem wp_mono {Q' : α → σ → Prop} {E' : Stop π → σ → Prop} (h : m.wp Q E s)
    (hQ : ∀ a s', Q a s' → Q' a s') (hE : ∀ e s', E e s' → E' e s') : m.wp Q' E' s := by
  unfold wp at h ⊢
  rcases hm : m s with ⟨e | a, s'⟩
  · rw [hm] at h
    exact hE e s' h
  · rw [hm] at h
    exact hQ a s' h

/-- Replace the postcondition on results by an equivalent one. -/
theorem wp_congr {Q' : α → σ → Prop} (hQ : ∀ a s', Q a s' ↔ Q' a s') :
    m.wp Q E s ↔ m.wp Q' E s :=
  ⟨fun h => wp_mono h (fun a s' => (hQ a s').mp) fun _ _ => id,
    fun h => wp_mono h (fun a s' => (hQ a s').mpr) fun _ _ => id⟩

/-- What the weakest precondition says of the value computed. -/
theorem wp_iff_forall : m.wp Q E s ↔
    (∀ a s', m s = (.ok a, s') → Q a s') ∧ (∀ e s', m s = (.error e, s') → E e s') := by
  unfold wp
  rcases hm : m s with ⟨e | a, s'⟩ <;> simp

/-- A postcondition common to all ways out holds of the state left. -/
theorem wp_snd {P : σ → Prop} (h : m.wp (fun _ => P) (fun _ => P) s) : P (m s).2 := by
  unfold wp at h
  rcases hm : m s with ⟨_ | _, s'⟩ <;> simpa only [hm] using h

/-- The state left, whichever way the routine stops. -/
theorem wp_left : m.wp (fun _ s' => s' = (m s).2) (fun _ s' => s' = (m s).2) s := by
  rw [wp_iff_forall]
  exact ⟨fun _ _ h => by rw [h], fun _ _ h => by rw [h]⟩

/-! ### Invariants and frames -/

/-- A routine keeps the invariant `I`, whichever way it stops. -/
def Maintains (I : σ → Prop) (m : Kern π σ α) : Prop :=
  ∀ s, I s → m.wp (fun _ s' => I s') (fun _ s' => I s') s

namespace Maintains

variable {I : σ → Prop}

theorem pure (a : α) : Maintains I (pure a : Kern π σ α) := fun _ h => h

theorem get : Maintains I (get : Kern π σ σ) := fun _ h => h

theorem modify {g : σ → σ} (hg : ∀ s, I s → I (g s)) :
    Maintains I (modify g : Kern π σ Unit) := hg

theorem error (msg : String) : Maintains I (error msg : Kern π σ α) := fun _ h => h

theorem panic (why : π) : Maintains I (panic why : Kern π σ α) := fun _ h => h

theorem assert (b : Bool) (why : π) : Maintains I (assert b why : Kern π σ Unit) := by
  cases b <;> exact fun _ h => h

theorem bind (hm : Maintains I m) (hf : ∀ a, Maintains I (f a)) : Maintains I (m >>= f) := by
  intro s h
  rw [wp_bind]
  exact wp_mono (hm s h) (fun a s' h' => hf a s' h') fun _ _ h' => h'

theorem waserror {handler : String → Kern π σ α} (hm : Maintains I m)
    (hh : ∀ msg, Maintains I (handler msg)) : Maintains I (waserror m handler) := by
  intro s h
  rw [wp_waserror]
  refine wp_mono (hm s h) (fun _ _ h' => h') fun e s' h' => ?_
  cases e with
  | error msg => exact hh msg s' h'
  | panic why => exact h'

theorem ite {c : Prop} [Decidable c] {m' : Kern π σ α} (hm : c → Maintains I m)
    (hm' : ¬ c → Maintains I m') : Maintains I (if c then m else m') := by
  split
  · exact hm ‹_›
  · exact hm' ‹_›

end Maintains

/-- A routine leaves the part `p` of the state alone, whichever way it stops. -/
def Leaves {τ : Type} (p : σ → τ) (m : Kern π σ α) : Prop :=
  ∀ v, Maintains (fun s => p s = v) m

namespace Leaves

variable {τ : Type} {p : σ → τ}

theorem pure (a : α) : Leaves p (pure a : Kern π σ α) := fun _ => .pure a

theorem get : Leaves p (get : Kern π σ σ) := fun _ => .get

theorem modify {g : σ → σ} (hg : ∀ s, p (g s) = p s) : Leaves p (modify g : Kern π σ Unit) :=
  fun _ => .modify fun s h => (hg s).trans h

theorem error (msg : String) : Leaves p (error msg : Kern π σ α) := fun _ => .error msg

theorem panic (why : π) : Leaves p (panic why : Kern π σ α) := fun _ => .panic why

theorem assert (b : Bool) (why : π) : Leaves p (assert b why : Kern π σ Unit) :=
  fun _ => .assert b why

theorem bind (hm : Leaves p m) (hf : ∀ a, Leaves p (f a)) : Leaves p (m >>= f) :=
  fun v => .bind (hm v) fun a => hf a v

theorem waserror {handler : String → Kern π σ α} (hm : Leaves p m)
    (hh : ∀ msg, Leaves p (handler msg)) : Leaves p (waserror m handler) :=
  fun v => .waserror (hm v) fun msg => hh msg v

theorem ite {c : Prop} [Decidable c] {m' : Kern π σ α} (hm : c → Leaves p m)
    (hm' : ¬ c → Leaves p m') : Leaves p (if c then m else m') :=
  fun v => .ite (fun h => hm h v) fun h => hm' h v

/-- What the part was before the routine it is after it. -/
theorem wp_self (hm : Leaves p m) (s : σ) :
    m.wp (fun _ s' => p s' = p s) (fun _ s' => p s' = p s) s :=
  hm (p s) s rfl

end Leaves

/-! ### Runs of composed routines -/

theorem wp_of_ok {a : α} {s' : σ} (h : m s = (.ok a, s')) : m.wp Q E s ↔ Q a s' := by
  rw [wp, h]

theorem wp_of_error {e : Stop π} {s' : σ} (h : m s = (.error e, s')) : m.wp Q E s ↔ E e s' := by
  rw [wp, h]

theorem bind_of_ok {a : α} {s' : σ} (h : m s = (.ok a, s')) : (m >>= f) s = f a s' := by
  change (match m s with
    | (.ok a, s') => f a s'
    | (.error e, s') => (.error e, s')) = _
  rw [h]

theorem bind_of_error {e : Stop π} {s' : σ} (h : m s = (.error e, s')) :
    (m >>= f) s = (.error e, s') := by
  change (match m s with
    | (.ok a, s') => f a s'
    | (.error e, s') => (.error e, s')) = _
  rw [h]

theorem waserror_of_ok {handler : String → Kern π σ α} {a : α} {s' : σ} (h : m s = (.ok a, s')) :
    waserror m handler s = (.ok a, s') := by
  rw [waserror, h]

theorem waserror_of_error {handler : String → Kern π σ α} {msg : String} {s' : σ}
    (h : m s = (.error (.error msg), s')) : waserror m handler s = handler msg s' := by
  rw [waserror, h]

theorem waserror_of_panic {handler : String → Kern π σ α} {why : π} {s' : σ}
    (h : m s = (.error (.panic why), s')) :
    waserror m handler s = (.error (.panic why), s') := by
  rw [waserror, h]

theorem ite_run {c : Prop} [Decidable c] (m m' : Kern π σ α) (s : σ) :
    (if c then m else m') s = if c then m s else m' s := by
  split <;> rfl

/-- A routine that never returns. -/
def Fails (m : Kern π σ α) : Prop := ∀ s, ∃ e, (m s).1 = .error e

namespace Fails

theorem error (msg : String) : Fails (error msg : Kern π σ α) := fun _ => ⟨_, rfl⟩

theorem bind (hf : ∀ a, Fails (f a)) : Fails (m >>= f) := by
  intro s
  rcases hm : m s with ⟨e | a, s'⟩
  · exact ⟨e, by rw [bind_of_error hm]⟩
  · rw [bind_of_ok hm]
    exact hf a s'

theorem ite {c : Prop} [Decidable c] {m' : Kern π σ α} (hm : c → Fails m) (hm' : ¬ c → Fails m') :
    Fails (if c then m else m') := by
  split
  · exact hm ‹_›
  · exact hm' ‹_›

end Fails

/-- Two routines leave the same state and end alike, but for the errors they raise. -/
def Alike (m m' : Kern π σ α) : Prop :=
  ∀ s, (m s).2 = (m' s).2 ∧ ((m s).1 = (m' s).1 ∨
    ∃ e e', (m s).1 = .error (.error e) ∧ (m' s).1 = .error (.error e'))

namespace Alike

variable {m' : Kern π σ α} {f' : α → Kern π σ β}

theorem refl (m : Kern π σ α) : Alike m m := fun _ => ⟨rfl, .inl rfl⟩

theorem bind (hm : Alike m m') (hf : ∀ a, Alike (f a) (f' a)) : Alike (m >>= f) (m' >>= f') := by
  intro s
  obtain ⟨hst, hres⟩ := hm s
  rcases h : m s with ⟨r, t⟩
  rcases h' : m' s with ⟨r', t'⟩
  rw [h, h'] at hst hres
  dsimp only at hst hres
  subst hst
  obtain rfl | ⟨e, e', rfl, rfl⟩ := hres
  · cases r with
    | error e =>
      rw [bind_of_error h, bind_of_error h']
      exact ⟨rfl, .inl rfl⟩
    | ok a =>
      rw [bind_of_ok h, bind_of_ok h']
      exact hf a t
  · rw [bind_of_error h, bind_of_error h']
    exact ⟨rfl, .inr ⟨e, e', rfl, rfl⟩⟩

theorem waserror {handler handler' : String → Kern π σ α} (hm : Alike m m')
    (hh : ∀ e e', Alike (handler e) (handler' e')) :
    Alike (waserror m handler) (waserror m' handler') := by
  intro s
  obtain ⟨hst, hres⟩ := hm s
  rcases h : m s with ⟨r, t⟩
  rcases h' : m' s with ⟨r', t'⟩
  rw [h, h'] at hst hres
  dsimp only at hst hres
  subst hst
  obtain rfl | ⟨e, e', rfl, rfl⟩ := hres
  · cases r with
    | error e =>
      cases e with
      | error msg =>
        rw [waserror_of_error h, waserror_of_error h']
        exact hh msg msg t
      | panic why =>
        rw [waserror_of_panic h, waserror_of_panic h']
        exact ⟨rfl, .inl rfl⟩
    | ok a =>
      rw [waserror_of_ok h, waserror_of_ok h']
      exact ⟨rfl, .inl rfl⟩
  · rw [waserror_of_error h, waserror_of_error h']
    exact hh e e' t

theorem ite {c : Prop} [Decidable c] {n n' : Kern π σ α} (hm : c → Alike m m')
    (hn : ¬ c → Alike n n') : Alike (if c then m else n) (if c then m' else n') := by
  by_cases h : c
  · rw [if_pos h, if_pos h]
    exact hm h
  · rw [if_neg h, if_neg h]
    exact hn h

end Alike

/-- Two routines leave the same state, and either both panic or neither does. -/
def Akin (m m' : Kern π σ α) : Prop :=
  ∀ s, (m s).2 = (m' s).2 ∧ ∀ why, (m s).1 = .error (.panic why) ↔ (m' s).1 = .error (.panic why)

namespace Akin

variable {m' : Kern π σ α} {f' : α → Kern π σ β}

theorem refl (m : Kern π σ α) : Akin m m := fun _ => ⟨rfl, fun _ => Iff.rfl⟩

theorem bind (hf : ∀ a, Akin (f a) (f' a)) : Akin (m >>= f) (m >>= f') := by
  intro s
  rcases h : m s with ⟨e | a, t⟩
  · rw [bind_of_error h, bind_of_error h]
    exact ⟨rfl, fun _ => Iff.rfl⟩
  · rw [bind_of_ok h, bind_of_ok h]
    exact hf a t

theorem bind_pure (hm : Akin m m') (b : β) :
    Akin (m >>= fun _ => Pure.pure b) (m' >>= fun _ => Pure.pure b) := by
  intro s
  obtain ⟨hst, hpanic⟩ := hm s
  rcases h : m s with ⟨e | a, t⟩ <;> rcases h' : m' s with ⟨e' | a', t'⟩ <;>
    rw [h, h'] at hst hpanic
  · rw [bind_of_error h, bind_of_error h']
    refine ⟨hst, fun why => ?_⟩
    have := hpanic why
    simpa using this
  · rw [bind_of_error h, bind_of_ok h']
    refine ⟨hst, fun why => iff_of_false (fun he => ?_) nofun⟩
    simp only [Except.error.injEq] at he
    exact absurd ((hpanic why).mp (congrArg _ he)) nofun
  · rw [bind_of_ok h, bind_of_error h']
    refine ⟨hst, fun why => iff_of_false nofun fun he => ?_⟩
    simp only [Except.error.injEq] at he
    exact absurd ((hpanic why).mpr (congrArg _ he)) nofun
  · rw [bind_of_ok h, bind_of_ok h']
    exact ⟨hst, fun why => iff_of_false nofun nofun⟩

theorem ite {c : Prop} [Decidable c] {n n' : Kern π σ α} (hm : c → Akin m m')
    (hn : ¬ c → Akin n n') : Akin (if c then m else n) (if c then m' else n') := by
  by_cases h : c
  · rw [if_pos h, if_pos h]
    exact hm h
  · rw [if_neg h, if_neg h]
    exact hn h

/-- Where errors are ignored, routines that are akin do the same. -/
theorem ignore {m m' : Kern π σ Unit} (hm : Akin m m') :
    Kern.waserror m (fun _ => Pure.pure ()) = Kern.waserror m' fun _ => Pure.pure () := by
  have hcase : ∀ (r : Kern π σ Unit) s, Kern.waserror r (fun _ => Pure.pure ()) s =
      match (r s).1 with
      | .error (.panic why) => (.error (.panic why), (r s).2)
      | _ => (.ok (), (r s).2) := by
    intro r s
    rcases h : r s with ⟨(_ | _) | _, t⟩
    · exact waserror_of_error h
    · exact waserror_of_panic h
    · exact waserror_of_ok h
  funext s
  obtain ⟨hst, hpanic⟩ := hm s
  rw [hcase, hcase, hst]
  rcases hr : (m s).1 with (e | why) | a
  · rcases hr' : (m' s).1 with (e' | why') | a'
    · rfl
    · rw [(hpanic why').mpr hr'] at hr
      cases hr
    · rfl
  · rw [(hpanic why).mp hr]
  · rcases hr' : (m' s).1 with (e' | why') | a'
    · rfl
    · rw [(hpanic why').mpr hr'] at hr
      cases hr
    · rfl

/-- Followed by an error, routines that are akin are alike. -/
theorem then_error (hm : Akin m m') (hf : ∀ a s, ∃ e, f a s = (.error (.error e), s))
    (hf' : ∀ a s, ∃ e, f' a s = (.error (.error e), s)) : Alike (m >>= f) (m' >>= f') := by
  have hcase : ∀ (r : Kern π σ α) (g : α → Kern π σ β),
      (∀ a s, ∃ e, g a s = (.error (.error e), s)) → ∀ s, ((r >>= g) s).2 = (r s).2 ∧
        ((∃ why, (r s).1 = .error (.panic why) ∧ ((r >>= g) s).1 = .error (.panic why)) ∨
          (∀ why, (r s).1 ≠ .error (.panic why)) ∧ ∃ e, ((r >>= g) s).1 = .error (.error e)) := by
    intro r g hg s
    rcases h : r s with ⟨(e | why) | a, t⟩
    · rw [bind_of_error h]
      exact ⟨rfl, .inr ⟨nofun, e, rfl⟩⟩
    · rw [bind_of_error h]
      exact ⟨rfl, .inl ⟨why, rfl, rfl⟩⟩
    · obtain ⟨e, he⟩ := hg a t
      rw [bind_of_ok h, he]
      exact ⟨rfl, .inr ⟨nofun, e, rfl⟩⟩
  intro s
  obtain ⟨hst, hpanic⟩ := hm s
  obtain ⟨h2, h1⟩ := hcase m f hf s
  obtain ⟨h2', h1'⟩ := hcase m' f' hf' s
  refine ⟨h2.trans (hst.trans h2'.symm), ?_⟩
  obtain ⟨why, hp, hr⟩ | ⟨hno, e, he⟩ := h1
  · obtain ⟨why', hp', hr'⟩ | ⟨hno, -⟩ := h1'
    · have hsame := hp'.symm.trans ((hpanic why).mp hp)
      simp only [Except.error.injEq, Stop.panic.injEq] at hsame
      subst hsame
      exact .inl (hr.trans hr'.symm)
    · exact absurd ((hpanic why).mp hp) (hno why)
  · obtain ⟨why', hp', -⟩ | ⟨-, e', he'⟩ := h1'
    · exact absurd ((hpanic why').mpr hp') (hno why')
    · exact .inr ⟨e, e', he, he'⟩

end Akin

theorem Alike.akin {m' : Kern π σ α} (h : Alike m m') : Akin m m' := by
  intro s
  obtain ⟨hst, hres⟩ := h s
  refine ⟨hst, fun why => ?_⟩
  obtain heq | ⟨e, e', he, he'⟩ := hres
  · rw [heq]
  · rw [he, he']
    exact ⟨nofun, nofun⟩

end Kern

end PlanNine
