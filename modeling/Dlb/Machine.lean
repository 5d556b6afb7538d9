import Mathlib.Logic.Relation

/-!
# Transition systems

A system is given by a function `step`, which takes a state and an action to the next state, or to
`none` if the action is not possible there. The actions of all threads are interleaved in one
sequence; what is asked of the environment is a condition on the state and the action.

* `Reached`: a state that steps which meet a condition lead to;
* `Reached.invariant`: what a step preserves holds in every reached state;
* `Reached.image`: a system that refines another one;
* `trace`: the state after given actions, for runs of fixed actions;
* `Labelled`: runs of a relation, with what can be seen of each step (`Labelled.image`).
-/

namespace Dlb.Machine

variable {σ α : Type*} {step : σ → α → Option σ} {P : σ → α → Prop} {s₀ s s' : σ}

/-- A step that meets the condition `P`. -/
def Step (step : σ → α → Option σ) (P : σ → α → Prop) (s s' : σ) : Prop :=
  ∃ a, P s a ∧ step s a = some s'

/-- Steps that meet the condition `P` lead from `s₀` to `s`. -/
def Reached (step : σ → α → Option σ) (P : σ → α → Prop) : σ → σ → Prop :=
  Relation.ReflTransGen (Step step P)

theorem Reached.refl : Reached step P s s := Relation.ReflTransGen.refl

theorem Reached.next {a : α} (hr : Reached step P s₀ s) (ha : P s a) (e : step s a = some s') :
    Reached step P s₀ s' :=
  hr.tail ⟨a, ha, e⟩

/-- The rule of invariants. -/
theorem Reached.invariant {I : σ → Prop} (hr : Reached step P s₀ s) (h₀ : I s₀)
    (hs : ∀ {s a s'}, I s → P s a → step s a = some s' → I s') : I s := by
  induction hr with
  | refl => exact h₀
  | tail _ hstep ih =>
    obtain ⟨a, ha, e⟩ := hstep
    exact hs ih ha e

/-- The rule of refinement: the image under `f` of what `step` leads to is what `step'` leads to, if
each step becomes a step of `step'`, or changes nothing that the image shows. -/
theorem Reached.image {τ β : Type*} {step' : τ → β → Option τ} {P' : τ → β → Prop} {I : σ → Prop}
    (hr : Reached step P s₀ s) (h₀ : I s₀) (f : σ → τ)
    (hs : ∀ {s a s'}, I s → P s a → step s a = some s' →
      I s' ∧ (f s' = f s ∨ ∃ b, P' (f s) b ∧ step' (f s) b = some (f s'))) :
    I s ∧ Reached step' P' (f s₀) (f s) := by
  induction hr with
  | refl => exact ⟨h₀, .refl⟩
  | tail _ hstep ih =>
    obtain ⟨a, ha, e⟩ := hstep
    obtain ⟨hI, hf | ⟨b, hb, e'⟩⟩ := hs ih.1 ha e
    · exact ⟨hI, hf ▸ ih.2⟩
    · exact ⟨hI, ih.2.next hb e'⟩

/-- The state after the actions `as`, if each of them meets the condition `P` and is possible. -/
def trace (step : σ → α → Option σ) (P : σ → α → Prop) [∀ s a, Decidable (P s a)] :
    σ → List α → Option σ
  | s, [] => some s
  | s, a :: as => if P s a then (step s a).bind (trace step P · as) else none

theorem Reached.trace [∀ s a, Decidable (P s a)] (hr : Reached step P s₀ s) {as : List α}
    (e : trace step P s as = some s') : Reached step P s₀ s' := by
  induction as generalizing s with
  | nil =>
    obtain rfl := Option.some.inj e
    exact hr
  | cons a as ih =>
    simp only [Machine.trace, Option.ite_none_right_eq_some, Option.bind_eq_some_iff] at e
    obtain ⟨ha, s₁, e₁, e⟩ := e
    exact ih (hr.next ha e₁) e

/-- A run of fixed actions leads to a state with a property that can be evaluated. -/
theorem exists_reached (step : σ → α → Option σ) (P : σ → α → Prop) [∀ s a, Decidable (P s a)]
    (s₀ : σ) (as : List α) (b : σ → Bool) (e : (trace step P s₀ as).any b = true) :
    ∃ s, Reached step P s₀ s ∧ b s = true := by
  obtain ⟨s, e, hb⟩ := (Option.any_eq_true ..).1 e
  exact ⟨s, Reached.refl.trace e, hb⟩

/-! ## What is seen of a run -/

/-- Steps with the labels `as` lead from one state to another. -/
inductive Labelled (step : σ → α → σ → Prop) (s : σ) : List α → σ → Prop
  | nil : Labelled step s [] s
  | snoc {as : List α} {a : α} {t t' : σ} (hr : Labelled step s as t) (h : step t a t') :
    Labelled step s (as ++ [a]) t'

/-- What is seen of a run of a system is seen of one of the system that it refines. -/
theorem Labelled.image {τ : Type*} {step : σ → α → σ → Prop} {step' : τ → α → τ → Prop}
    {I : σ → Prop} {as : List α} (hr : Labelled step s₀ as s) (h₀ : I s₀) (f : σ → τ)
    (hs : ∀ {s a s'}, I s → step s a s' → I s' ∧ step' (f s) a (f s')) :
    I s ∧ Labelled step' (f s₀) as (f s) := by
  induction hr with
  | nil => exact ⟨h₀, .nil⟩
  | snoc _ hstep ih =>
    obtain ⟨hI, h'⟩ := hs ih.1 hstep
    exact ⟨hI, ih.2.snoc h'⟩

end Dlb.Machine
