import Mathlib.Tactic.Common

/-!
# Programs with fuel

Programs that pass a state along and may fail. A loop that runs out of fuel
fails, so that a program with less fuel *approximates* the same program with
more: when it returns, both return the same.
-/

namespace Dlb

universe u

variable {σ α β : Type u}

/-- Wherever `x` returns, `y` returns the same. -/
def Approx (x y : StateT σ Option α) : Prop := ∀ s r, x.run s = some r → y.run s = some r

namespace Approx

theorem refl (x : StateT σ Option α) : Approx x x := fun _ _ h => h

theorem failure (x : StateT σ Option α) : Approx failure x := by
  intro s r h
  cases h

theorem bind {x y : StateT σ Option α} {f g : α → StateT σ Option β} (h : Approx x y)
    (hf : ∀ a, Approx (f a) (g a)) : Approx (x >>= f) (y >>= g) := by
  intro s r hr
  rw [StateT.run_bind, Option.bind_eq_bind, Option.bind_eq_some_iff] at hr ⊢
  obtain ⟨⟨a, s'⟩, hx, hr⟩ := hr
  exact ⟨(a, s'), h s _ hx, hf a s' r hr⟩

theorem bind_right {x : StateT σ Option α} {f g : α → StateT σ Option β}
    (hf : ∀ a, Approx (f a) (g a)) : Approx (x >>= f) (x >>= g) := (refl x).bind hf

theorem ite {p : Prop} [Decidable p] {x x' y y' : StateT σ Option α} (h : Approx x x')
    (h' : Approx y y') : Approx (if p then x else y) (if p then x' else y') := by
  split
  · exact h
  · exact h'

end Approx

/-- A program that never returns less with more fuel. -/
def Fuelled (x : ℕ → StateT σ Option α) : Prop := ∀ ⦃i j⦄, i ≤ j → Approx (x i) (x j)

/-- The program returns `r` in the state `s'`, given enough fuel. -/
def Returns (x : ℕ → StateT σ Option α) (s : σ) (r : α) (s' : σ) : Prop :=
  ∃ N, ∀ fuel ≥ N, (x fuel).run s = some (r, s')

theorem Returns.unique {x : ℕ → StateT σ Option α} {s s₁ s₂ : σ} {r₁ r₂ : α}
    (h₁ : Returns x s r₁ s₁) (h₂ : Returns x s r₂ s₂) : r₁ = r₂ ∧ s₁ = s₂ := by
  obtain ⟨N₁, h₁⟩ := h₁
  obtain ⟨N₂, h₂⟩ := h₂
  have h := (h₁ (max N₁ N₂) (Nat.le_max_left _ _)).symm.trans (h₂ _ (Nat.le_max_right _ _))
  simpa using h

theorem Returns.bind {x : ℕ → StateT σ Option α} {f : ℕ → α → StateT σ Option β} {s s₁ s₂ : σ}
    {a : α} {b : β} (hx : Returns x s a s₁) (hf : Returns (fun fuel => f fuel a) s₁ b s₂) :
    Returns (fun fuel => x fuel >>= f fuel) s b s₂ := by
  obtain ⟨N, hx⟩ := hx
  obtain ⟨N', hf⟩ := hf
  refine ⟨max N N', fun fuel hle => ?_⟩
  rw [StateT.run_bind, hx fuel (by omega)]
  exact hf fuel (by omega)

theorem Returns.pure (a : α) (s : σ) :
    Returns (fun _ => (Pure.pure a : StateT σ Option α)) s a s := ⟨0, fun _ _ => rfl⟩

/-- Returning once is enough. -/
theorem Fuelled.returns {x : ℕ → StateT σ Option α} (hx : Fuelled x) (fuel : ℕ) {s s' : σ} {r : α}
    (h : (x fuel).run s = some (r, s')) : Returns x s r s' :=
  ⟨fuel, fun _ hf => hx hf s _ h⟩

/-! ## Loops that pass their state as an argument -/

/-- The result is `r`, given enough fuel. -/
def Yields (x : ℕ → Option α) (r : α) : Prop := ∃ N, ∀ fuel ≥ N, x fuel = some r

/-- What a run returns is what the program returns. -/
theorem Returns.map_eq {x : ℕ → StateT σ Option α} {s s' : σ} {r : α} (h : Returns x s r s')
    (hx : Fuelled x) {f : α × σ → β} {fuel : ℕ} {b : β} (e : ((x fuel).run s).map f = some b) :
    b = f (r, s') := by
  obtain ⟨⟨r', s₁⟩, hrun, rfl⟩ := Option.map_eq_some_iff.1 e
  obtain ⟨rfl, rfl⟩ := (hx.returns fuel hrun).unique h
  rfl

theorem Returns.yields {x : ℕ → StateT σ Option α} {s s' : σ} {r : α} (h : Returns x s r s')
    (f : α × σ → β) : Yields (fun fuel => ((x fuel).run s).map f) (f (r, s')) := by
  obtain ⟨N, h⟩ := h
  refine ⟨N, fun fuel hf => ?_⟩
  dsimp only
  rw [h fuel hf, Option.map_some]

namespace Yields

variable {x y : ℕ → Option α} {f : ℕ → α → Option β} {r r' : α} {b : β}

theorem unique (h : Yields x r) (h' : Yields x r') : r = r' := by
  obtain ⟨N, h⟩ := h
  obtain ⟨N', h'⟩ := h'
  exact Option.some.inj ((h _ (Nat.le_max_left N N')).symm.trans (h' _ (Nat.le_max_right N N')))

theorem of_forall (h : ∀ fuel, x fuel = some r) : Yields x r := ⟨0, fun fuel _ => h fuel⟩

/-- Returning once is enough if more fuel does no harm. -/
theorem of_eq (hx : ∀ fuel r, x fuel = some r → x (fuel + 1) = some r) {N : ℕ}
    (h : x N = some r) : Yields x r := by
  refine ⟨N, fun fuel hf => ?_⟩
  induction hf with
  | refl => exact h
  | step _ ih => exact hx _ r ih

/-- One more iteration. -/
theorem succ (h : Yields x r) (hy : ∀ fuel, y (fuel + 1) = x fuel) : Yields y r := by
  obtain ⟨N, h⟩ := h
  refine ⟨N + 1, fun fuel hf => ?_⟩
  obtain ⟨fuel, rfl⟩ : ∃ k, fuel = k + 1 := ⟨fuel - 1, by omega⟩
  rw [hy]
  exact h fuel (by omega)

theorem bind (h : Yields x r) (hf : Yields (fun fuel => f fuel r) b) :
    Yields (fun fuel => x fuel >>= f fuel) b := by
  obtain ⟨N, h⟩ := h
  obtain ⟨N', hf⟩ := hf
  refine ⟨max N N', fun fuel hle => ?_⟩
  dsimp only
  rw [h fuel (by omega)]
  exact hf fuel (by omega)

theorem map (h : Yields x r) (g : α → β) : Yields (fun fuel => (x fuel).map g) (g r) := by
  obtain ⟨N, h⟩ := h
  refine ⟨N, fun fuel hf => ?_⟩
  dsimp only
  rw [h fuel hf, Option.map_some]

/-- A part that needs no fuel has returned. -/
theorem exists_of_bind {y : Option α} (h : Yields (fun fuel => y >>= f fuel) b) :
    ∃ a, y = some a := by
  obtain ⟨N, h⟩ := h
  obtain ⟨a, ha, -⟩ := Option.bind_eq_some_iff.1 (h N (Nat.le_refl N))
  exact ⟨a, ha⟩

theorem congr (h : Yields x r) (hy : ∀ fuel, y fuel = x fuel) : Yields y r := by
  obtain ⟨N, h⟩ := h
  exact ⟨N, fun fuel hf => (hy fuel).trans (h fuel hf)⟩

end Yields

end Dlb
