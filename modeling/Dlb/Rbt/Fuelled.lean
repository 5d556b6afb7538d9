import Dlb.Fuel
import Dlb.Rbt.Code

/-!
# The fuel of the loops

With more fuel, the functions of the code return the same as with less, if they
return at all. So the fuel is only a bound on the number of iterations, and it
is enough to find one that suffices.
-/

namespace Dlb.Rbt

open Approx

variable {P : Type}

section

variable {K : Type*} (compare : K → P → ℤ)

theorem fuelled_rbtFindLoop (k : K) (n : Option P) :
    Fuelled fun fuel => rbtFindLoop compare k fuel n := by
  intro i j h
  induction i generalizing j n with
  | zero =>
    cases n with
    | none => cases j <;> exact .refl _
    | some n => exact .failure _
  | succ i ih =>
    obtain ⟨j, rfl⟩ : ∃ k, j = k + 1 := ⟨j - 1, by omega⟩
    cases n with
    | none => exact .refl _
    | some n =>
      simp only [rbtFindLoop]
      exact .ite (.refl _) (bind_right fun x => ih _ (by omega))

theorem fuelled_rbtFind (k : K) : Fuelled fun fuel => rbtFind compare fuel k :=
  fun _ _ h => bind_right fun n => fuelled_rbtFindLoop compare k n h

end

theorem fuelled_leftmost (s : Option P) : Fuelled fun fuel => leftmost fuel s := by
  intro i j h
  induction i generalizing j s with
  | zero => exact .failure _
  | succ i ih =>
    obtain ⟨j, rfl⟩ : ∃ k, j = k + 1 := ⟨j - 1, by omega⟩
    simp only [leftmost]
    refine bind_right fun x => .ite (.refl _) ?_
    exact bind_right fun y => ih _ (by omega)

variable [DecidableEq P]

/-! ## Insertion -/

theorem fuelled_repairAfterInsert (n : Option P) : Fuelled fun fuel => repairAfterInsert fuel n := by
  intro i j h
  induction i generalizing j n with
  | zero => exact .failure _
  | succ i ih =>
    obtain ⟨j, rfl⟩ : ∃ k, j = k + 1 := ⟨j - 1, by omega⟩
    simp only [repairAfterInsert]
    refine bind_right fun x => .ite (.refl _) ?_
    refine bind_right fun x => bind_right fun b => .ite (.refl _) ?_
    refine bind_right fun x => bind_right fun u => bind_right fun b => .ite (.refl _) ?_
    refine bind_right fun _ => bind_right fun x => bind_right fun _ => bind_right fun _ => ?_
    exact bind_right fun _ => bind_right fun g => ih _ (by omega)

section

variable {K : Type*} (compare : K → P → ℤ)

/-- The fuel of the search and that of the repair may both be more. -/
theorem approx_rbtInsertLoop {i j i' j' : ℕ} (h : i ≤ j) (h' : i' ≤ j') (k : K) (n p : Option P)
    (nptr : Slot P) :
    Approx (rbtInsertLoop compare i' k n i p nptr) (rbtInsertLoop compare j' k n j p nptr) := by
  induction i generalizing j p nptr with
  | zero => exact .failure _
  | succ i ih =>
    obtain ⟨j, rfl⟩ : ∃ k, j = k + 1 := ⟨j - 1, by omega⟩
    simp only [rbtInsertLoop]
    refine bind_right fun c => ?_
    cases c with
    | some c => exact bind_right fun _ => .ite (.refl _) (ih (by omega) _ _)
    | none => exact bind_right fun _ => .bind (fuelled_repairAfterInsert n h') fun _ => .refl _

theorem fuelled_rbtInsert (k : K) (n : P) : Fuelled fun fuel => rbtInsert compare fuel k n :=
  fun _ _ h => approx_rbtInsertLoop compare h h k _ _ _

end

/-! ## Removal -/

theorem fuelled_swapWithSuccessor (n : Option P) : Fuelled fun fuel => swapWithSuccessor fuel n := by
  intro i j h
  simp only [swapWithSuccessor]
  refine bind_right fun x => bind_right fun y => bind_right fun s => .ite ?_ (.refl _)
  exact .bind (fuelled_leftmost _ h) fun s => .refl _

theorem fuelled_repairAfterRemoveLoop (n p : Option P) :
    Fuelled fun fuel => repairAfterRemoveLoop fuel n p := by
  intro i j h
  induction i generalizing j n p with
  | zero => exact .failure _
  | succ i ih =>
    obtain ⟨j, rfl⟩ : ∃ k, j = k + 1 := ⟨j - 1, by omega⟩
    simp only [repairAfterRemoveLoop]
    -- Only the last call of the loop depends on the fuel.
    repeat' with_reducible
      first
        | exact ih _ _ (by omega)
        | exact .refl _
        | refine bind_right fun _ => ?_
        | refine .ite ?_ ?_

theorem fuelled_repairAfterRemove (n : Option P) : Fuelled fun fuel => repairAfterRemove fuel n :=
  fun _ _ h => bind_right fun _ => fuelled_repairAfterRemoveLoop _ _ h

theorem fuelled_rbtMarkModified (n : Option P) : Fuelled fun fuel => rbtMarkModified fuel n := by
  intro i j h
  induction i generalizing j n with
  | zero =>
    cases n with
    | none => cases j <;> exact .refl _
    | some n => exact .failure _
  | succ i ih =>
    obtain ⟨j, rfl⟩ : ∃ k, j = k + 1 := ⟨j - 1, by omega⟩
    cases n with
    | none => exact .refl _
    | some n => exact bind_right fun _ => bind_right fun x => ih _ (by omega)

theorem fuelled_rbtRemoveUnlink (n : Option P) : Fuelled fun fuel => rbtRemoveUnlink fuel n := by
  intro i j h
  simp only [rbtRemoveUnlink]
  have hr : Approx (repairAfterRemove i n) (repairAfterRemove j n) := fuelled_repairAfterRemove n h
  refine .bind (fuelled_rbtMarkModified n h) fun _ => bind_right fun x => ?_
  repeat' with_reducible
    first
      | exact hr
      | exact .refl _
      | refine bind_right fun _ => ?_
      | refine .ite ?_ ?_

theorem fuelled_rbtRemove (n : P) : Fuelled fun fuel => rbtRemove fuel n := by
  intro i j h
  simp only [rbtRemove]
  refine bind_right fun x => bind_right fun y => .ite ?_ (fuelled_rbtRemoveUnlink _ h)
  exact .bind (fuelled_swapWithSuccessor _ h) fun _ => fuelled_rbtRemoveUnlink _ h

end Dlb.Rbt
