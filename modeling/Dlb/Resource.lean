import Mathlib.Data.Finset.Erase
import Mathlib.Data.Finset.Insert
import Mathlib.Data.Set.Insert
import Mathlib.Tactic.Common

/-!
# Programs that hold resources

A program acquires resources and releases them. It fails if it acquires one that it has, or releases
one that it does not have.

* `Takes`: a program on the resources of a set `D`, and what it holds of these before and
  afterwards; it does not touch any other ones;
* `Takes.bind`, `takes_acquire`, `takes_release`: the rules.
-/

namespace Dlb.Resource

variable {ρ α β : Type} [DecidableEq ρ] {D A B C : Set ρ} {x : StateT (Finset ρ) Option α}
  {f : α → StateT (Finset ρ) Option β} {v : α} {w : β} {r : ρ} {s s' : Finset ρ}

/-- A program, with the resources that it holds. -/
abbrev Prog (ρ α : Type) := StateT (Finset ρ) Option α

def acquire (r : ρ) : Prog ρ Unit := fun s => if r ∈ s then none else some ((), insert r s)

def release (r : ρ) : Prog ρ Unit := fun s => if r ∈ s then some ((), s.erase r) else none

/-- The resource may be refused. -/
def tryAcquire (given : Bool) (r : ρ) : Prog ρ Bool :=
  if given then do
    acquire r
    return true
  else return false

/-- Of the resources in `D`, the program has those in `A` before and those in `B` afterwards, and it
    returns `v`. -/
def Takes (D A : Set ρ) (x : Prog ρ α) (v : α) (B : Set ρ) : Prop :=
  ∀ s : Finset ρ, (∀ r ∈ D, r ∈ s ↔ r ∈ A) → ∃ s', x s = some (v, s') ∧
    (∀ r ∈ D, r ∈ s' ↔ r ∈ B) ∧ ∀ r, r ∉ D → (r ∈ s' ↔ r ∈ s)

omit [DecidableEq ρ] in
theorem takes_pure : Takes D A (pure v) v A := fun s h => ⟨s, rfl, h, fun _ _ => Iff.rfl⟩

omit [DecidableEq ρ] in
theorem Takes.bind (hx : Takes D A x v B) (hf : Takes D B (f v) w C) : Takes D A (x >>= f) w C := by
  intro s h
  obtain ⟨s₁, e₁, h₁, ho₁⟩ := hx s h
  obtain ⟨s₂, e₂, h₂, ho₂⟩ := hf s₁ h₁
  exact ⟨s₂, Option.bind_eq_some_iff.2 ⟨_, e₁, e₂⟩, h₂, fun r hr => (ho₂ r hr).trans (ho₁ r hr)⟩

theorem takes_acquire (hD : r ∈ D) (hr : r ∉ A) : Takes D A (acquire r) () (insert r A) := by
  intro s h
  refine ⟨insert r s, if_neg fun hs => hr ((h r hD).1 hs), fun q hq => ?_, fun q hq => ?_⟩
  · rw [Finset.mem_insert, Set.mem_insert_iff, h q hq]
  · have hne : q ≠ r := by
      rintro rfl
      exact hq hD
    rw [Finset.mem_insert, or_iff_right hne]

theorem takes_release (hD : r ∈ D) (hr : r ∈ A) : Takes D A (release r) () (A \ {r}) := by
  intro s h
  refine ⟨s.erase r, if_pos ((h r hD).2 hr), fun q hq => ?_, fun q hq => ?_⟩
  · rw [Finset.mem_erase, Set.mem_sdiff, Set.mem_singleton_iff, h q hq, and_comm]
  · have hne : q ≠ r := by
      rintro rfl
      exact hq hD
    rw [Finset.mem_erase, and_iff_right hne]

/-- What has been acquired is released. -/
theorem takes_release_insert (hD : r ∈ D) (hr : r ∉ A) : Takes D (insert r A) (release r) () A := by
  have h := takes_release hD (Set.mem_insert r A)
  rwa [Set.insert_sdiff_self_of_notMem hr] at h

theorem takes_acquire_first (hD : r ∈ D) : Takes D ∅ (acquire r) () {r} := by
  have h := takes_acquire hD (Set.notMem_empty r)
  rwa [insert_empty_eq] at h

theorem takes_release_last (hD : r ∈ D) : Takes D {r} (release r) () ∅ := by
  have h := takes_release_insert hD (Set.notMem_empty r)
  rwa [insert_empty_eq] at h

theorem takes_tryAcquire (hD : r ∈ D) (hr : r ∉ A) : Takes D A (tryAcquire true r) true (insert r A) :=
  (takes_acquire hD hr).bind takes_pure

theorem takes_refused : Takes D A (tryAcquire false r) false A := takes_pure

omit [DecidableEq ρ] in
/-- A program that takes nothing leaves everything as it was. -/
theorem Takes.eq (hx : Takes D A x v A) (h : ∀ r ∈ D, r ∈ s ↔ r ∈ A) : x s = some (v, s) := by
  obtain ⟨s', e, h', ho⟩ := hx s h
  rw [e]
  congr
  ext r
  by_cases hr : r ∈ D
  · rw [h' r hr, h r hr]
  · exact ho r hr

end Dlb.Resource
