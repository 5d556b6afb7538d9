import Dlb.Arena.Run

/-!
# Freed memory coalesces

When the client has nothing, all blocks are free and no two of them are buddies of the same order.
There is one such tiling only, so the free blocks are those of the start.
-/

namespace Dlb.Arena

open Blocks

variable {r : Region} {T : Field → ℕ} {m : Mem} {t : Sys} {a a' : Blocks} {x o n M : ℕ}

/-- All blocks are free. -/
def Blocks.AllFree (a : Blocks) : Prop := ∀ x o b, a.hdr x = some (o, b) → b = true

theorem Blocks.Inv.isMerged (h : Inv M ∅ a) (hf : a.AllFree) : Merged a.ord := by
  have hfree : ∀ {x o}, a.ord x = some o → a.hdr x = some (o, true) := by
    intro x o hx
    obtain ⟨⟨k, b⟩, hk, rfl⟩ := Option.map_eq_some_iff.1 hx
    rw [← hf x k b hk]
    exact hk
  intro x o hx hb
  simpa using h.merged x o (hfree hx) (hfree hb)

theorem Blocks.Inv.hdr_unique (h : Inv M ∅ a) (h' : Inv M ∅ a') (hf : a.AllFree)
    (hf' : a'.AllFree) : a.hdr = a'.hdr := by
  have hord : a.ord = a'.ord := h.tiling.unique h'.tiling (h.isMerged hf) (h'.isMerged hf')
  have key : ∀ {a : Blocks}, a.AllFree → ∀ x, a.hdr x = (a.ord x).map fun o => (o, true) := by
    intro a hf x
    cases hx : a.hdr x with
    | none => simp [ord, hx]
    | some q =>
      have := hf x q.1 q.2 hx
      simp [ord, hx, ← this]
  funext x
  rw [key hf, key hf', hord]

/-- The free blocks of two tilings with the same headers, in any order. -/
theorem Blocks.Inv.perm (h : Inv M ∅ a) (h' : Inv M ∅ a') (hh : a.hdr = a'.hdr) (o : ℕ) :
    (a.free o).Perm (a'.free o) := by
  rw [List.perm_ext_iff_of_nodup (h.nodup o) (h'.nodup o)]
  intro x
  rw [h.mem, h'.mem, hh]

theorem findLoop_congr {free free' : ℕ → List ℕ} (h : ∀ o, free o = [] ↔ free' o = []) {fuel i : ℕ} :
    Blocks.findLoop free fuel i = Blocks.findLoop free' fuel i := by
  induction fuel generalizing i with
  | zero => rfl
  | succ fuel ih => simp only [Blocks.findLoop, ih, h]

/-- Whether a request succeeds depends on which lists are empty. -/
theorem Blocks.Inv.alloc_isSome_iff (h : Inv M ∅ a) :
    (a.alloc n).1.isSome ↔ n >>> 31 = 0 ∧ requiredOrder n < 32 ∧
      Blocks.findLoop a.free 32 (requiredOrder n) < 32 := by
  rw [alloc]
  split_ifs with h₁
  · simp [h₁]
  rw [not_not] at h₁
  have hn : n < 2 ^ 31 := by
    rw [Nat.shiftRight_eq_div_pow] at h₁
    omega
  obtain ⟨ho₅, -, -⟩ := requiredOrder_spec hn
  dsimp only
  split_ifs with h₂ h₃
  · simp only [Option.isSome_none, Bool.false_eq_true, false_iff]
    omega
  · simp only [Option.isSome_none, Bool.false_eq_true, false_iff]
    omega
  · obtain ⟨hle, hne⟩ := findLoop_spec a.free (show 32 ≤ requiredOrder n + 32 by omega)
    obtain ⟨h', hf', -⟩ :=
      splitLoop_spec (h.mono (Set.empty_subset _)) (hne (by omega)) ho₅ hle
    obtain ⟨x, hx, -⟩ := h'.take hf'
    rw [hx]
    simp only [Option.isSome_some, true_iff]
    omega

theorem Sim.allFree (h : Sim r T t a) (ht : ∀ ptr, t.held ptr = none) : a.AllFree := by
  intro x o b hx
  cases b with
  | true => rfl
  | false => exact absurd (ht _) (h.held.ptr x o hx)

/-- In every run on a region that is zero at the start, when the client has nothing, the free blocks
    are those of the start, and so is their size; every request that was possible at the start is
    possible again. -/
theorem run_coalesces (hr : r.size < 2 ^ 31) (hm : ∀ i < r.size, m (r.base + i) = 0)
    (hrun : Run r m t) (ht : ∀ ptr, t.held ptr = none) :
    (∀ o p, p ∈ freeBlocks t.arena o ↔ p ∈ freeBlocks (arenaInit m r.base r.size) o) ∧
      arenaCountFree t.arena = arenaCountFree (arenaInit m r.base r.size) ∧
      ∀ n, (arenaAlloc (arenaInit m r.base r.size) n).1 ≠ 0 → (arenaAlloc t.arena n).1 ≠ 0 := by
  obtain ⟨a, h⟩ := hrun.sim hr hm
  have h₀ := Sim.init (m := m) hr
  have hh : a.hdr = (Blocks.init r.size).hdr :=
    h.inv.hdr_unique h₀.inv (h.allFree ht) (h₀.allFree fun _ => rfl)
  have hperm := h.inv.perm h₀.inv hh
  have hrep : Rep r (Rep.tailOf r m) (arenaInit m r.base r.size) (Blocks.init r.size) := h₀.rep
  refine ⟨fun o p => ?_, ?_, fun n => ?_⟩
  · rw [h.rep.lists.freeBlocks_eq, hrep.lists.freeBlocks_eq]
    exact ((hperm o).map _).mem_iff
  · simp only [arenaCountFree, h.rep.lists.freeBlocks_eq, hrep.lists.freeBlocks_eq, List.length_map,
      (hperm _).length_eq]
  · have hfree : ∀ o, a.free o = [] ↔ (Blocks.init r.size).free o = [] := by
      intro o
      rw [← List.length_eq_zero_iff, (hperm o).length_eq, List.length_eq_zero_iff]
    rw [(hrep.alloc h₀.inv n).1, (h.rep.alloc h.inv n).1, Region.ptr_ne_zero_iff,
      Region.ptr_ne_zero_iff, h₀.inv.alloc_isSome_iff, h.inv.alloc_isSome_iff, findLoop_congr hfree]
    exact id

/-- A block is allocated and freed. -/
theorem run_coalesces_free :
    ∃ t, Run ⟨4096, 64, by decide, by decide⟩ (fun _ => 0) t ∧ freeBlocks t.arena 6 = [4096] ∧
      arenaCountFree t.arena = arenaCountFree (arenaInit (fun _ => 0) 4096 64) := by
  have hrun : Run ⟨4096, 64, by decide, by decide⟩ (fun _ => 0) _ :=
    .tail (.single (.call _ (.alloc 8) trivial)) (.call _ (.free 4152) (.inr (by decide +kernel)))
  have hptr : (arenaAlloc (arenaInit (fun _ => 0) 4096 64) 8).1 = 4152 := by decide +kernel
  have h := run_coalesces (by decide) (fun _ _ => rfl) hrun fun ptr => by
    change Function.update ((Call.alloc 8).held (fun _ => none)
      (arenaAlloc (arenaInit (fun _ => 0) 4096 64) 8).1) 4152 none ptr = none
    rw [hptr, Call.held, if_neg (by decide), Function.update_idem]
    simp
  exact ⟨_, hrun, by decide +kernel, h.2.1⟩

end Dlb.Arena
