import Mathlib.Algebra.BigOperators.Group.Finset.Sigma
import Mathlib.Algebra.BigOperators.Ring.Finset
import Mathlib.Algebra.Order.BigOperators.Group.Finset
import Dlb.Arena.Coalesce

/-!
# What is free

A request fails only if no free block has room for it and for its header. `arena_count_free` counts
the bytes of the free blocks without their headers: with the headers, and with the blocks that the
client has, all bytes that the arena manages are accounted for.
-/

namespace Dlb.Arena

open Blocks

variable {r : Region} {T : Field → ℕ} {m : Mem} {t : Sys} {a : Blocks} {o n M : ℕ}

/-! ## Requests -/

theorem Blocks.findLoop_le {free : ℕ → List ℕ} (fuel : ℕ) {i : ℕ} (hi : i ≤ o) (ho : free o ≠ []) :
    Blocks.findLoop free fuel i ≤ o := by
  induction fuel generalizing i with
  | zero => exact hi
  | succ fuel ih =>
    rw [Blocks.findLoop]
    split_ifs with h
    · have hne : i ≠ o := by
        rintro rfl
        exact ho h.2
      exact ih (by omega)
    · exact hi

/-- A free block of order `o`, with its bounds. -/
theorem Blocks.Inv.order_of_free (h : Inv M ∅ a) (hM : M < 2 ^ 31) (ho : a.free o ≠ []) :
    5 ≤ o ∧ o < 31 := by
  obtain ⟨x, xs, hx⟩ := List.exists_cons_of_ne_nil ho
  have hhdr := h.head hx
  exact ⟨(h.block hhdr).1, h.order_lt hM hhdr⟩

/-- A request succeeds if and only if a free block has room for it. -/
theorem Blocks.Inv.alloc_isSome_iff_room (h : Inv M ∅ a) (hM : M < 2 ^ 31) :
    (a.alloc n).1.isSome ↔ ∃ o, a.free o ≠ [] ∧ n + 24 ≤ 2 ^ o := by
  rw [h.alloc_isSome_iff]
  constructor
  · rintro ⟨hn, -, hlt⟩
    have hn' : n < 2 ^ 31 := by
      rw [Nat.shiftRight_eq_div_pow] at hn
      omega
    obtain ⟨hle, hne⟩ := findLoop_spec a.free (show 32 ≤ requiredOrder n + 32 by omega)
    have hfree := hne hlt
    have ho := (h.order_of_free hM hfree).2
    obtain ⟨-, -, hroom⟩ := requiredOrder_spec hn'
    exact ⟨_, hfree, (hroom (by omega)).trans (Nat.pow_le_pow_right (by simp) hle)⟩
  · rintro ⟨o, hfree, hroom⟩
    obtain ⟨-, ho⟩ := h.order_of_free hM hfree
    have hpow : 2 ^ o ≤ 2 ^ 30 := Nat.pow_le_pow_right (by simp) (by omega)
    have hn : n < 2 ^ 31 := by omega
    obtain ⟨-, hmin, -⟩ :=
      orderLoop_spec hn (show 1 + 32 = 33 from rfl) le_rfl (by omega) (by omega)
    have hreq : requiredOrder n ≤ o := by
      by_contra hlt
      have : 2 ^ o ≤ 2 ^ (orderLoop 32 1 n - 1) :=
        Nat.pow_le_pow_right (by simp) (by rw [requiredOrder] at hlt; omega)
      omega
    have hfind := Blocks.findLoop_le 32 hreq hfree
    refine ⟨?_, by omega, by omega⟩
    rw [Nat.shiftRight_eq_div_pow]
    omega

/-- In every run on a region that is zero at the start, `arena_alloc` returns `NULL` only if there is
no free block that has room for the request and for the header. -/
theorem run_alloc_iff (hr : r.size < 2 ^ 31) (hm : ∀ i < r.size, m (r.base + i) = 0)
    (hrun : Run r m t) :
    (arenaAlloc t.arena n).1 ≠ 0 ↔ ∃ o, freeBlocks t.arena o ≠ [] ∧ n + 24 ≤ 2 ^ o := by
  obtain ⟨a, h⟩ := hrun.sim hr hm
  rw [(h.rep.alloc h.inv n).1, Region.ptr_ne_zero_iff,
    h.inv.alloc_isSome_iff_room (managed_lt hr)]
  simp only [h.rep.lists.freeBlocks_eq, ne_eq, List.map_eq_nil_iff]

/-- The only block of 64 bytes has room for 40. -/
theorem run_alloc_iff_room : (arenaAlloc (arenaInit (fun _ => 0) 4096 64) 40).1 ≠ 0 := by
  have hrun : Run ⟨4096, 64, by decide, by decide⟩ (fun _ => 0) (.init _ _) := .refl
  exact (run_alloc_iff (by decide) (fun _ _ => rfl) hrun).2 ⟨6, by decide +kernel, by decide⟩

/-! ## `arena_count_free` -/

/-- A sum that is computed modulo `N`. -/
theorem foldl_add_mod (N k : ℕ) (f : ℕ → ℕ) :
    (List.range k).foldl (fun count i => (count + f i) % N) 0 = (∑ i ∈ Finset.range k, f i) % N := by
  induction k with
  | zero => simp
  | succ k ih =>
    rw [List.range_succ, List.foldl_append, ih, Finset.sum_range_succ]
    simp [Nat.add_mod]

/-- The free blocks of each order, with their headers. -/
theorem Blocks.Inv.sum_free (h : Inv M ∅ a) (hM : M < 2 ^ 31) :
    ∑ x ∈ Finset.range M, (if (a.hdr x).any Prod.snd then Tiling.length a.ord x else 0) =
      ∑ o ∈ Finset.range 32, (a.free o).length * 2 ^ o := by
  have hlen : ∀ o, (a.free o).length = ∑ x ∈ Finset.range M, if a.hdr x = some (o, true) then 1 else 0 := by
    intro o
    rw [← List.toFinset_card_of_nodup (h.nodup o), ← Finset.card_filter]
    congr 1
    ext x
    simp only [List.mem_toFinset, h.mem, Finset.mem_filter, Finset.mem_range]
    constructor
    · intro hx
      have := (h.block hx).2.2
      have := Nat.two_pow_pos o
      exact ⟨by omega, hx⟩
    · exact And.right
  simp only [hlen, Finset.sum_mul]
  rw [Finset.sum_comm]
  refine Finset.sum_congr rfl fun x _ => ?_
  cases hx : a.hdr x with
  | none => simp
  | some p =>
    obtain ⟨o, b⟩ := p
    have ho := h.order_lt hM hx
    cases b with
    | false => simp
    | true =>
      rw [Finset.sum_eq_single o]
      · simp [Tiling.length, Inv.ord_eq hx]
      · intro k _ hk
        simp [hk.symm]
      · intro hno
        exact absurd (Finset.mem_range.2 (by omega)) hno

/-- What `arena_count_free` returns. -/
theorem Blocks.Inv.countFree (h : Inv M ∅ a) (hM : M < 2 ^ 31)
    (hs : ∀ o, (freeBlocks t.arena o).length = (a.free o).length) :
    arenaCountFree t.arena + 24 * ∑ o ∈ Finset.range 32, (a.free o).length =
      ∑ o ∈ Finset.range 32, (a.free o).length * 2 ^ o := by
  have hsize : ∀ o, (a.free o).length * ((shl1 o + 2 ^ 64 - 24) % 2 ^ 64) + 24 * (a.free o).length =
      (a.free o).length * 2 ^ o := by
    intro o
    by_cases hf : a.free o = []
    · simp [hf]
    · obtain ⟨h₅, h₃₁⟩ := h.order_of_free hM hf
      have h₁ : 2 ^ 5 ≤ 2 ^ o := Nat.pow_le_pow_right (by simp) h₅
      have h₂ : 2 ^ o ≤ 2 ^ 30 := Nat.pow_le_pow_right (by simp) (by omega)
      have hmod : (shl1 o + 2 ^ 64 - 24) % 2 ^ 64 = 2 ^ o - 24 := by
        rw [shl1, if_neg (by omega)]
        omega
      rw [hmod, Nat.mul_comm 24, ← Nat.mul_add, Nat.sub_add_cancel (by omega)]
  have hsum : ∑ o ∈ Finset.range 32, (a.free o).length * ((shl1 o + 2 ^ 64 - 24) % 2 ^ 64) +
      24 * ∑ o ∈ Finset.range 32, (a.free o).length =
        ∑ o ∈ Finset.range 32, (a.free o).length * 2 ^ o := by
    rw [Finset.mul_sum, ← Finset.sum_add_distrib]
    exact Finset.sum_congr rfl fun o _ => hsize o
  -- The sum does not overflow.
  have hle : ∑ o ∈ Finset.range 32, (a.free o).length * 2 ^ o ≤ M := by
    rw [← h.sum_free hM]
    refine (Finset.sum_le_sum fun x _ => ?_).trans_eq h.tiling.sum_length
    split_ifs
    · exact le_rfl
    · exact Nat.zero_le _
  rw [arenaCountFree, foldl_add_mod]
  simp only [hs]
  omega

/-- The block that starts at the offset `x`, if the client has it, or 0. -/
def heldBytes (r : Region) (t : Sys) (x : ℕ) : ℕ :=
  if (t.held (r.base + x + 24)).isSome then 2 ^ t.arena.get .order (r.base + x) else 0

theorem Sim.heldBytes_add (h : Sim r T t a) (x : ℕ) :
    (if (a.hdr x).any Prod.snd then Tiling.length a.ord x else 0) + heldBytes r t x =
      Tiling.length a.ord x := by
  have hfree : ∀ {y : ℕ}, (∀ o, a.hdr y ≠ some (o, false)) → t.held (r.base + y + 24) = none := by
    intro y hy
    by_contra hne
    obtain ⟨z, o, hz, hzo⟩ := h.block hne
    obtain rfl : z = y := by omega
    exact hy o hzo
  rw [heldBytes]
  cases hx : a.hdr x with
  | none =>
    rw [hfree (y := x) (by simp [hx])]
    simp [Tiling.length, ord, hx]
  | some p =>
    obtain ⟨o, b⟩ := p
    cases b with
    | true =>
      rw [hfree (y := x) (by simp [hx])]
      simp
    | false =>
      have hheld : (t.held (r.base + x + 24)).isSome := Option.isSome_iff_ne_none.2 (h.held.ptr x o hx)
      rw [if_pos hheld, (h.rep.hdr x o false hx).1]
      simp [Tiling.length, Inv.ord_eq hx]

/-- In every run on a region that is zero at the start, what `arena_count_free` returns, the headers
of the free blocks and the blocks that the client has are all bytes that the arena manages. -/
theorem run_count_free (hr : r.size < 2 ^ 31) (hm : ∀ i < r.size, m (r.base + i) = 0)
    (hrun : Run r m t) :
    arenaCountFree t.arena + 24 * ∑ o ∈ Finset.range 32, (freeBlocks t.arena o).length +
      ∑ x ∈ Finset.range r.managed, heldBytes r t x = r.managed := by
  obtain ⟨a, h⟩ := hrun.sim hr hm
  have hlen : ∀ o, (freeBlocks t.arena o).length = (a.free o).length := by
    intro o
    rw [h.rep.lists.freeBlocks_eq, List.length_map]
  simp only [hlen]
  rw [h.inv.countFree (managed_lt hr) hlen, ← h.inv.sum_free (managed_lt hr),
    ← Finset.sum_add_distrib]
  refine (Finset.sum_congr rfl fun x _ => h.heldBytes_add x).trans h.inv.tiling.sum_length

/-- A block of 64 bytes is split for 8 bytes. -/
theorem run_count_free_alloc : ∃ t, Run ⟨4096, 64, by decide, by decide⟩ (fun _ => 0) t ∧
    arenaCountFree t.arena = 8 ∧
    arenaCountFree t.arena + 24 * ∑ o ∈ Finset.range 32, (freeBlocks t.arena o).length +
      ∑ x ∈ Finset.range (Region.managed ⟨4096, 64, by decide, by decide⟩),
        heldBytes ⟨4096, 64, by decide, by decide⟩ t x =
          Region.managed ⟨4096, 64, by decide, by decide⟩ := by
  have hrun : Run ⟨4096, 64, by decide, by decide⟩ (fun _ => 0) _ :=
    .single (.call _ (.alloc 8) trivial)
  exact ⟨_, hrun, by decide +kernel, run_count_free (by decide) (fun _ _ => rfl) hrun⟩

end Dlb.Arena
