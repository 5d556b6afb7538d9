import Mathlib.Algebra.Order.Ring.Nat
import Mathlib.Data.Nat.Log
import Dlb.Tree.RedBlack

/-!
# The height of red-black trees

A tree of the black height `n` has at least `2 ^ n - 1` elements, and no path in it is longer than
`2 * n`, or `2 * n + 1` if its root is red. The height of a red-black tree is therefore at most twice the
logarithm of the number of its elements.
-/

namespace Dlb

open Coloured

variable {α : Type*} [Coloured α] {t : Tree α} {n : ℕ}

namespace Tree

theorem Balanced.two_pow_le (h : t.Balanced n) : 2 ^ n ≤ t.inorder.length + 1 := by
  induction t generalizing n with
  | nil =>
    obtain rfl : n = 0 := h
    simp
  | node l x r ihl ihr =>
    rw [inorder_node, List.length_append, List.length_cons]
    cases hx : red x with
    | true =>
      obtain ⟨-, -, hl, -⟩ := (balanced_red (d := .left) hx).1 h
      have := ihl hl
      omega
    | false =>
      obtain ⟨k, rfl, hl, hr⟩ := (balanced_black (d := .left) hx).1 h
      have h₁ := ihl hl
      have h₂ := ihr hr
      rw [pow_succ]
      omega

/-- On a path, at most every other element is red. -/
theorem Balanced.height_le (h : t.Balanced n) : t.height ≤ 2 * n + t.isRed.toNat := by
  induction t generalizing n with
  | nil => simp
  | node l x r ihl ihr =>
    rw [height_node, isRed_node]
    cases hx : red x with
    | true =>
      obtain ⟨hlr, hrr, hl, hr⟩ := (balanced_red (d := .left) hx).1 h
      have h₁ := ihl hl
      have h₂ := ihr hr
      simp only [hlr, hrr, Bool.toNat_false, Bool.toNat_true] at h₁ h₂ ⊢
      omega
    | false =>
      obtain ⟨k, rfl, hl, hr⟩ := (balanced_black (d := .left) hx).1 h
      have h₁ := (ihl hl).trans (Nat.add_le_add_left (Bool.toNat_le _) _)
      have h₂ := (ihr hr).trans (Nat.add_le_add_left (Bool.toNat_le _) _)
      simp only [Bool.toNat_false]
      omega

theorem IsRedBlack.height_le (h : t.IsRedBlack) :
    t.height ≤ 2 * Nat.log 2 (t.inorder.length + 1) := by
  obtain ⟨hr, n, hn⟩ := h
  have hlog : n ≤ Nat.log 2 (t.inorder.length + 1) := Nat.le_log_of_pow_le (by decide) hn.two_pow_le
  have := hn.height_le
  simp only [hr, Bool.toNat_false] at this
  omega

end Tree

end Dlb
