import Mathlib.Algebra.BigOperators.Group.Finset.Basic
import Mathlib.Data.Nat.Bitwise
import Mathlib.Order.Interval.Finset.Nat
import Mathlib.Logic.Function.Basic
import Mathlib.Tactic.Ring

/-!
# Buddy systems

An interval of the natural numbers is tiled by blocks. A block of order `o` has the length `2 ^ o`
and starts at a multiple of it; its buddy is the other half of the block of the next order.

* `Tiling`: the blocks, given by the orders at their starts, tile the interval up to `M`;
* `Tiling.split`, `Tiling.merge`, `Tiling.extend`: the changes of a tiling;
* `Tiling.buddy_start`: a block starts at the buddy of a block, and its order is not larger;
* `Tiling.unique`: there is one tiling without two buddies of the same order;
* `Tiling.sum_length`: the lengths of the blocks add up to `M`.
-/

namespace Dlb

/-- The buddy of the block of order `o` at `x`. -/
def buddy (x o : ℕ) : ℕ := x ^^^ 2 ^ o

theorem buddy_buddy (x o : ℕ) : buddy (buddy x o) o = x := by
  rw [buddy, buddy, Nat.xor_assoc, Nat.xor_self, Nat.xor_zero]

/-- The buddy is the upper or the lower half of the block of the next order. -/
theorem buddy_cases {x o : ℕ} (h : 2 ^ o ∣ x) :
    2 ^ (o + 1) ∣ x ∧ buddy x o = x + 2 ^ o ∨
      2 ^ (o + 1) ∣ buddy x o ∧ x = buddy x o + 2 ^ o := by
  obtain ⟨k, rfl⟩ := h
  have hb : buddy (2 ^ o * k) o = 2 ^ o * (k ^^^ 1) := by
    rw [buddy, Nat.mul_comm, ← Nat.shiftLeft_eq, Nat.mul_comm, ← Nat.shiftLeft_eq,
      Nat.shiftLeft_xor_distrib, Nat.one_shiftLeft]
  rcases Nat.even_or_odd' k with ⟨j, rfl | rfl⟩
  · rw [hb, Nat.xor_one_of_even (even_two_mul j)]
    exact .inl ⟨⟨j, by ring⟩, by ring⟩
  · rw [hb, Nat.xor_one_of_odd (odd_two_mul_add_one j), Nat.add_sub_cancel]
    exact .inr ⟨⟨j, by ring⟩, by ring⟩

theorem buddy_ne {x o : ℕ} (h : 2 ^ o ∣ x) : buddy x o ≠ x := by
  have hpos := Nat.two_pow_pos o
  rcases buddy_cases h with ⟨-, e⟩ | ⟨-, e⟩ <;> omega

theorem buddy_of_dvd {x o : ℕ} (h : 2 ^ (o + 1) ∣ x) : buddy x o = x + 2 ^ o := by
  rcases buddy_cases ((Nat.pow_dvd_pow 2 (Nat.le_succ o)).trans h) with ⟨-, e⟩ | ⟨hb, e⟩
  · exact e
  · have hpos := Nat.two_pow_pos o
    have hd : 2 ^ (o + 1) ∣ 2 ^ o := by
      rw [e] at h
      exact (Nat.dvd_add_right hb).1 h
    have := Nat.le_of_dvd hpos hd
    have hpow : 2 ^ (o + 1) = 2 * 2 ^ o := by ring
    omega

theorem dvd_buddy {x o : ℕ} (h : 2 ^ o ∣ x) : 2 ^ o ∣ buddy x o := by
  rcases buddy_cases h with ⟨-, e⟩ | ⟨hd, -⟩
  · rw [e]
    exact (Nat.dvd_add_right h).2 (Nat.dvd_refl _)
  · exact (Nat.pow_dvd_pow 2 (Nat.le_succ o)).trans hd

/-- A block that contains a block of a smaller order contains its buddy. -/
theorem buddy_mem {x o y k : ℕ} (hx : 2 ^ o ∣ x) (hy : 2 ^ k ∣ y) (hko : k < o) (h₁ : x ≤ y)
    (h₂ : y < x + 2 ^ o) : x ≤ buddy y k ∧ buddy y k + 2 ^ k ≤ x + 2 ^ o := by
  have hd : 2 ^ (k + 1) ∣ 2 ^ o := Nat.pow_dvd_pow 2 hko
  have hpos := Nat.two_pow_pos k
  have hx' : 2 ^ (k + 1) ∣ x := hd.trans hx
  have hxo : 2 ^ (k + 1) ∣ x + 2 ^ o := (Nat.dvd_add_right hx').2 hd
  have hpow : 2 ^ (k + 1) = 2 * 2 ^ k := by ring
  rcases buddy_cases hy with ⟨hd', e⟩ | ⟨hd', e⟩
  · have : y + 2 ^ (k + 1) ≤ x + 2 ^ o := by
      refine Nat.le_of_lt_add_of_dvd ?_ ((Nat.dvd_add_right hd').2 (Nat.dvd_refl _)) hxo
      omega
    omega
  · have h₃ : x ≤ buddy y k := Nat.le_of_lt_add_of_dvd (by omega) hx' hd'
    have h₄ : buddy y k + 2 ^ (k + 1) ≤ x + 2 ^ o := by
      refine Nat.le_of_lt_add_of_dvd ?_ ((Nat.dvd_add_right hd').2 (Nat.dvd_refl _)) hxo
      omega
    omega

/-! ## Tilings -/

/-- The interval up to `M` is tiled by blocks of order `l` and more. The order of the block which
    starts at `x`, if there is one, is `ord x`. -/
structure Tiling (l M : ℕ) (ord : ℕ → Option ℕ) : Prop where
  block : ∀ x o, ord x = some o → l ≤ o ∧ 2 ^ o ∣ x ∧ x + 2 ^ o ≤ M
  apart : ∀ x y o k, ord x = some o → ord y = some k → x < y → x + 2 ^ o ≤ y
  cover : ∀ z < M, ∃ x o, ord x = some o ∧ x ≤ z ∧ z < x + 2 ^ o

/-- There are no two buddies of the same order. -/
def Merged (ord : ℕ → Option ℕ) : Prop := ∀ x o, ord x = some o → ord (buddy x o) ≠ some o

namespace Tiling

variable {l M x y o k : ℕ} {ord ord' : ℕ → Option ℕ}

theorem empty (l : ℕ) : Tiling l 0 fun _ => none := by
  constructor <;> simp

/-- A block is the only one that contains its start. -/
theorem eq_of_mem (h : Tiling l M ord) (hx : ord x = some o) (hy : ord y = some k) (h₁ : y ≤ x)
    (h₂ : x < y + 2 ^ k) : y = x := by
  by_contra hne
  have := h.apart y x k o hy hx (by omega)
  omega

/-- The block of order at most `o` that contains a multiple of `2 ^ o` starts there. -/
theorem eq_of_dvd (h : Tiling l M ord) (hy : ord y = some k) (hk : k ≤ o) (hx : 2 ^ o ∣ x)
    (h₁ : y ≤ x) (h₂ : x < y + 2 ^ k) : y = x := by
  have hx' : 2 ^ k ∣ x := (Nat.pow_dvd_pow 2 hk).trans hx
  exact Nat.le_antisymm h₁ (Nat.le_of_lt_add_of_dvd h₂ hx' (h.block y k hy).2.1)

theorem buddy_start (h : Tiling l M ord) (hx : ord x = some o) (hb : buddy x o < M) :
    ∃ k ≤ o, ord (buddy x o) = some k := by
  obtain ⟨z, k, hz, h₁, h₂⟩ := h.cover _ hb
  have hxo := (h.block x o hx).2.1
  have hk : k ≤ o := by
    by_contra hk
    -- A larger block would contain the block at `x`, too.
    have hmem := buddy_mem (h.block z k hz).2.1 (dvd_buddy hxo) (by omega) h₁ h₂
    rw [buddy_buddy] at hmem
    have hpos := Nat.two_pow_pos o
    obtain rfl := h.eq_of_mem hx hz hmem.1 (by omega)
    obtain rfl := Option.some.inj (hx.symm.trans hz)
    exact hk le_rfl
  obtain rfl := h.eq_of_dvd hz hk (dvd_buddy hxo) h₁ h₂
  exact ⟨k, hk, hz⟩

/-- The length of the block which starts at `x`, or 0. -/
def length (ord : ℕ → Option ℕ) (x : ℕ) : ℕ := (ord x).elim 0 (2 ^ ·)

theorem sum_length (h : Tiling l M ord) : ∑ x ∈ Finset.range M, length ord x = M := by
  have hsome : ∀ x, 0 < length ord x → ∃ o, ord x = some o ∧ length ord x = 2 ^ o := by
    intro x hx
    cases hord : ord x with
    | none => simp [length, hord] at hx
    | some o => exact ⟨o, rfl, by simp [length, hord]⟩
  -- Every number below `M` is in one block.
  have hcover : (Finset.range M).biUnion (fun x => Finset.Ico x (x + length ord x)) =
      Finset.range M := by
    ext z
    simp only [Finset.mem_biUnion, Finset.mem_range, Finset.mem_Ico]
    constructor
    · rintro ⟨x, -, h₁, h₂⟩
      obtain ⟨o, hx, hl⟩ := hsome x (by omega)
      have := (h.block x o hx).2.2
      omega
    · intro hz
      obtain ⟨x, o, hx, h₁, h₂⟩ := h.cover z hz
      exact ⟨x, by omega, h₁, by simpa [length, hx] using h₂⟩
  have hdisj : ((Finset.range M : Finset ℕ) : Set ℕ).PairwiseDisjoint
      fun x => Finset.Ico x (x + length ord x) := by
    intro x _ y _ hne
    rw [Function.onFun, Finset.disjoint_left]
    intro z hzx hzy
    rw [Finset.mem_Ico] at hzx hzy
    obtain ⟨o, hx, hlx⟩ := hsome x (by omega)
    obtain ⟨k, hy, hly⟩ := hsome y (by omega)
    have h₁ := h.apart x y o k hx hy
    have h₂ := h.apart y x k o hy hx
    omega
  have hcard := Finset.card_biUnion hdisj
  rw [hcover, Finset.card_range] at hcard
  refine Eq.trans (Finset.sum_congr rfl fun x _ => ?_) hcard.symm
  rw [Nat.card_Ico, Nat.add_sub_cancel_left]

/-- The block at `x` is split. -/
theorem split (h : Tiling l M ord) (hx : ord x = some (o + 1)) (ho : l ≤ o) :
    Tiling l M (Function.update (Function.update ord x (some o)) (x + 2 ^ o) (some o)) := by
  obtain ⟨-, hd, hM⟩ := h.block x _ hx
  have hpos := Nat.two_pow_pos o
  have hpow : 2 ^ (o + 1) = 2 * 2 ^ o := by ring
  have hdo : 2 ^ o ∣ x := (Nat.pow_dvd_pow 2 (Nat.le_succ o)).trans hd
  have hcases : ∀ {y k}, Function.update (Function.update ord x (some o)) (x + 2 ^ o) (some o) y =
      some k → (k = o ∧ (y = x ∨ y = x + 2 ^ o)) ∨ (y ≠ x ∧ y ≠ x + 2 ^ o ∧ ord y = some k) := by
    intro y k hy
    by_cases h₁ : y = x + 2 ^ o
    · rw [h₁, Function.update_self] at hy
      exact .inl ⟨(Option.some.inj hy).symm, .inr h₁⟩
    · rw [Function.update_of_ne h₁] at hy
      by_cases h₂ : y = x
      · rw [h₂, Function.update_self] at hy
        exact .inl ⟨(Option.some.inj hy).symm, .inl h₂⟩
      · rw [Function.update_of_ne h₂] at hy
        exact .inr ⟨h₂, h₁, hy⟩
  refine ⟨fun y k hy => ?_, fun y z k j hy hz hyz => ?_, fun z hz => ?_⟩
  · rcases hcases hy with ⟨rfl, rfl | rfl⟩ | ⟨-, -, hy⟩
    · exact ⟨ho, hdo, by omega⟩
    · exact ⟨ho, (Nat.dvd_add_right hdo).2 (Nat.dvd_refl _), by omega⟩
    · exact h.block y k hy
  · rcases hcases hy with ⟨rfl, hy₁⟩ | ⟨hne, -, hy₁⟩ <;>
      rcases hcases hz with ⟨rfl, hz₁⟩ | ⟨hne', -, hz₁⟩
    · omega
    · have h₁ := h.apart x z _ _ hx hz₁
      have h₂ := h.apart z x _ _ hz₁ hx
      have hposj := Nat.two_pow_pos j
      omega
    · have h₁ := h.apart y x _ _ hy₁ hx
      have h₂ := h.apart x y _ _ hx hy₁
      omega
    · exact h.apart y z k j hy₁ hz₁ hyz
  · obtain ⟨y, k, hy, h₁, h₂⟩ := h.cover z hz
    by_cases hyx : y = x
    · subst hyx
      obtain rfl := Option.some.inj (hx.symm.trans hy)
      by_cases hz' : z < y + 2 ^ o
      · refine ⟨y, o, ?_, h₁, hz'⟩
        rw [Function.update_of_ne (by omega), Function.update_self]
      · exact ⟨y + 2 ^ o, o, Function.update_self .., by omega, by omega⟩
    · refine ⟨y, k, ?_, h₁, h₂⟩
      have hne : y ≠ x + 2 ^ o := by
        rintro rfl
        have := h.apart x _ _ _ hx hy
        omega
      rw [Function.update_of_ne hne, Function.update_of_ne hyx, hy]

/-- The block at `x` and its upper buddy are merged. -/
theorem merge (h : Tiling l M ord) (hx : ord x = some o) (hy : ord (x + 2 ^ o) = some o)
    (hd : 2 ^ (o + 1) ∣ x) :
    Tiling l M (Function.update (Function.update ord (x + 2 ^ o) none) x (some (o + 1))) := by
  have hpos := Nat.two_pow_pos o
  have hpow : 2 ^ (o + 1) = 2 * 2 ^ o := by ring
  have hcases : ∀ {z k}, Function.update (Function.update ord (x + 2 ^ o) none) x (some (o + 1)) z =
      some k → (k = o + 1 ∧ z = x) ∨ (z ≠ x ∧ z ≠ x + 2 ^ o ∧ ord z = some k) := by
    intro z k hz
    by_cases h₁ : z = x
    · rw [h₁, Function.update_self] at hz
      exact .inl ⟨(Option.some.inj hz).symm, h₁⟩
    · rw [Function.update_of_ne h₁] at hz
      by_cases h₂ : z = x + 2 ^ o
      · rw [h₂, Function.update_self] at hz
        cases hz
      · rw [Function.update_of_ne h₂] at hz
        exact .inr ⟨h₁, h₂, hz⟩
  refine ⟨fun z k hz => ?_, fun z w k j hz hw hzw => ?_, fun z hz => ?_⟩
  · rcases hcases hz with ⟨rfl, rfl⟩ | ⟨-, -, hz⟩
    · have h₁ := (h.block _ o hx).1
      have h₂ := (h.block _ o hy).2.2
      exact ⟨by omega, hd, by omega⟩
    · exact h.block z k hz
  · rcases hcases hz with ⟨rfl, rfl⟩ | ⟨hne, hne', hz₁⟩ <;>
      rcases hcases hw with ⟨rfl, rfl⟩ | ⟨-, hne₂, hw₁⟩
    · omega
    · have h₁ := h.apart _ w _ _ hx hw₁ hzw
      have h₂ := h.apart _ w _ _ hy hw₁
      omega
    · exact h.apart z _ _ _ hz₁ hx hzw
    · exact h.apart z w k j hz₁ hw₁ hzw
  · obtain ⟨w, k, hw, h₁, h₂⟩ := h.cover z hz
    by_cases hwx : w = x
    · subst hwx
      obtain rfl := Option.some.inj (hx.symm.trans hw)
      exact ⟨w, o + 1, Function.update_self .., h₁, by omega⟩
    by_cases hwy : w = x + 2 ^ o
    · subst hwy
      obtain rfl := Option.some.inj (hy.symm.trans hw)
      exact ⟨x, o + 1, Function.update_self .., by omega, by omega⟩
    · refine ⟨w, k, ?_, h₁, h₂⟩
      rw [Function.update_of_ne hwx, Function.update_of_ne hwy, hw]

/-- A block is added at the end. -/
theorem extend (h : Tiling l M ord) (ho : l ≤ o) (hd : 2 ^ o ∣ M) :
    Tiling l (M + 2 ^ o) (Function.update ord M (some o)) := by
  have hpos := Nat.two_pow_pos o
  have hcases : ∀ {z k}, Function.update ord M (some o) z = some k →
      (k = o ∧ z = M) ∨ (z + 2 ^ k ≤ M ∧ ord z = some k) := by
    intro z k hz
    by_cases hzM : z = M
    · rw [hzM, Function.update_self] at hz
      exact .inl ⟨(Option.some.inj hz).symm, hzM⟩
    · rw [Function.update_of_ne hzM] at hz
      exact .inr ⟨(h.block z k hz).2.2, hz⟩
  refine ⟨fun z k hz => ?_, fun z w k j hz hw hzw => ?_, fun z hz => ?_⟩
  · rcases hcases hz with ⟨rfl, rfl⟩ | ⟨hle, hz⟩
    · exact ⟨ho, hd, le_rfl⟩
    · obtain ⟨h₁, h₂, -⟩ := h.block z k hz
      exact ⟨h₁, h₂, by omega⟩
  · rcases hcases hz with ⟨rfl, rfl⟩ | ⟨hle, hz₁⟩ <;>
      rcases hcases hw with ⟨rfl, rfl⟩ | ⟨hle', hw₁⟩
    · omega
    · have := Nat.two_pow_pos j
      omega
    · exact hle
    · exact h.apart z w k j hz₁ hw₁ hzw
  · by_cases hzM : z < M
    · obtain ⟨x, k, hx, h₁, h₂⟩ := h.cover z hzM
      exact ⟨x, k, by rwa [Function.update_of_ne (by omega)], h₁, h₂⟩
    · exact ⟨M, o, Function.update_self .., by omega, hz⟩

/-- A merged tiling has no block that is a proper part of what could be a block. -/
theorem not_lt_of_mem (h : Tiling l M ord) (hm : Merged ord) (hd : 2 ^ o ∣ x) (hM : x + 2 ^ o ≤ M)
    (hy : ord y = some k) (h₁ : x ≤ y) (h₂ : y < x + 2 ^ o) : ¬k < o := by
  induction k using Nat.strong_induction_on generalizing y with
  | _ k ih =>
    -- The buddy of a smallest such block is a block of the same order.
    intro hko
    have hdy := (h.block y k hy).2.1
    have hmem := buddy_mem hd hdy hko h₁ h₂
    have hpos := Nat.two_pow_pos k
    obtain ⟨j, hjk, hj⟩ := h.buddy_start hy (by omega)
    rcases hjk.eq_or_lt with rfl | hlt
    · exact hm y j hy hj
    · exact ih j hlt hj hmem.1 (by omega) (by omega)

/-- The last block of a merged tiling has no buddy. -/
theorem exists_last (h : Tiling l M ord) (hm : Merged ord) (hM : 0 < M) :
    ∃ x o, ord x = some o ∧ x + 2 ^ o = M ∧ buddy x o = M := by
  obtain ⟨x, o, hx, h₁, h₂⟩ := h.cover (M - 1) (by omega)
  obtain ⟨-, hd, hle⟩ := h.block x o hx
  refine ⟨x, o, hx, by omega, ?_⟩
  rcases buddy_cases hd with ⟨-, e⟩ | ⟨-, e⟩
  · omega
  · have hpos := Nat.two_pow_pos o
    obtain ⟨k, hk, hb⟩ := h.buddy_start hx (by omega)
    have hlt : ¬k < o := h.not_lt_of_mem hm (dvd_buddy hd) (by omega) hb le_rfl (by omega)
    obtain rfl : k = o := by omega
    exact absurd hb (hm x k hx)

theorem mem_of_merged (h : Tiling l M ord) (h' : Tiling l M ord') (hm : Merged ord)
    (hm' : Merged ord') (hx : ord x = some o) : ord' x = some o := by
  obtain ⟨-, hd, hM⟩ := h.block x o hx
  have hpos := Nat.two_pow_pos o
  obtain ⟨y, k, hy, h₁, h₂⟩ := h'.cover x (by omega)
  obtain ⟨-, hd', hM'⟩ := h'.block y k hy
  have hok : ¬o < k := h.not_lt_of_mem hm hd' hM' hx h₁ h₂
  obtain rfl := h'.eq_of_dvd hy (Nat.le_of_not_lt hok) hd h₁ h₂
  have hko : ¬k < o := h'.not_lt_of_mem hm' hd hM hy le_rfl (by omega)
  rw [hy, Nat.le_antisymm (Nat.le_of_not_lt hok) (Nat.le_of_not_lt hko)]

theorem unique (h : Tiling l M ord) (h' : Tiling l M ord') (hm : Merged ord)
    (hm' : Merged ord') : ord = ord' := by
  funext x
  refine Option.ext fun o => ⟨fun hx => ?_, fun hx => ?_⟩
  · exact h.mem_of_merged h' hm hm' hx
  · exact h'.mem_of_merged h hm' hm hx

end Tiling

end Dlb
