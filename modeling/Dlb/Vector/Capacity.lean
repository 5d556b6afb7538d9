import Dlb.Machine
import Dlb.Strbuf.Append
import Dlb.Vector.Code

/-!
# The capacity of a vector

`size_for` finds the least power of two for up to 2^30 elements. For more of them the power is one that an
`int` cannot hold, and the capacity is 8. The number of bytes is computed modulo 2^32.
-/

namespace Dlb.Vector

open Strbuf (realloc)

variable {v v' : Vector} {a : Answer} {c : Call} {r : ℤ} {data ptr ptr' : List UInt8} {k n m pos : ℕ}

/-! ## `size_for` -/

/-- The highest bit is left. -/
theorem capLoop_eq (h : 2 ^ k ≤ n) (hlt : n < 2 ^ (k + 1)) : capLoop n = 2 ^ k := by
  induction n using Nat.strongRecOn with
  | ind n ih =>
    rcases Nat.eq_or_lt_of_le h with rfl | hgt
    · rw [capLoop, if_pos (by rw [Nat.and_two_pow_sub_one_eq_mod, Nat.mod_self])]
    · -- The number before `n` has the same highest bit, so the loop does not clear it.
      have hbit : (n &&& (n - 1)).testBit k = true := by
        rw [Nat.testBit_and, Nat.testBit_of_two_pow_le_and_two_pow_add_one_gt h hlt,
          Nat.testBit_of_two_pow_le_and_two_pow_add_one_gt (by omega) (by omega), Bool.and_self]
      have hge := Nat.ge_two_pow_of_testBit hbit
      have hle : n &&& (n - 1) ≤ n - 1 := Nat.and_le_right
      have hpos := Nat.two_pow_pos k
      rw [capLoop, if_neg (by omega)]
      exact ih _ (by omega) hge (by omega)

/-- The capacity for some elements is the least power of two, from 8 on. -/
theorem capFor_spec (hn : n ≤ 2 ^ 30) :
    ∃ j, 3 ≤ j ∧ j ≤ 30 ∧ capFor n = 2 ^ j ∧ n ≤ 2 ^ j ∧ (j = 3 ∨ 2 ^ j < 2 * n) := by
  have hsmall : ∀ {cap}, cap < 8 → (if cap < 8 ∨ 2 ^ 31 ≤ cap then 8 else cap) = 2 ^ 3 := by
    intro cap hcap
    exact if_pos (.inl hcap)
  rcases Nat.eq_zero_or_pos n with rfl | hpos
  · refine ⟨3, le_rfl, by omega, ?_, Nat.zero_le _, .inl rfl⟩
    have h₀ : capLoop 0 = 0 := by rw [capLoop, if_pos (Nat.zero_and _)]
    simp only [capFor, h₀, Nat.lt_irrefl, if_false]
    exact hsmall (by omega)
  · have hle := Nat.log2_self_le hpos.ne'
    have hlt := Nat.lt_log2_self (n := n)
    obtain ⟨k, hk⟩ : ∃ k, k = n.log2 := ⟨_, rfl⟩
    rw [← hk] at hle hlt
    have hk₃₀ : k ≤ 30 := (Nat.pow_le_pow_iff_right Nat.one_lt_two).1 (hle.trans hn)
    -- The power of two, before it is compared with 8.
    obtain ⟨j, hj₃₀, hj, hnj, hjn⟩ : ∃ j, j ≤ 30 ∧ 2 ^ j =
        (if capLoop n < n then capLoop n * 2 % 2 ^ 32 else capLoop n) ∧ n ≤ 2 ^ j ∧ 2 ^ j < 2 * n := by
      rw [capLoop_eq hle hlt]
      rcases Nat.eq_or_lt_of_le hle with heq | hgt
      · rw [if_neg (by omega)]
        exact ⟨k, hk₃₀, rfl, heq.ge, by omega⟩
      · have hk₂₉ : k < 30 := (Nat.pow_lt_pow_iff_right Nat.one_lt_two).1 (hgt.trans_le hn)
        have hpow : 2 ^ (k + 1) ≤ 2 ^ 30 := Nat.pow_le_pow_right Nat.two_pos hk₂₉
        rw [Nat.pow_succ] at hlt hpow
        rw [if_pos hgt, Nat.mod_eq_of_lt (by omega), ← Nat.pow_succ]
        exact ⟨k + 1, hk₂₉, rfl, by rw [Nat.pow_succ]; omega, by rw [Nat.pow_succ]; omega⟩
    have hcap : capFor n = if 2 ^ j < 8 ∨ 2 ^ 31 ≤ 2 ^ j then 8 else 2 ^ j := by
      rw [hj]
      rfl
    have hpow : 2 ^ j ≤ 2 ^ 30 := Nat.pow_le_pow_right Nat.two_pos hj₃₀
    rcases Nat.lt_or_ge j 3 with hj₃ | hj₃
    · have hlt₈ : 2 ^ j < 2 ^ 3 := Nat.pow_lt_pow_right Nat.one_lt_two hj₃
      exact ⟨3, le_rfl, by omega, hcap.trans (hsmall hlt₈), by omega, .inl rfl⟩
    · have hge₈ : 2 ^ 3 ≤ 2 ^ j := Nat.pow_le_pow_right Nat.two_pos hj₃
      refine ⟨j, hj₃, hj₃₀, ?_, hnj, .inr hjn⟩
      rw [hcap, if_neg (by omega)]

/-- The power of two for more than 2^30 elements is not one that an `int` can hold. -/
theorem capFor_eq_eight (hn : 2 ^ 30 < n) (hlt : n < 2 ^ 32) : capFor n = 8 := by
  rcases Nat.lt_or_ge n (2 ^ 31) with h₃₁ | h₃₁
  · have hcap := capLoop_eq (k := 30) hn.le h₃₁
    simp only [capFor, hcap, if_pos hn]
    exact if_pos (.inr (by omega))
  · -- The power is 2^31, or 0 after the shift.
    have hcap := capLoop_eq (k := 31) h₃₁ hlt
    simp only [capFor, hcap]
    split
    · exact if_pos (.inl (by omega))
    · exact if_pos (.inr le_rfl)

theorem realloc_eq_none (n : ℕ) : realloc a ptr (n % 2 ^ 32) = none ↔ a = none := by
  rw [Strbuf.realloc_eq_none]
  exact or_iff_left (by omega)

/-- The capacity is kept, or the block gets another size, or that is not possible. -/
theorem sizeFor_cases (a : Answer) (v : Vector) (n : ℕ) :
    v.Keeps n ∧ sizeFor a v n = (0, v) ∨
      ¬v.Keeps n ∧ (∃ ptr, realloc a v.ptr (capFor n * v.elemsize % 2 ^ 32) = some ptr ∧
        sizeFor a v n = (0, { v with ptr := ptr, capacity := capFor n })) ∨
      ¬v.Keeps n ∧ a = none ∧ (n ≤ v.capacity ∧ sizeFor a v n = (0, v) ∨
        v.capacity < n ∧ sizeFor a v n = (-1, v)) := by
  rw [sizeFor]
  split
  next hk => exact .inl ⟨hk, rfl⟩
  next hk =>
    right
    split
    next hre =>
      refine .inr ⟨hk, (realloc_eq_none _).1 hre, ?_⟩
      split
      next hle => exact .inl ⟨hle, rfl⟩
      next hgt => exact .inr ⟨Nat.not_le.1 hgt, rfl⟩
    next ptr hre => exact .inl ⟨hk, ptr, hre, rfl⟩

/-! ## Calls -/

/-- The number of elements after a call. -/
def Call.needed (v : Vector) : Call → ℕ
  | .push _ count => (v.size + count) % 2 ^ 32
  | .pop count => v.size - min count v.size
  | .resize n => n
  | .clear => 0

/-- The counts are those of an `unsigned int`, and there are as many elements as are to be pushed. -/
def Call.Valid (v : Vector) : Call → Prop
  | .push data count => count < 2 ^ 32 ∧ data.length = count * v.elemsize
  | .pop count => count < 2 ^ 32
  | .resize n => n < 2 ^ 32
  | .clear => True

/-- The vector `v'` is `v` with `n` elements. -/
structure Resized (v : Vector) (n : ℕ) (v' : Vector) : Prop where
  elemsize : v'.elemsize = v.elemsize
  size : v'.size = n
  keeps : v.Keeps n → v'.capacity = v.capacity ∧ v'.ptr.length = v.ptr.length
  moves : ¬v.Keeps n →
    v'.capacity = capFor n ∧ v'.ptr.length = capFor n * v.elemsize % 2 ^ 32

theorem length_memcpy (e : memcpy ptr pos data n = some ptr') : ptr'.length = ptr.length := by
  rw [memcpy] at e
  split at e
  · cases e
    rfl
  · split at e
    next h =>
      cases e
      rw [List.length_append, List.length_append, List.length_take, List.length_take, List.length_drop]
      omega
    next => cases e

theorem vectorPop_eq (a : Answer) (v : Vector) (count : ℕ) :
    vectorPop a v count = (vectorResize a v (v.size - min count v.size)).2 := by
  have hmin : (if count > v.size then v.size else count) = min count v.size := by
    split <;> omega
  rw [vectorPop, hmin]

/-- What `vector_push` does after `size_for`. -/
theorem vectorPush_eq {v₁ : Vector} {count : ℕ} (e : sizeFor a v ((v.size + count) % 2 ^ 32) = (0, v₁)) :
    vectorPush a v data count =
      (memcpy v₁.ptr (v₁.size * v₁.elemsize % 2 ^ 32) data (count * v₁.elemsize % 2 ^ 32)).map fun ptr =>
        (0, { v₁ with ptr := ptr, size := (v₁.size + count) % 2 ^ 32 }) := by
  rw [vectorPush, e, Option.map_eq_bind]
  rfl

theorem sizeFor_resized (ha : a ≠ none) (v : Vector) (n : ℕ) :
    ∃ v₁, sizeFor a v n = (0, v₁) ∧ v₁.size = v.size ∧ Resized v n { v₁ with size := n } := by
  obtain ⟨hk, e⟩ | ⟨hk, ptr, hre, e⟩ | ⟨-, hnone, -⟩ := sizeFor_cases a v n
  · exact ⟨v, e, rfl, rfl, rfl, fun _ => ⟨rfl, rfl⟩, fun hno => absurd hk hno⟩
  · exact ⟨_, e, rfl, rfl, rfl, fun hyes => absurd hyes hk, fun _ => ⟨rfl, (Strbuf.length_realloc hre).1⟩⟩
  · exact absurd hnone ha

theorem vectorResize_resized (ha : a ≠ none) (v : Vector) (n : ℕ) :
    ∃ v', vectorResize a v n = (0, v') ∧ Resized v n v' := by
  obtain ⟨v₁, e, -, h⟩ := sizeFor_resized ha v n
  exact ⟨_, by simp [vectorResize, e], h⟩

/-- If there is memory, a call that returns has resized the vector. -/
theorem exec_resized (ha : a ≠ none) (hc : c ≠ .clear) (e : c.exec a v = some (r, v')) :
    r = 0 ∧ Resized v (c.needed v) v' := by
  cases c with
  | clear => exact absurd rfl hc
  | resize n =>
    obtain ⟨v₁, e₁, h⟩ := vectorResize_resized ha v n
    obtain ⟨rfl, rfl⟩ := Prod.mk.inj (e₁.symm.trans (Option.some.inj e))
    exact ⟨rfl, h⟩
  | pop count =>
    obtain ⟨v₁, e₁, h⟩ := vectorResize_resized ha v (v.size - min count v.size)
    obtain ⟨rfl, rfl⟩ := Prod.mk.inj (Option.some.inj e)
    rw [vectorPop_eq, e₁]
    exact ⟨rfl, h⟩
  | push data count =>
    obtain ⟨v₁, e₁, hsize, h⟩ := sizeFor_resized ha v ((v.size + count) % 2 ^ 32)
    rw [Call.exec, vectorPush_eq e₁] at e
    obtain ⟨ptr, hcopy, e₂⟩ := Option.map_eq_some_iff.1 e
    obtain ⟨rfl, rfl⟩ := Prod.mk.inj e₂
    have hlen := length_memcpy hcopy
    exact ⟨rfl, h.elemsize, by rw [hsize]; rfl, fun hk => ⟨(h.keeps hk).1, hlen.trans (h.keeps hk).2⟩,
      fun hk => ⟨(h.moves hk).1, hlen.trans (h.moves hk).2⟩⟩

/-! ## Runs -/

/-- The block is large enough for the capacity, and the capacity for the elements. -/
structure Enough (v : Vector) : Prop where
  size : v.size ≤ v.capacity
  bytes : v.capacity * v.elemsize ≤ v.ptr.length

/-- Up to 2^30 elements, and less than 2^32 bytes if the block is to get another size. -/
def Call.Fits (v : Vector) (c : Call) : Prop :=
  c = .clear ∨ c.needed v ≤ 2 ^ 30 ∧
    (v.Keeps (c.needed v) ∨ capFor (c.needed v) * v.elemsize < 2 ^ 32)

/-- A vector of up to 2^30 elements. -/
structure Bounded (v : Vector) : Prop extends Enough v where
  le : v.capacity ≤ 2 ^ 30

theorem enough_clear (v : Vector) : Bounded (vectorClear v) :=
  ⟨⟨le_rfl, by simp [vectorClear]⟩, Nat.zero_le _⟩

theorem Bounded.needed_lt (h : Bounded v) (hv : c.Valid v) : c.needed v < 2 ^ 32 := by
  have hle := h.le
  have hsize := h.size
  cases c with
  | push data count => exact Nat.mod_lt _ (by omega)
  | pop count => exact (Nat.sub_le ..).trans_lt (by omega)
  | resize n => exact hv
  | clear => exact Nat.two_pow_pos 32

/-- The capacity of a vector after a call that returns. -/
theorem Bounded.exec (h : Bounded v) (ha : a ≠ none) (hf : c.Fits v)
    (e : c.exec a v = some (r, v')) : Bounded v' := by
  rcases hf with rfl | ⟨hn, hf⟩
  · obtain ⟨-, rfl⟩ := Prod.mk.inj (Option.some.inj e)
    exact enough_clear v
  by_cases hc : c = .clear
  · subst hc
    obtain ⟨-, rfl⟩ := Prod.mk.inj (Option.some.inj e)
    exact enough_clear v
  obtain ⟨-, hr⟩ := exec_resized ha hc e
  obtain ⟨j, -, hj, hcap, hle, -⟩ := capFor_spec hn
  by_cases hk : v.Keeps (c.needed v)
  · obtain ⟨hcap', hlen⟩ := hr.keeps hk
    refine ⟨⟨?_, ?_⟩, hcap' ▸ h.le⟩
    · rw [hr.size, hcap']
      exact hle.trans (hcap ▸ hk.1)
    · rw [hcap', hr.elemsize, hlen]
      exact h.bytes
  · obtain ⟨hcap', hlen⟩ := hr.moves hk
    refine ⟨⟨?_, ?_⟩, ?_⟩
    · rw [hr.size, hcap', hcap]
      exact hle
    · rw [hcap', hr.elemsize, hlen, Nat.mod_eq_of_lt (hf.resolve_left hk)]
    · rw [hcap', hcap]
      exact Nat.pow_le_pow_right Nat.two_pos hj

/-- Otherwise the capacity is 8 for more than 2^30 elements, or there are too few bytes. -/
theorem Bounded.fits (h : Bounded v) (ha : a ≠ none) (hv : c.Valid v)
    (e : c.exec a v = some (r, v')) (henough : Enough v') : c.Fits v := by
  by_cases hc : c = .clear
  · exact .inl hc
  obtain ⟨-, hr⟩ := exec_resized ha hc e
  have hlt := h.needed_lt hv
  have hn : c.needed v ≤ 2 ^ 30 := by
    -- Whether the capacity is kept or not, it is at most 16.
    by_contra hgt
    have hcap := capFor_eq_eight (Nat.not_le.1 hgt) hlt
    have hsize := henough.size
    rw [hr.size] at hsize
    by_cases hk : v.Keeps (c.needed v)
    · have hle := hk.2
      rw [hcap] at hle
      rw [(hr.keeps hk).1] at hsize
      omega
    · rw [(hr.moves hk).1, hcap] at hsize
      omega
  refine .inr ⟨hn, ?_⟩
  by_cases hk : v.Keeps (c.needed v)
  · exact .inl hk
  · right
    have hbytes := henough.bytes
    obtain ⟨hcap', hlen⟩ := hr.moves hk
    rw [hcap', hr.elemsize, hlen] at hbytes
    exact hbytes.trans_lt (Nat.mod_lt _ (Nat.two_pow_pos 32))

/-- A call with memory. -/
def step (v : Vector) (x : (ℕ → UInt8) × Call) : Option Vector := (x.2.exec (some x.1) v).map Prod.snd

/-- The vectors after some calls with memory that meet the condition. -/
def FittingRun (elemsize : ℕ) (v : Vector) : Prop :=
  Machine.Reached step (fun v x => x.2.Valid v ∧ x.2.Fits v) (vectorInit elemsize) v

theorem FittingRun.bounded {elemsize : ℕ} (h : FittingRun elemsize v) : Bounded v := by
  refine Machine.Reached.invariant h (enough_clear (vectorInit elemsize)) fun {v x v'} h hc e => ?_
  obtain ⟨⟨r, v₁⟩, e₁, rfl⟩ := Option.map_eq_some_iff.1 e
  exact h.exec (by simp) hc.2 e₁

/-- The block is large enough as long as the calls meet the condition, and after the first that does not, it
    is not. -/
theorem run_enough {elemsize : ℕ} (h : FittingRun elemsize v) : Enough v ∧
    ∀ fresh c v', Call.Valid v c → c.exec (some fresh) v = some (0, v') → (Enough v' ↔ c.Fits v) := by
  refine ⟨h.bounded.toEnough, fun fresh c v' hv e => ⟨h.bounded.fits (by simp) hv e, fun hf => ?_⟩⟩
  exact (h.bounded.exec (by simp) hf e).toEnough

/-- The vector after `vector_resize` of a new one, if the capacity is 8. -/
theorem resize_init (h : capFor n = 8) (fresh : ℕ → UInt8) :
    (Call.resize n).exec (some fresh) (vectorInit 1) =
      some (0, ⟨(List.range 8).map fresh, 1, 8, n⟩) := by
  have hk : ¬(vectorInit 1).Keeps n := by
    rw [Keeps, h]
    exact fun hk => absurd hk.1 (by decide)
  have hsize : sizeFor (some fresh) (vectorInit 1) n = (0, ⟨(List.range 8).map fresh, 1, 8, 0⟩) := by
    rw [sizeFor, if_neg hk, h]
    rfl
  rw [Call.exec, vectorResize, hsize]
  rfl

/-- A new vector that is given five elements of one byte. -/
theorem run_enough_five : Enough ⟨(List.range 8).map fun _ => 0, 1, 8, 5⟩ := by
  have hcap : capFor 5 = 8 := by simp [capFor, capLoop]
  have hrun : FittingRun 1 (vectorInit 1) := .refl
  refine ((run_enough hrun).2 _ (.resize 5) _ (by decide : 5 < 2 ^ 32) (resize_init hcap _)).2 (.inr ⟨?_, .inr ?_⟩)
  · exact (by decide : 5 ≤ 2 ^ 30)
  · change capFor 5 * 1 < 2 ^ 32
    rw [hcap]
    decide

/-- The capacity is 8 for 2^30 + 1 elements. -/
theorem not_enough : ∃ v, (Call.resize (2 ^ 30 + 1)).exec (some fun _ => 0) (vectorInit 1) =
    some (0, v) ∧ ¬Enough v := by
  refine ⟨_, resize_init (capFor_eq_eight (by decide) (by decide)) _, fun h => ?_⟩
  exact absurd h.size (by decide)

end Dlb.Vector
