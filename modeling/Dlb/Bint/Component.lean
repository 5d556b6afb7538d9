import Mathlib.Data.Nat.Size
import Dlb.Bint.Chunk

/-!
# What the components and the chunks stand for

The value of a component is a digit in the base `2 ^ 32`, and that of a chunk a
digit in the base `radix = 2 ^ 128`. For every step of a loop over the components of
a chunk it is stated which balance it keeps between the component that is read, the
one that is written and the carry.
-/

namespace Dlb.Bint

/-- The base in which the chunks are digits. -/
def radix : ℕ := 2 ^ 128

theorem radix_eq : radix = (2 ^ 32) ^ 4 := by rw [radix, ← pow_mul]

theorem radix_pos : 0 < radix := Nat.two_pow_pos 128

/-- The value of a list of components. -/
def limbs (l : List UInt32) : ℕ := eval (2 ^ 32) UInt32.toNat l

@[simp] theorem limbs_nil : limbs [] = 0 := rfl

@[simp] theorem limbs_cons (d : UInt32) (l : List UInt32) :
    limbs (d :: l) = d.toNat + 2 ^ 32 * limbs l := rfl

theorem limbs_append (l l' : List UInt32) :
    limbs (l ++ l') = limbs l + (2 ^ 32) ^ l.length * limbs l' := eval_append _ _ l l'

theorem limbs_lt (l : List UInt32) : limbs l < (2 ^ 32) ^ l.length :=
  eval_lt fun d _ => d.toNat_lt

theorem limbs_take (l : List UInt32) (k : ℕ) : limbs (l.take k) = limbs l % (2 ^ 32) ^ k :=
  eval_take (fun d _ => d.toNat_lt) (by simp) k

theorem limbs_drop (l : List UInt32) (k : ℕ) : limbs (l.drop k) = limbs l / (2 ^ 32) ^ k :=
  eval_drop (fun d _ => d.toNat_lt) (by simp) k

@[simp] theorem limbs_replicate_zero (k : ℕ) : limbs (List.replicate k 0) = 0 :=
  eval_eq_zero fun d hd => by rw [List.eq_of_mem_replicate hd, UInt32.toNat_zero]

/-- The value of a chunk. -/
def Chunk.val (c : Chunk) : ℕ := limbs c.data

theorem Chunk.val_lt (c : Chunk) : c.val < radix := by
  have := limbs_lt c.data
  rwa [c.length_data, ← radix_eq] at this

theorem Chunk.val_injective : Function.Injective Chunk.val := by
  intro c d h
  obtain ⟨l, hl⟩ := c
  obtain ⟨l', hl'⟩ := d
  rw [Chunk.mk.injEq]
  exact eval_inj UInt32.toNat_lt (fun _ _ => UInt32.toNat_inj.1) (hl.trans hl'.symm) h

@[simp] theorem Chunk.val_zero : Chunk.zero.val = 0 := rfl

/-! ## Words -/

/-- The value of a flag. -/
def flag (c : UInt32) : ℕ := if c = 0 then 0 else 1

@[simp] theorem flag_zero : flag 0 = 0 := rfl

theorem flag_of_ne {c : UInt32} (h : c ≠ 0) : flag c = 1 := if_neg h

theorem flag_le (c : UInt32) : flag c ≤ 1 := by
  rw [flag]
  split_ifs <;> omega

theorem toNat_ne_zero {c : UInt32} : c.toNat ≠ 0 ↔ c ≠ 0 := by
  rw [ne_eq, ne_eq, ← UInt32.toNat_inj, UInt32.toNat_zero]

theorem toNat_lo (r : UInt64) : r.toUInt32.toNat = r.toNat % 2 ^ 32 := by simp

theorem toNat_hi (r : UInt64) : (r >>> 32).toUInt32.toNat = r.toNat / 2 ^ 32 := by
  have := r.toNat_lt
  simp [Nat.shiftRight_eq_div_pow]
  omega

/-- The two halves of a word. -/
theorem toNat_lo_add_hi (r : UInt64) :
    r.toUInt32.toNat + 2 ^ 32 * (r >>> 32).toUInt32.toNat = r.toNat := by
  rw [toNat_lo, toNat_hi, Nat.mod_add_div]

theorem flag_hi (r : UInt64) : flag (r >>> 32).toUInt32 = if r.toNat < 2 ^ 32 then 0 else 1 := by
  have h := toNat_hi r
  by_cases hr : (r >>> 32).toUInt32 = 0
  · rw [hr, UInt32.toNat_zero] at h
    rw [flag, if_pos hr, if_pos (by omega)]
  · have h₀ := toNat_ne_zero.2 hr
    rw [flag, if_neg hr, if_neg (by omega)]

theorem toNat_ite_succ (c : UInt32) (r : UInt64) (h : r.toNat < 2 ^ 64 - 1) :
    (if c ≠ 0 then r + 1 else r).toNat = r.toNat + flag c := by
  by_cases hc : c = 0
  · simp [hc]
  · simp [hc, flag, UInt64.toNat_add]
    omega

theorem toNat_ite_pred (c : UInt32) (r : UInt64) :
    (if c ≠ 0 then r - 1 else r).toNat = (r.toNat + 2 ^ 64 - flag c) % 2 ^ 64 := by
  have := r.toNat_lt
  by_cases hc : c = 0
  · simp [hc]
  · rw [if_pos hc, flag, if_neg hc, UInt64.toNat_sub, UInt64.toNat_one]
    congr 1
    omega

/-! ## Zero, length and order -/

theorem limbs_eq_zero {l : List UInt32} : limbs l = 0 ↔ ∀ d ∈ l, d = 0 := by
  rw [limbs, eval_eq_zero_iff (by simp)]
  simp [← UInt32.toNat_inj]

@[simp] theorem chunkIsZero_iff {c : Chunk} : chunkIsZero c = true ↔ c.val = 0 := by
  rw [chunkIsZero, List.all_eq_true, Chunk.val, limbs_eq_zero]
  simp

theorem chunkIsZero_eq_false {c : Chunk} : chunkIsZero c = false ↔ c.val ≠ 0 := by
  rw [← Bool.not_eq_true, chunkIsZero_iff]

/-- The length of a number is known from its most significant digit. -/
theorem size_add_two_pow_mul {d k n : ℕ} (hd : d < 2 ^ k) (hn : n ≠ 0) :
    Nat.size (d + 2 ^ k * n) = k + Nat.size n := by
  refine le_antisymm (Nat.size_le.2 ?_) ?_
  · calc d + 2 ^ k * n < 2 ^ k * (n + 1) := by rw [mul_add]; omega
      _ ≤ 2 ^ k * 2 ^ Nat.size n := by gcongr; exact Nat.lt_size_self n
      _ = 2 ^ (k + Nat.size n) := by rw [pow_add]
  · obtain ⟨m, hm⟩ := Nat.exists_eq_succ_of_ne_zero (Nat.size_pos.2 (Nat.pos_of_ne_zero hn)).ne'
    rw [hm, Nat.add_succ, Nat.succ_le_iff, Nat.lt_size, pow_add]
    have : 2 ^ m ≤ n := Nat.lt_size.1 (by omega)
    calc 2 ^ k * 2 ^ m ≤ 2 ^ k * n := by gcongr
      _ ≤ d + 2 ^ k * n := by omega

theorem bitLengthLoop_eq {n : ℕ} {d : UInt32} (h : d.toNat < 2 ^ n) :
    bitLengthLoop n d = Nat.size d.toNat := by
  induction n generalizing d with
  | zero =>
    have : d.toNat = 0 := by omega
    simp [bitLengthLoop, this]
  | succ n ih =>
    rw [bitLengthLoop]
    have hd : (d >>> 1).toNat = d.toNat / 2 := by simp [Nat.shiftRight_eq_div_pow]
    split_ifs with h₀
    · rw [ih (by rw [hd]; omega), hd]
      have h₁ := toNat_ne_zero.2 h₀
      by_cases h₂ : d.toNat / 2 = 0
      · have : d.toNat = 1 := by omega
        simp [this]
      · have := size_add_two_pow_mul (d := d.toNat % 2) (k := 1) (by omega) h₂
        rw [pow_one, Nat.mod_add_div] at this
        omega
    · have : d = 0 := by simpa using h₀
      simp [this]

theorem bitLength_eq (d : UInt32) : bitLength d = Nat.size d.toNat := bitLengthLoop_eq d.toNat_lt

theorem topComponent_spec (l : List UInt32) : match topComponent l with
    | none => limbs l = 0
    | some (i, d) => limbs l ≠ 0 ∧ Nat.size (limbs l) = i * 32 + bitLength d := by
  induction l with
  | nil => rfl
  | cons d l ih =>
    have hd := d.toNat_lt
    simp only [topComponent, limbs_cons]
    split at ih
    · rename_i e
      rw [e, ih]
      by_cases h₀ : d = 0
      · simp [h₀]
      · simpa [h₀, bitLength_eq] using toNat_ne_zero.2 h₀
    · rename_i i e' e
      rw [e]
      obtain ⟨h₁, h₂⟩ := ih
      refine ⟨by omega, ?_⟩
      rw [size_add_two_pow_mul hd h₁, h₂]
      ring

/-- The order of two numbers is decided by their first digit that differs, from
    the top. -/
theorem sign_digit {β a b m n : ℕ} (ha : a < β) (hb : b < β) :
    Int.sign ((a + β * m : ℕ) - (b + β * n : ℕ)) =
      if m = n then Int.sign (a - b) else Int.sign ((m : ℤ) - n) := by
  rcases lt_trichotomy m n with h | rfl | h
  · rw [if_neg h.ne, Int.sign_eq_neg_one_of_neg, Int.sign_eq_neg_one_of_neg (by omega)]
    have : β * (m + 1) ≤ β * n := Nat.mul_le_mul_left _ h
    rw [mul_add] at this
    omega
  · rw [if_pos rfl]
    congr 1
    push_cast
    ring
  · rw [if_neg h.ne', Int.sign_eq_one_of_pos, Int.sign_eq_one_of_pos (by omega)]
    have : β * (n + 1) ≤ β * m := Nat.mul_le_mul_left _ h
    rw [mul_add] at this
    omega

theorem compareComponents_append (l l' : List (UInt32 × UInt32)) :
    compareComponents (l ++ l') =
      if compareComponents l = 0 then compareComponents l' else compareComponents l := by
  induction l with
  | nil => simp [compareComponents]
  | cons p l ih =>
    simp only [List.cons_append, compareComponents, ih]
    split_ifs <;> simp_all

theorem compareComponents_eq {l l' : List UInt32} (h : l.length = l'.length) :
    compareComponents (l.zip l').reverse = Int.sign ((limbs l : ℤ) - limbs l') := by
  induction l generalizing l' with
  | nil => cases l' <;> simp_all [compareComponents]
  | cons a l ih =>
    cases l' with
    | nil => simp at h
    | cons b l' =>
      have hab : compareComponents [(a, b)] = Int.sign ((a.toNat : ℤ) - b.toNat) := by
        simp only [compareComponents, UInt32.lt_iff_toNat_lt, gt_iff_lt]
        split_ifs with h₁ h₂
        · rw [Int.sign_eq_neg_one_of_neg (by omega)]
        · rw [Int.sign_eq_one_of_pos (by omega)]
        · rw [show (a.toNat : ℤ) - b.toNat = 0 by omega, Int.sign_zero]
      rw [List.zip_cons_cons, List.reverse_cons, compareComponents_append, ih (by simpa using h), hab,
        limbs_cons, limbs_cons, sign_digit a.toNat_lt b.toNat_lt]
      congr 1
      simp [Int.sign_eq_zero_iff_zero, sub_eq_zero]

theorem compareChunk_eq (a b : Chunk) : compareChunk a b = Int.sign ((a.val : ℤ) - b.val) :=
  compareComponents_eq (a.length_data.trans b.length_data.symm)

/-! ## The steps of the loops over components -/

theorem addComponent_spec (c : UInt32) (p : UInt32 × UInt32) :
    (addComponent c p).1.toNat + 2 ^ 32 * flag (addComponent c p).2 =
      p.1.toNat + p.2.toNat + flag c := by
  have h₁ := p.1.toNat_lt
  have h₂ := p.2.toNat_lt
  have hr : (p.1.toUInt64 + p.2.toUInt64).toNat = p.1.toNat + p.2.toNat := by
    simp [UInt64.toNat_add]
    omega
  have hs := toNat_ite_succ c (p.1.toUInt64 + p.2.toUInt64) (by omega)
  have hc := flag_le c
  simp only [addComponent]
  rw [toNat_lo, flag_hi, hs, hr]
  split_ifs <;> omega

theorem carryComponent_eq (c d : UInt32) :
    carryComponent c d = (if c ≠ 0 then d + 1 else d, 0) := by
  have h₀ : ∀ r : UInt64, (r &&& ((1 : UInt64) <<< 32)).toUInt32 = 0 := fun r => by
    rw [UInt64.toUInt32_and]
    exact UInt32.and_zero
  simp only [carryComponent, h₀, Prod.mk.injEq, and_true]
  split_ifs <;> simp [UInt64.toUInt32_add]

theorem subComponent_spec (c : UInt32) (p : UInt32 × UInt32) :
    (subComponent c p).1.toNat + p.2.toNat + flag c =
      p.1.toNat + 2 ^ 32 * flag (subComponent c p).2 := by
  have h₁ := p.1.toNat_lt
  have h₂ := p.2.toNat_lt
  have hs := toNat_ite_pred c (p.1.toUInt64 - p.2.toUInt64)
  rw [UInt64.toNat_sub] at hs
  have hc := flag_le c
  simp only [subComponent]
  rw [toNat_lo, flag_hi, hs]
  simp only [UInt32.toNat_toUInt64]
  split_ifs <;> omega

theorem borrowComponent_eq (c d : UInt32) : borrowComponent c d = subComponent c (d, 0) := by
  simp [borrowComponent, subComponent]

theorem accComponent_spec (c : UInt32) (p : UInt32 × UInt32) :
    (accComponent c p).1.toNat + 2 ^ 32 * (accComponent c p).2.toNat =
      p.1.toNat + p.2.toNat + c.toNat := by
  have h₁ := p.1.toNat_lt
  have h₂ := p.2.toNat_lt
  have h₃ := c.toNat_lt
  simp only [accComponent]
  rw [toNat_lo_add_hi]
  simp [UInt64.toNat_add]
  omega

theorem macComponent_spec (ad c : UInt32) (p : UInt32 × UInt32) :
    (macComponent ad c p).1.toNat + 2 ^ 32 * (macComponent ad c p).2.toNat =
      ad.toNat * p.1.toNat + p.2.toNat + c.toNat := by
  have h₁ : ad.toNat * p.1.toNat ≤ (2 ^ 32 - 1) * (2 ^ 32 - 1) :=
    Nat.mul_le_mul (Nat.le_pred_of_lt ad.toNat_lt) (Nat.le_pred_of_lt p.1.toNat_lt)
  have h₂ := p.2.toNat_lt
  have h₃ := c.toNat_lt
  simp only [macComponent]
  rw [toNat_lo_add_hi]
  simp [UInt64.toNat_add, UInt64.toNat_mul]
  omega

theorem mulComponent_spec (base c d : UInt32) :
    (mulComponent base c d).1.toNat + 2 ^ 32 * (mulComponent base c d).2.toNat =
      base.toNat * d.toNat + c.toNat := by
  have h := macComponent_spec base c (d, 0)
  simpa [macComponent, mulComponent, mul_comm] using h

theorem digitComponent_spec (c d : UInt32) :
    (digitComponent c d).1.toNat + 2 ^ 32 * (digitComponent c d).2.toNat = d.toNat + c.toNat := by
  have h := accComponent_spec c (d, 0)
  simpa [accComponent, digitComponent] using h

theorem popComponent_spec {base : UInt32} {r : UInt64} (h : r.toNat < base.toNat) (d : UInt32) :
    base.toNat * (popComponent base r d).1.toNat + (popComponent base r d).2.toNat =
      d.toNat + 2 ^ 32 * r.toNat ∧ (popComponent base r d).2.toNat < base.toNat := by
  have h₁ := d.toNat_lt
  have h₂ := base.toNat_lt
  have hr : (d.toUInt64 + (r <<< 32)).toNat = d.toNat + 2 ^ 32 * r.toNat := by
    simp [UInt64.toNat_add, UInt64.toNat_shiftLeft, Nat.shiftLeft_eq]
    omega
  have hq : (d.toNat + 2 ^ 32 * r.toNat) / base.toNat < 2 ^ 32 := by
    rw [Nat.div_lt_iff_lt_mul (by omega)]
    calc d.toNat + 2 ^ 32 * r.toNat < 2 ^ 32 * (r.toNat + 1) := by omega
      _ ≤ 2 ^ 32 * base.toNat := by gcongr; exact h
  simp only [popComponent]
  rw [toNat_lo, UInt64.toNat_div, UInt64.toNat_mod, hr, UInt32.toNat_toUInt64, Nat.mod_eq_of_lt hq]
  exact ⟨Nat.div_add_mod _ _, Nat.mod_lt _ (by omega)⟩

end Dlb.Bint
