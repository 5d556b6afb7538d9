import Mathlib.Algebra.Order.Ring.Int
import Dlb.Bint.Div

/-!
# The quotient and the remainder

What `bint_div` leaves in the objects for the quotient and the remainder. With
operands of the same sign, `bintDiv_same_sign_iff` says when they are the quotient
and the remainder. With operands of different signs, the code adds 1 to the quotient
of the magnitudes and subtracts the divisor from their remainder, also if that is zero;
`bintDiv_opposite_sign_iff` says when the result is right all the same.
-/

namespace Dlb.Bint

variable {I : Type} [DecidableEq I] {h h' : Heap} {σ σ' : Store I}

theorem bintDestroy_gains {b : Bint} {x : Unit} (e : bintDestroy b h = some (x, h')) :
    Gains h h' (-b.next.length) := destroyChain_gains e

/-- `bint_div` and `bint_expt` destroy three numbers at the end, and return `x`. -/
theorem destroyAll_spec {α : Type} {a b c : Bint} {x : α} {y : α × Heap}
    (e : (do bintDestroy a; bintDestroy b; bintDestroy c; return x : Prog α) h = some y) :
    y.1 = x ∧ Gains h y.2 (-allocated a b c) := by
  obtain ⟨_, h₁, e₁, e₂⟩ := bind_eq_some.1 e
  obtain ⟨_, h₂, e₃, e₄⟩ := bind_eq_some.1 e₂
  obtain ⟨_, h₃, e₅, e₆⟩ := bind_eq_some.1 e₄
  obtain rfl := pure_eq_some.1 e₆
  have g := (bintDestroy_gains e₁).trans ((bintDestroy_gains e₃).trans (bintDestroy_gains e₅))
  refine ⟨rfl, g.of_eq ?_⟩
  rw [allocated]
  ring

theorem destroyAll_returns {α : Type} (a b c : Bint) (x : α) (h : Heap) : ∃ h',
    (do bintDestroy a; bintDestroy b; bintDestroy c; return x : Prog α) h = some (x, h') :=
  ⟨_, bind_eq_some.2 ⟨_, _, destroyChain_eq _ _, bind_eq_some.2 ⟨_, _, destroyChain_eq _ _,
    bind_eq_some.2 ⟨_, _, destroyChain_eq _ _, rfl⟩⟩⟩⟩

/-- The results of `bint_div` are swapped into the objects. -/
def divStore (σ : Store I) (rem quot : Bint) (quotient remainder : Option I) : Store I :=
  (swapOut (swapOut σ rem remainder).1 quot quotient).1

/-- How a call of `bint_div` ends. -/
inductive DivEnds (σ : Store I) (quotient : Option I) (dividend divisor : I)
    (remainder : Option I) (h : Heap) : (ℤ × Store I) × Heap → Prop
  | zero (hz : bintBitLength (σ divisor) = 0) :
    DivEnds σ quotient dividend divisor remainder h ((1, σ), h)
  | failed {h' : Heap} (g : Gains h h' 0) :
    DivEnds σ quotient dividend divisor remainder h ((-1, σ), h')
  | done {h' : Heap} {rem quot : Bint} (hz : mag (σ divisor) ≠ 0)
    (hr : DivResult (σ dividend) (σ divisor) rem quot) :
    DivEnds σ quotient dividend divisor remainder h
      ((0, divStore σ rem quot quotient remainder), h')

theorem bintDiv_spec {quotient remainder : Option I} {dividend divisor : I}
    {x : (ℤ × Store I) × Heap} (ha : Canonical (σ dividend)) (hb : Canonical (σ divisor))
    (e : bintDiv quotient dividend divisor remainder σ h = some x) :
    DivEnds σ quotient dividend divisor remainder h x := by
  rw [bintDiv] at e
  by_cases hz : bintBitLength (σ divisor) = 0
  · rw [if_pos hz] at e
    obtain rfl := pure_eq_some.1 e
    exact .zero hz
  · rw [if_neg hz] at e
    have h₀ : mag (σ divisor) ≠ 0 := by
      intro h₀
      rw [hb.bintBitLength, h₀] at hz
      simp at hz
    obtain ⟨⟨rc, s, r, q⟩, h₁, e₁, e₂⟩ := bind_eq_some.1 e
    obtain ⟨hrc, g, hr⟩ := divCore_spec ha hb h₀ e₁
    obtain ⟨y, h₂⟩ := x
    rcases hrc with rfl | rfl
    · obtain ⟨rfl, -⟩ := destroyAll_spec e₂
      exact .done h₀ (hr rfl)
    · obtain ⟨rfl, g'⟩ := destroyAll_spec e₂
      refine .failed ((g.trans g').of_eq ?_)
      rw [allocated, allocated]
      ring

/-- What a call of `bint_div` that returns 0 leaves in the two objects. -/
theorem divResult_of_exec {q r dividend divisor : I} (hqr : q ≠ r) (ha : Canonical (σ dividend))
    (hb : Canonical (σ divisor))
    (e : exec σ (.div (some q) dividend divisor (some r)) h = some ((0, σ'), h')) :
    mag (σ divisor) ≠ 0 ∧ DivResult (σ dividend) (σ divisor) (σ' r) (σ' q) := by
  rw [exec] at e
  cases bintDiv_spec ha hb e with
  | done hz hr =>
    refine ⟨hz, ?_⟩
    simpa [divStore, swapOut, Function.update_of_ne hqr.symm] using hr

/-! ## Operands of the same sign -/

/-- The loop of `bint_div` divides `n` by `d`: it is entered, and its first bit is not skipped
    or is zero. -/
def DivExact (n d : ℕ) : Prop :=
  Nat.size n ≤ Nat.size d ∨ Nat.size n - Nat.size d < 2 ^ 31 ∧
    ¬(128 ∣ Nat.size n ∧ d * 2 ^ (Nat.size n - Nat.size d) ≤ n)

instance (n d : ℕ) : Decidable (DivExact n d) := inferInstanceAs (Decidable (_ ∨ _))

theorem lt_of_size_lt {n d : ℕ} (h : Nat.size d < Nat.size n) : d < n := by
  by_contra hle
  exact absurd (Nat.size_le_size (not_lt.1 hle)) (not_le.2 h)

theorem divQuot_eq_div_iff {n d : ℕ} (hd : d ≠ 0) : divQuot n d = n / d ↔ DivExact n d := by
  rw [divQuot, DivExact]
  split_ifs with h₁ h₂ h₃
  · simp [h₁]
  · have hlt := lt_of_size_lt (not_le.1 h₁)
    have : 0 < n / d := Nat.div_pos hlt.le (Nat.pos_of_ne_zero hd)
    omega
  · have hle : 2 ^ (Nat.size n - Nat.size d) ≤ n / d ↔ d * 2 ^ (Nat.size n - Nat.size d) ≤ n := by
      rw [Nat.le_div_iff_mul_le (Nat.pos_of_ne_zero hd), mul_comm]
    have := Nat.two_pow_pos (Nat.size n - Nat.size d)
    rw [divBits, ← hle]
    simp only [h₁, h₃, false_or, true_and]
    omega
  · simp only [h₁, h₃, false_or, false_and, not_false_eq_true, and_true, true_iff]
    omega

theorem divQuot_rem_lt_iff {n d : ℕ} (hd : d ≠ 0) : n < divQuot n d * d + d ↔ DivExact n d := by
  rw [← divQuot_eq_div_iff hd]
  have hle := divQuot_le n d
  have hm := Nat.mod_lt n (Nat.pos_of_ne_zero hd)
  have hn := Nat.div_add_mod n d
  constructor
  · intro hlt
    refine le_antisymm hle (Nat.lt_succ_iff.1 ?_)
    rw [Nat.div_lt_iff_lt_mul (Nat.pos_of_ne_zero hd), Nat.succ_mul]
    exact hlt
  · intro he
    rw [he, mul_comm]
    omega

theorem abs_toInt (b : Bint) : |toInt b| = mag b := by
  rw [Int.abs_eq_natAbs, natAbs_toInt]

/-- A number with the sign flag of `b` is zero or has the sign of `b`. -/
theorem toInt_eq_zero_or_sign_eq {a b : Bint} (hn : a.negative = b.negative) (h₀ : mag b ≠ 0) :
    toInt a = 0 ∨ Int.sign (toInt a) = Int.sign (toInt b) := by
  by_cases ha : mag a = 0
  · exact .inl (by simp [toInt, ha])
  · right
    rw [toInt, toInt, hn]
    split_ifs
    · rw [Int.sign_eq_neg_one_of_neg (by omega), Int.sign_eq_neg_one_of_neg (by omega)]
    · rw [Int.sign_eq_one_of_pos (by omega), Int.sign_eq_one_of_pos (by omega)]

/-- Division of operands with the same sign flag is exact if and only if the dividend
    is not longer than the divisor, or it is longer by less than `2 ^ 31` bits and the
    first bit of the quotient is not skipped. -/
theorem bintDiv_same_sign_iff {q r dividend divisor : I} (hqr : q ≠ r)
    (ha : Canonical (σ dividend)) (hb : Canonical (σ divisor))
    (hs : (σ dividend).negative = (σ divisor).negative)
    (e : exec σ (.div (some q) dividend divisor (some r)) h = some ((0, σ'), h')) :
    (toInt (σ dividend) = toInt (σ divisor) * toInt (σ' q) + toInt (σ' r) ∧ 0 ≤ toInt (σ' q) ∧
      |toInt (σ' r)| < |toInt (σ divisor)| ∧
      (toInt (σ' r) = 0 ∨ Int.sign (toInt (σ' r)) = Int.sign (toInt (σ divisor)))) ↔
    DivExact (mag (σ dividend)) (mag (σ divisor)) := by
  obtain ⟨h₀, hr⟩ := divResult_of_exec hqr ha hb e
  obtain ⟨hv, hq⟩ := hr.same hs
  rw [← divQuot_rem_lt_iff h₀]
  have hnq : (σ' q).negative = false := by simp [hr.quotient.2, hs]
  have hrem : (toInt (σ' r) = 0 ∨ Int.sign (toInt (σ' r)) = Int.sign (toInt (σ divisor))) :=
    toInt_eq_zero_or_sign_eq hr.remainder.2 h₀
  have hdiv : toInt (σ dividend) = toInt (σ divisor) * toInt (σ' q) + toInt (σ' r) := by
    have hvz : (mag (σ dividend) : ℤ) = mag (σ divisor) * mag (σ' q) + mag (σ' r) := by
      rw [hq, mul_comm, add_comm]
      exact_mod_cast hv.symm
    simp only [toInt, hnq, hs, hr.remainder.2, hvz, Bool.false_eq_true, if_false]
    split_ifs <;> ring
  rw [abs_toInt, abs_toInt]
  constructor
  · rintro ⟨-, -, hlt, -⟩
    omega
  · intro hlt
    refine ⟨hdiv, ?_, by omega, hrem⟩
    simp [toInt, hnq]

/-- A store of four objects, of which the last two are zero. -/
def quad (a b : Bint) : Store (Fin 4) := fun i => if i = 0 then a else if i = 1 then b else bintZero

/-- The number `2 ^ 128 - 1`. -/
def ones128 : Bint := ⟨false, .ones, []⟩

/-- The number `2 ^ 126`. -/
def bit126 : Bint := ⟨false, ⟨[0, 0, 0, 0x40000000], rfl⟩, []⟩

/-- The quotient of `2 ^ 128 - 1` and `2 ^ 126` is computed as 1, as its first bit is skipped. -/
theorem bintDiv_skips_bit : Canonical ones128 ∧ Canonical bit126 ∧
    toInt ones128 = 2 ^ 128 - 1 ∧ toInt bit126 = 2 ^ 126 ∧
    ∃ σ' h', exec (quad ones128 bit126) (.div (some 2) 0 1 (some 3)) freshHeap =
        some ((0, σ'), h') ∧ toInt (σ' 2) = 1 ∧
      ¬|toInt (σ' 3)| < |toInt bit126| := by
  refine ⟨by decide, by decide, by decide, by decide, _, _, rfl, ?_, ?_⟩
  · decide +kernel
  · decide +kernel

/-- The quotient of -7 and -3 is 2, and the remainder is -1. -/
theorem bintDiv_same_sign_iff_seven : ∃ σ' h',
    exec (quad (small true 7) (small true 3)) (.div (some 2) 0 1 (some 3)) freshHeap =
        some ((0, σ'), h') ∧
      (toInt (small true 7) = toInt (small true 3) * toInt (σ' 2) + toInt (σ' 3) ∧
        0 ≤ toInt (σ' 2) ∧ |toInt (σ' 3)| < |toInt (small true 3)| ∧
        (toInt (σ' 3) = 0 ∨ Int.sign (toInt (σ' 3)) = Int.sign (toInt (small true 3)))) := by
  obtain ⟨σ', h', e⟩ : ∃ σ' h', exec (quad (small true 7) (small true 3))
      (.div (some 2) 0 1 (some 3)) freshHeap = some ((0, σ'), h') := ⟨_, _, rfl⟩
  exact ⟨σ', h', e,
    (bintDiv_same_sign_iff (by decide) (by decide) (by decide) (by decide) e).2 (by decide)⟩

/-! ## Operands of different signs -/

/-- The loop of `bint_div` is entered. If its first bit is skipped, the dividend `n` is the
    shifted divisor, by less than 160 bits. Otherwise `d` does not divide `n`, and the
    low 160 bits of the quotient are not all set. -/
def DivOppositeExact (n d : ℕ) : Prop :=
  (Nat.size n ≤ Nat.size d ∨ Nat.size n - Nat.size d < 2 ^ 31) ∧
    if Nat.size d < Nat.size n ∧ 128 ∣ Nat.size n ∧ d * 2 ^ (Nat.size n - Nat.size d) ≤ n then
      n = d * 2 ^ (Nat.size n - Nat.size d) ∧ Nat.size n - Nat.size d < 160
    else ¬d ∣ n ∧ n / d % 2 ^ 160 ≠ 2 ^ 160 - 1

instance (n d : ℕ) : Decidable (DivOppositeExact n d) := inferInstanceAs (Decidable (_ ∧ _))

/-- The identity of division after the quotient `q` is incremented to `k` and the divisor is
    subtracted from the remainder `x`. -/
theorem opposite_identity {n d q k x : ℤ} (hd : 0 < d) (hn : n = q * d + x) (hq : k ≤ q + 1)
    : n + |x - d| = d * k ∧ |x - d| < d ↔ k = q + 1 ∧ 0 < x ∧ x ≤ d := by
  constructor
  · rintro ⟨h₁, h₂⟩
    rw [abs_lt] at h₂
    have hle : x ≤ d := by
      by_contra hlt
      rw [abs_of_nonneg (by omega)] at h₁
      have := mul_le_mul_of_nonneg_left hq hd.le
      rw [mul_add, mul_one, mul_comm d q] at this
      omega
    rw [abs_of_nonpos (by omega)] at h₁
    refine ⟨?_, by omega, hle⟩
    refine mul_left_cancel₀ hd.ne' ?_
    rw [← h₁, hn]
    ring
  · rintro ⟨rfl, h₁, h₂⟩
    rw [abs_of_nonpos (by omega), hn]
    exact ⟨by ring, by omega⟩

theorem two_pow_sub_one_mod {p k : ℕ} : (2 ^ p - 1) % 2 ^ k = 2 ^ k - 1 ↔ k ≤ p := by
  have hk := Nat.two_pow_pos k
  constructor
  · intro hm
    by_contra hlt
    have h₁ : 2 ^ p < 2 ^ k := Nat.pow_lt_pow_right (by simp) (not_le.1 hlt)
    have h₂ := Nat.two_pow_pos p
    rw [Nat.mod_eq_of_lt (by omega)] at hm
    omega
  · intro hle
    obtain ⟨m, rfl⟩ := Nat.exists_eq_add_of_le hle
    have h₁ : 2 ^ (k + m) - 1 = (2 ^ k - 1) + 2 ^ k * (2 ^ m - 1) := by
      rw [pow_add, Nat.mul_sub, mul_one]
      have : 2 ^ k * 1 ≤ 2 ^ k * 2 ^ m := Nat.mul_le_mul_left _ (Nat.two_pow_pos m)
      omega
    rw [h₁, Nat.add_mul_mod_self_left, Nat.mod_eq_of_lt (by omega)]

theorem divOppositeExact_iff {n d : ℕ} (hd : d ≠ 0) :
    divQuot n d % 2 ^ 160 ≠ 2 ^ 160 - 1 ∧ divQuot n d * d < n ∧ n ≤ divQuot n d * d + d ↔
      DivOppositeExact n d := by
  have hd' := Nat.pos_of_ne_zero hd
  by_cases hx : DivExact n d
  · have hskip : ¬(Nat.size d < Nat.size n ∧ 128 ∣ Nat.size n ∧
        d * 2 ^ (Nat.size n - Nat.size d) ≤ n) := by
      rcases hx with hx | hx
      · exact fun h => absurd h.1 hx.not_gt
      · exact fun h => hx.2 h.2
    have hent : Nat.size n ≤ Nat.size d ∨ Nat.size n - Nat.size d < 2 ^ 31 := hx.imp id And.left
    have hm := Nat.mod_lt n hd'
    have hn := Nat.div_add_mod n d
    rw [DivOppositeExact, if_neg hskip, (divQuot_eq_div_iff hd).2 hx, mul_comm (n / d),
      Nat.dvd_iff_mod_eq_zero]
    constructor
    · rintro ⟨h₁, h₂, -⟩
      exact ⟨hent, by omega, h₁⟩
    · rintro ⟨-, h₁, h₂⟩
      exact ⟨h₂, by omega, by omega⟩
  · rw [DivExact, not_or, not_le, not_and_or, not_not] at hx
    obtain ⟨hlt, hx⟩ := hx
    rw [DivOppositeExact, divQuot, if_neg hlt.not_ge]
    by_cases hbig : 2 ^ 31 ≤ Nat.size n - Nat.size d
    · have := lt_of_size_lt hlt
      rw [if_pos hbig]
      omega
    · obtain ⟨hdvd, hle⟩ := hx.resolve_left (by omega)
      have hle' : 2 ^ (Nat.size n - Nat.size d) ≤ n / d := by
        rw [Nat.le_div_iff_mul_le hd', mul_comm]
        exact hle
      have hp := Nat.two_pow_pos (Nat.size n - Nat.size d)
      have hq : divBits (Nat.size n - Nat.size d) n d = 2 ^ (Nat.size n - Nat.size d) - 1 := by
        rw [divBits]
        omega
      have hmul : (2 ^ (Nat.size n - Nat.size d) - 1) * d + d =
          d * 2 ^ (Nat.size n - Nat.size d) := by
        rw [← Nat.succ_mul, Nat.succ_eq_add_one, Nat.sub_add_cancel hp, mul_comm]
      rw [if_neg hbig, if_pos hdvd, if_pos ⟨hlt, hdvd, hle⟩, hq, ne_eq, two_pow_sub_one_mod, hmul]
      omega

/-- Division of operands with different sign flags is right if and only if
    `DivOppositeExact` holds of the magnitudes. -/
theorem bintDiv_opposite_sign_iff {q r dividend divisor : I} (hqr : q ≠ r)
    (ha : Canonical (σ dividend)) (hb : Canonical (σ divisor))
    (hs : (σ dividend).negative ≠ (σ divisor).negative)
    (e : exec σ (.div (some q) dividend divisor (some r)) h = some ((0, σ'), h')) :
    (toInt (σ dividend) = toInt (σ divisor) * toInt (σ' q) + toInt (σ' r) ∧
      |toInt (σ' r)| < |toInt (σ divisor)| ∧
      (toInt (σ' r) = 0 ∨ Int.sign (toInt (σ' r)) = Int.sign (toInt (σ divisor)))) ↔
    DivOppositeExact (mag (σ dividend)) (mag (σ divisor)) := by
  obtain ⟨h₀, hr⟩ := divResult_of_exec hqr ha hb e
  obtain ⟨hv, hq⟩ := hr.opposite hs
  have hle := hr.le
  have hnq : (σ' q).negative = true := by simp [hr.quotient.2, hs]
  have hrem := toInt_eq_zero_or_sign_eq hr.remainder.2 h₀
  have hid : toInt (σ dividend) = toInt (σ divisor) * toInt (σ' q) + toInt (σ' r) ↔
      (mag (σ dividend) : ℤ) + mag (σ' r) = mag (σ divisor) * mag (σ' q) := by
    simp only [toInt, hnq, hr.remainder.2, Bool.eq_not.2 hs]
    cases (σ divisor).negative
    · simp only [Bool.not_false, Bool.false_eq_true, if_true, if_false, mul_neg]
      omega
    · simp only [Bool.not_true, Bool.false_eq_true, if_true, if_false, neg_mul_neg]
      omega
  have hinc : mag (σ' q) = divQuot (mag (σ dividend)) (mag (σ divisor)) + 1 ↔
      divQuot (mag (σ dividend)) (mag (σ divisor)) % 2 ^ 160 ≠ 2 ^ 160 - 1 := by
    split_ifs at hq <;> omega
  have hopp := opposite_identity (n := mag (σ dividend)) (d := mag (σ divisor))
    (q := divQuot (mag (σ dividend)) (mag (σ divisor))) (k := mag (σ' q))
    (x := mag (σ dividend) - divQuot (mag (σ dividend)) (mag (σ divisor)) * mag (σ divisor))
    (by omega) (by ring) (by omega)
  rw [← hv] at hopp
  rw [abs_toInt, abs_toInt, hid, ← divOppositeExact_iff h₀, ← hinc]
  constructor
  · rintro ⟨h₁, h₂, -⟩
    obtain ⟨h₃, h₄, h₅⟩ := hopp.1 ⟨h₁, h₂⟩
    refine ⟨by omega, ?_, ?_⟩
    · exact_mod_cast sub_pos.1 h₄
    · have := sub_le_iff_le_add'.1 h₅
      exact_mod_cast this
  · rintro ⟨h₁, h₂, h₃⟩
    obtain ⟨h₄, h₅⟩ := hopp.2 ⟨by rw [h₁]; push_cast; rfl, sub_pos.2 (mod_cast h₂),
      sub_le_iff_le_add'.2 (mod_cast h₃)⟩
    exact ⟨h₄, h₅, hrem⟩

/-- The quotient of -6 and 3 is computed as -3, with the remainder 3. -/
theorem bintDiv_divisible_remainder : Canonical (small true 6) ∧ Canonical (small false 3) ∧
    ∃ σ' h', exec (quad (small true 6) (small false 3)) (.div (some 2) 0 1 (some 3)) freshHeap =
        some ((0, σ'), h') ∧ toInt (σ' 2) = -3 ∧ toInt (σ' 3) = 3 ∧
      ¬|toInt (σ' 3)| < |toInt (small false 3)| := by
  refine ⟨by decide, by decide, _, _, rfl, ?_, ?_, ?_⟩
  · decide +kernel
  · decide +kernel
  · decide +kernel

/-- The quotient of -7 and 3 is -3, and the remainder is 2. -/
theorem bintDiv_opposite_sign_iff_seven : ∃ σ' h',
    exec (quad (small true 7) (small false 3)) (.div (some 2) 0 1 (some 3)) freshHeap =
        some ((0, σ'), h') ∧
      (toInt (small true 7) = toInt (small false 3) * toInt (σ' 2) + toInt (σ' 3) ∧
        |toInt (σ' 3)| < |toInt (small false 3)| ∧
        (toInt (σ' 3) = 0 ∨ Int.sign (toInt (σ' 3)) = Int.sign (toInt (small false 3)))) := by
  obtain ⟨σ', h', e⟩ : ∃ σ' h', exec (quad (small true 7) (small false 3))
      (.div (some 2) 0 1 (some 3)) freshHeap = some ((0, σ'), h') := ⟨_, _, rfl⟩
  exact ⟨σ', h', e,
    (bintDiv_opposite_sign_iff (by decide) (by decide) (by decide) (by decide) e).2 (by decide)⟩

end Dlb.Bint
