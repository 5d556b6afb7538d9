import Dlb.Bint.Expt

/-!
# Exact powers

The loop of `bint_expt` multiplies numbers which `bint_mul` has not trimmed, into
chains that earlier products have left. If the last chunk of an operand is zero,
`bint_bit_length` returns 0 for it, and the room for a product is too small: a row runs
past the end of the result, or the product is cut off.

What happens depends on the magnitudes and on the lengths of the chains only (`Shape`).
`ExptExact` follows them through the loop, and `bintExpt_exact_iff` says that the
power is computed if and only if each product on the way has its room.
-/

namespace Dlb.Bint

variable {I : Type} [DecidableEq I] {h h' : Heap} {σ σ' : Store I} {a b p r exponent : Bint}

/-! ## Shapes -/

/-- What the room for a product depends on: a magnitude and a number of allocated chunks. -/
structure Shape where
  mag : ℕ
  length : ℕ
  deriving DecidableEq

namespace Shape

/-- What `bint_bit_length` returns: 0 if the last chunk is zero. -/
def bitLength (s : Shape) : ℕ :=
  if s.mag / radix ^ s.length = 0 then 0 else Nat.size s.mag % 2 ^ 32

/-- The number of chunks allocated for the product of `a` and `b` in place of `p`. -/
def room (p a b : Shape) : ℕ := max ((a.bitLength + b.bitLength) % 2 ^ 32 / 128) p.length

/-- The product of `a` and `b` in place of `p`. -/
def mul (p a b : Shape) : Shape := ⟨a.mag * b.mag, room p a b⟩

/-- Every row of the product has all of its chunks. -/
def Fits (p a b : Shape) : Prop := a.length + b.length ≤ room p a b

instance (p a b : Shape) : Decidable (Fits p a b) := inferInstanceAs (Decidable (_ ≤ _))

/-- No carry is lost, and there is room for the product. -/
structure Exact (p a b : Shape) : Prop where
  noLostCarry : NoLostCarry a.mag b.mag
  lt : a.mag * b.mag < radix ^ (room p a b + 1)

end Shape

/-- The shape of a number. -/
def shape (b : Bint) : Shape := ⟨mag b, b.next.length⟩

theorem bitLength_shape (b : Bint) : (shape b).bitLength = bintBitLength b := by
  have hl : (b.digits.getLast b.digits_ne_nil).val = mag b / radix ^ b.next.length := by
    conv_rhs => rw [mag, ← List.dropLast_concat_getLast b.digits_ne_nil, chain_append]
    have hlt := chain_lt b.digits.dropLast
    rw [List.length_dropLast, length_digits, Nat.add_sub_cancel] at hlt ⊢
    rw [Nat.add_mul_div_left _ _ (Nat.pow_pos radix_pos), Nat.div_eq_of_lt hlt]
    simp
  rw [bintBitLength_eq, hl]
  rfl

theorem room_shape (p a b : Bint) : mulRoom p a b = (shape p).room (shape a) (shape b) + 1 := by
  rw [mulRoom, Shape.room, bitLength_shape, bitLength_shape]
  rfl

/-! ## A product -/

theorem bintGetSign_of_mag_ne_zero (h₀ : mag b ≠ 0) : bintGetSign b = Int.sign (toInt b) := by
  have hz : ¬isZero b = true := by
    intro hz
    rw [isZero, Bool.and_eq_true, decide_eq_true_iff, chunkIsZero_iff] at hz
    exact h₀ (by simp [mag, digits, hz.1, hz.2])
  rw [bintGetSign, if_neg hz, toInt]
  split_ifs
  · rw [Int.sign_eq_neg_one_of_neg (by omega)]
  · rw [Int.sign_eq_one_of_pos (by omega)]

/-- The sign of a product is right, also if its operands are not canonical. -/
theorem MulResult.toInt_eq_mul_iff (hr : MulResult p a b r) :
    toInt r = toInt a * toInt b ↔ mag r = mag a * mag b := by
  have habs : (toInt a * toInt b).natAbs = mag a * mag b := by
    rw [Int.natAbs_mul, natAbs_toInt, natAbs_toInt]
  constructor
  · intro hv
    rw [← habs, ← hv, natAbs_toInt]
  · intro hm
    by_cases h₀ : mag a * mag b = 0
    · have h₁ : toInt a * toInt b = 0 := by omega
      have h₂ := natAbs_toInt r
      omega
    · have hneg : r.negative = decide (toInt a * toInt b < 0) := by
        rw [hr.negative, bintGetSign_of_mag_ne_zero (left_ne_zero_of_mul h₀),
          bintGetSign_of_mag_ne_zero (right_ne_zero_of_mul h₀), ← Int.sign_mul]
        exact decide_eq_decide.2 Int.sign_neg_iff
      rw [toInt, hneg]
      by_cases h₁ : toInt a * toInt b < 0
      · simp only [h₁, decide_true, if_true]
        omega
      · simp only [h₁, decide_false, Bool.false_eq_true, if_false]
        omega

theorem MulResult.mag_le (hr : MulResult p a b r) : mag r ≤ mag a * mag b := by
  obtain ⟨lost, hv, -⟩ := hr.balance
  omega

theorem MulResult.mag_eq_iff (hr : MulResult p a b r) :
    mag r = mag a * mag b ↔ (shape p).Exact (shape a) (shape b) := by
  obtain ⟨lost, hv, hl⟩ := hr.balance
  rw [room_shape] at hl
  constructor
  · intro hm
    obtain ⟨h₁, h₂⟩ := hl.1 (by omega)
    exact ⟨h₁, h₂⟩
  · rintro ⟨h₁, h₂⟩
    have := hl.2 ⟨h₁, h₂⟩
    omega

theorem MulResult.shape_eq (hr : MulResult p a b r) (he : (shape p).Exact (shape a) (shape b)) :
    shape r = (shape p).mul (shape a) (shape b) := by
  have hl := hr.length
  rw [room_shape, length_digits, Nat.add_right_cancel_iff] at hl
  rw [shape, hr.mag_eq_iff.2 he, hl]
  rfl

theorem bintMul_fits (hk : h.Ok) (hf : (shape p).Fits (shape a) (shape b)) :
    ∃ r h', bintMul p a b h = some ((0, r), h') ∧ MulResult p a b r ∧ h'.Ok := by
  have hl : a.digits.length + b.digits.length ≤ mulRoom p a b + 1 := by
    rw [room_shape, length_digits, length_digits]
    have : a.next.length + b.next.length ≤ (shape p).room (shape a) (shape b) := hf
    omega
  obtain ⟨⟨⟨rc, r⟩, h'⟩, e⟩ := bintMul_returns hk hl
  cases bintMul_spec e with
  | failed g hn => exact absurd hk hn
  | done hr g => exact ⟨r, h', e, hr, g.ok hk⟩

theorem fits_of_bintMul (e : bintMul p a b h = some ((0, r), h')) :
    (shape p).Fits (shape a) (shape b) ∧ MulResult p a b r := by
  have hl := length_le_of_bintMul e
  rw [room_shape, length_digits, length_digits] at hl
  cases bintMul_spec e with
  | done hr g => exact ⟨show a.next.length + b.next.length ≤ _ by omega, hr⟩

/-! ## The loop -/

/-- The part of the exponent `e` that the `n` iterations from `i` on read. -/
def rest (e i n : ℕ) : ℕ := e / 2 ^ i % 2 ^ n

theorem rest_succ (e i n : ℕ) :
    rest e i (n + 1) = (e.testBit i).toNat + 2 * rest e (i + 1) n := by
  rw [rest, pow_succ', Nat.mod_mul, Nat.div_div_eq_div_mul, ← pow_succ, Nat.toNat_testBit, rest]

/-- The shapes of `r` and `p` after the conditional product in the loop of `bint_expt`. -/
def exptShapes (bit : Bool) (r p b : Shape) : Shape × Shape :=
  if bit then (p.mul r b, r) else (r, p)

/-- The products in the loop of `bint_expt` are exact, with `n` iterations left from `i` on. The
    last square is not used, but its rows have to fit as well. -/
def LoopExact (exponent : Bint) : ℕ → ℕ → Shape → Shape → Shape → Prop
  | 0, _, _, _, _ => True
  | n + 1, i, r, p, b =>
    (bintBitGet exponent i = true → p.Fits r b ∧ p.Exact r b) ∧
      (exptShapes (bintBitGet exponent i) r p b).2.Fits b b ∧
      (n ≠ 0 → (exptShapes (bintBitGet exponent i) r p b).2.Exact b b ∧
        LoopExact exponent n (i + 1) (exptShapes (bintBitGet exponent i) r p b).1 b
          ((exptShapes (bintBitGet exponent i) r p b).2.mul b b))

theorem exptStep_exact {i : ℕ} (hk : h.Ok) (hx : bintBitGet exponent i = true →
      (shape p).Fits (shape r) (shape b) ∧ (shape p).Exact (shape r) (shape b)) :
    ∃ r' p' h', exptStep exponent i r p b h = some ((0, r', p'), h') ∧ h'.Ok ∧
      toInt r' = toInt r * toInt b ^ (bintBitGet exponent i).toNat ∧
      shape r' = (exptShapes (bintBitGet exponent i) (shape r) (shape p) (shape b)).1 ∧
      shape p' = (exptShapes (bintBitGet exponent i) (shape r) (shape p) (shape b)).2 := by
  rw [exptStep]
  cases hbit : bintBitGet exponent i with
  | false => exact ⟨r, p, h, rfl, hk, by simp, rfl, rfl⟩
  | true =>
    obtain ⟨hf, he⟩ := hx hbit
    obtain ⟨p', h', e, hr, hk'⟩ := bintMul_fits hk hf
    refine ⟨p', r, h', bind_eq_some.2 ⟨_, _, e, rfl⟩, hk', ?_, hr.shape_eq he, rfl⟩
    rw [hr.toInt_eq_mul_iff.2 (hr.mag_eq_iff.2 he), Bool.toNat_true, pow_one]

theorem exptLoop_exact {n i : ℕ} (hk : h.Ok)
    (hx : LoopExact exponent n i (shape r) (shape p) (shape b)) :
    ∃ r' p' b' h', exptLoop exponent n i r p b h = some ((0, r', p', b'), h') ∧
      toInt r' = toInt r * toInt b ^ rest (mag exponent) i n := by
  induction n generalizing i r p b h with
  | zero => exact ⟨r, p, b, h, rfl, by simp [rest, Nat.mod_one]⟩
  | succ n ih =>
    obtain ⟨hx₁, hf, hx₂⟩ := hx
    obtain ⟨r₁, p₁, h₁, e₁, hk₁, hv₁, hr₁, hp₁⟩ := exptStep_exact hk hx₁
    rw [← hp₁] at hf hx₂
    obtain ⟨b₁, h₂, e₂, hb₁, hk₂⟩ := bintMul_fits hk₁ hf
    have hloop : ∀ y, exptLoop exponent n (i + 1) r₁ b b₁ h₂ = some y →
        exptLoop exponent (n + 1) i r p b h = some y := fun y e₃ =>
      bind_eq_some.2 ⟨_, _, e₁, bind_eq_some.2 ⟨_, _, e₂, e₃⟩⟩
    rw [rest_succ, ← bintBitGet_eq]
    by_cases hn : n = 0
    · -- The square of the last iteration is not used.
      subst hn
      exact ⟨_, _, _, _, hloop _ rfl, by simpa [rest, Nat.mod_one] using hv₁⟩
    · obtain ⟨he, hx₃⟩ := hx₂ hn
      rw [← hr₁, ← hb₁.shape_eq he] at hx₃
      obtain ⟨r', p', b', h', e₃, hv₂⟩ := ih hk₂ hx₃
      refine ⟨r', p', b', h', hloop _ e₃, ?_⟩
      rw [hv₂, hv₁, hb₁.toInt_eq_mul_iff.2 (hb₁.mag_eq_iff.2 he), pow_add, pow_mul, pow_two]
      ring

/-- The iterations of a loop that returns 0. -/
theorem exptLoop_succ {n i : ℕ} {r' p' b' : Bint}
    (e : exptLoop exponent (n + 1) i r p b h = some ((0, r', p', b'), h')) :
    ∃ r₁ p₁ h₁ b₁ h₂, exptStep exponent i r p b h = some ((0, r₁, p₁), h₁) ∧
      bintMul p₁ b b h₁ = some ((0, b₁), h₂) ∧
      exptLoop exponent n (i + 1) r₁ b b₁ h₂ = some ((0, r', p', b'), h') := by
  obtain ⟨⟨rc₁, r₁, p₁⟩, h₁, e₁, e₂⟩ := bind_eq_some.1 e
  obtain ⟨hrc₁, -, -⟩ := exptStep_spec e₁
  rcases hrc₁ with rfl | rfl
  · obtain ⟨⟨rc₂, b₁⟩, h₂, e₃, e₄⟩ := bind_eq_some.1 e₂
    cases bintMul_spec e₃ with
    | failed g _ =>
      have := pure_eq_some.1 e₄
      simp at this
    | done _ _ => exact ⟨r₁, p₁, h₁, b₁, h₂, e₁, e₃, e₄⟩
  · have := pure_eq_some.1 e₂
    simp at this

/-- The conditional product loses something, or it is exact. -/
theorem of_exptStep {i : ℕ} {r' p' : Bint} (e : exptStep exponent i r p b h = some ((0, r', p'), h')) :
    (bintBitGet exponent i = true → (shape p).Fits (shape r) (shape b)) ∧
      shape p' = (exptShapes (bintBitGet exponent i) (shape r) (shape p) (shape b)).2 ∧
      mag r' ≤ mag r * mag b ^ (bintBitGet exponent i).toNat ∧
      (mag r' = mag r * mag b ^ (bintBitGet exponent i).toNat →
        (bintBitGet exponent i = true → (shape p).Exact (shape r) (shape b)) ∧
        shape r' = (exptShapes (bintBitGet exponent i) (shape r) (shape p) (shape b)).1) := by
  rw [exptStep] at e
  cases hbit : bintBitGet exponent i with
  | false =>
    rw [if_neg (by simp [hbit])] at e
    have e := pure_eq_some.1 e
    simp only [Prod.mk.injEq] at e
    obtain ⟨⟨-, rfl, rfl⟩, -⟩ := e
    exact ⟨by simp, rfl, by simp, fun _ => ⟨by simp, rfl⟩⟩
  | true =>
    rw [if_pos hbit] at e
    obtain ⟨⟨rc, p₁⟩, h₁, e₁, e₂⟩ := bind_eq_some.1 e
    cases bintMul_spec e₁ with
    | failed g _ =>
      have := pure_eq_some.1 e₂
      simp at this
    | done hr g =>
      have e₂ := pure_eq_some.1 e₂
      simp only [Prod.mk.injEq] at e₂
      obtain ⟨⟨-, rfl, rfl⟩, -⟩ := e₂
      rw [Bool.toNat_true, pow_one]
      refine ⟨fun _ => (fits_of_bintMul e₁).1, rfl, hr.mag_le, fun hm => ?_⟩
      have he := hr.mag_eq_iff.1 hm
      exact ⟨fun _ => he, hr.shape_eq he⟩

/-- Whatever is lost on the way, the loop does not exceed the power. -/
theorem mag_exptLoop_le {n i : ℕ} {r' p' b' : Bint}
    (e : exptLoop exponent n i r p b h = some ((0, r', p', b'), h')) :
    mag r' ≤ mag r * mag b ^ rest (mag exponent) i n := by
  induction n generalizing i r p b h with
  | zero =>
    have e := pure_eq_some.1 e
    simp only [Prod.mk.injEq] at e
    obtain ⟨⟨-, rfl, -⟩, -⟩ := e
    simp [rest, Nat.mod_one]
  | succ n ih =>
    obtain ⟨r₁, p₁, h₁, b₁, h₂, e₁, e₂, e₃⟩ := exptLoop_succ e
    obtain ⟨-, -, hr₁, -⟩ := of_exptStep e₁
    obtain ⟨-, hb₁⟩ := fits_of_bintMul e₂
    rw [rest_succ, ← bintBitGet_eq, pow_add, pow_mul, pow_two, ← mul_assoc]
    exact (ih e₃).trans (Nat.mul_le_mul hr₁ (Nat.pow_le_pow_left hb₁.mag_le _))

/-- A factor of a product that is not exceeded is not exceeded either. -/
theorem eq_of_mul_pow_eq {x y x' y' k : ℕ} (hx : 0 < x) (hy : 0 < y) (hx' : x' ≤ x)
    (hy' : y' ≤ y) (hle : x * y ^ k ≤ x' * y' ^ k) : x' = x ∧ (k ≠ 0 → y' = y) := by
  have hyk : 0 < y ^ k := Nat.pow_pos hy
  have h₁ : x' = x := by
    refine le_antisymm hx' (Nat.le_of_mul_le_mul_right (hle.trans ?_) hyk)
    exact Nat.mul_le_mul_left _ (Nat.pow_le_pow_left hy' k)
  refine ⟨h₁, fun hk => le_antisymm hy' ?_⟩
  rw [h₁] at hle
  exact (Nat.pow_le_pow_iff_left hk).1 (Nat.le_of_mul_le_mul_left hle hx)

/-- A loop that computes the power of a number which is not zero is exact, if the last bit that it
    reads is set. -/
theorem loopExact_of_exptLoop {n i : ℕ} {r' p' b' : Bint} (hr : 0 < mag r) (hb : 0 < mag b)
    (htop : n ≠ 0 → (mag exponent).testBit (i + n - 1) = true)
    (e : exptLoop exponent n i r p b h = some ((0, r', p', b'), h'))
    (hv : mag r' = mag r * mag b ^ rest (mag exponent) i n) :
    LoopExact exponent n i (shape r) (shape p) (shape b) := by
  induction n generalizing i r p b h with
  | zero => trivial
  | succ n ih =>
    obtain ⟨r₁, p₁, h₁, b₁, h₂, e₁, e₂, e₃⟩ := exptLoop_succ e
    obtain ⟨hf, hp₁, hr₁, hx⟩ := of_exptStep e₁
    obtain ⟨hf₁, hb₁⟩ := fits_of_bintMul e₂
    have hle := mag_exptLoop_le e₃
    have hsq : 0 < mag b * mag b := Nat.mul_pos hb hb
    rw [rest_succ, ← bintBitGet_eq, pow_add, pow_mul, pow_two, ← mul_assoc] at hv
    -- Nothing is lost in the product, nor in the square if a bit is left.
    obtain ⟨hr₂, hb₂⟩ := eq_of_mul_pow_eq (Nat.mul_pos hr (Nat.pow_pos hb)) hsq hr₁ hb₁.mag_le
      (hv ▸ hle)
    obtain ⟨he, hs⟩ := hx hr₂
    rw [LoopExact, ← hp₁, ← hs]
    refine ⟨fun hbit => ⟨hf hbit, he hbit⟩, hf₁, fun hn => ?_⟩
    have htop' : (mag exponent).testBit (i + 1 + n - 1) = true := by
      rw [← htop (Nat.succ_ne_zero n)]
      congr 1
      omega
    have hrest : rest (mag exponent) (i + 1) n ≠ 0 := by
      intro h₀
      have : (rest (mag exponent) (i + 1) n).testBit (n - 1) = true := by
        rw [rest, Nat.testBit_mod_two_pow, Nat.testBit_div_two_pow, ← htop']
        simp [show n - 1 < n by omega, show n - 1 + (i + 1) = i + 1 + n - 1 by omega]
      rw [h₀] at this
      simp at this
    have he₁ := hb₁.mag_eq_iff.1 (hb₂ hrest)
    refine ⟨he₁, ?_⟩
    rw [← hb₁.shape_eq he₁]
    refine ih (hr₂ ▸ Nat.mul_pos hr (Nat.pow_pos hb)) (hb₂ hrest ▸ hsq) (fun _ => htop') e₃ ?_
    rw [hv, hr₂, hb₂ hrest]

/-! ## `bint_expt` -/

/-- The first allocations of `bint_expt` and its loop, if it returns 0. -/
theorem of_bintExpt {result base exponent : I}
    (e : bintExpt result base exponent σ h = some ((0, σ'), h')) : ∃ r p b h₁ h₂,
      bintCopy bintZero (.other (σ base)) h = some ((0, σ base), h₁) ∧
      exptLoop (σ exponent) (bintBitLength (σ exponent)) 0 bintOne bintZero (σ base) h₁ =
        some ((0, r, p, b), h₂) ∧ σ' = Function.update σ result r := by
  obtain ⟨⟨rc, r, p, b⟩, h₁, e₁, e₂⟩ := bind_eq_some.1 e
  obtain ⟨⟨rc₁, b₁⟩, h₂, e₃, e₄⟩ := bind_eq_some.1 e₁
  have hrc : ¬rc < 0 := by
    intro hrc
    simp only [hrc, if_true] at e₂
    obtain ⟨hx, -⟩ := destroyAll_spec e₂
    simp at hx
  cases bintCopy_spec e₃ with
  | failed g _ =>
    have e₄ := pure_eq_some.1 e₄
    simp only [Prod.mk.injEq] at e₄
    obtain ⟨⟨rfl, -⟩, -⟩ := e₄
    simp at hrc
  | done hb g =>
    obtain rfl : b₁ = σ base := hb.1
    obtain rfl := (exptLoop_gains e₄).1.resolve_right (by rintro rfl; simp at hrc)
    simp only [lt_self_iff_false, if_false] at e₂
    obtain ⟨hx, -⟩ := destroyAll_spec e₂
    exact ⟨r, p, b, h₂, h₁, e₃, e₄, (Prod.mk.inj hx).2⟩

theorem bintExpt_of_loop {result base exponent : I} {h₁ h₂ : Heap}
    (e₁ : bintCopy bintZero (.other (σ base)) h = some ((0, σ base), h₁))
    (e₂ : exptLoop (σ exponent) (bintBitLength (σ exponent)) 0 bintOne bintZero (σ base) h₁ =
      some ((0, r, p, b), h₂)) :
    ∃ h', bintExpt result base exponent σ h = some ((0, Function.update σ result r), h') := by
  obtain ⟨h', e⟩ := destroyAll_returns (σ result) b p ((0 : ℤ), Function.update σ result r) h₂
  refine ⟨h', bind_eq_some.2 ⟨_, _, bind_eq_some.2 ⟨_, _, e₁, e₂⟩, ?_⟩⟩
  simp only [lt_self_iff_false, if_false]
  exact e

/-- The base can be copied, the bits of the exponent which `bint_bit_length` does not count do not
    matter, and the products of the loop are exact. -/
structure PowerExact (base exponent : Bint) : Prop where
  size_lt : Nat.size (mag base) < 2 ^ 32
  bits : toInt base ^ (mag exponent % 2 ^ bintBitLength exponent) = toInt base ^ mag exponent
  products : LoopExact exponent (bintBitLength exponent) 0 ⟨1, 0⟩ ⟨0, 0⟩ (shape base)

/-- Zero or one, in a single chunk. -/
structure Shape.Tiny (s : Shape) : Prop where
  le : s.mag ≤ 1
  length : s.length = 0

theorem Shape.Tiny.bitLength_le {s : Shape} (hs : s.Tiny) : s.bitLength ≤ 1 := by
  have h₁ : Nat.size s.mag ≤ 1 := Nat.size_le.2 (Nat.lt_succ_of_le hs.le)
  rw [bitLength]
  split_ifs
  · exact Nat.zero_le 1
  · exact (Nat.mod_le _ _).trans h₁

theorem Shape.Tiny.product {p a b : Shape} (hp : p.length = 0) (ha : a.Tiny) (hb : b.Tiny) :
    p.Fits a b ∧ p.Exact a b ∧ (p.mul a b).Tiny := by
  have h₁ := ha.bitLength_le
  have h₂ := hb.bitLength_le
  have hroom : p.room a b = 0 := by
    rw [room, hp]
    omega
  have hle : a.mag * b.mag ≤ 1 := Nat.mul_le_mul ha.le hb.le
  have hr : 2 ≤ radix := by decide
  refine ⟨?_, ⟨noLostCarry_of_lt (by have := ha.le; omega) _, ?_⟩, hle, hroom⟩
  · rw [Fits, ha.length, hb.length]
    exact Nat.zero_le _
  · rw [hroom, zero_add, pow_one]
    omega

theorem loopExact_of_tiny {n i : ℕ} {r p b : Shape} (hr : r.Tiny) (hp : p.length = 0)
    (hb : b.Tiny) : LoopExact exponent n i r p b := by
  induction n generalizing i r p b with
  | zero => trivial
  | succ n ih =>
    obtain ⟨hf, he, ht⟩ := Shape.Tiny.product hp hr hb
    have hs : (exptShapes (bintBitGet exponent i) r p b).1.Tiny ∧
        (exptShapes (bintBitGet exponent i) r p b).2.length = 0 := by
      rw [exptShapes]
      split_ifs
      · exact ⟨ht, hr.length⟩
      · exact ⟨hr, hp⟩
    obtain ⟨hf', he', ht'⟩ := Shape.Tiny.product hs.2 hb hb
    exact ⟨fun _ => ⟨hf, he⟩, hf', fun _ => ⟨he', ih hs.1 hb.length ht'⟩⟩

theorem shape_bintOne : shape bintOne = ⟨1, 0⟩ := by decide

theorem shape_bintZero : shape bintZero = ⟨0, 0⟩ := by decide

theorem rest_zero (e n : ℕ) : rest e 0 n = e % 2 ^ n := by rw [rest, pow_zero, Nat.div_one]

/-- The products of a power that is right are exact. -/
theorem loopExact_of_eq {b' : Bint} (hb : Canonical b) (he : Canonical exponent)
    (e : exptLoop exponent (bintBitLength exponent) 0 bintOne bintZero b h =
      some ((0, r, p, b'), h')) (hv : toInt r = toInt b ^ mag exponent) :
    LoopExact exponent (bintBitLength exponent) 0 ⟨1, 0⟩ ⟨0, 0⟩ (shape b) := by
  have hm : mag r = mag b ^ mag exponent := by
    rw [← natAbs_toInt r, hv, Int.natAbs_pow, natAbs_toInt]
  have hle := mag_exptLoop_le e
  rw [rest_zero, show mag bintOne = 1 by decide, one_mul, hm] at hle
  rcases Nat.lt_or_ge (mag b) 2 with hb₁ | hb₁
  · have hlen : b.next.length ≤ 0 := hb.length_le (hb₁.trans (by decide))
    exact loopExact_of_tiny ⟨le_rfl, rfl⟩ rfl ⟨Nat.le_of_lt_succ hb₁, Nat.le_zero.1 hlen⟩
  · -- The power would be too small if the loop did not see the entire exponent.
    have hmod : mag exponent ≤ mag exponent % 2 ^ bintBitLength exponent :=
      (Nat.pow_le_pow_iff_right hb₁).1 hle
    have hlt : mag exponent < 2 ^ bintBitLength exponent :=
      hmod.trans_lt (Nat.mod_lt _ (by simp))
    have hlen : bintBitLength exponent = Nat.size (mag exponent) := by
      refine le_antisymm ?_ (Nat.size_le.2 hlt)
      rw [he.bintBitLength]
      exact Nat.mod_le _ _
    rw [← shape_bintOne, ← shape_bintZero]
    refine loopExact_of_exptLoop (by decide) (by omega) (fun hn => ?_) e ?_
    · rw [zero_add, hlen]
      refine testBit_size_pred ?_
      rintro h₀
      rw [hlen, h₀] at hn
      simp at hn
    · rw [rest_zero, Nat.mod_eq_of_lt hlt, hm, show mag bintOne = 1 by decide, one_mul]

/-- `bint_expt` computes the power if and only if its products are exact, and the bit
    length of the exponent stands for the exponent. -/
theorem bintExpt_exact_iff (σ : Store I) (result base exponent : I) (h : Heap)
    (hb : Canonical (σ base)) (he : Canonical (σ exponent)) (hk : h.Ok) :
    Computes σ (.expt result base exponent) result
        (fun r => toInt r = toInt (σ base) ^ mag (σ exponent)) h ↔
      PowerExact (σ base) (σ exponent) := by
  constructor
  · rintro ⟨σ', h', e, hv, -⟩
    obtain ⟨r, p, b, h₁, h₂, e₁, e₂, rfl⟩ := of_bintExpt e
    rw [Function.update_self] at hv
    have hlt := size_lt_of_bintCopy hb e₁
    have hx := loopExact_of_eq hb he e₂ hv
    refine ⟨hlt, ?_, hx⟩
    -- The loop returns the power by the part of the exponent that it reads.
    obtain ⟨h₃, e₃, hk₁⟩ := bintCopy_returns hb hlt hk
    obtain ⟨-, rfl⟩ := Prod.mk.inj (Option.some_inj.1 (e₁.symm.trans e₃))
    rw [← shape_bintOne, ← shape_bintZero] at hx
    obtain ⟨r', p', b', h₄, e₄, hv'⟩ := exptLoop_exact hk₁ hx
    have hr := Option.some_inj.1 (e₂.symm.trans e₄)
    simp only [Prod.mk.injEq] at hr
    rw [rest_zero, ← hr.1.2.1, show toInt bintOne = 1 by decide, one_mul] at hv'
    rw [← hv', hv]
  · rintro ⟨hlt, hbits, hx⟩
    obtain ⟨h₁, e₁, hk₁⟩ := bintCopy_returns hb hlt hk
    rw [← shape_bintOne, ← shape_bintZero] at hx
    obtain ⟨r, p, b, h₂, e₂, hv⟩ := exptLoop_exact hk₁ hx
    obtain ⟨h', e⟩ : ∃ h', exec σ (.expt result base exponent) h =
        some ((0, Function.update σ result r), h') := bintExpt_of_loop e₁ e₂
    refine (computes_iff e rfl).2 ?_
    rw [hv, rest_zero, show toInt bintOne = 1 by decide, one_mul, hbits]

/-- The number `2 ^ 64 - 1`. -/
def ones64 : Bint := ⟨false, ⟨[0xffffffff, 0xffffffff, 0, 0], rfl⟩, []⟩

/-- A store of three objects. -/
def triple (a b c : Bint) : Store (Fin 3) := fun i => if i = 0 then a else if i = 1 then b else c

/-- The square of `2 ^ 64 - 1` has a second chunk, which is zero. In the product with the power
    so far, it runs past the end of the result. -/
theorem bintExpt_faults : Canonical ones64 ∧ Canonical (small false 2) ∧ freshHeap.Ok ∧
    toInt ones64 = 2 ^ 64 - 1 ∧ mag (small false 2) = 2 ∧
    exec (triple bintZero ones64 (small false 2)) (.expt 0 1 2) freshHeap = none ∧
    ¬Computes (triple bintZero ones64 (small false 2)) (.expt 0 1 2) 0
      (fun r => toInt r = toInt ones64 ^ mag (small false 2)) freshHeap := by
  have e : exec (triple bintZero ones64 (small false 2)) (.expt 0 1 2) freshHeap = none := rfl
  refine ⟨by decide, by decide, fun _ => rfl, by decide, by decide, e, ?_⟩
  rintro ⟨σ', h', e', -⟩
  rw [e] at e'
  cases e'

/-- The square of -3. -/
theorem bintExpt_exact_iff_neg_three : Computes (triple bintZero (small true 3) (small false 2))
    (.expt 0 1 2) 0 (fun r => toInt r = 9) freshHeap := by
  refine (bintExpt_exact_iff (triple bintZero (small true 3) (small false 2)) 0 1 2 freshHeap
    (by decide) (by decide) fun _ => rfl).2 ⟨by decide, by decide, ?_⟩
  change LoopExact (small false 2) 2 0 ⟨1, 0⟩ ⟨0, 0⟩ ⟨3, 0⟩
  refine ⟨fun hbit => absurd hbit (by decide), by decide, fun _ => ⟨⟨?_, by decide⟩, ?_⟩⟩
  · exact noLostCarry_of_lt (by decide) 3
  · exact ⟨fun _ => ⟨by decide, noLostCarry_of_lt (by decide) 9, by decide⟩, by decide,
      fun hn => absurd rfl hn⟩

end Dlb.Bint
