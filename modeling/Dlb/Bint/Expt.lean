import Dlb.Bint.Mul
import Dlb.Bint.Quotient

/-!
# Products that are canonical, and powers

`bint_mul` does not trim its result: it is canonical only if the product needs all the
chunks for which room was made. `bint_expt` calls `bint_mul` for every bit of the
exponent, on numbers which it swaps, so that the room for a product also depends on
the number whose chunks are used again.
-/

namespace Dlb.Bint

variable {I : Type} [DecidableEq I] {h h' : Heap} {σ σ' : Store I} {a b p r : Bint}

/-! ## Products -/

/-- The number of chunks in which `bint_mul` multiplies `a` and `b` into a result that had the
    magnitude `p`. -/
def productRoom (p a b : ℕ) : ℕ :=
  max ((Nat.size a % 2 ^ 32 + Nat.size b % 2 ^ 32) % 2 ^ 32 / 128) (chunks p) + 1

/-- The product of `a` and `b` loses no carry, and has exactly as many chunks as there is
    room for. -/
structure MulTidy (p a b : ℕ) : Prop where
  noLostCarry : NoLostCarry a b
  lt : a * b < radix ^ productRoom p a b
  ge : productRoom p a b ≠ 1 → radix ^ (productRoom p a b - 1) ≤ a * b

/-- The sign flag is not set on zero. -/
def Signed (b : Bint) : Prop := b.negative = true → mag b ≠ 0

instance (b : Bint) : Decidable (Signed b) := inferInstanceAs (Decidable (_ → _))

/-- A canonical number whose sign flag is not set if it is zero. -/
structure Tidy (b : Bint) : Prop where
  canonical : Canonical b
  signed : Signed b

/-- The product if it is tidy. -/
structure Product (a b r : Bint) : Prop where
  canonical : Canonical r
  value : mag r = mag a * mag b
  signed : Signed r

theorem mulRoom_eq (hp : Canonical p) (ha : Canonical a) (hb : Canonical b) :
    mulRoom p a b = productRoom (mag p) (mag a) (mag b) := by
  rw [mulRoom, productRoom, ha.bintBitLength, hb.bintBitLength, hp.length_eq_chunks]

theorem MulResult.product (hr : MulResult p a b r) (hp : Canonical p) (ha : Canonical a)
    (hb : Canonical b) (ht : MulTidy (mag p) (mag a) (mag b)) : Product a b r := by
  obtain ⟨lost, hv, hl⟩ := hr.balance
  rw [mulRoom_eq hp ha hb] at hl
  have h₀ := hl.2 ⟨ht.noLostCarry, ht.lt⟩
  have hm : mag r = mag a * mag b := by omega
  have hlen := hr.length
  rw [mulRoom_eq hp ha hb, length_digits] at hlen
  refine ⟨?_, hm, fun hn h₁ => ?_⟩
  · by_cases h₁ : productRoom (mag p) (mag a) (mag b) = 1
    · exact canonical_of_next_eq_nil (List.length_eq_zero_iff.1 (by omega))
    · apply canonical_of_pow_le
      have := ht.ge h₁
      rw [← hlen, Nat.add_sub_cancel] at this
      rwa [hm]
  · rw [hr.negative, decide_eq_true_iff, ha.bintGetSign, hb.bintGetSign, ← Int.sign_mul,
      Int.sign_neg_iff] at hn
    have : (toInt a * toInt b).natAbs = 0 := by
      rw [Int.natAbs_mul, natAbs_toInt, natAbs_toInt, ← hm, h₁]
    omega

/-! ## Powers -/

/-- Every product that the loop of `bint_expt` computes is tidy, from the magnitudes of `r`, `p` and
    `b` on, with `n` iterations left from `i` on. -/
def ExptTidy (exponent : Bint) : ℕ → ℕ → ℕ → ℕ → ℕ → Prop
  | 0, _, _, _, _ => True
  | n + 1, i, r, p, b =>
    if bintBitGet exponent i then
      MulTidy p r b ∧ MulTidy r b b ∧ ExptTidy exponent n (i + 1) (r * b) b (b * b)
    else MulTidy p b b ∧ ExptTidy exponent n (i + 1) r b (b * b)

/-- The conditional product in the loop of `bint_expt`. -/
theorem exptStep_spec {exponent : Bint} {i : ℕ} {rc : ℤ} {r' p' : Bint}
    (e : exptStep exponent i r p b h = some ((rc, r', p'), h')) :
    (rc = 0 ∨ rc = -1) ∧ Gains h h' (allocated r' p' b - allocated r p b) ∧
      (rc = 0 → if bintBitGet exponent i then MulResult p r b r' ∧ p' = r else r' = r ∧ p' = p) := by
  rw [exptStep] at e
  split_ifs at e with hbit
  · obtain ⟨⟨rc₁, p₁⟩, h₁, e₁, e₂⟩ := bind_eq_some.1 e
    cases bintMul_spec e₁ with
    | failed g _ =>
      have e₂ := pure_eq_some.1 e₂
      simp only [Prod.mk.injEq] at e₂
      obtain ⟨⟨rfl, rfl, rfl⟩, rfl⟩ := e₂
      exact ⟨.inr rfl, by simpa using g, by simp⟩
    | done hr g =>
      have e₂ := pure_eq_some.1 e₂
      simp only [Prod.mk.injEq] at e₂
      obtain ⟨⟨rfl, rfl, rfl⟩, rfl⟩ := e₂
      refine ⟨.inl rfl, g.of_eq ?_, fun _ => ?_⟩
      · rw [allocated, allocated]
        ring
      · rw [if_pos hbit]
        exact ⟨hr, rfl⟩
  · have e := pure_eq_some.1 e
    simp only [Prod.mk.injEq] at e
    obtain ⟨⟨rfl, rfl, rfl⟩, rfl⟩ := e
    exact ⟨.inl rfl, by simpa using Gains.refl h, fun _ => by rw [if_neg hbit]; exact ⟨rfl, rfl⟩⟩

/-- The loop of `bint_expt` keeps an account of the chunks. -/
theorem exptLoop_gains {exponent : Bint} {n i : ℕ} {rc : ℤ} {r' p' b' : Bint}
    (e : exptLoop exponent n i r p b h = some ((rc, r', p', b'), h')) :
    (rc = 0 ∨ rc = -1) ∧ Gains h h' (allocated r' p' b' - allocated r p b) := by
  induction n generalizing i r p b h with
  | zero =>
    have e := pure_eq_some.1 e
    simp only [Prod.mk.injEq] at e
    obtain ⟨⟨rfl, rfl, rfl, rfl⟩, rfl⟩ := e
    exact ⟨.inl rfl, by simpa using Gains.refl h⟩
  | succ n ih =>
    obtain ⟨⟨rc₁, r₁, p₁⟩, h₁, e₁, e₂⟩ := bind_eq_some.1 e
    obtain ⟨hrc₁, g₁, -⟩ := exptStep_spec e₁
    rcases hrc₁ with rfl | rfl
    · obtain ⟨⟨rc₂, p₂⟩, h₂, e₃, e₄⟩ := bind_eq_some.1 e₂
      cases bintMul_spec e₃ with
      | failed g₂ _ =>
        have e₄ := pure_eq_some.1 e₄
        simp only [Prod.mk.injEq] at e₄
        obtain ⟨⟨rfl, rfl, rfl, rfl⟩, rfl⟩ := e₄
        exact ⟨.inr rfl, (g₁.trans g₂).of_eq (by ring)⟩
      | done _ g₂ =>
        obtain ⟨hrc, g₃⟩ := ih e₄
        refine ⟨hrc, ((g₁.trans g₂).trans g₃).of_eq ?_⟩
        simp only [allocated]
        ring
    · have e₂ := pure_eq_some.1 e₂
      simp only [Prod.mk.injEq] at e₂
      obtain ⟨⟨rfl, rfl, rfl, rfl⟩, rfl⟩ := e₂
      exact ⟨.inr rfl, g₁⟩

/-- The loop of `bint_expt` keeps `r` tidy if all its products are. -/
theorem exptLoop_tidy {exponent : Bint} {n i : ℕ} {r' p' b' : Bint} (hr : Tidy r)
    (hp : Canonical p) (hb : Canonical b)
    (ht : ExptTidy exponent n i (mag r) (mag p) (mag b))
    (e : exptLoop exponent n i r p b h = some ((0, r', p', b'), h')) : Tidy r' := by
  induction n generalizing i r p b h with
  | zero =>
    have e := pure_eq_some.1 e
    simp only [Prod.mk.injEq] at e
    obtain ⟨⟨-, rfl, rfl, rfl⟩, rfl⟩ := e
    exact hr
  | succ n ih =>
    obtain ⟨⟨rc₁, r₁, p₁⟩, h₁, e₁, e₂⟩ := bind_eq_some.1 e
    obtain ⟨hrc₁, -, hx⟩ := exptStep_spec e₁
    rcases hrc₁ with rfl | rfl
    · obtain ⟨⟨rc₂, p₂⟩, h₂, e₃, e₄⟩ := bind_eq_some.1 e₂
      have hx := hx rfl
      cases bintMul_spec e₃ with
      | failed g₂ _ =>
        have e₄ := pure_eq_some.1 e₄
        simp at e₄
      | done hm g₂ =>
        rw [ExptTidy] at ht
        split_ifs at ht hx with hbit
        · obtain ⟨t₁, t₂, t₃⟩ := ht
          obtain ⟨hr₁, rfl⟩ := hx
          have hx := hr₁.product hp hr.canonical hb t₁
          have hy := hm.product hr.canonical hb hb t₂
          refine ih ⟨hx.canonical, hx.signed⟩ hb hy.canonical ?_ e₄
          rwa [hx.value, hy.value]
        · obtain ⟨t₁, t₂⟩ := ht
          obtain ⟨rfl, rfl⟩ := hx
          have hy := hm.product hp hb hb t₁
          refine ih hr hb hy.canonical ?_ e₄
          rwa [hy.value]
    · have e₂ := pure_eq_some.1 e₂
      simp at e₂

/-- How a call of `bint_expt` ends. -/
inductive ExptEnds (σ : Store I) (result base exponent : I) (h : Heap) :
    (ℤ × Store I) × Heap → Prop
  | failed {h' : Heap} (g : Gains h h' 0) : ExptEnds σ result base exponent h ((-1, σ), h')
  | done {h' : Heap} {r : Bint} (hr : Canonical (σ base) → ExptTidy (σ exponent)
      (bintBitLength (σ exponent)) 0 1 0 (mag (σ base)) → Tidy r) :
    ExptEnds σ result base exponent h ((0, Function.update σ result r), h')

theorem exptCore_spec {base exponent : Bint} {rc : ℤ} {r p b : Bint}
    (e : exptCore base exponent h = some ((rc, r, p, b), h')) :
    (rc = 0 ∨ rc = -1) ∧ Gains h h' (allocated r p b) ∧ (rc = 0 → Canonical base →
      ExptTidy exponent (bintBitLength exponent) 0 1 0 (mag base) → Tidy r) := by
  have hz : bintZero.next.length = 0 := rfl
  have hone : bintOne.next.length = 0 := rfl
  obtain ⟨⟨rc₁, b₁⟩, h₂, e₃, e₄⟩ := bind_eq_some.1 e
  cases bintCopy_spec e₃ with
  | failed g _ =>
    have e₄ := pure_eq_some.1 e₄
    simp only [Prod.mk.injEq] at e₄
    obtain ⟨⟨rfl, rfl, rfl, rfl⟩, rfl⟩ := e₄
    exact ⟨.inr rfl, by simpa [allocated, hz, hone] using g, by simp⟩
  | done hb g =>
    obtain rfl : b₁ = base := hb.1
    obtain ⟨hrc, g'⟩ := exptLoop_gains e₄
    refine ⟨hrc, (g.trans g').of_eq (by simp [allocated, hz, hone]), ?_⟩
    rintro rfl hc ht
    exact exptLoop_tidy ⟨canonical_of_next_eq_nil rfl, by decide⟩ (canonical_of_next_eq_nil rfl)
      hc ht e₄

theorem bintExpt_spec {result base exponent : I} {x : (ℤ × Store I) × Heap}
    (e : bintExpt result base exponent σ h = some x) : ExptEnds σ result base exponent h x := by
  obtain ⟨⟨rc, r, p, b⟩, h₁, e₁, e₂⟩ := bind_eq_some.1 e
  obtain ⟨hrc, g, hr⟩ := exptCore_spec e₁
  obtain ⟨y, h₂⟩ := x
  rcases hrc with rfl | rfl
  · obtain ⟨rfl, -⟩ := destroyAll_spec e₂
    exact .done (hr rfl)
  · obtain ⟨rfl, g'⟩ := destroyAll_spec e₂
    refine .failed ((g.trans g').of_eq ?_)
    rw [allocated, allocated]
    ring

end Dlb.Bint
