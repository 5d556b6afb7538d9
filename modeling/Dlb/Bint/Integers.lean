import Dlb.Bint.Inverse
import Dlb.Bint.Order
import Dlb.Bint.Power
import Dlb.Machine

/-!
# Calls on integers

What the calls mean for the integers that the objects denote (`Op.onInts`), and what they return
(`Op.code`). Under the conditions `SignedCall` and `ExactCall`, a call does just that or it is refused
and changes nothing (`exec_onInts`), so that every run of such calls is one on integers, whatever
the allocator answers (`run_onInts`).
-/

namespace Dlb.Bint

open Machine

variable {I : Type} [DecidableEq I] {h h' : Heap} {σ σ' : Store I} {op : Op I} {rc : ℤ}
  {a b d p r : Bint} {z z' : I → ℤ}

/-! ## The meaning of the calls -/

/-- The magnitude `m` with the sign of `x`. -/
def withSign (x : ℤ) (m : ℕ) : ℤ := if x < 0 then -m else m

/-- An object that is optional is set. -/
def setSome (z : I → ℤ) (v : ℤ) : Option I → I → ℤ
  | none => z
  | some i => Function.update z i v

/-- The integers after a call. -/
def Op.onInts (z : I → ℤ) : Op I → I → ℤ
  | .init b value => Function.update z b value.toInt
  | .set b value => Function.update z b value.toInt
  | .setSign b sign => Function.update z b (if sign < 0 then -|z b| else |z b|)
  | .copy dst src => Function.update z dst (z src)
  | .swap a b => Function.update (Function.update z a (z b)) b (z a)
  | .add dst src => Function.update z dst (z dst + z src)
  | .sub dst src => Function.update z dst (z dst - z src)
  | .mul result a b => Function.update z result (z a * z b)
  | .div quotient dividend divisor remainder =>
    if z divisor = 0 then z
    else setSome (setSome z ((z dividend).fmod (z divisor)) remainder)
      ((z dividend).fdiv (z divisor)) quotient
  | .expt result base exponent => Function.update z result (z base ^ (z exponent).natAbs)
  | .bitSet b pos => Function.update z b (withSign (z b) ((z b).natAbs ||| 2 ^ pos.toNat))
  | .bitClear b pos => Function.update z b (withSign (z b) (Bint.bic (z b).natAbs (2 ^ pos.toNat)))
  | .or dst src => Function.update z dst (withSign (z dst) ((z dst).natAbs ||| (z src).natAbs))
  | .and dst src => Function.update z dst (withSign (z dst) ((z dst).natAbs &&& (z src).natAbs))
  | .bic dst src => Function.update z dst (withSign (z dst) (Bint.bic (z dst).natAbs (z src).natAbs))
  | .xor dst src => Function.update z dst (withSign (z dst) ((z dst).natAbs ^^^ (z src).natAbs))
  | .shiftLeft b count => Function.update z b (z b * 2 ^ count.toNat)
  | .shiftRight b count => Function.update z b ((z b).tdiv (2 ^ count.toNat))
  | .digitPush b base digit =>
    Function.update z b (withSign (z b) (base.toNat * (z b).natAbs + digit.toNat))
  | .digitPop b base => if base = 0 then z else Function.update z b ((z b).tdiv base.toNat)

/-- What a call returns that is not refused. -/
def Op.code (z : I → ℤ) : Op I → ℤ
  | .div _ _ divisor _ => if z divisor = 0 then 1 else 0
  | .digitPop b base => if base = 0 then 0 else (z b).natAbs % base.toNat
  | _ => 0

/-- A call on integers, with the code that it returns. -/
inductive IntStep (z : I → ℤ) : Op I × ℤ → (I → ℤ) → Prop
  | refused (op : Op I) : IntStep z (op, -1) z
  | done (op : Op I) : IntStep z (op, op.code z) (op.onInts z)

/-- The integers that the objects denote. -/
def ints (σ : Store I) : I → ℤ := fun i => toInt (σ i)

theorem ints_update (i : I) (d : Bint) :
    ints (Function.update σ i d) = Function.update (ints σ) i (toInt d) := by
  funext j
  by_cases hj : j = i
  · subst hj
    simp [ints]
  · simp [ints, hj]

/-! ## Exact calls -/

/-- The magnitudes are added without a loss, or the greater one is not too long for the smaller one
    to be subtracted from it. -/
structure SumExact (same : Prop) (dst src : Bint) : Prop where
  sum : same → AddExact dst src
  diff : ¬same → mag dst < mag src → Nat.size (mag src) < 2 ^ 32

/-- The quotient is found by the loop of `bint_div`. -/
structure QuotientExact (dividend divisor : Bint) : Prop where
  same : dividend.negative = divisor.negative → mag divisor ≠ 0 →
    DivExact (mag dividend) (mag divisor)
  opposite : dividend.negative ≠ divisor.negative → mag divisor ≠ 0 →
    DivOppositeExact (mag dividend) (mag divisor)
  divisor_lt : Nat.size (mag divisor) < 2 ^ 32

/-- A call of which the result is right. -/
def ExactCall (σ : Store I) : Op I → Prop
  | .add dst src => SumExact ((σ dst).negative = (σ src).negative) (σ dst) (σ src)
  | .sub dst src => SumExact ((σ dst).negative ≠ (σ src).negative) (σ dst) (σ src)
  | .div _ dividend divisor _ => QuotientExact (σ dividend) (σ divisor)
  | .expt _ _ exponent => Nat.size (mag (σ exponent)) < 2 ^ 32
  | .digitPush b base digit => digit < base → PushExact base (mag (σ b)) digit
  | _ => True

/-! ## Signs and magnitudes -/

theorem Tidy.toInt_neg_iff (hb : Tidy b) : toInt b < 0 ↔ b.negative = true := by
  rw [toInt]
  split_ifs with hn
  · exact iff_of_true (by have := hb.signed hn; omega) hn
  · exact iff_of_false (by omega) hn

/-- A number that has the sign flag of another one. -/
theorem Tidy.toInt_eq (hb : Tidy b) (hn : d.negative = b.negative) {m : ℕ} (hm : mag d = m) :
    toInt d = withSign (toInt b) m := by
  rw [withSign, ← hm]
  by_cases hneg : b.negative = true
  · rw [if_pos (hb.toInt_neg_iff.2 hneg), toInt, if_pos (hn.trans hneg)]
  · rw [if_neg fun hlt => hneg (hb.toInt_neg_iff.1 hlt), toInt, if_neg (hn ▸ hneg)]

theorem withSign_tdiv (x : ℤ) (n : ℕ) : withSign x (x.natAbs / n) = x.tdiv n := by
  rw [withSign]
  split_ifs with hx
  · obtain ⟨m, rfl⟩ := Int.eq_negSucc_of_lt_zero hx
    rfl
  · obtain ⟨m, rfl⟩ := Int.eq_ofNat_of_zero_le (not_lt.1 hx)
    rfl

theorem withSign_mul (x : ℤ) (n : ℕ) : withSign x (x.natAbs * n) = x * n := by
  rw [withSign]
  split_ifs with hx
  · rw [Nat.cast_mul, Int.ofNat_natAbs_of_nonpos hx.le]
    ring
  · rw [Nat.cast_mul, Int.natAbs_of_nonneg (not_lt.1 hx)]

theorem toInt_small (value : Int32) :
    toInt (small (value < 0) (if value < 0 then (-value).toUInt32 else value.toUInt32)) =
      value.toInt := by
  have hm : ∀ n d, mag (small n d) = d.toNat := fun n d => by
    simp [mag, small, digits, Chunk.val]
  rw [toInt, hm]
  have hx : value.toInt = value.toBitVec.toInt := rfl
  have hneg : (-value).toUInt32.toNat = (-value.toBitVec).toNat := rfl
  have hpos : value.toUInt32.toNat = value.toBitVec.toNat := rfl
  have hlt : value < 0 ↔ value.toInt < 0 := Int32.lt_iff_toInt_lt
  have hbound := value.toBitVec.isLt
  by_cases h₀ : value < 0
  · rw [if_pos h₀, if_pos (by simpa [small] using h₀), hneg]
    rw [hlt, hx, BitVec.toInt_eq_toNat_cond] at h₀
    rw [hx, BitVec.toInt_eq_toNat_cond, BitVec.toNat_neg]
    omega
  · rw [if_neg h₀, if_neg (by simpa [small] using h₀), hpos]
    rw [hlt, hx, BitVec.toInt_eq_toNat_cond] at h₀
    rw [hx, BitVec.toInt_eq_toNat_cond]
    omega

theorem head_toNat (b : Bint) : (b.first.data.headD 0).toNat = mag b % 2 ^ 32 := by
  obtain ⟨negative, ⟨data, hlen⟩, next⟩ := b
  cases data with
  | nil => simp at hlen
  | cons x xs =>
    have hx := x.toNat_lt
    have hval : (⟨x :: xs, hlen⟩ : Chunk).val = x.toNat + 2 ^ 32 * limbs xs := limbs_cons x xs
    have hradix : radix = 2 ^ 32 * 2 ^ 96 := by rw [radix_eq]; norm_num
    rw [mag, digits, chain_cons, hval, hradix, mul_assoc, add_assoc, ← mul_add,
      Nat.add_mul_mod_self_left, List.headD_cons, Nat.mod_eq_of_lt hx]

theorem bintGet_eq (hlt : (toInt b).natAbs < 2 ^ 31) : (bintGet b).toInt = toInt b := by
  have hhead := head_toNat b
  rw [natAbs_toInt] at hlt
  rw [Nat.mod_eq_of_lt (by omega)] at hhead
  have hv : (b.first.data.headD 0).toInt32.toInt = mag b := by
    rw [← hhead]
    change (b.first.data.headD 0).toBitVec.toInt = _
    rw [BitVec.toInt_eq_toNat_cond]
    change (if 2 * (b.first.data.headD 0).toNat < 2 ^ 32 then _ else _) = _
    rw [if_pos (by omega)]
    rfl
  rw [bintGet, toInt]
  split_ifs
  · rw [Int32.toInt_neg, hv]
    refine Int.bmod_eq_of_le ?_ ?_ <;> omega
  · exact hv

/-! ## Sums, quotients and powers -/

theorem SumResult.toInt_eq {same : Prop} {dst : Bint} {src : Operand}
    (hd : SumResult same dst src d) (hs : Canonical (src.get dst))
    (hx : SumExact same dst (src.get dst)) {y : ℤ}
    (hsum : same → y = if dst.negative then -(mag (src.get dst) : ℤ) else mag (src.get dst))
    (hdiff : ¬same → y = if dst.negative then (mag (src.get dst) : ℤ) else -mag (src.get dst)) :
    toInt d = toInt dst + y := by
  by_cases hsame : same
  · have he := hd.1 hsame
    have hm : mag d = mag dst + mag (src.get dst) := by
      rw [he, mag_trimmed, mag_setDigits _ (addDigits_ne_nil _ _),
        (chain_addDigits_eq_iff hs).2 (hx.sum hsame)]
    have hn : d.negative = dst.negative := by simp [he]
    rw [hsum hsame, toInt, toInt, hn, hm]
    split_ifs <;> push_cast <;> ring
  · have he := hd.2 hsame
    rw [hdiff hsame]
    rcases le_or_gt (mag (src.get dst)) (mag dst) with hle | hlt
    · obtain ⟨hn, hm⟩ := he.ge hle
      rw [toInt, toInt, hn]
      split_ifs <;> omega
    · obtain ⟨hn, hm⟩ := he.lt hlt
      have hm := hm (hx.diff hsame hlt)
      rw [toInt, toInt, hn]
      cases dst.negative <;> simp <;> omega

/-- Division by the definition of the quotient and the remainder. -/
theorem fdiv_fmod_eq {n m x y : ℤ} (hm : m ≠ 0) (hn : n = m * x + y) (hlt : |y| < |m|)
    (hs : y = 0 ∨ y.sign = m.sign) : n.fdiv m = x ∧ n.fmod m = y := by
  rcases lt_or_gt_of_ne hm with h₀ | h₀
  · rw [Int.fdiv_fmod_unique' h₀]
    rw [abs_of_neg h₀] at hlt
    rw [Int.sign_eq_neg_one_of_neg h₀, Int.sign_eq_neg_one_iff_neg] at hs
    have hy : |y| = -y := abs_of_nonpos (by omega)
    exact ⟨by rw [hn]; ring, by omega, by omega⟩
  · rw [Int.fdiv_fmod_unique h₀]
    rw [abs_of_pos h₀] at hlt
    rw [Int.sign_eq_one_of_pos h₀, Int.sign_eq_one_iff_pos] at hs
    have hy : |y| = y := abs_of_nonneg (by omega)
    exact ⟨by rw [hn]; ring, by omega, by omega⟩

theorem DivResult.fdiv_fmod {q : Bint} (hr : DivResult a b r q) (h₀ : mag b ≠ 0)
    (hx : QuotientExact a b) :
    (toInt a).fdiv (toInt b) = toInt q ∧ (toInt a).fmod (toInt b) = toInt r := by
  have hm : toInt b ≠ 0 := by
    rwa [← Int.natAbs_ne_zero, natAbs_toInt]
  refine fdiv_fmod_eq hm ?_ ?_ (toInt_eq_zero_or_sign_eq hr.remainder.2 h₀)
  · by_cases hsame : a.negative = b.negative
    · obtain ⟨hv, hq⟩ := hr.same hsame
      have hnq : q.negative = false := by simp [hr.quotient.2, hsame]
      have hvz : (mag a : ℤ) = mag b * mag q + mag r := by
        rw [hq, mul_comm, add_comm]
        exact_mod_cast hv.symm
      simp only [toInt, hnq, hsame, hr.remainder.2, hvz, Bool.false_eq_true, if_false]
      split_ifs <;> ring
    · obtain ⟨hv, hq⟩ := hr.opposite hsame
      obtain ⟨hmod, hlo, hhi⟩ := (divOppositeExact_iff h₀).2 (hx.opposite hsame h₀)
      have hnq : q.negative = true := by simp [hr.quotient.2, hsame]
      have hvz : (mag a : ℤ) = mag b * mag q - mag r := by
        rw [if_neg hmod, add_zero] at hq
        rw [hv, hq, abs_of_nonpos (by omega)]
        push_cast
        ring
      simp only [toInt, hnq, hr.remainder.2, Bool.eq_not.2 hsame, hvz]
      cases b.negative <;> simp <;> ring
  · rw [abs_toInt, abs_toInt]
    by_cases hsame : a.negative = b.negative
    · have hlt := (divQuot_rem_lt_iff h₀).2 (hx.same hsame h₀)
      have hv := (hr.same hsame).1
      omega
    · obtain ⟨-, hlo, hhi⟩ := (divOppositeExact_iff h₀).2 (hx.opposite hsame h₀)
      rw [(hr.opposite hsame).1, abs_of_nonpos (by omega)]
      omega

theorem MulResult.toInt_eq (hr : MulResult p a b r) (hp : Canonical p) (ha : Canonical a)
    (hb : Canonical b) (ht : MulTidy (mag p) (mag a) (mag b)) : toInt r = toInt a * toInt b :=
  hr.toInt_eq_mul_iff.2 (hr.product hp ha hb ht).value

/-- The loop of `bint_expt` multiplies by the powers that the bits of the exponent say. -/
theorem exptLoop_toInt {exponent : Bint} {n i : ℕ} {r' p' b' : Bint} (hr : Canonical r)
    (hp : Canonical p) (hb : Canonical b) (ht : ExptTidy exponent n i (mag r) (mag p) (mag b))
    (e : exptLoop exponent n i r p b h = some ((0, r', p', b'), h')) :
    toInt r' = toInt r * toInt b ^ rest (mag exponent) i n := by
  induction n generalizing i r p b h with
  | zero =>
    have e := pure_eq_some.1 e
    simp only [Prod.mk.injEq] at e
    obtain ⟨⟨-, rfl, -, -⟩, -⟩ := e
    simp [rest, Nat.mod_one]
  | succ n ih =>
    obtain ⟨⟨rc₁, r₁, p₁⟩, h₁, e₁, e₂⟩ := bind_eq_some.1 e
    obtain ⟨rfl | rfl, -, hx⟩ := exptStep_spec e₁
    · obtain ⟨⟨rc₂, p₂⟩, h₂, e₃, e₄⟩ := bind_eq_some.1 e₂
      have hx := hx rfl
      cases bintMul_spec e₃ with
      | failed g₂ _ => exact absurd (pure_eq_some.1 e₄) (by simp)
      | done hm g₂ =>
        rw [rest_succ, ← bintBitGet_eq]
        rw [ExptTidy] at ht
        split_ifs at ht hx with hbit
        · obtain ⟨t₁, t₂, t₃⟩ := ht
          obtain ⟨hr₁, rfl⟩ := hx
          have hv₁ := hr₁.product hp hr hb t₁
          have hv₂ := hm.product hr hb hb t₂
          rw [ih hv₁.canonical hb hv₂.canonical (by rwa [hv₁.value, hv₂.value]) e₄,
            hr₁.toInt_eq hp hr hb t₁, hm.toInt_eq hr hb hb t₂, hbit, Bool.toNat_true]
          ring
        · obtain ⟨t₁, t₂⟩ := ht
          obtain ⟨rfl, rfl⟩ := hx
          have hv := hm.product hp hb hb t₁
          rw [ih hr hb hv.canonical (by rwa [hv.value]) e₄, hm.toInt_eq hp hb hb t₁,
            Bool.eq_false_iff.2 hbit, Bool.toNat_false]
          ring
    · exact absurd (pure_eq_some.1 e₂) (by simp)

/-! ## Calls -/

theorem Ends.intStep {P : Bint → Prop} {F : Prop} {i : I} {v : ℤ}
    (he : Ends (σ i) P F h ((rc, d), h')) (hp : P d → toInt d = v)
    (hop : op.onInts (ints σ) = Function.update (ints σ) i v) (hcode : op.code (ints σ) = 0) :
    IntStep (ints σ) (op, rc) (ints (Function.update σ i d)) := by
  cases he with
  | done hP g =>
    rw [ints_update, hp hP, ← hop, ← hcode]
    exact .done op
  | failed g hf =>
    rw [Function.update_eq_self]
    exact .refused op

theorem intStep_of_eq {i : I} {v : ℤ} (hv : toInt d = v)
    (hop : op.onInts (ints σ) = Function.update (ints σ) i v) (hcode : rc = op.code (ints σ)) :
    IntStep (ints σ) (op, rc) (ints (Function.update σ i d)) := by
  rw [ints_update, hv, ← hop, hcode]
  exact .done op

theorem ints_divStore {q : Bint} {quotient remainder : Option I} :
    ints (divStore σ r q quotient remainder) =
      setSome (setSome (ints σ) (toInt r) remainder) (toInt q) quotient := by
  cases quotient <;> cases remainder <;> simp [divStore, swapOut, setSome, ints_update]

/-- A call with an exact result is a call on the integers, or it is refused. -/
theorem exec_onInts (hσ : ∀ i, Tidy (σ i)) (hs : SignedCall σ op) (hx : ExactCall σ op)
    (e : exec σ op h = some ((rc, σ'), h')) : IntStep (ints σ) (op, rc) (ints σ') := by
  have hc : ∀ i, Canonical (σ i) := fun i => (hσ i).canonical
  have habs : ∀ i, (ints σ i).natAbs = mag (σ i) := fun i => natAbs_toInt (σ i)
  cases op with
  | init b value =>
    obtain ⟨d, e₁, rfl, rfl⟩ := onObject'_eq_some e
    exact intStep_of_eq (bintSet_spec e₁ ▸ toInt_small value) rfl rfl
  | set b value =>
    obtain ⟨d, e₁, rfl, rfl⟩ := onObject'_eq_some e
    exact intStep_of_eq (bintSet_spec e₁ ▸ toInt_small value) rfl rfl
  | setSign b sign =>
    obtain ⟨d, e₁, rfl, rfl⟩ := onObject'_eq_some e
    obtain ⟨rfl, -⟩ := Prod.mk.inj (pure_eq_some.1 e₁)
    refine intStep_of_eq ?_ rfl rfl
    have hm : mag (bintSetSign (σ b) sign) = mag (σ b) := rfl
    rw [toInt, hm, ints, abs_toInt]
    simp [bintSetSign]
  | copy dst src =>
    obtain ⟨d, e₁, rfl⟩ := onObject_eq_some e
    refine (bintCopy_spec e₁).intStep (fun hd => ?_) rfl rfl
    rw [hd.1, operand]
    split_ifs with hsrc
    · subst hsrc
      simp [copied, toInt, ints]
    · rfl
  | swap a b =>
    have e := pure_eq_some.1 e
    simp only [Prod.mk.injEq] at e
    obtain ⟨⟨rfl, rfl⟩, -⟩ := e
    rw [ints_update, ints_update]
    exact .done (.swap a b)
  | add dst src =>
    obtain ⟨d, e₁, rfl⟩ := onObject_eq_some e
    refine (bintAdd_spec (hc dst) (by simp [hc]) e₁).intStep (fun hd => ?_) rfl rfl
    refine hd.toInt_eq (by simp [hc]) (by rw [operand_get]; exact hx) (fun hn => ?_) fun hn => ?_
    · rw [operand_get] at hn ⊢
      rw [ints, toInt, hn]
    · rw [operand_get] at hn ⊢
      rw [ints, toInt, Bool.eq_not.2 hn]
      cases (σ src).negative <;> rfl
  | sub dst src =>
    obtain ⟨d, e₁, rfl⟩ := onObject_eq_some e
    refine (bintSub_spec (hc dst) (by simp [hc]) e₁).intStep (fun hd => ?_) rfl rfl
    rw [sub_eq_add_neg]
    refine hd.toInt_eq (by simp [hc]) (by rw [operand_get]; exact hx) (fun hn => ?_) fun hn => ?_
    · rw [operand_get] at hn ⊢
      rw [ints, toInt, Bool.eq_not.2 hn]
      cases (σ src).negative <;> simp
    · rw [operand_get] at hn ⊢
      rw [ints, toInt, not_not.1 hn]
      split_ifs <;> simp
  | mul result a b =>
    obtain ⟨d, e₁, rfl⟩ := onObject_eq_some e
    refine (bintMul_spec e₁).intStep (fun hd => ?_) rfl rfl
    exact hd.toInt_eq (hc result) (hc a) (hc b) hs
  | div quotient dividend divisor remainder =>
    rw [exec] at e
    cases bintDiv_spec (hc dividend) (hc divisor) e with
    | zero hz =>
      have h₀ : ints σ divisor = 0 := by
        rw [(hc divisor).bintBitLength, Nat.mod_eq_of_lt hx.divisor_lt, Nat.size_eq_zero] at hz
        rw [← Int.natAbs_eq_zero, habs, hz]
      have hdone := IntStep.done (z := ints σ) (.div quotient dividend divisor remainder)
      rwa [Op.code, Op.onInts, if_pos h₀, if_pos h₀] at hdone
    | failed g => exact .refused _
    | done hz hr =>
      have h₀ : ints σ divisor ≠ 0 := by rwa [← Int.natAbs_ne_zero, habs]
      have hdone := IntStep.done (z := ints σ) (.div quotient dividend divisor remainder)
      obtain ⟨hq, hm⟩ := hr.fdiv_fmod hz hx
      rw [Op.code, Op.onInts, if_neg h₀, if_neg h₀, ints, ints, hq, hm] at hdone
      rw [ints_divStore]
      exact hdone
  | expt result base exponent =>
    rw [exec] at e
    cases bintExpt_spec e with
    | failed g => exact .refused _
    | done hr =>
      obtain ⟨r', p', b', h₁, h₂, e₁, e₂, hσ'⟩ := of_bintExpt e
      have hv := exptLoop_toInt (r := bintOne) (p := bintZero) (by decide) (by decide)
        (hc base) hs e₂
      rw [hσ']
      refine intStep_of_eq ?_ rfl rfl
      rw [hv, rest_zero, (hc exponent).bintBitLength, Nat.mod_eq_of_lt hx,
        Nat.mod_eq_of_lt (Nat.lt_size_self _), habs]
      exact one_mul _
  | bitSet b pos =>
    obtain ⟨d, e₁, rfl⟩ := onObject_eq_some e
    refine (bintBitSet_spec e₁).intStep (fun hd => ?_) rfl rfl
    exact (hσ b).toInt_eq hd.negative (by rw [hd.value, habs])
  | bitClear b pos =>
    obtain ⟨d, e₁, rfl, rfl⟩ := onObject'_eq_some e
    obtain ⟨-, hn, hv, -⟩ := bintBitClear_spec (hc b) e₁
    exact intStep_of_eq ((hσ b).toInt_eq hn (by rw [hv, habs])) rfl rfl
  | or dst src =>
    obtain ⟨d, e₁, rfl⟩ := onObject_eq_some e
    refine (bintOr_spec e₁).intStep (fun hd => ?_) rfl rfl
    exact (hσ dst).toInt_eq hd.1 (by rw [hd.2.1, operand_get, habs, habs])
  | and dst src =>
    obtain ⟨d, e₁, rfl, rfl⟩ := onObject'_eq_some e
    obtain ⟨-, hn, hv, -⟩ := bintAnd_spec e₁
    exact intStep_of_eq ((hσ dst).toInt_eq hn (by rw [hv, operand_get, habs, habs])) rfl rfl
  | bic dst src =>
    obtain ⟨d, e₁, rfl, rfl⟩ := onObject'_eq_some e
    obtain ⟨-, hn, hv, -⟩ := bintBic_spec (hc dst) e₁
    exact intStep_of_eq ((hσ dst).toInt_eq hn (by rw [hv, operand_get, habs, habs])) rfl rfl
  | xor dst src =>
    obtain ⟨d, e₁, rfl⟩ := onObject_eq_some e
    refine (bintXor_spec (hc dst) e₁).intStep (fun hd => ?_) rfl rfl
    exact (hσ dst).toInt_eq hd.2.1 (by rw [hd.2.2, operand_get, habs, habs])
  | shiftLeft b count =>
    obtain ⟨d, e₁, rfl⟩ := onObject_eq_some e
    refine (bintShiftLeft_spec (hc b) e₁).intStep (fun hd => ?_) rfl rfl
    have hmul : toInt (σ b) * 2 ^ count.toNat = toInt (σ b) * (2 ^ count.toNat : ℕ) := by push_cast; rfl
    rw [ints, hmul, ← withSign_mul, natAbs_toInt]
    split_ifs at hd with h₀
    · rw [hd, h₀, Nat.zero_mul, ← h₀]
      exact (hσ b).toInt_eq rfl rfl
    · have hr := hd (hs.resolve_left h₀).1
      exact (hσ b).toInt_eq hr.negative hr.value
  | shiftRight b count =>
    obtain ⟨d, e₁, rfl, rfl⟩ := onObject'_eq_some e
    obtain ⟨-, hn, hv, -⟩ := bintShiftRight_spec e₁
    refine intStep_of_eq ((hσ b).toInt_eq hn hv) ?_ rfl
    rw [← natAbs_toInt, withSign_tdiv, Op.onInts]
    norm_cast
  | digitPush b base digit =>
    obtain ⟨d, e₁, rfl⟩ := onObject_eq_some e
    refine (bintDigitPush_spec e₁).intStep (fun hd => ?_) rfl rfl
    obtain ⟨-, hn, hlt, hv⟩ := hd
    refine (hσ b).toInt_eq hn ?_
    rw [hv, pushRoom_eq (hc b), habs]
    exact Nat.mod_eq_of_lt (hx hlt)
  | digitPop b base =>
    obtain ⟨d, e₁, rfl⟩ := onObject_eq_some e
    obtain ⟨⟨digit, v⟩, h₁, e₂, e₃⟩ := bind_eq_some.1 e₁
    obtain ⟨he, -⟩ := Prod.mk.inj (pure_eq_some.1 e₃)
    obtain ⟨rfl, rfl⟩ := Prod.mk.inj he
    have hp := (bintDigitPop_spec e₂).2
    split_ifs at hp with h₀
    · obtain ⟨rfl, rfl⟩ := hp
      have hdone := IntStep.done (z := ints σ) (.digitPop b base)
      rw [Op.code, Op.onInts, if_pos h₀, if_pos h₀] at hdone
      rw [Function.update_eq_self]
      exact hdone
    · obtain ⟨-, hn, hv, hdigit⟩ := hp
      refine intStep_of_eq ((hσ b).toInt_eq hn hv) ?_ ?_
      · rw [← natAbs_toInt, withSign_tdiv, Op.onInts, if_neg h₀, ints]
      · rw [Op.code, if_neg h₀, habs, hdigit]
        push_cast
        rfl

/-! ## Runs -/

/-- A call with an exact result, and the code that it returns. -/
structure ExactStep (σ : Store I) (call : Op I × ℤ) (σ' : Store I) : Prop where
  legal : call.1.Legal
  signed : SignedCall σ call.1
  exact : ExactCall σ call.1
  exec : ∃ h h', exec σ call.1 h = some ((call.2, σ'), h')

/-- A run of calls with exact results is a run on integers with the same codes, in which some calls
    are refused, and what is read of the objects is right. -/
theorem run_onInts {calls : List (Op I × ℤ)}
    (hr : Labelled ExactStep (fun _ => bintZero) calls σ) :
    Labelled IntStep (fun _ => 0) calls (ints σ) ∧ ∀ i,
      (∀ j, bintCompare (σ i) (σ j) = Int.sign (ints σ i - ints σ j)) ∧
      bintGetSign (σ i) = Int.sign (ints σ i) ∧
      (∀ pos, bintBitGet (σ i) pos = (ints σ i).natAbs.testBit pos) ∧
      bintBitLength (σ i) = Nat.size (ints σ i).natAbs % 2 ^ 32 ∧
      ((ints σ i).natAbs < 2 ^ 31 → (bintGet (σ i)).toInt = ints σ i) := by
  have hzero : Tidy bintZero := ⟨by decide, by decide⟩
  have hints : (∀ i, Tidy (σ i)) ∧ Labelled IntStep (ints fun _ => bintZero) calls (ints σ) :=
    hr.image (I := fun σ => ∀ i, Tidy (σ i)) (fun _ => hzero) ints fun hσ hstep => by
      obtain ⟨h, h', e⟩ := hstep.exec
      exact ⟨exec_tidy hσ hstep.signed e, exec_onInts hσ hstep.signed hstep.exact e⟩
  obtain ⟨ht, hz⟩ := hints
  refine ⟨hz, fun i => ⟨fun j => (ht i).bintCompare (ht j), (ht i).canonical.bintGetSign,
    fun pos => ?_, ?_, bintGet_eq⟩⟩
  · rw [ints, natAbs_toInt, bintBitGet_eq]
  · rw [ints, natAbs_toInt, (ht i).canonical.bintBitLength]

/-- Seven is divided by -3. -/
theorem run_onInts_seven : ∃ σ : Store (Fin 3), Labelled IntStep (fun _ => 0)
      [(.init 0 7, 0), (.init 1 (-3), 0), (.div (some 2) 0 1 none, 0)] (ints σ) ∧
    bintCompare (σ 2) (σ 1) = Int.sign (ints σ 2 - ints σ 1) ∧ ints σ 2 = -3 := by
  obtain ⟨σ₁, h₁, e₁, hv₁⟩ : ∃ σ₁ h₁, exec (fun _ : Fin 3 => bintZero) (.init 0 7) freshHeap =
      some ((0, σ₁), h₁) ∧ σ₁ = Function.update (fun _ => bintZero) 0 (small false 7) :=
    ⟨_, _, rfl, rfl⟩
  obtain ⟨σ₂, h₂, e₂, hv₂⟩ : ∃ σ₂ h₂, exec σ₁ (.init 1 (-3)) freshHeap = some ((0, σ₂), h₂) ∧
      σ₂ = Function.update σ₁ 1 (small true 3) := ⟨_, _, rfl, rfl⟩
  subst hv₁ hv₂
  obtain ⟨σ₃, h₃, e₃, hv₃⟩ : ∃ σ₃ h₃, exec (Function.update
      (Function.update (fun _ : Fin 3 => bintZero) 0 (small false 7)) 1 (small true 3))
      (.div (some 2) 0 1 none) freshHeap = some ((0, σ₃), h₃) ∧ toInt (σ₃ 2) = -3 :=
    ⟨_, _, rfl, by decide +kernel⟩
  have hrun : Labelled ExactStep (fun _ : Fin 3 => bintZero)
      [(.init 0 7, 0), (.init 1 (-3), 0), (.div (some 2) 0 1 none, 0)] σ₃ :=
    ((Labelled.nil.snoc ⟨trivial, trivial, trivial, _, _, e₁⟩).snoc
      ⟨trivial, trivial, trivial, _, _, e₂⟩).snoc
      ⟨trivial, ⟨by simp, fun _ _ => by decide⟩,
        ⟨fun h => absurd h (by decide), fun _ _ => by decide, by decide⟩, _, _, e₃⟩
  obtain ⟨hz, hread⟩ := run_onInts hrun
  exact ⟨σ₃, hz, (hread 2).1 1, hv₃⟩

end Dlb.Bint
