import Dlb.Bint.Run

/-!
# The order of the numbers

`bint_compare` looks at the sign flags and the lengths of the chains before it looks at
the digits. It decides the order of the numbers that are denoted if these are tidy:
canonical, and with no sign flag on zero. Calls of the interface that make a negative
number zero leave the flag set; `SignedCall` says when they do not.
-/

namespace Dlb.Bint

variable {I : Type} [DecidableEq I] {h h' : Heap} {σ σ' : Store I} {op : Op I} {rc : ℤ}
  {a b : Bint}

/-! ## Comparison -/

theorem Tidy.bintCompare (ha : Tidy a) (hb : Tidy b) :
    bintCompare a b = Int.sign (toInt a - toInt b) := by
  have hc := ha.canonical.magCmp hb.canonical
  rw [Bint.bintCompare]
  cases hna : a.negative <;> cases hnb : b.negative
  · simp [toInt, hna, hnb, hc]
  · have := hb.signed hnb
    simp only [toInt, hna, hnb, Bool.false_and, Bool.true_and, Bool.not_false, Bool.false_eq_true,
      if_false, if_true]
    rw [Int.sign_eq_one_of_pos (by omega)]
  · have := ha.signed hna
    simp only [toInt, hna, hnb, Bool.true_and, Bool.not_false, Bool.false_eq_true, if_false, if_true]
    rw [Int.sign_eq_neg_one_of_neg (by omega)]
  · simp only [toInt, hna, hnb, Bool.not_true, Bool.and_false, Bool.false_eq_true, if_false, if_true]
    rw [hc, ← Int.sign_neg]
    congr 1
    ring

/-! ## Calls that leave no sign on zero -/

/-- A sum or a difference with no sign on zero: a sum of magnitudes with the sign flag set loses
    no carry, and a difference of magnitudes with the flag set is not zero. -/
structure SumSigned (same : Prop) (dst src : Bint) : Prop where
  sum : same → dst.negative = true → AddExact dst src
  diff : ¬same → dst.negative = true → mag dst ≠ mag src
  length : ¬same → dst.negative = false → mag dst < mag src → Nat.size (mag src) < 2 ^ 32

/-- A division with no sign on zero: the remainder is not zero if the divisor is negative, and the
    incremented quotient does not wrap to zero. -/
structure DivSigned (dividend divisor : Bint) (quotient remainder : Option I) : Prop where
  remainder : remainder.isSome → divisor.negative = true →
    if dividend.negative = true then
      mag dividend ≠ divQuot (mag dividend) (mag divisor) * mag divisor
    else mag dividend ≠ divQuot (mag dividend) (mag divisor) * mag divisor + mag divisor
  quotient : quotient.isSome → dividend.negative ≠ divisor.negative →
    divQuot (mag dividend) (mag divisor) ≠ 2 ^ 160 - 1

/-- A call that keeps the numbers tidy. -/
def SignedCall (σ : Store I) : Op I → Prop
  | .setSign b sign => sign < 0 → mag (σ b) ≠ 0
  | .add dst src => SumSigned ((σ dst).negative = (σ src).negative) (σ dst) (σ src)
  | .sub dst src => SumSigned ((σ dst).negative ≠ (σ src).negative) (σ dst) (σ src)
  | .div quotient dividend divisor remainder =>
    DivSigned (σ dividend) (σ divisor) quotient remainder
  | .bitClear b pos => (σ b).negative = true → mag (σ b) ≠ 2 ^ pos.toNat
  | .and dst src => (σ dst).negative = true → mag (σ dst) &&& mag (σ src) ≠ 0
  | .bic dst src => (σ dst).negative = true → bic (mag (σ dst)) (mag (σ src)) ≠ 0
  | .xor dst src => (σ dst).negative = true → mag (σ dst) ≠ mag (σ src)
  | .shiftRight b count => (σ b).negative = true → 2 ^ count.toNat ≤ mag (σ b)
  | .digitPush b base _ => (σ b).negative = true →
    Nat.size (mag (σ b)) + Nat.size base.toNat + 1 < 2 ^ 32
  | .digitPop b base => (σ b).negative = true → base.toNat ≤ mag (σ b)
  | op => TidyCall σ op

omit [DecidableEq I] in
theorem SignedCall.tidyCall (hs : SignedCall σ op) : TidyCall σ op := by
  cases op <;> first | exact hs | exact trivial

theorem SumResult.signed {same : Prop} {dst d : Bint} {src : Operand} (hd : SumResult same dst src d)
    (ht : Tidy dst) (hc : Canonical (src.get dst)) (hs : SumSigned same dst (src.get dst)) :
    Signed d := by
  intro hn
  by_cases hx : same
  · have he := hd.1 hx
    rw [he, negative_trimmed, negative_setDigits] at hn
    rw [he, mag_trimmed, mag_setDigits _ (addDigits_ne_nil _ _),
      (chain_addDigits_eq_iff hc).2 (hs.sum hx hn)]
    have := ht.signed hn
    omega
  · have he := hd.2 hx
    rcases le_or_gt (mag (src.get dst)) (mag dst) with hle | hlt
    · obtain ⟨h₁, h₂⟩ := he.ge hle
      have := hs.diff hx (h₁ ▸ hn)
      omega
    · obtain ⟨h₁, h₂⟩ := he.lt hlt
      have hd : dst.negative = false := by simpa [hn] using h₁.symm
      have := h₂ (hs.length hx hd hlt)
      omega

omit [DecidableEq I] in
theorem DivResult.signed_remainder {quotient remainder : Option I} {r q : Bint}
    (hr : DivResult a b r q) (hs : DivSigned a b quotient remainder) (hm : remainder.isSome) :
    Signed r := by
  intro hn
  have hb : b.negative = true := hr.remainder.2 ▸ hn
  have hx := hs.remainder hm hb
  split_ifs at hx with ha
  · have := (hr.same (ha.trans hb.symm)).1
    omega
  · have h₁ := (hr.opposite (by simp [ha, hb])).1
    intro h₀
    rw [h₀, Nat.cast_zero, eq_comm, abs_eq_zero, sub_sub, sub_eq_zero] at h₁
    exact hx (mod_cast h₁)

omit [DecidableEq I] in
theorem DivResult.signed_quotient {quotient remainder : Option I} {r q : Bint}
    (hr : DivResult a b r q) (hs : DivSigned a b quotient remainder) (hm : quotient.isSome) :
    Signed q := by
  intro hn
  have hne : a.negative ≠ b.negative := by simpa [hn] using hr.quotient.2.symm
  have h₁ := (hr.opposite hne).2
  have h₂ := hs.quotient hm hne
  split_ifs at h₁ <;> omega

theorem tidy_divStore {rem quot : Bint} {quotient remainder : Option I} (hσ : ∀ i, Tidy (σ i))
    (hr : remainder.isSome → Tidy rem) (hq : quotient.isSome → Tidy quot) (i : I) :
    Tidy (divStore σ rem quot quotient remainder i) := by
  cases quotient <;> cases remainder <;> simp only [divStore, swapOut]
  · exact hσ i
  · exact forall_update hσ (hr rfl) i
  · exact forall_update hσ (hq rfl) i
  · exact forall_update (forall_update hσ (hr rfl)) (hq rfl) i

theorem bic_two_pow_eq_zero {m pos : ℕ} (h : bic m (2 ^ pos) = 0) : m = 0 ∨ m = 2 ^ pos := by
  have hbit : ∀ i, pos ≠ i → m.testBit i = false := by
    intro i hi
    have := congrArg (Nat.testBit · i) h
    simpa [testBit_bic, Nat.testBit_two_pow, hi] using this
  by_cases hb : m.testBit pos
  · right
    refine Nat.eq_of_testBit_eq fun i => ?_
    by_cases hi : pos = i
    · rw [← hi, hb, Nat.testBit_two_pow_self]
    · rw [hbit i hi, Nat.testBit_two_pow_of_ne hi]
  · left
    refine Nat.eq_of_testBit_eq fun i => ?_
    rw [Nat.zero_testBit]
    by_cases hi : pos = i
    · simpa [← hi] using hb
    · exact hbit i hi

theorem signed_small (value : Int32) :
    Signed (small (value < 0) (if value < 0 then (-value).toUInt32 else value.toUInt32)) := by
  intro hn
  have hlt : value < 0 := by simpa [small] using hn
  have hm : ∀ n d, mag (small n d) = d.toNat := fun n d => by
    simp [mag, small, digits, Chunk.val]
  rw [hm, if_pos hlt, toNat_ne_zero]
  intro h₀
  have hz : -value = 0 := Int32.toBitVec_inj.1 (congrArg UInt32.toBitVec h₀)
  rw [← Int32.neg_zero, Int32.neg_inj] at hz
  rw [hz] at hlt
  exact Int32.lt_irrefl hlt

/-! ## Results with the sign of an operand -/

theorem signed_of_negative_eq {d : Bint} (hn : d.negative = b.negative)
    (hm : b.negative = true → mag d ≠ 0) : Signed d := fun hd => hm (hn ▸ hd)

theorem Signed.lor {d : Bint} {n : ℕ} (hb : Signed b) (hn : d.negative = b.negative)
    (hm : mag d = mag b ||| n) : Signed d := by
  refine signed_of_negative_eq hn fun hneg => ?_
  have h₁ := hb hneg
  have h₂ : mag b ≤ mag b ||| n := Nat.left_le_or
  rw [hm]
  omega

theorem Signed.push {d : Bint} {base digit : UInt32} (hc : Canonical b) (hb : Signed b)
    (hs : b.negative = true → Nat.size (mag b) + Nat.size base.toNat + 1 < 2 ^ 32)
    (hn : d.negative = b.negative) (hlt : digit < base)
    (hm : mag d = (base.toNat * mag b + digit.toNat) % radix ^ pushRoom b base) : Signed d := by
  refine signed_of_negative_eq hn fun hneg => ?_
  have hpos : 0 < base.toNat := Nat.zero_lt_of_lt (UInt32.lt_iff_toNat_lt.1 hlt)
  have : 0 < base.toNat * mag b := Nat.mul_pos hpos (Nat.pos_of_ne_zero (hb hneg))
  rw [hm, Nat.mod_eq_of_lt (push_lt_room hc hlt (hs hneg))]
  omega

theorem signed_copied {dst src : I} (hσ : ∀ i, Signed (σ i)) :
    Signed (copied (σ dst) (operand σ dst src)) := by
  rw [operand]
  split_ifs with hx
  · rw [copied, Signed, mag_extend]
    exact hσ dst
  · exact hσ src

/-- Every call keeps the numbers tidy under the condition `SignedCall`. -/
theorem exec_tidy (hσ : ∀ i, Tidy (σ i)) (hs : SignedCall σ op)
    (e : exec σ op h = some ((rc, σ'), h')) (i : I) : Tidy (σ' i) := by
  have hc : ∀ i, Canonical (σ i) := fun i => (hσ i).canonical
  refine ⟨exec_canonical hc hs.tidyCall e i, ?_⟩
  have hsg : ∀ i, Signed (σ i) := fun i => (hσ i).signed
  revert i
  cases op with
  | init b value =>
    obtain ⟨d, e₁, -, rfl⟩ := onObject'_eq_some e
    refine forall_update hsg ?_
    rw [bintSet_spec e₁]
    exact signed_small value
  | set b value =>
    obtain ⟨d, e₁, -, rfl⟩ := onObject'_eq_some e
    refine forall_update hsg ?_
    rw [bintSet_spec e₁]
    exact signed_small value
  | setSign b sign =>
    obtain ⟨d, e₁, -, rfl⟩ := onObject'_eq_some e
    obtain ⟨rfl, -⟩ := Prod.mk.inj (pure_eq_some.1 e₁)
    refine forall_update hsg fun hn => ?_
    exact hs (by simpa [bintSetSign] using hn)
  | copy dst src =>
    obtain ⟨d, e₁, rfl⟩ := onObject_eq_some e
    refine forall_update hsg ?_
    exact (bintCopy_spec e₁).apply (Q := Signed) (hσ dst).signed fun hd =>
      hd.1 ▸ signed_copied hsg
  | swap a b =>
    have e := pure_eq_some.1 e
    simp only [Prod.mk.injEq] at e
    obtain ⟨⟨-, rfl⟩, -⟩ := e
    exact forall_update (P := Signed)
      (forall_update hsg (hσ b).signed) (hσ a).signed
  | add dst src =>
    obtain ⟨d, e₁, rfl⟩ := onObject_eq_some e
    refine forall_update hsg ?_
    refine (bintAdd_spec (hc dst) (by simp [hc]) e₁).apply
      (Q := Signed) (hσ dst).signed fun hd =>
        hd.signed (hσ dst) (by simp [hc]) (by rw [operand_get]; exact hs)
  | sub dst src =>
    obtain ⟨d, e₁, rfl⟩ := onObject_eq_some e
    refine forall_update hsg ?_
    refine (bintSub_spec (hc dst) (by simp [hc]) e₁).apply
      (Q := Signed) (hσ dst).signed fun hd =>
        hd.signed (hσ dst) (by simp [hc]) (by rw [operand_get]; exact hs)
  | mul result a b =>
    obtain ⟨d, e₁, rfl⟩ := onObject_eq_some e
    refine forall_update hsg ?_
    exact (bintMul_spec e₁).apply (Q := Signed) (hσ result).signed
      fun hd => (hd.product (hc result) (hc a) (hc b) hs).signed
  | div quotient dividend divisor remainder =>
    rw [exec] at e
    cases bintDiv_spec (hc dividend) (hc divisor) e with
    | zero hz => exact hsg
    | failed g => exact hsg
    | done hz hr =>
      exact fun i => (tidy_divStore hσ (fun hm => ⟨hr.remainder.1, hr.signed_remainder hs hm⟩)
        (fun hm => ⟨hr.quotient.1, hr.signed_quotient hs hm⟩) i).signed
  | expt result base exponent =>
    rw [exec] at e
    cases bintExpt_spec e with
    | failed g => exact hsg
    | done hr => exact forall_update hsg (hr (hc base) hs).signed
  | bitSet b pos =>
    obtain ⟨d, e₁, rfl⟩ := onObject_eq_some e
    refine forall_update hsg ?_
    exact (bintBitSet_spec e₁).apply (Q := Signed) (hσ b).signed fun hd =>
      (hσ b).signed.lor hd.negative hd.value
  | bitClear b pos =>
    obtain ⟨d, e₁, -, rfl⟩ := onObject'_eq_some e
    obtain ⟨-, hn, hv, -⟩ := bintBitClear_spec (hc b) e₁
    refine forall_update hsg (signed_of_negative_eq hn fun hb h₀ => ?_)
    exact (bic_two_pow_eq_zero (hv ▸ h₀)).elim ((hσ b).signed hb) (hs hb)
  | or dst src =>
    obtain ⟨d, e₁, rfl⟩ := onObject_eq_some e
    refine forall_update hsg ?_
    exact (bintOr_spec e₁).apply (Q := Signed) (hσ dst).signed fun hd =>
      (hσ dst).signed.lor hd.1 hd.2.1
  | and dst src =>
    obtain ⟨d, e₁, -, rfl⟩ := onObject'_eq_some e
    obtain ⟨-, hn, hv, -⟩ := bintAnd_spec e₁
    refine forall_update hsg (signed_of_negative_eq hn fun hb => ?_)
    rw [hv, operand_get]
    exact hs hb
  | bic dst src =>
    obtain ⟨d, e₁, -, rfl⟩ := onObject'_eq_some e
    obtain ⟨-, hn, hv, -⟩ := bintBic_spec (hc dst) e₁
    refine forall_update hsg (signed_of_negative_eq hn fun hb => ?_)
    rw [hv, operand_get]
    exact hs hb
  | xor dst src =>
    obtain ⟨d, e₁, rfl⟩ := onObject_eq_some e
    refine forall_update hsg ?_
    refine (bintXor_spec (hc dst) e₁).apply (Q := Signed)
      (hσ dst).signed fun hd => signed_of_negative_eq hd.2.1 fun hb => ?_
    rw [hd.2.2, operand_get, ne_eq, Nat.xor_eq_zero_iff]
    exact hs hb
  | shiftLeft b count =>
    obtain ⟨d, e₁, rfl⟩ := onObject_eq_some e
    refine forall_update hsg ?_
    refine (bintShiftLeft_spec (hc b) e₁).apply (Q := Signed)
      (hσ b).signed fun hd => ?_
    split_ifs at hd with h₀
    · exact hd ▸ (hσ b).signed
    · have hx := hd (hs.resolve_left h₀).1
      intro _
      rw [hx.value]
      exact Nat.mul_ne_zero h₀ (Nat.two_pow_pos _).ne'
  | shiftRight b count =>
    obtain ⟨d, e₁, -, rfl⟩ := onObject'_eq_some e
    obtain ⟨-, hn, hv, -⟩ := bintShiftRight_spec e₁
    refine forall_update hsg (signed_of_negative_eq hn fun hb => ?_)
    rw [hv]
    exact (Nat.div_pos (hs hb) (Nat.two_pow_pos _)).ne'
  | digitPush b base digit =>
    obtain ⟨d, e₁, rfl⟩ := onObject_eq_some e
    refine forall_update hsg ?_
    exact (bintDigitPush_spec e₁).apply (Q := Signed) (hσ b).signed fun hd =>
      (hσ b).signed.push (hc b) hs hd.2.1 hd.2.2.1 hd.2.2.2
  | digitPop b base =>
    obtain ⟨d, rfl, hp⟩ := digitPop_cases e
    refine forall_update hsg ?_
    split_ifs at hp with h₀
    · exact hp ▸ (hσ b).signed
    · refine signed_of_negative_eq hp.2.1 fun hb => ?_
      rw [hp.2.2]
      exact (Nat.div_pos (hs hb) (Nat.pos_of_ne_zero (toNat_ne_zero.2 h₀))).ne'

/-! ## Runs -/

/-- After every run of calls that leave no sign on zero, `bint_compare` decides the order of the
    numbers that are denoted. -/
theorem run_bintCompare (hr : Run SignedCall σ) (i j : I) :
    bintCompare (σ i) (σ j) = Int.sign (toInt (σ i) - toInt (σ j)) ∧
      (bintCompare (σ i) bintZero = 0 ↔ bintGetSign (σ i) = 0) := by
  have hzero : Tidy bintZero := ⟨by decide, by decide⟩
  have ht : ∀ i, Tidy (σ i) := by
    refine hr.induction (Q := fun σ => ∀ i, Tidy (σ i)) (fun _ => hzero) ?_
    rintro σ σ' hσ ⟨op, rc, h, h', -, hs, e⟩
    exact exec_tidy hσ hs e
  refine ⟨(ht i).bintCompare (ht j), ?_⟩
  rw [(ht i).bintCompare hzero, (ht i).canonical.bintGetSign, show toInt bintZero = 0 from rfl,
    sub_zero]

/-- The sign flag of zero is set: it compares as less than zero. -/
theorem setSign_negative_zero : ∃ σ : Store Unit, Run (fun _ _ => True) σ ∧
    toInt (σ ()) = toInt bintZero ∧ bintGetSign (σ ()) = 0 ∧ bintCompare (σ ()) bintZero = -1 := by
  obtain ⟨σ₁, h₁, e₁, hv₁⟩ : ∃ σ₁ h₁, exec (fun _ : Unit => bintZero) (.init () 0) freshHeap =
      some ((0, σ₁), h₁) ∧ σ₁ () = bintZero := ⟨_, _, rfl, rfl⟩
  obtain ⟨σ₂, h₂, e₂, hv₂⟩ : ∃ σ₂ h₂, exec σ₁ (.setSign () (-1)) freshHeap = some ((0, σ₂), h₂) ∧
      σ₂ () = bintSetSign (σ₁ ()) (-1) := ⟨_, _, rfl, rfl⟩
  refine ⟨σ₂, (Relation.ReflTransGen.single ⟨.init () 0, _, _, _, trivial, trivial, e₁⟩).tail
    ⟨.setSign () (-1), _, _, _, trivial, trivial, e₂⟩, ?_⟩
  rw [hv₂, hv₁]
  decide

/-- Five is set and its sign changed, and it compares as less than zero. -/
theorem run_bintCompare_five : ∃ σ : Store Unit, toInt (σ ()) = -5 ∧
    bintCompare (σ ()) (σ ()) = Int.sign (toInt (σ ()) - toInt (σ ())) ∧
      (bintCompare (σ ()) bintZero = 0 ↔ bintGetSign (σ ()) = 0) := by
  obtain ⟨σ₁, h₁, e₁, hv₁⟩ : ∃ σ₁ h₁, exec (fun _ : Unit => bintZero) (.init () 5) freshHeap =
      some ((0, σ₁), h₁) ∧ σ₁ () = small false 5 := ⟨_, _, rfl, rfl⟩
  obtain ⟨σ₂, h₂, e₂, hv₂⟩ : ∃ σ₂ h₂, exec σ₁ (.setSign () (-1)) freshHeap = some ((0, σ₂), h₂) ∧
      σ₂ () = bintSetSign (σ₁ ()) (-1) := ⟨_, _, rfl, rfl⟩
  refine ⟨σ₂, by rw [hv₂, hv₁]; decide, run_bintCompare ?_ () ()⟩
  refine (Relation.ReflTransGen.single ⟨.init () 5, _, _, _, trivial, trivial, e₁⟩).tail
    ⟨.setSign () (-1), _, _, _, trivial, ?_, e₂⟩
  intro _
  rw [hv₁]
  decide

end Dlb.Bint
