import Dlb.Bint.Alloc

/-!
# Base conversion

`bint_digit_push` multiplies the magnitude by the base and adds a digit, and
`bint_digit_pop` divides by the base and returns the remainder.
-/

namespace Dlb.Bint

variable {h h' : Heap} {b : Bint}

theorem length_digitLoop (carry : UInt32) (cs : List Chunk) :
    (digitLoop carry cs).length = cs.length := by
  induction cs generalizing carry with
  | nil => rfl
  | cons c cs ih =>
    rw [digitLoop]
    split_ifs <;> simp [ih]

/-- The second loop of `bint_digit_push` adds the digit. -/
theorem digitLoop_spec (carry : UInt32) (cs : List Chunk) :
    chain (digitLoop carry cs) = (chain cs + carry.toNat) % radix ^ cs.length := by
  suffices hk : ∃ k, chain (digitLoop carry cs) + radix ^ cs.length * k =
      chain cs + carry.toNat by
    obtain ⟨k, hk⟩ := hk
    have hlt := chain_lt (digitLoop carry cs)
    rw [length_digitLoop] at hlt
    rw [← hk, Nat.add_mul_mod_self_left, Nat.mod_eq_of_lt hlt]
  induction cs generalizing carry with
  | nil => exact ⟨carry.toNat, by simp [digitLoop]⟩
  | cons c cs ih =>
    rw [digitLoop]
    by_cases hc : carry = 0
    · exact ⟨0, by simp [hc]⟩
    · rw [if_pos hc]
      have hv := val_digitComponent carry c
      obtain ⟨k, hk⟩ := ih (c.scan digitComponent carry).2
      refine ⟨k, ?_⟩
      rw [chain_cons, chain_cons, List.length_cons, pow_succ']
      calc (c.scan digitComponent carry).1.val +
            radix * chain (digitLoop (c.scan digitComponent carry).2 cs) +
            radix * radix ^ cs.length * k
          = (c.scan digitComponent carry).1.val +
            radix * (chain (digitLoop (c.scan digitComponent carry).2 cs) +
              radix ^ cs.length * k) := by ring
        _ = (c.scan digitComponent carry).1.val +
            radix * (c.scan digitComponent carry).2.toNat + radix * chain cs := by rw [hk]; ring
        _ = c.val + radix * chain cs + carry.toNat := by rw [hv]; ring

/-- The first loop of `bint_digit_push` multiplies by the base. -/
theorem chain_mulComponent (base : UInt32) (cs : List Chunk) :
    chain (scan (fun carry c => c.scan (mulComponent base) carry) 0 cs).1 =
      base.toNat * chain cs % radix ^ cs.length := by
  have hs := (eval_scan (β := radix) (u := fun c : Chunk => base.toNat * c.val) (v := Chunk.val)
    (w := UInt32.toNat) (p := fun _ => True)
    (fun carry c _ => ⟨val_mulComponent base carry c, trivial⟩) (s := 0) trivial cs).1
  rw [eval_mul, UInt32.toNat_zero, add_zero] at hs
  change chain _ + _ = base.toNat * chain cs at hs
  have hlt := chain_lt (scan (fun carry (c : Chunk) => c.scan (mulComponent base) carry) 0 cs).1
  rw [length_scan] at hlt
  rw [← hs, Nat.add_mul_mod_self_left, Nat.mod_eq_of_lt hlt]

/-- The length for which `bint_digit_push` makes room. -/
def pushLength (b : Bint) (base : UInt32) : ℕ := (bintBitLength b + bitLength base + 1) % 2 ^ 32

/-- The number of chunks in which `bint_digit_push` computes. -/
def pushRoom (b : Bint) (base : UInt32) : ℕ := max (pushLength b base / 128) b.next.length + 1

theorem bintDigitPush_spec {base digit : UInt32} {r : (ℤ × Bint) × Heap}
    (e : bintDigitPush b base digit h = some r) :
    Ends b (fun d => Canonical d ∧ d.negative = b.negative ∧ digit < base ∧
      mag d = (base.toNat * mag b + digit.toNat) % radix ^ pushRoom b base)
      (base ≤ digit ∨ ¬h.Ok) h r := by
  rw [bintDigitPush] at e
  split_ifs at e with hb
  · obtain rfl := pure_eq_some.1 e
    exact .failed (Gains.refl h) (.inl hb)
  · obtain ⟨⟨rc, d⟩, h₁, e₁, e₂⟩ := bind_eq_some.1 e
    cases extendLength_spec e₁ with
    | failed g hk =>
      obtain rfl := pure_eq_some.1 e₂
      exact .failed g (.inr hk)
    | done hd g =>
      obtain ⟨cs, hcs⟩ : ∃ cs, cs = digitLoop digit
          (scan (fun carry (c : Chunk) => c.scan (mulComponent base) carry) 0 d.digits).1 := ⟨_, rfl⟩
      simp only [lt_self_iff_false, if_false, ← hcs] at e₂
      obtain ⟨d', h₂, e₃, e₄⟩ := bind_eq_some.1 e₂
      obtain rfl := pure_eq_some.1 e₄
      obtain ⟨rfl, g'⟩ := trimChunks_spec e₃
      have hl : cs.length = d.digits.length := by rw [hcs, length_digitLoop, length_scan]
      have hne : cs ≠ [] := by
        rintro rfl
        simp at hl
      have hroom : d.digits.length = pushRoom b base := by
        rw [hd, length_digits, length_extend]
        rfl
      refine .done ⟨trimmed_canonical _, by simp [hd], UInt32.not_le.1 hb, ?_⟩
        ((g.trans g').of_eq ?_)
      · rw [mag_trimmed, mag_setDigits _ hne, hcs, digitLoop_spec, length_scan, chain_mulComponent,
          hroom, ← mag, hd, mag_extend, Nat.mod_add_mod]
      · rw [length_next_setDigits _ hne, hl, length_digits, Nat.add_sub_cancel]
        ring

/-- `bint_digit_push` never faults. -/
theorem bintDigitPush_returns (b : Bint) (base digit : UInt32) (h : Heap) :
    ∃ r, bintDigitPush b base digit h = some r := by
  rw [bintDigitPush]
  split_ifs with hb
  · exact ⟨_, rfl⟩
  · obtain ⟨⟨⟨rc, d⟩, h₁⟩, e₁, -⟩ :=
      extendLength_returns b ((bintBitLength b + bitLength base + 1) % 2 ^ 32) h
    by_cases hrc : rc < 0
    · exact ⟨((-1, d), h₁), bind_eq_some.2 ⟨_, _, e₁, by simp only [hrc, if_true]; rfl⟩⟩
    · obtain ⟨cs, hcs⟩ : ∃ cs, cs = digitLoop digit
          (scan (fun carry (c : Chunk) => c.scan (mulComponent base) carry) 0 d.digits).1 := ⟨_, rfl⟩
      obtain ⟨h₂, e₂, -⟩ := trimChunks_returns (d.setDigits cs) h₁
      refine ⟨((0, trimmed (d.setDigits cs)), h₂), bind_eq_some.2 ⟨_, _, e₁, ?_⟩⟩
      simp only [hrc, if_false, ← hcs]
      exact bind_eq_some.2 ⟨_, _, e₂, rfl⟩

/-- What `bint_digit_push` computes if the length does not overflow. -/
theorem push_lt_room {base digit : UInt32} (hb : Canonical b) (hd : digit < base)
    (hlt : Nat.size (mag b) + Nat.size base.toNat + 1 < 2 ^ 32) :
    base.toNat * mag b + digit.toNat < radix ^ pushRoom b base := by
  have h₁ := Nat.lt_size_self (mag b)
  have h₂ := Nat.lt_size_self base.toNat
  have h₃ := UInt32.lt_iff_toNat_lt.1 hd
  have hlen : pushLength b base = Nat.size (mag b) + Nat.size base.toNat + 1 := by
    rw [pushLength, hb.bintBitLength, bitLength_eq, Nat.mod_eq_of_lt (a := Nat.size _) (by omega),
      Nat.mod_eq_of_lt hlt]
  calc base.toNat * mag b + digit.toNat < base.toNat * (mag b + 1) := by rw [mul_add]; omega
    _ ≤ 2 ^ Nat.size base.toNat * 2 ^ Nat.size (mag b) := Nat.mul_le_mul h₂.le h₁
    _ = 2 ^ (Nat.size base.toNat + Nat.size (mag b)) := (pow_add _ _ _).symm
    _ ≤ radix ^ pushRoom b base := by
      rw [pow_radix, pushRoom, hlen]
      exact Nat.pow_le_pow_right (by simp) (by omega)

/-- `bint_digit_pop` never faults. -/
theorem bintDigitPop_returns (b : Bint) (base : UInt32) (h : Heap) :
    ∃ digit r h', bintDigitPop b base h = some ((digit, r), h') := by
  rw [bintDigitPop]
  split_ifs with h₀
  · exact ⟨_, _, _, rfl⟩
  · obtain ⟨h₁, e, -⟩ := trimChunks_returns (b.setDigits
      (scanDown (fun r (c : Chunk) => c.scanDown (popComponent base) r) 0 b.digits).1) h
    exact ⟨_, _, _, bind_eq_some.2 ⟨_, _, e, rfl⟩⟩

theorem bintDigitPop_spec {base digit : UInt32} {r : Bint}
    (e : bintDigitPop b base h = some ((digit, r), h')) : Gains h h' (r.next.length - b.next.length) ∧
      if base = 0 then digit = 0 ∧ r = b
      else Canonical r ∧ r.negative = b.negative ∧ mag r = mag b / base.toNat ∧
        digit.toNat = mag b % base.toNat := by
  rw [bintDigitPop] at e
  split_ifs at e with h₀
  · obtain ⟨hx, rfl⟩ := Prod.mk.inj (pure_eq_some.1 e)
    obtain ⟨rfl, rfl⟩ := Prod.mk.inj hx
    exact ⟨by simpa using Gains.refl h, by simp [h₀]⟩
  · obtain ⟨t, ht⟩ : ∃ t, t = scanDown (fun r (c : Chunk) => c.scanDown (popComponent base) r) 0
      b.digits := ⟨_, rfl⟩
    simp only [← ht] at e
    obtain ⟨d, h₁, e₁, e₂⟩ := bind_eq_some.1 e
    obtain ⟨hx, rfl⟩ := Prod.mk.inj (pure_eq_some.1 e₂)
    obtain ⟨rfl, rfl⟩ := Prod.mk.inj hx
    obtain ⟨rfl, g⟩ := trimChunks_spec e₁
    have hb : 0 < base.toNat := Nat.pos_of_ne_zero (toNat_ne_zero.2 h₀)
    have hl : t.1.length = b.digits.length := by rw [ht, length_scanDown]
    have hne : t.1 ≠ [] := by
      intro hn
      simp [hn] at hl
    obtain ⟨hs, hr⟩ := eval_scanDown (β := radix) (m := base.toNat) (u := Chunk.val)
      (v := Chunk.val) (w := UInt64.toNat) (p := fun r : UInt64 => r.toNat < base.toNat)
      (fun r c hr => val_popComponent hr c) (s := 0) (by simpa using hb) b.digits
    rw [← ht, UInt64.toNat_zero, mul_zero, add_zero] at hs
    rw [← ht] at hr
    change base.toNat * chain t.1 + _ = mag b at hs
    refine ⟨g.of_eq ?_, ?_⟩
    · rw [length_next_setDigits _ hne, hl, length_digits, Nat.add_sub_cancel]
    · rw [if_neg h₀]
      refine ⟨trimmed_canonical _, by simp, ?_, ?_⟩
      · rw [mag_trimmed, mag_setDigits _ hne, ← hs, Nat.mul_add_div hb, Nat.div_eq_of_lt hr, add_zero]
      · have := base.toNat_lt
        rw [← hs, Nat.mul_add_mod, Nat.mod_eq_of_lt hr, toNat_lo, Nat.mod_eq_of_lt (by omega)]

end Dlb.Bint
