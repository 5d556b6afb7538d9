import Dlb.Bint.Alloc

/-!
# Shifts

`bint_shift_left` multiplies by a power of two and `bint_shift_right` divides by
one. The first of them does not trim: if the length of the result is a multiple
of the chunk size, `extend_length` has made room for one chunk too many, and the
result is not canonical.
-/

namespace Dlb.Bint

variable {h h' : Heap} {a b : Bint}

/-! ## Components -/

theorem toNat_shiftLeft_ofNat {s : ℕ} (hs : s < 32) (d : UInt32) :
    (d <<< UInt32.ofNat s).toNat = d.toNat % 2 ^ (32 - s) * 2 ^ s := by
  rw [UInt32.toNat_shiftLeft, UInt32.toNat_ofNat_of_lt' (by simp [UInt32.size]; omega),
    Nat.mod_eq_of_lt hs, Nat.shiftLeft_eq, show (2 : ℕ) ^ 32 = 2 ^ (32 - s) * 2 ^ s by
      rw [← pow_add]; congr 1; omega, Nat.mul_mod_mul_right]

theorem toNat_shiftRight_ofNat {s : ℕ} (hs : s < 32) (d : UInt32) :
    (d >>> UInt32.ofNat s).toNat = d.toNat / 2 ^ s := by
  rw [UInt32.toNat_shiftRight, UInt32.toNat_ofNat_of_lt' (by simp [UInt32.size]; omega),
    Nat.mod_eq_of_lt hs, Nat.shiftRight_eq_div_pow]

theorem sub_ofNat {s : ℕ} (hs : s < 32) : (32 : UInt32) - UInt32.ofNat s = UInt32.ofNat (32 - s) := by
  rw [UInt32.ofNat_sub (by omega)]
  rfl

theorem shlBits_spec {s : ℕ} (h₀ : 0 < s) (hs : s < 32) (c d : UInt32) (hc : c.toNat < 2 ^ s) :
    (shlBits (UInt32.ofNat s) c d).1.toNat + 2 ^ 32 * (shlBits (UInt32.ofNat s) c d).2.toNat =
        2 ^ s * d.toNat + c.toNat ∧ (shlBits (UInt32.ofNat s) c d).2.toNat < 2 ^ s := by
  have hd := d.toNat_lt
  have hp : (2 : ℕ) ^ 32 = 2 ^ s * 2 ^ (32 - s) := by rw [← pow_add]; congr 1; omega
  simp only [shlBits]
  rw [sub_ofNat hs, toNat_shiftRight_ofNat (by omega), UInt32.toNat_or,
    toNat_shiftLeft_ofNat hs, ← Nat.shiftLeft_eq, ← Nat.shiftLeft_add_eq_or_of_lt hc,
    Nat.shiftLeft_eq]
  refine ⟨?_, ?_⟩
  · conv_rhs => rw [← Nat.mod_add_div d.toNat (2 ^ (32 - s))]
    rw [hp]
    ring
  · rw [Nat.div_lt_iff_lt_mul (by simp), ← hp]
    exact hd

theorem shrBits_spec {s : ℕ} (h₀ : 0 < s) (hs : s < 32) {c : UInt32} (d : UInt32) {r : ℕ}
    (hc : c.toNat = 2 ^ (32 - s) * r) :
    2 ^ s * (shrBits (UInt32.ofNat s) c d).1.toNat + d.toNat % 2 ^ s = d.toNat + 2 ^ 32 * r ∧
      (shrBits (UInt32.ofNat s) c d).2.toNat = 2 ^ (32 - s) * (d.toNat % 2 ^ s) := by
  have hd := d.toNat_lt
  have hp : (2 : ℕ) ^ 32 = 2 ^ s * 2 ^ (32 - s) := by rw [← pow_add]; congr 1; omega
  have hlt : d.toNat / 2 ^ s < 2 ^ (32 - s) := by
    rw [Nat.div_lt_iff_lt_mul (by simp), mul_comm, ← hp]
    exact hd
  have hone : ((1 : UInt32) <<< UInt32.ofNat s).toNat = 2 ^ s := by
    rw [toNat_shiftLeft_ofNat hs, UInt32.toNat_one, Nat.mod_eq_of_lt (Nat.one_lt_two_pow (by omega)),
      one_mul]
  have hmask : ((1 : UInt32) <<< UInt32.ofNat s - 1).toNat = 2 ^ s - 1 := by
    rw [UInt32.toNat_sub_of_le, hone, UInt32.toNat_one]
    rw [UInt32.le_iff_toNat_le, hone, UInt32.toNat_one]
    exact Nat.one_le_two_pow
  simp only [shrBits]
  rw [sub_ofNat hs, toNat_shiftLeft_ofNat (by omega), UInt32.toNat_or,
    toNat_shiftRight_ofNat hs, UInt32.toNat_and, hmask, Nat.and_two_pow_sub_one_eq_mod, hc]
  refine ⟨?_, ?_⟩
  · rw [Nat.or_comm, ← Nat.two_pow_add_eq_or_of_lt hlt, mul_add, ← mul_assoc, ← hp]
    have := Nat.div_add_mod d.toNat (2 ^ s)
    omega
  · rw [show 32 - (32 - s) = s by omega, Nat.mod_mod, mul_comm]

theorem shlComponents_spec {k : ℕ} (hk : k ≤ 4) {tmp : Chunk} (c : Chunk)
    (ht : tmp.val < (2 ^ 32) ^ k) :
    (shlComponents k tmp c).val + radix * (shlNext k c).val = (2 ^ 32) ^ k * c.val + tmp.val ∧
      (shlNext k c).val < (2 ^ 32) ^ k := by
  have hp : radix = (2 ^ 32) ^ k * (2 ^ 32) ^ (4 - k) := by
    rw [radix_eq, ← pow_add]; congr 1; omega
  have hn : (shlNext k c).val = c.val / (2 ^ 32) ^ (4 - k) := by
    simp only [Chunk.val, shlNext]
    rw [limbs_append, limbs_replicate_zero, mul_zero, add_zero, limbs_drop]
  have hs : (shlComponents k tmp c).val = tmp.val + (2 ^ 32) ^ k * (c.val % (2 ^ 32) ^ (4 - k)) := by
    simp only [Chunk.val, shlComponents]
    rw [limbs_append, limbs_take, limbs_take, List.length_take_of_le (by rw [tmp.length_data]; omega)]
    rw [Nat.mod_eq_of_lt (a := limbs tmp.data) ht]
  refine ⟨?_, ?_⟩
  · rw [hs, hn, hp]
    conv_rhs => rw [← Nat.mod_add_div c.val ((2 ^ 32) ^ (4 - k))]
    ring
  · rw [hn, Nat.div_lt_iff_lt_mul (by simp), ← hp]
    exact c.val_lt

/-- The chunk loop of `bint_shift_left` multiplies by a power of two. -/
theorem shlChunk_spec {k s : ℕ} (hk : k ≤ 4) (hs : s < 32) (t : Chunk × UInt32) (c : Chunk)
    (ht : t.1.val < (2 ^ 32) ^ k ∧ t.2.toNat < 2 ^ s) :
    (shlChunk k (UInt32.ofNat s) t c).1.val +
        radix * (2 ^ s * (shlChunk k (UInt32.ofNat s) t c).2.1.val +
          (shlChunk k (UInt32.ofNat s) t c).2.2.toNat) =
      2 ^ s * (2 ^ 32) ^ k * c.val + (2 ^ s * t.1.val + t.2.toNat) ∧
    (shlChunk k (UInt32.ofNat s) t c).2.1.val < (2 ^ 32) ^ k ∧
      (shlChunk k (UInt32.ofNat s) t c).2.2.toNat < 2 ^ s := by
  obtain ⟨h₁, h₂⟩ := shlComponents_spec hk c ht.1
  rcases Nat.eq_zero_or_pos s with rfl | h₀
  · refine ⟨?_, h₂, ht.2⟩
    have h₃ : t.2.toNat = 0 := by simpa using ht.2
    simpa [shlChunk, h₃] using h₁
  · have hne : UInt32.ofNat s ≠ 0 := by
      rw [← toNat_ne_zero, UInt32.toNat_ofNat_of_lt' (by simp [UInt32.size]; omega)]
      omega
    have h₃ := Chunk.val_scan (p := fun c : UInt32 => c.toNat < 2 ^ s)
      (fun c d hc => shlBits_spec h₀ hs c d hc) ht.2 (shlComponents k t.1 c)
    rw [Chunk.eval_mul_data] at h₃
    simp only [shlChunk, if_pos hne]
    refine ⟨?_, h₂, h₃.2⟩
    calc _ = ((shlComponents k t.1 c).scan (shlBits (UInt32.ofNat s)) t.2).1.val +
            radix * ((shlComponents k t.1 c).scan (shlBits (UInt32.ofNat s)) t.2).2.toNat +
            2 ^ s * (radix * (shlNext k c).val) := by ring
      _ = 2 ^ s * ((shlComponents k t.1 c).val + radix * (shlNext k c).val) + t.2.toNat := by
          rw [h₃.1]; ring
      _ = _ := by rw [h₁]; ring

theorem shrComponents_spec {k r : ℕ} (hk : k ≤ 4) {tmp : Chunk} (c : Chunk)
    (ht : tmp.val = (2 ^ 32) ^ (4 - k) * r) :
    (2 ^ 32) ^ k * (shrComponents k tmp c).val + c.val % (2 ^ 32) ^ k = c.val + radix * r ∧
      (shrNext k c).val = (2 ^ 32) ^ (4 - k) * (c.val % (2 ^ 32) ^ k) := by
  have hp : radix = (2 ^ 32) ^ k * (2 ^ 32) ^ (4 - k) := by
    rw [radix_eq, ← pow_add]; congr 1; omega
  have hs : (shrComponents k tmp c).val = c.val / (2 ^ 32) ^ k + (2 ^ 32) ^ (4 - k) * r := by
    simp only [Chunk.val, shrComponents]
    rw [limbs_append, limbs_drop, limbs_drop, List.length_drop, c.length_data]
    change _ + _ * (tmp.val / _) = _
    rw [ht, Nat.mul_div_cancel_left _ (by simp)]
  refine ⟨?_, ?_⟩
  · rw [hs, mul_add, ← mul_assoc, ← hp, add_right_comm, Nat.div_add_mod]
  · simp only [Chunk.val, shrNext]
    rw [limbs_append, limbs_replicate_zero, zero_add, limbs_take, List.length_replicate,
      Nat.min_eq_left hk]

/-- The numbers which the loops of `bint_shift_right` carry. -/
structure ShrState (k s : ℕ) (t : Chunk × UInt32) (r q : ℕ) : Prop where
  tmp : t.1.val = (2 ^ 32) ^ (4 - k) * r
  tmp_lt : r < (2 ^ 32) ^ k
  carry : t.2.toNat = 2 ^ (32 - s) * q
  carry_lt : q < 2 ^ s

/-- The number which leaves the chunks at the bottom, in `bint_shift_right`. -/
def shrRest (k s : ℕ) (t : Chunk × UInt32) : ℕ :=
  t.1.val / (2 ^ 32) ^ (4 - k) + (2 ^ 32) ^ k * (t.2.toNat / 2 ^ (32 - s))

theorem ShrState.rest {k s r q : ℕ} {t : Chunk × UInt32} (h : ShrState k s t r q) :
    shrRest k s t = r + (2 ^ 32) ^ k * q := by
  rw [shrRest, h.tmp, h.carry, Nat.mul_div_cancel_left _ (by simp),
    Nat.mul_div_cancel_left _ (by simp)]

/-- The chunk loop of `bint_shift_right` divides by a power of two. -/
theorem shrChunk_spec {k s : ℕ} (hk : k ≤ 4) (hs : s < 32) (t : Chunk × UInt32) (c : Chunk)
    (ht : ∃ r q, ShrState k s t r q) :
    (2 ^ 32) ^ k * 2 ^ s * (shrChunk k (UInt32.ofNat s) t c).1.val +
        shrRest k s (shrChunk k (UInt32.ofNat s) t c).2 = c.val + radix * shrRest k s t ∧
      ∃ r q, ShrState k s (shrChunk k (UInt32.ofNat s) t c).2 r q := by
  obtain ⟨r, q, ht⟩ := ht
  obtain ⟨h₁, h₂⟩ := shrComponents_spec hk c ht.tmp
  have hlt : c.val % (2 ^ 32) ^ k < (2 ^ 32) ^ k := Nat.mod_lt _ (by simp)
  rcases Nat.eq_zero_or_pos s with rfl | h₀
  · have hn : ShrState k 0 (shrChunk k (UInt32.ofNat 0) t c).2 (c.val % (2 ^ 32) ^ k) q :=
      ⟨h₂, hlt, ht.carry, ht.carry_lt⟩
    refine ⟨?_, _, _, hn⟩
    have hq : q = 0 := by simpa using ht.carry_lt
    rw [hn.rest, ht.rest, hq]
    simpa [shrChunk] using h₁
  · have hne : UInt32.ofNat s ≠ 0 := by
      rw [← toNat_ne_zero, UInt32.toNat_ofNat_of_lt' (by simp [UInt32.size]; omega)]
      omega
    have h₃ := Chunk.val_scanDown (w := fun c : UInt32 => c.toNat / 2 ^ (32 - s))
      (p := fun c : UInt32 => ∃ q, c.toNat = 2 ^ (32 - s) * q ∧ q < 2 ^ s) (m := 2 ^ s)
      (f := shrBits (UInt32.ofNat s)) (s := t.2) ?_ ⟨q, ht.carry, ht.carry_lt⟩
      (shrComponents k t.1 c)
    · obtain ⟨h₃, q', h₄, h₅⟩ := h₃
      rw [h₄, ht.carry, Nat.mul_div_cancel_left _ (by simp), Nat.mul_div_cancel_left _ (by simp)]
        at h₃
      have hn : ShrState k s (shrChunk k (UInt32.ofNat s) t c).2 (c.val % (2 ^ 32) ^ k) q' := by
        simp only [shrChunk, if_pos hne]
        exact ⟨h₂, hlt, h₄, h₅⟩
      refine ⟨?_, _, _, hn⟩
      rw [hn.rest, ht.rest]
      simp only [shrChunk, if_pos hne]
      calc _ = (2 ^ 32) ^ k * (2 ^ s *
              ((shrComponents k t.1 c).scanDown (shrBits (UInt32.ofNat s)) t.2).1.val + q') +
              c.val % (2 ^ 32) ^ k := by ring
        _ = (2 ^ 32) ^ k * (shrComponents k t.1 c).val + c.val % (2 ^ 32) ^ k +
              radix * ((2 ^ 32) ^ k * q) := by rw [h₃]; ring
        _ = _ := by rw [h₁]; ring
    · rintro e d ⟨q, hq, hlt⟩
      obtain ⟨h₁, h₂⟩ := shrBits_spec h₀ hs d hq
      rw [h₂, hq, Nat.mul_div_cancel_left _ (by simp), Nat.mul_div_cancel_left _ (by simp)]
      exact ⟨h₁, _, rfl, Nat.mod_lt _ (by simp)⟩

/-! ## Chains -/

theorem two_pow_split (c : ℕ) : 2 ^ (c % 32) * (2 ^ 32) ^ (c / 32) = 2 ^ c := by
  rw [← pow_mul, ← pow_add, Nat.mod_add_div]

/-- The chunk loop of `bint_shift_left`, by less than a chunk. -/
theorem chain_shl {c : ℕ} (hc : c < 128) (cs : List Chunk) :
    chain (scan (shlChunk (c / 32) (UInt32.ofNat (c % 32))) (.zero, 0) cs).1 =
      2 ^ c * chain cs % radix ^ cs.length := by
  have hs := (eval_scan (β := radix) (u := fun d : Chunk => 2 ^ c * d.val) (v := Chunk.val)
    (w := fun t : Chunk × UInt32 => 2 ^ (c % 32) * t.1.val + t.2.toNat)
    (p := fun t : Chunk × UInt32 => t.1.val < (2 ^ 32) ^ (c / 32) ∧ t.2.toNat < 2 ^ (c % 32))
    (fun t d ht => by
      have := shlChunk_spec (k := c / 32) (s := c % 32) (by omega) (Nat.mod_lt _ (by simp)) t d ht
      rwa [two_pow_split] at this)
    (s := (.zero, 0)) (by simp) cs).1
  rw [eval_mul] at hs
  simp only [Chunk.val_zero, UInt32.toNat_zero, mul_zero, add_zero] at hs
  have hlt := chain_lt (scan (shlChunk (c / 32) (UInt32.ofNat (c % 32))) (.zero, 0) cs).1
  rw [length_scan] at hlt
  change chain _ + _ = 2 ^ c * chain cs at hs
  rw [← hs, Nat.add_mul_mod_self_left, Nat.mod_eq_of_lt hlt]

/-- The chunk loop of `bint_shift_right`, by less than a chunk. -/
theorem chain_shr {c : ℕ} (hc : c < 128) (cs : List Chunk) :
    chain (scanDown (shrChunk (c / 32) (UInt32.ofNat (c % 32))) (.zero, 0) cs).1 =
      chain cs / 2 ^ c := by
  have h₀ : ShrState (c / 32) (c % 32) (.zero, 0) 0 0 := ⟨by simp, by simp, by simp, by simp⟩
  obtain ⟨hs, r, q, ht⟩ := eval_scanDown (β := radix) (m := 2 ^ c) (u := Chunk.val)
    (v := Chunk.val) (w := shrRest (c / 32) (c % 32))
    (p := fun t => ∃ r q, ShrState (c / 32) (c % 32) t r q)
    (fun t d ht => by
      have := shrChunk_spec (k := c / 32) (s := c % 32) (by omega) (Nat.mod_lt _ (by simp)) t d ht
      rwa [mul_comm ((2 ^ 32) ^ (c / 32)), two_pow_split] at this)
    (s := (.zero, 0)) ⟨0, 0, h₀⟩ cs
  rw [h₀.rest, ht.rest, mul_zero, add_zero, mul_zero, add_zero] at hs
  change 2 ^ c * chain _ + _ = chain cs at hs
  have hlt : r + (2 ^ 32) ^ (c / 32) * q < 2 ^ c := by
    calc r + (2 ^ 32) ^ (c / 32) * q < (2 ^ 32) ^ (c / 32) * (q + 1) := by
          rw [mul_add]
          have := ht.tmp_lt
          omega
      _ ≤ (2 ^ 32) ^ (c / 32) * 2 ^ (c % 32) := Nat.mul_le_mul_left _ ht.carry_lt
      _ = 2 ^ c := by rw [mul_comm, two_pow_split]
  rw [← hs, Nat.mul_add_div (by simp), Nat.div_eq_of_lt hlt, add_zero]

/-! ## Left -/

/-- The result of `bint_shift_left` if the length does not overflow. -/
structure ShlResult (b : Bint) (count : ℕ) (d : Bint) : Prop where
  negative : d.negative = b.negative
  value : mag d = mag b * 2 ^ count
  length : d.next.length = (Nat.size (mag b) + count) / 128

/-- The chunks of the result of `bint_shift_left`. -/
def shlDigits (cs : List Chunk) (count : ℕ) : List Chunk :=
  (scan (shlChunk (count % 128 / 32) (UInt32.ofNat (count % 128 % 32))) (.zero, 0)
    (List.replicate (count / 128) .zero ++ cs.take (cs.length - count / 128))).1

theorem length_shlDigits {cs : List Chunk} {count : ℕ} (hc : count / 128 ≤ cs.length) :
    (shlDigits cs count).length = cs.length := by
  simp [shlDigits]
  omega

theorem chain_shlDigits {cs : List Chunk} {count : ℕ} (hc : count / 128 ≤ cs.length) :
    chain (shlDigits cs count) = chain cs * 2 ^ count % radix ^ cs.length := by
  have hp : radix ^ cs.length = radix ^ (count / 128) * radix ^ (cs.length - count / 128) := by
    rw [← pow_add]
    congr 1
    omega
  have h2 : (2 : ℕ) ^ count = radix ^ (count / 128) * 2 ^ (count % 128) := by
    rw [pow_radix, ← pow_add, Nat.div_add_mod]
  have hl : (List.replicate (count / 128) Chunk.zero ++
      cs.take (cs.length - count / 128)).length = cs.length := by
    simp
    omega
  rw [shlDigits, chain_shl (Nat.mod_lt _ (by simp)), hl, chain_append, chain_replicate_zero,
    zero_add, List.length_replicate, chain_take, h2, mul_left_comm, hp, Nat.mul_mod_mul_left,
    ← mul_assoc, mul_comm (chain cs), mul_assoc, Nat.mul_mod_mul_left, mul_comm (chain cs)]
  congr 1
  exact Nat.mul_mod_mod _ _ _

theorem bintShiftLeft_spec {count : ℕ} {r : (ℤ × Bint) × Heap} (hb : Canonical b)
    (e : bintShiftLeft b count h = some r) : Outcome b (fun d => if mag b = 0 then d = b
      else Nat.size (mag b) + count < 2 ^ 32 → ShlResult b count d) h r := by
  rw [bintShiftLeft] at e
  by_cases h₀ : mag b = 0
  · simp only [hb.isZero_iff.2 h₀, if_true] at e
    obtain rfl := pure_eq_some.1 e
    exact .done (by simp [h₀]) (by simpa using Gains.refl h)
  · have hz : isZero b = false := by
      rw [← Bool.not_eq_true, hb.isZero_iff]
      exact h₀
    simp only [hz, Bool.false_eq_true, if_false] at e
    obtain ⟨⟨rc, d⟩, h₁, e₁, e₂⟩ := bind_eq_some.1 e
    cases extendLength_spec e₁ with
    | failed g hk =>
      obtain rfl := pure_eq_some.1 e₂
      exact .failed g hk
    | done hd g =>
      simp only [lt_self_iff_false, if_false] at e₂
      split_ifs at e₂ with hf
      · cases e₂
      · obtain rfl := pure_eq_some.1 e₂
        change Outcome b _ h ((0, d.setDigits (shlDigits d.digits count)), h₁)
        have hl := length_shlDigits (not_lt.1 hf)
        have hne : shlDigits d.digits count ≠ [] := by
          rw [← List.length_pos_iff, hl]
          simp
        have hlen : (d.setDigits (shlDigits d.digits count)).next.length = d.next.length := by
          rw [length_next_setDigits _ hne, hl]
          simp
        refine .done ?_ (g.of_eq (by rw [hlen]))
        rw [if_neg h₀]
        intro hlt
        have hd' : d.next.length = (Nat.size (mag b) + count) / 128 := by
          have := hb.length_le_size
          rw [hd, length_extend, hb.bintBitLength, Nat.mod_eq_of_lt (by omega : Nat.size _ < _),
            Nat.mod_eq_of_lt hlt]
          omega
        refine ⟨by rw [negative_setDigits, hd, negative_extend], ?_, hlen.trans hd'⟩
        rw [mag_setDigits _ hne, chain_shlDigits (not_lt.1 hf), ← mag, hd, mag_extend, ← hd,
          length_digits, hd', Nat.mod_eq_of_lt]
        rw [pow_radix]
        calc mag b * 2 ^ count < 2 ^ Nat.size (mag b) * 2 ^ count :=
              Nat.mul_lt_mul_of_pos_right (Nat.lt_size_self _) (by simp)
          _ = 2 ^ (Nat.size (mag b) + count) := (pow_add _ _ _).symm
          _ ≤ 2 ^ (128 * ((Nat.size (mag b) + count) / 128 + 1)) :=
              Nat.pow_le_pow_right (by simp) (by omega)

/-- `bint_shift_left` runs past the end of the chain only if the length overflows. -/
theorem bintShiftLeft_returns {count : ℕ} (hb : Canonical b)
    (hlt : Nat.size (mag b) + count < 2 ^ 32) (h : Heap) :
    ∃ r, bintShiftLeft b count h = some r := by
  rw [bintShiftLeft]
  cases hz : isZero b with
  | true => exact ⟨_, rfl⟩
  | false =>
    obtain ⟨⟨⟨rc, d⟩, h₁⟩, e₁, ho⟩ :=
      extendLength_returns b ((bintBitLength b + count) % 2 ^ 32) h
    cases ho with
    | failed g hk => exact ⟨_, bind_eq_some.2 ⟨_, _, e₁, rfl⟩⟩
    | done hd g =>
      have hlen : ¬d.digits.length < count / 128 := by
        rw [hd, length_digits, length_extend, hb.bintBitLength,
          Nat.mod_eq_of_lt (by omega : Nat.size _ < _), Nat.mod_eq_of_lt hlt]
        omega
      refine ⟨((0, d.setDigits (shlDigits d.digits count)), h₁), bind_eq_some.2 ⟨_, _, e₁, ?_⟩⟩
      simp only [lt_self_iff_false, if_false, hlen]
      rfl

theorem size_mul_two_pow {n : ℕ} (hn : n ≠ 0) (k : ℕ) : Nat.size (n * 2 ^ k) = Nat.size n + k := by
  rw [← Nat.shiftLeft_eq, Nat.size_shiftLeft hn]

/-- A shifted number is canonical unless its length is a multiple of the chunk size. -/
theorem ShlResult.canonical_iff {count : ℕ} {d : Bint} (hd : ShlResult b count d)
    (h₀ : mag b ≠ 0) : Canonical d ↔ ¬128 ∣ Nat.size (mag b) + count := by
  have hs := size_mul_two_pow h₀ count
  have hpos : 0 < Nat.size (mag b) := Nat.size_pos.2 (Nat.pos_of_ne_zero h₀)
  rw [← hd.value] at hs
  constructor
  · intro hc hdvd
    have := hc.lt_size (List.ne_nil_of_length_pos (by rw [hd.length]; omega))
    rw [hs, hd.length] at this
    omega
  · intro hdvd
    by_cases hn : d.next = []
    · exact canonical_of_next_eq_nil hn
    · apply canonical_of_pow_le
      rw [pow_radix, ← Nat.lt_size, hs, hd.length]
      omega

/-! ## Right -/

/-- The chunks of a number after entire chunks are shifted out. -/
theorem shrEntire_returns {cs : List Chunk} (hc : cs ≠ []) (count : ℕ) (h : Heap) :
    ∃ cs' n h', shrEntire cs count h = some ((cs', n), h') ∧ cs' ≠ [] ∧
      chain cs' / 2 ^ n = chain cs / 2 ^ count ∧ (128 ≤ n → cs' = [.zero]) ∧
      Gains h h' (cs'.length - cs.length) := by
  have hp := List.length_pos_iff.2 hc
  rw [shrEntire]
  by_cases hn : 128 ≤ count
  · rw [if_pos hn]
    refine ⟨_, _, _, bind_eq_some.2 ⟨_, _, destroyChain_eq _ _, rfl⟩, by simp, ?_, ?_, ?_⟩
    · rw [chain_append, chain_cons, Chunk.val_zero, chain_nil, mul_zero, add_zero, mul_zero, add_zero,
        chain_drop, pow_radix, Nat.div_div_eq_div_mul, ← pow_add]
      congr 2
      omega
    · intro hge
      have : min (count / 128) cs.length = cs.length := by omega
      simp [this]
    · refine (gains_freed h _).of_eq ?_
      simp only [List.length_drop, List.length_append, List.length_singleton]
      omega
  · rw [if_neg hn]
    exact ⟨cs, count, h, rfl, hc, rfl, fun hge => absurd hge hn, by simpa using Gains.refl h⟩

theorem bintShiftRight_returns (b : Bint) (count : ℕ) (h : Heap) :
    ∃ r h', bintShiftRight b count h = some (r, h') ∧ Canonical r ∧ r.negative = b.negative ∧
      mag r = mag b / 2 ^ count ∧ Gains h h' (r.next.length - b.next.length) := by
  obtain ⟨cs, n, h₁, e₁, hc, hv, hn, g⟩ := shrEntire_returns b.digits_ne_nil count h
  have hl := length_digits b
  have hp := List.length_pos_iff.2 hc
  by_cases hge : 128 ≤ n
  · refine ⟨b.setDigits cs, h₁, bind_eq_some.2 ⟨_, _, e₁, ?_⟩, ?_, by simp, ?_, g.of_eq ?_⟩
    · simp only [hge, if_true]
      rfl
    · exact canonical_of_next_eq_nil (by simp [hn hge, setDigits])
    · rw [mag_setDigits _ hc, mag, ← hv, hn hge]
      simp
    · rw [length_next_setDigits _ hc]
      omega
  · obtain ⟨ds, hds⟩ : ∃ ds, ds =
        (scanDown (shrChunk (n / 32) (UInt32.ofNat (n % 32))) (.zero, 0) cs).1 := ⟨_, rfl⟩
    have hl' : ds.length = cs.length := by rw [hds, length_scanDown]
    have hd : ds ≠ [] := by
      rw [← List.length_pos_iff, hl']
      exact hp
    obtain ⟨h₂, e₂, g'⟩ := trimChunks_returns (b.setDigits ds) h₁
    refine ⟨trimmed (b.setDigits ds), h₂, bind_eq_some.2 ⟨_, _, e₁, ?_⟩, trimmed_canonical _,
      by simp, ?_, (g.trans g').of_eq ?_⟩
    · simp only [hge, if_false, ← hds]
      exact e₂
    · rw [mag_trimmed, mag_setDigits _ hd, hds, chain_shr (by omega), hv, mag]
    · rw [length_next_setDigits _ hd, hl']
      omega

theorem bintShiftRight_spec {count : ℕ} {r : Bint} (e : bintShiftRight b count h = some (r, h')) :
    Canonical r ∧ r.negative = b.negative ∧ mag r = mag b / 2 ^ count ∧
      Gains h h' (r.next.length - b.next.length) := by
  obtain ⟨r', h₁, e', hr⟩ := bintShiftRight_returns b count h
  obtain ⟨rfl, rfl⟩ := Prod.mk.inj (Option.some_inj.1 (e.symm.trans e'))
  exact hr

end Dlb.Bint
