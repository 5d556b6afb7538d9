import Dlb.Bint.Sub
import Dlb.Bint.Shift
import Dlb.Bint.Bitwise

/-!
# Division

`bint_div` is a shift-and-subtract loop. It shifts a copy of the divisor to the
length of the dividend, and then for every bit of the quotient compares it with what
is left of the dividend, subtracts and shifts back by one bit.

If the length of the dividend is a multiple of the chunk size, the shifted divisor
is not canonical. `mag_cmp` then takes it for the larger number, and the first bit of
the quotient is skipped. If the dividend is longer by `2 ^ 31` bits or more, the loop
is not entered.
-/

namespace Dlb.Bint

variable {I : Type} [DecidableEq I] {h h' : Heap} {a b sdiv rem quot : Bint}

/-! ## The loop -/

theorem le_of_magCmp_le (hb : Canonical b) (hc : magCmp a b ≤ 0) :
    a.next.length ≤ b.next.length ∧ mag a ≤ mag b := by
  rw [magCmp_eq] at hc
  split_ifs at hc with hl
  · rw [Int.sign_nonpos_iff] at hc
    omega
  · rw [Int.sign_nonpos_iff] at hc
    have hlt : a.next.length < b.next.length := by omega
    have h₁ := hb.pow_le (List.ne_nil_of_length_pos (by omega))
    have h₂ := (mag_lt a).trans_le (Nat.pow_le_pow_right radix_pos hlt)
    omega

/-- The number of chunks which are allocated for three numbers. -/
def allocated (a b c : Bint) : ℤ := a.next.length + b.next.length + c.next.length

/-- A step of the loop of `bint_div`: the bit is set, the number subtracted and the
    divisor shifted. -/
theorem divLoop_succ_le {pos : ℕ} {x : (ℤ × Bint × Bint × Bint) × Heap} (hr : Canonical rem)
    (hc : magCmp sdiv rem ≤ 0) (e : divLoop (pos + 1) sdiv rem quot h = some x) :
    (∃ h₁, x = ((-1, sdiv, rem, quot), h₁) ∧ Gains h h₁ 0 ∧ ¬h.Ok) ∨
    ∃ s r q h₁, divLoop pos s r q h₁ = some x ∧
      Gains h h₁ (allocated s r q - allocated sdiv rem quot) ∧
      (Canonical s ∧ mag s = mag sdiv / 2) ∧
      (Canonical r ∧ r.negative = rem.negative ∧ mag r + mag sdiv = mag rem) ∧
      BitSetResult quot pos q := by
  rw [divLoop, if_pos hc] at e
  obtain ⟨⟨rc, q⟩, h₁, e₁, e₂⟩ := bind_eq_some.1 e
  cases bintBitSet_spec e₁ with
  | failed g hk =>
    obtain rfl := pure_eq_some.1 e₂
    exact .inl ⟨_, rfl, g, hk⟩
  | done hq g =>
    obtain ⟨r, h₂, e₃, e₄⟩ := bind_eq_some.1 e₂
    obtain ⟨s, h₃, e₅, e₆⟩ := bind_eq_some.1 e₄
    obtain ⟨hl, hle⟩ := le_of_magCmp_le hr hc
    obtain ⟨r', h₂', e₃', hc, hn, hm, g'⟩ := magSub_big hl hle h₁
    obtain ⟨rfl, rfl⟩ := Prod.mk.inj (Option.some_inj.1 (e₃.symm.trans e₃'))
    obtain ⟨hs, -, hv, g''⟩ := bintShiftRight_spec e₅
    refine .inr ⟨s, r, q, h₃, e₆, ((g.trans g').trans g'').of_eq ?_, ⟨hs, by simpa using hv⟩,
      ⟨hc, hn, hm⟩, hq⟩
    rw [allocated, allocated]
    ring

/-- A step of the loop of `bint_div`: only the divisor is shifted. -/
theorem divLoop_succ_gt {pos : ℕ} {x : (ℤ × Bint × Bint × Bint) × Heap}
    (hc : ¬magCmp sdiv rem ≤ 0) (e : divLoop (pos + 1) sdiv rem quot h = some x) :
    ∃ s h₁, divLoop pos s rem quot h₁ = some x ∧
      Gains h h₁ (allocated s rem quot - allocated sdiv rem quot) ∧
      Canonical s ∧ mag s = mag sdiv / 2 := by
  rw [divLoop, if_neg hc] at e
  obtain ⟨s, h₁, e₁, e₂⟩ := bind_eq_some.1 e
  obtain ⟨hs, -, hv, g⟩ := bintShiftRight_spec e₁
  refine ⟨s, h₁, e₂, g.of_eq ?_, hs, by simpa using hv⟩
  rw [allocated, allocated]
  ring

/-- The loop of `bint_div` keeps an account of the chunks, and `rem` and `quot` stay
    canonical. -/
theorem divLoop_gains {n : ℕ} {rc : ℤ} {s r q : Bint} (hr : Canonical rem) (hq : Canonical quot)
    (e : divLoop n sdiv rem quot h = some ((rc, s, r, q), h')) :
    (rc = 0 ∨ rc = -1) ∧ Canonical r ∧ Canonical q ∧ r.negative = rem.negative ∧
      q.negative = quot.negative ∧
      Gains h h' (allocated s r q - allocated sdiv rem quot) := by
  induction n generalizing sdiv rem quot h with
  | zero =>
    have e := pure_eq_some.1 e
    simp only [Prod.mk.injEq] at e
    obtain ⟨⟨rfl, rfl, rfl, rfl⟩, rfl⟩ := e
    exact ⟨.inl rfl, hr, hq, rfl, rfl, by simpa using Gains.refl h⟩
  | succ n ih =>
    by_cases hc : magCmp sdiv rem ≤ 0
    · obtain ⟨h₁, hx, g, -⟩ | ⟨s₁, r₁, q₁, h₁, e₁, g, -, ⟨hr₁, hn₁, -⟩, hq₁⟩ :=
        divLoop_succ_le hr hc e
      · simp only [Prod.mk.injEq] at hx
        obtain ⟨⟨rfl, rfl, rfl, rfl⟩, rfl⟩ := hx
        exact ⟨.inr rfl, hr, hq, rfl, rfl, by simpa using g⟩
      · obtain ⟨h₁, h₂, h₃, h₄, h₅, g'⟩ := ih hr₁ (hq₁.canonical hq) e₁
        exact ⟨h₁, h₂, h₃, h₄.trans hn₁, h₅.trans hq₁.negative, (g.trans g').of_eq (by ring)⟩
    · obtain ⟨s₁, h₁, e₁, g, -⟩ := divLoop_succ_gt hc e
      obtain ⟨h₁, h₂, h₃, h₄, h₅, g'⟩ := ih hr hq e₁
      exact ⟨h₁, h₂, h₃, h₄, h₅, (g.trans g').of_eq (by ring)⟩

/-- The quotient of `r` and `d` in `n` bits, as the loop of `bint_div` computes it. -/
def divBits (n r d : ℕ) : ℕ := min (r / d) (2 ^ n - 1)

theorem divBits_succ_le {n r d : ℕ} (hd : 0 < d) (hle : d * 2 ^ n ≤ r) :
    divBits (n + 1) r d = 2 ^ n + divBits n (r - d * 2 ^ n) d := by
  have hq : 2 ^ n ≤ r / d := (Nat.le_div_iff_mul_le hd).2 (by rwa [mul_comm])
  have hp := Nat.two_pow_pos n
  rw [divBits, divBits, Nat.sub_mul_div, pow_succ]
  omega

theorem divBits_succ_gt {n r d : ℕ} (hd : 0 < d) (hlt : r < d * 2 ^ n) :
    divBits (n + 1) r d = divBits n r d := by
  have hq : r / d < 2 ^ n := (Nat.div_lt_iff_lt_mul hd).2 (by rwa [mul_comm])
  rw [divBits, divBits, pow_succ]
  omega

theorem or_two_pow_eq_add {m n : ℕ} (hd : 2 ^ (n + 1) ∣ m) : m ||| 2 ^ n = m + 2 ^ n := by
  obtain ⟨k, rfl⟩ := hd
  exact (Nat.two_pow_add_eq_or_of_lt (Nat.pow_lt_pow_right (by simp) (by omega)) k).symm

/-- The loop of `bint_div` divides by `d`, if it starts with `d` shifted to its first bit. -/
theorem divLoop_spec {n d : ℕ} (hd : 0 < d) {s r q : Bint} (hs : Canonical sdiv)
    (hr : Canonical rem) (hv : n ≠ 0 → mag sdiv = d * 2 ^ (n - 1)) (hq : 2 ^ n ∣ mag quot)
    (e : divLoop n sdiv rem quot h = some ((0, s, r, q), h')) :
    mag r + divBits n (mag rem) d * d = mag rem ∧ mag q = mag quot + divBits n (mag rem) d := by
  induction n generalizing sdiv rem quot h with
  | zero =>
    have e := pure_eq_some.1 e
    simp only [Prod.mk.injEq] at e
    obtain ⟨⟨-, rfl, rfl, rfl⟩, rfl⟩ := e
    simp [divBits]
  | succ n ih =>
    have hv := hv (by simp)
    rw [Nat.add_sub_cancel] at hv
    have hq' : 2 ^ n ∣ mag quot := (pow_dvd_pow 2 (Nat.le_succ n)).trans hq
    have hhalf : n ≠ 0 → mag sdiv / 2 = d * 2 ^ (n - 1) := by
      intro hn
      obtain ⟨k, rfl⟩ := Nat.exists_eq_succ_of_ne_zero hn
      rw [hv, pow_succ, ← mul_assoc, Nat.mul_div_cancel _ (by simp)]
      rfl
    have hcmp := hs.magCmp hr
    by_cases hc : magCmp sdiv rem ≤ 0
    · obtain ⟨h₁, hx, g, -⟩ | ⟨s₁, r₁, q₁, h₁, e₁, -, ⟨hs₁, hv₁⟩, ⟨hr₁, -, hm₁⟩, hq₁⟩ :=
        divLoop_succ_le hr hc e
      · simp at hx
      · have hq₂ : mag q₁ = mag quot + 2 ^ n := hq₁.value.trans (or_two_pow_eq_add hq)
        obtain ⟨h₂, h₃⟩ := ih hs₁ hr₁ (fun hn => hv₁.trans (hhalf hn))
          (hq₂ ▸ Nat.dvd_add hq' (dvd_refl _)) e₁
        have hr₂ : mag r₁ = mag rem - d * 2 ^ n := by omega
        rw [divBits_succ_le hd (by omega), ← hr₂]
        refine ⟨?_, by omega⟩
        rw [add_mul, mul_comm (2 ^ n) d]
        omega
    · obtain ⟨s₁, h₁, e₁, -, hs₁, hv₁⟩ := divLoop_succ_gt hc e
      obtain ⟨h₂, h₃⟩ := ih hs₁ hr (fun hn => hv₁.trans (hhalf hn)) hq' e₁
      rw [hcmp, Int.sign_nonpos_iff] at hc
      rw [divBits_succ_gt hd (by omega)]
      exact ⟨h₂, h₃⟩

/-! ## Before the loop -/

/-- The divisor `s` is shifted to the length of the dividend `a`. -/
structure DivShift (a b s : Bint) : Prop where
  short : Nat.size (mag a) ≤ Nat.size (mag b) → Canonical s ∧ mag s = mag b
  long : Nat.size (mag b) < Nat.size (mag a) →
    mag s = mag b * 2 ^ (Nat.size (mag a) - Nat.size (mag b)) ∧
      s.next.length = Nat.size (mag a) / 128 ∧ (Canonical s ↔ ¬128 ∣ Nat.size (mag a))

theorem divShift_spec {r : (ℤ × Bint) × Heap} (ha : Canonical a) (hb : Canonical b)
    (h₀ : mag b ≠ 0) (e : divShift a b b h = some r) :
    Outcome b (fun s => Nat.size (mag a) < 2 ^ 32 → Nat.size (mag b) < 2 ^ 32 → DivShift a b s)
      h r := by
  rw [divShift, ha.bintBitLength, hb.bintBitLength] at e
  split_ifs at e with hlt
  · refine (bintShiftLeft_spec hb e).imp (fun s hs hla hlb => ?_) id
    rw [Nat.mod_eq_of_lt hla, Nat.mod_eq_of_lt hlb] at hlt hs
    rw [if_neg h₀, Nat.add_sub_cancel' hlt.le] at hs
    refine ⟨fun hle => absurd hlt hle.not_gt, fun _ => ⟨(hs hla).value, ?_, ?_⟩⟩
    · rw [(hs hla).length, Nat.add_sub_cancel' hlt.le]
    · rw [(hs hla).canonical_iff h₀, Nat.add_sub_cancel' hlt.le]
  · obtain rfl := pure_eq_some.1 e
    refine .done (fun hla hlb => ?_) (by simpa using Gains.refl h)
    rw [Nat.mod_eq_of_lt hla, Nat.mod_eq_of_lt hlb] at hlt
    exact ⟨fun _ => ⟨hb, rfl⟩, fun h => absurd h hlt⟩

/-- What `bint_div` starts its loop with. -/
structure DivStart (a b sdiv rem : Bint) : Prop extends DivShift a b sdiv where
  dividend_lt : Nat.size (mag a) < 2 ^ 32
  divisor_lt : Nat.size (mag b) < 2 ^ 32
  rem : rem = { a with negative := false }

theorem divSetup_spec {rc : ℤ} (ha : Canonical a) (hb : Canonical b) (h₀ : mag b ≠ 0)
    (e : divSetup a b h = some ((rc, sdiv, rem), h')) :
    (rc = 0 ∨ rc = -1) ∧ Gains h h' (sdiv.next.length + rem.next.length) ∧
      (rc = 0 → DivStart a b sdiv rem) := by
  have hz : bintZero.next.length = 0 := rfl
  obtain ⟨⟨rc₁, s₁⟩, h₁, e₁, e₂⟩ := bind_eq_some.1 e
  cases bintCopy_spec e₁ with
  | failed g _ =>
    have e₂ := pure_eq_some.1 e₂
    simp only [Prod.mk.injEq] at e₂
    obtain ⟨⟨rfl, rfl, rfl⟩, rfl⟩ := e₂
    exact ⟨.inr rfl, by simpa [hz] using g, by simp⟩
  | done hs g =>
    obtain rfl : s₁ = b := hs.1
    have hlb := size_lt_of_bintCopy hb e₁
    obtain ⟨⟨rc₂, s₂⟩, h₂, e₃, e₄⟩ := bind_eq_some.1 e₂
    cases divShift_spec ha hb h₀ e₃ with
    | failed g' _ =>
      have e₄ := pure_eq_some.1 e₄
      simp only [Prod.mk.injEq] at e₄
      obtain ⟨⟨rfl, rfl, rfl⟩, rfl⟩ := e₄
      exact ⟨.inr rfl, (g.trans g').of_eq (by simp [hz]), by simp⟩
    | done hx g' =>
      obtain ⟨⟨rc₃, r₃⟩, h₃, e₅, e₆⟩ := bind_eq_some.1 e₄
      cases bintCopy_spec e₅ with
      | failed g'' _ =>
        have e₆ := pure_eq_some.1 e₆
        simp only [Prod.mk.injEq] at e₆
        obtain ⟨⟨rfl, rfl, rfl⟩, rfl⟩ := e₆
        exact ⟨.inr rfl, ((g.trans g').trans g'').of_eq (by simp [hz]), by simp⟩
      | done hr g'' =>
        obtain rfl : r₃ = a := hr.1
        have hla := size_lt_of_bintCopy ha e₅
        have e₆ := pure_eq_some.1 e₆
        simp only [Prod.mk.injEq] at e₆
        obtain ⟨⟨rfl, rfl, rfl⟩, rfl⟩ := e₆
        obtain ⟨hs₁, hs₂⟩ := hx hla hlb
        exact ⟨.inl rfl, ((g.trans g').trans g'').of_eq (by simp [hz]),
          fun _ => ⟨⟨hs₁, hs₂⟩, hla, hlb, rfl⟩⟩

/-! ## The quotient and the remainder of the magnitudes -/

/-- The quotient that the loop of `bint_div` computes. -/
def divQuot (n d : ℕ) : ℕ :=
  if Nat.size n ≤ Nat.size d then n / d
  else if 2 ^ 31 ≤ Nat.size n - Nat.size d then 0
  else if 128 ∣ Nat.size n then divBits (Nat.size n - Nat.size d) n d
  else n / d

theorem div_lt_two_pow {n d : ℕ} (hd : d ≠ 0) : n / d < 2 ^ (Nat.size n - Nat.size d + 1) := by
  rw [Nat.div_lt_iff_lt_mul (Nat.pos_of_ne_zero hd)]
  have hs : 0 < Nat.size d := Nat.size_pos.2 (Nat.pos_of_ne_zero hd)
  have hd' : 2 ^ (Nat.size d - 1) ≤ d := Nat.lt_size.1 (by omega)
  calc n < 2 ^ Nat.size n := Nat.lt_size_self n
    _ ≤ 2 ^ (Nat.size n - Nat.size d + 1 + (Nat.size d - 1)) :=
        Nat.pow_le_pow_right (by simp) (by omega)
    _ = 2 ^ (Nat.size n - Nat.size d + 1) * 2 ^ (Nat.size d - 1) := pow_add _ _ _
    _ ≤ 2 ^ (Nat.size n - Nat.size d + 1) * d := Nat.mul_le_mul_left _ hd'

theorem divBits_eq_div {n d : ℕ} (hd : d ≠ 0) :
    divBits (Nat.size n - Nat.size d + 1) n d = n / d := by
  have := div_lt_two_pow (n := n) hd
  rw [divBits]
  omega

theorem DivStart.loop {s r q : Bint} {rc : ℤ} (hx : DivStart a b sdiv rem) (ha : Canonical a)
    (h₀ : mag b ≠ 0)
    (e : divLoop (divCount (Nat.size (mag a)) (Nat.size (mag b))) sdiv rem bintZero h =
      some ((rc, s, r, q), h')) (hrc : rc = 0) :
    mag r + divQuot (mag a) (mag b) * mag b = mag a ∧ mag q = divQuot (mag a) (mag b) := by
  subst hrc
  have hrem := hx.rem
  subst hrem
  have hm : mag { a with negative := false } = mag a := rfl
  have hc : Canonical { a with negative := false } := ha
  have hd := Nat.pos_of_ne_zero h₀
  have hz : mag bintZero = 0 := rfl
  rw [divCount] at e
  by_cases hlt : Nat.size (mag b) < Nat.size (mag a)
  · rw [if_pos hlt] at e
    obtain ⟨hv, hl, hcan⟩ := hx.long hlt
    rw [divQuot, if_neg (by omega)]
    by_cases hbig : Nat.size (mag a) - Nat.size (mag b) < 2 ^ 31
    · rw [if_pos hbig] at e
      rw [if_neg (by omega)]
      by_cases hdvd : 128 ∣ Nat.size (mag a)
      · -- The shifted divisor is longer than the dividend, and its first bit is skipped.
        rw [if_pos hdvd]
        have hcmp : ¬magCmp sdiv { a with negative := false } ≤ 0 := by
          have hlen : a.next.length < sdiv.next.length := by
            rw [hl]
            by_cases hn : a.next = []
            · rw [hn, List.length_nil]
              omega
            · have := ha.lt_size hn
              omega
          rw [magCmp_eq, if_neg hlen.ne', Int.sign_nonpos_iff]
          dsimp only
          omega
        obtain ⟨s₁, h₁, e₁, -, hs₁, hv₁⟩ := divLoop_succ_gt hcmp e
        have := divLoop_spec hd hs₁ hc (fun _ => ?_) (by simp [hz]) e₁
        · rw [hm, hz, zero_add] at this
          exact this
        · obtain ⟨k, hk⟩ : ∃ k, Nat.size (mag a) - Nat.size (mag b) = k + 1 :=
            ⟨Nat.size (mag a) - Nat.size (mag b) - 1, by omega⟩
          rw [hv₁, hv, hk, pow_succ, ← mul_assoc, Nat.mul_div_cancel _ (by simp)]
          rfl
      · rw [if_neg hdvd, ← divBits_eq_div h₀]
        have := divLoop_spec hd (hcan.2 hdvd) hc (fun _ => by simpa using hv) (by simp [hz]) e
        rw [hm, hz, zero_add] at this
        exact this
    · rw [if_neg hbig] at e
      rw [if_pos (by omega)]
      have e := pure_eq_some.1 e
      simp only [Prod.mk.injEq] at e
      obtain ⟨⟨-, rfl, rfl, rfl⟩, rfl⟩ := e
      exact ⟨by simp [hm], hz⟩
  · rw [if_neg hlt] at e
    obtain ⟨hcan, hv⟩ := hx.short (not_lt.1 hlt)
    have hone := divBits_eq_div (n := mag a) h₀
    rw [Nat.sub_eq_zero_of_le (not_lt.1 hlt)] at hone
    have := divLoop_spec hd hcan hc (fun _ => by simpa using hv) (by simp [hz]) e
    rw [hm, hz, zero_add, show (1 : ℕ) = 0 + 1 from rfl, hone] at this
    rw [divQuot, if_pos (not_lt.1 hlt)]
    exact this

/-! ## The signs -/

/-- The result of the part of `bint_div` after its loop. -/
structure DivSigns (a b rem quot r q : Bint) : Prop where
  same : a.negative = b.negative → r = { rem with negative := b.negative } ∧ q = quot
  opposite : a.negative ≠ b.negative → r.negative = b.negative ∧ q.negative = true ∧
    mag q = chain (addDigits quot (.other bintOne)) ∧
      (Nat.size (mag b) < 2 ^ 32 → mag r = ((mag rem : ℤ) - mag b).natAbs)

theorem divSigns_spec {rc : ℤ} {r q : Bint} (hb : Canonical b) (hr : Canonical rem)
    (hq : Canonical quot) (hn : quot.negative = false)
    (e : divSigns a b rem quot h = some ((rc, r, q), h')) :
    (rc = 0 ∨ rc = -1) ∧ Canonical r ∧ Canonical q ∧
      Gains h h' (r.next.length + q.next.length - (rem.next.length + quot.next.length)) ∧
      (rc = 0 → DivSigns a b rem quot r q) := by
  have hone : Canonical bintOne := canonical_of_next_eq_nil rfl
  rw [divSigns] at e
  by_cases hs : a.negative = b.negative
  · rw [if_neg (by simp [hs])] at e
    have e := pure_eq_some.1 e
    simp only [Prod.mk.injEq] at e
    obtain ⟨⟨rfl, rfl, rfl⟩, rfl⟩ := e
    exact ⟨.inl rfl, hr, hq, by simpa using Gains.refl h,
      fun _ => ⟨fun _ => ⟨rfl, rfl⟩, fun h => absurd hs h⟩⟩
  · rw [if_pos (by rw [Bool.eq_not.2 hs]; cases b.negative <;> simp)] at e
    obtain ⟨⟨rc₁, q₁⟩, h₁, e₁, e₂⟩ := bind_eq_some.1 e
    cases bintAdd_spec (s := .other bintOne) hq hone e₁ with
    | failed g _ =>
      have e₂ := pure_eq_some.1 e₂
      simp only [Prod.mk.injEq] at e₂
      obtain ⟨⟨rfl, rfl, rfl⟩, rfl⟩ := e₂
      exact ⟨.inr rfl, hr, hq, g.of_eq (by simp), by simp⟩
    | done hq₁ g =>
      obtain ⟨⟨rc₂, r₂⟩, h₂, e₃, e₄⟩ := bind_eq_some.1 e₂
      have hr' : Canonical { rem with negative := b.negative } := hr
      cases bintSub_spec (s := .other b) hr' hb e₃ with
      | failed g' _ =>
        have e₄ := pure_eq_some.1 e₄
        simp only [Prod.mk.injEq] at e₄
        obtain ⟨⟨rfl, rfl, rfl⟩, rfl⟩ := e₄
        exact ⟨.inr rfl, hr, hq₁.canonical, (g.trans g').of_eq (by simp), by simp⟩
      | done hr₂ g' =>
        have e₄ := pure_eq_some.1 e₄
        simp only [Prod.mk.injEq] at e₄
        obtain ⟨⟨rfl, rfl, rfl⟩, rfl⟩ := e₄
        refine ⟨.inl rfl, hr₂.canonical, hq₁.canonical, (g.trans g').of_eq (by ring),
          fun _ => ⟨fun h => absurd h hs, fun _ => ⟨rfl, rfl, ?_, fun hlt => ?_⟩⟩⟩
        · have := hq₁.1 hn
          change mag q₁ = _
          rw [this, mag_trimmed, mag_setDigits _ (addDigits_ne_nil _ _)]
        · have hx := hr₂.2 (by simp [Operand.get])
          change mag r₂ = ((mag { rem with negative := b.negative } : ℤ) - mag b).natAbs
          rcases le_or_gt (mag b) (mag { rem with negative := b.negative }) with hle | hgt
          · have := (hx.ge hle).2
            simp only [Operand.get] at this
            omega
          · have := (hx.lt hgt).2 hlt
            simp only [Operand.get] at this
            omega

/-! ## The result -/

theorem divQuot_le (n d : ℕ) : divQuot n d ≤ n / d := by
  rw [divQuot]
  split_ifs with h₁ h₂ h₃
  · exact le_rfl
  · exact Nat.zero_le _
  · exact Nat.min_le_left _ _
  · exact le_rfl

theorem size_divQuot_lt {n d : ℕ} (hd : d ≠ 0) : Nat.size (divQuot n d) < 2 ^ 32 - 1 := by
  have hq := div_lt_two_pow (n := n) hd
  have hle := divQuot_le n d
  rw [divQuot] at hle ⊢
  split_ifs at hle ⊢ with h₁ h₂ h₃
  · have := Nat.size_le.2 hq
    omega
  · simp
  · have := Nat.size_le.2 (hle.trans_lt hq)
    omega
  · have := Nat.size_le.2 hq
    omega

/-- What `mag_add` makes of a number to which it adds 1. -/
theorem chain_addDigits_one (quot : Bint) (hq : Nat.size (mag quot) < 2 ^ 32 - 1) (hc : Canonical quot) :
    chain (addDigits quot (.other bintOne)) +
      (if mag quot % 2 ^ 160 = 2 ^ 160 - 1 then 2 ^ 160 else 0) = mag quot + 1 := by
  have hlen : addLength quot bintOne = max (Nat.size (mag quot)) 1 + 1 := by
    rw [addLength, hc.bintBitLength, Nat.mod_eq_of_lt (by omega : Nat.size _ < _),
      show bintBitLength bintOne = 1 from rfl, Nat.mod_eq_of_lt (by omega)]
  obtain ⟨ds, hds⟩ : ∃ ds, ds = (extend quot (addLength quot bintOne / 128)).digits := ⟨_, rfl⟩
  have hv : chain ds = mag quot := by rw [hds, ← mag, mag_extend]
  have hl : ds.length = addRoom quot bintOne := by simp [hds, addRoom]
  have ha := addLoop_spec ds bintOne.digits (by
    rw [hl]
    exact Nat.succ_le_succ (Nat.zero_le _))
  have hroom : ds.length = 1 → mag quot + 1 < radix := by
    intro h₁
    have hlt := Nat.lt_size_self (mag quot)
    have h₂ : Nat.size (mag quot) < 127 := by
      rw [hl, addRoom, hlen] at h₁
      omega
    calc mag quot + 1 ≤ 2 ^ Nat.size (mag quot) := hlt
      _ < 2 ^ 128 := Nat.pow_lt_pow_right (by simp) (by omega)
  have hone : chain bintOne.digits = 1 := rfl
  have hlost : addLost ds bintOne.digits =
      if mag quot % 2 ^ 160 = 2 ^ 160 - 1 then 2 ^ 160 else 0 := by
    rw [addLost, hv, hone, show bintOne.digits.length = 1 from rfl, pow_one]
    by_cases h₁ : mag quot % radix + 1 < radix
    · rw [if_pos h₁, if_neg (by rw [radix] at h₁; omega)]
    · have h₃ : ds.length ≠ 1 := fun h₃ => h₁ (by
        have := hroom h₃
        rwa [Nat.mod_eq_of_lt (by omega)])
      rw [if_neg h₁, if_neg h₃]
      by_cases h₂ : mag quot / radix % 2 ^ 32 = 2 ^ 32 - 1
      · rw [if_pos h₂, if_pos (by rw [radix] at h₁ h₂; omega)]
        rfl
      · rw [if_neg h₂, if_neg (by rw [radix] at h₁ h₂; omega)]
  rw [hv, hone, hlost] at ha
  rw [← ha, hds]
  rfl

/-- What `bint_div` computes: `r` is the remainder and `q` the quotient. -/
structure DivResult (a b r q : Bint) : Prop where
  remainder : Canonical r ∧ r.negative = b.negative
  quotient : Canonical q ∧ q.negative = decide (a.negative ≠ b.negative)
  le : divQuot (mag a) (mag b) * mag b ≤ mag a
  same : a.negative = b.negative →
    mag r + divQuot (mag a) (mag b) * mag b = mag a ∧ mag q = divQuot (mag a) (mag b)
  opposite : a.negative ≠ b.negative →
    (mag r : ℤ) = |(mag a : ℤ) - divQuot (mag a) (mag b) * mag b - mag b| ∧
      mag q + (if divQuot (mag a) (mag b) % 2 ^ 160 = 2 ^ 160 - 1 then 2 ^ 160 else 0) =
        divQuot (mag a) (mag b) + 1

theorem divCore_spec {rc : ℤ} {s r q : Bint} (ha : Canonical a) (hb : Canonical b)
    (h₀ : mag b ≠ 0) (e : divCore a b h = some ((rc, s, r, q), h')) :
    (rc = 0 ∨ rc = -1) ∧ Gains h h' (allocated s r q) ∧ (rc = 0 → DivResult a b r q) := by
  have hz : bintZero.next.length = 0 := rfl
  obtain ⟨⟨rc₁, s₁, r₁⟩, h₁, e₁, e₂⟩ := bind_eq_some.1 e
  obtain ⟨hrc₁, g₁, hx⟩ := divSetup_spec ha hb h₀ e₁
  rcases hrc₁ with rfl | rfl
  · have hx := hx rfl
    have hr₁ : Canonical r₁ := by
      rw [hx.rem]
      exact ha
    obtain ⟨⟨rc₂, s₂, r₂, q₂⟩, h₂, e₃, e₄⟩ := bind_eq_some.1 e₂
    obtain ⟨hrc₂, hr₂, hq₂, -, hn₂, g₂⟩ := divLoop_gains hr₁ (canonical_of_next_eq_nil rfl) e₃
    rcases hrc₂ with rfl | rfl
    · obtain ⟨⟨rc₃, r₃, q₃⟩, h₃, e₅, e₆⟩ := bind_eq_some.1 e₄
      obtain ⟨hrc₃, hr₃, hq₃, g₃, hx₃⟩ := divSigns_spec (a := a) hb hr₂ hq₂ hn₂ e₅
      have e₆ := pure_eq_some.1 e₆
      simp only [Prod.mk.injEq] at e₆
      obtain ⟨⟨rfl, rfl, rfl, rfl⟩, rfl⟩ := e₆
      refine ⟨hrc₃, ((g₁.trans g₂).trans g₃).of_eq (by simp only [allocated, hz]; ring), fun hrc => ?_⟩
      obtain ⟨hs, ho⟩ := hx₃ hrc
      rw [ha.bintBitLength, hb.bintBitLength, Nat.mod_eq_of_lt hx.dividend_lt,
        Nat.mod_eq_of_lt hx.divisor_lt] at e₃
      obtain ⟨hv, hq⟩ := hx.loop ha h₀ e₃ rfl
      have hle : divQuot (mag a) (mag b) * mag b ≤ mag a := by omega
      by_cases hsign : a.negative = b.negative
      · obtain ⟨rfl, rfl⟩ := hs hsign
        exact ⟨⟨hr₃, rfl⟩, ⟨hq₃, hn₂.trans (by simp [hsign, bintZero, small])⟩, hle,
          fun _ => ⟨hv, hq⟩, fun h => absurd hsign h⟩
      · obtain ⟨hn₃, hn₄, hm₃, hm₄⟩ := ho hsign
        refine ⟨⟨hr₃, hn₃⟩, ⟨hq₃, by simp [hn₄, hsign]⟩, hle, fun h => absurd h hsign,
          fun _ => ⟨?_, ?_⟩⟩
        · have hsub : (mag r₂ : ℤ) = mag a - divQuot (mag a) (mag b) * mag b :=
            eq_sub_of_add_eq (mod_cast hv)
          rw [hm₄ hx.divisor_lt, Int.natCast_natAbs, hsub]
        · have := chain_addDigits_one q₂ (by rw [hq]; exact size_divQuot_lt h₀) hq₂
          rwa [hq, ← hm₃] at this
    · have e₄ := pure_eq_some.1 e₄
      simp only [Prod.mk.injEq] at e₄
      obtain ⟨⟨rfl, rfl, rfl, rfl⟩, rfl⟩ := e₄
      exact ⟨.inr rfl, (g₁.trans g₂).of_eq (by simp only [allocated, hz]; ring), by simp⟩
  · have e₂ := pure_eq_some.1 e₂
    simp only [Prod.mk.injEq] at e₂
    obtain ⟨⟨rfl, rfl, rfl, rfl⟩, rfl⟩ := e₂
    exact ⟨.inr rfl, g₁.of_eq (by simp [allocated, hz]), by simp⟩

end Dlb.Bint
