import Mathlib.NumberTheory.LucasPrimality
import Mathlib.Tactic.NormNum.Prime
import Mathlib.Tactic.ReduceModChar
import Dlb.Fuel
import Dlb.Hash.Code

/-!
# The size of a hash table

`hash_capacity_hint` doubles the size until it is not less than the hint, and then looks for the next
prime by trial division. The size is never more than 2^31 after doubling, as the next one would
be zero. The squares of the divisors that are tried do not overflow for sizes below 65535², and
there is a prime between 2^31 and this bound.
-/

namespace Dlb.Hash

variable {n d hint j p : ℕ}

/-! ## Doubling -/

/-- The sizes are doubled up to at most 2^31. -/
theorem sizeLoop_yields (hh : hint ≤ 2 ^ 31) {i : ℕ} (hi : j + i = 31) :
    ∃ k, j ≤ k ∧ k ≤ 31 ∧ hint ≤ 2 ^ k ∧ Yields (fun fuel => sizeLoop hint fuel (2 ^ j)) (2 ^ k) := by
  induction i generalizing j with
  | zero =>
    obtain rfl : j = 31 := by omega
    refine ⟨31, le_rfl, le_rfl, hh, Yields.succ (.of_forall fun _ => rfl) fun fuel => ?_⟩
    rw [sizeLoop, if_neg (Nat.not_lt.2 hh)]
  | succ i ih =>
    by_cases hlt : 2 ^ j < hint
    · obtain ⟨k, hjk, hk, hle, h⟩ := ih (j := j + 1) (by omega)
      refine ⟨k, by omega, hk, hle, h.succ fun fuel => ?_⟩
      have hpow : 2 ^ (j + 1) < 2 ^ 32 := Nat.pow_lt_pow_right (by omega) (by omega)
      rw [sizeLoop, if_pos hlt, ← Nat.pow_succ, Nat.mod_eq_of_lt hpow]
    · refine ⟨j, le_rfl, by omega, Nat.not_lt.1 hlt, Yields.succ (.of_forall fun _ => rfl)
        fun fuel => ?_⟩
      rw [sizeLoop, if_neg hlt]

/-- For a hint above 2^31 the size gets zero, and the loop does not end. -/
theorem sizeLoop_eq_none (hh : 2 ^ 31 < hint) (fuel : ℕ) (hn : n = 0 ∨ ∃ j ≤ 31, n = 2 ^ j) :
    sizeLoop hint fuel n = none := by
  induction fuel generalizing n with
  | zero => rfl
  | succ fuel ih =>
    rw [sizeLoop, if_pos]
    · refine ih ?_
      obtain rfl | ⟨j, hj, rfl⟩ := hn
      · exact .inl rfl
      · rw [← Nat.pow_succ]
        obtain rfl | hlt := Nat.eq_or_lt_of_le hj
        · exact .inl rfl
        · exact .inr ⟨j + 1, hlt, Nat.mod_eq_of_lt (Nat.pow_lt_pow_right (by omega) (by omega))⟩
    · obtain rfl | ⟨j, hj, rfl⟩ := hn
      · omega
      · exact (Nat.pow_le_pow_right (by omega) hj).trans_lt hh

/-! ## Trial division -/

/-- A number without a divisor below `d` is prime if it is less than the square of `d`. -/
theorem prime_of_lt_mul_self (h₂ : 2 ≤ n) (hlt : n < d * d) (hne : ∀ m, 2 ≤ m → m < d → ¬m ∣ n) :
    n.Prime := by
  by_contra hp
  have hle := Nat.minFac_sq_le_self (by omega) hp
  have hmin : n.minFac < d := by
    by_contra hge
    have := Nat.mul_le_mul (Nat.not_lt.1 hge) (Nat.not_lt.1 hge)
    rw [pow_two] at hle
    omega
  exact hne _ (Nat.minFac_prime (by omega)).two_le hmin (Nat.minFac_dvd n)

/-- The search for a divisor ends before `d * d` overflows, and finds one unless the size is prime. -/
theorem divisorLoop_yields (hn : n < 65535 ^ 2) (h₂ : 2 ≤ n) (hd : 2 ≤ d)
    (hne : ∀ m, 2 ≤ m → m < d → ¬m ∣ n) {i : ℕ} (hi : d + i = 65535) :
    ∃ b, Yields (fun fuel => divisorLoop n fuel d) b ∧ (b = false ↔ n.Prime) := by
  have hstop : ∀ {d}, d ≤ 65535 → n < d * d → (∀ m, 2 ≤ m → m < d → ¬m ∣ n) →
      ∃ b, Yields (fun fuel => divisorLoop n fuel d) b ∧ (b = false ↔ n.Prime) := by
    intro d hd hlt hne
    have hsq : d * d ≤ 65535 * 65535 := Nat.mul_le_mul hd hd
    refine ⟨false, Yields.succ (.of_forall fun _ => rfl) fun fuel => ?_,
      iff_of_true rfl (prime_of_lt_mul_self h₂ hlt hne)⟩
    rw [divisorLoop, Nat.mod_eq_of_lt (by omega), if_neg (Nat.not_le.2 hlt)]
  induction i generalizing d with
  | zero =>
    obtain rfl : d = 65535 := by omega
    exact hstop le_rfl (by omega) hne
  | succ i ih =>
    by_cases hle : d * d ≤ n
    · have hmod : d * d % 2 ^ 32 = d * d := Nat.mod_eq_of_lt (by omega)
      by_cases hdvd : n % d = 0
      · refine ⟨true, Yields.succ (.of_forall fun _ => rfl) fun fuel => ?_,
          iff_of_false (by simp) fun hp => ?_⟩
        · rw [divisorLoop, hmod, if_pos hle, if_pos hdvd]
        · -- The divisor is less than the size.
          have hlt : d < d * d := Nat.lt_mul_self_iff.2 (by omega)
          rcases hp.eq_one_or_self_of_dvd d (Nat.dvd_of_mod_eq_zero hdvd) with rfl | rfl
          · omega
          · omega
      · have hne' : ∀ m, 2 ≤ m → m < d + 1 → ¬m ∣ n := by
          intro m hm hlt
          rcases Nat.lt_succ_iff_lt_or_eq.1 hlt with hlt | rfl
          · exact hne m hm hlt
          · exact fun hm => hdvd (Nat.mod_eq_zero_of_dvd hm)
        obtain ⟨b, h, hb⟩ := ih (by omega) hne' (by omega)
        refine ⟨b, h.succ fun fuel => ?_, hb⟩
        rw [divisorLoop, hmod, if_pos hle, if_neg hdvd]
    · exact hstop (by omega) (Nat.not_le.1 hle) hne

theorem primeLoop_step (hn : n < 65535 ^ 2) (h₂ : 2 ≤ n) : ∃ b N, (b = false ↔ n.Prime) ∧
    ∀ fuel' ≥ N, ∀ fuel, primeLoop fuel' (fuel + 1) n =
      if b then primeLoop fuel' fuel ((n + 1) % 2 ^ 32) else some n := by
  obtain ⟨b, ⟨N, hN⟩, hb⟩ := divisorLoop_yields hn h₂ le_rfl (fun m hm hlt => by omega)
    (show 2 + 65533 = 65535 from rfl)
  refine ⟨b, N, hb, fun fuel' hf fuel => ?_⟩
  simp only [primeLoop, hN fuel' hf, Option.bind_eq_bind, Option.bind_some]
  rfl

/-- The search for a prime ends at the prime `p` at the latest. -/
theorem primeLoop_yields (hp : p.Prime) (hlt : p < 65535 ^ 2) (h₂ : 2 ≤ n) {i : ℕ} (hi : n + i = p) :
    ∃ k, n ≤ k ∧ k.Prime ∧ Yields (fun fuel => primeLoop fuel fuel n) k := by
  suffices h : ∃ k, n ≤ k ∧ k.Prime ∧ ∃ N, ∀ fuel ≥ N, ∀ fuel' ≥ N,
      primeLoop fuel' fuel n = some k by
    obtain ⟨k, hk, hkp, N, h⟩ := h
    exact ⟨k, hk, hkp, N, fun fuel hf => h fuel hf fuel hf⟩
  induction i generalizing n with
  | zero =>
    obtain rfl : n = p := by omega
    obtain ⟨b, N, hb, hN⟩ := primeLoop_step hlt h₂
    refine ⟨n, le_rfl, hp, N + 1, fun fuel hf fuel' hf' => ?_⟩
    obtain ⟨fuel, rfl⟩ : ∃ k, fuel = k + 1 := ⟨fuel - 1, by omega⟩
    rw [hN fuel' (by omega), hb.2 hp]
    rfl
  | succ i ih =>
    obtain ⟨b, N, hb, hN⟩ := primeLoop_step (n := n) (by omega) h₂
    cases b with
    | false =>
      refine ⟨n, le_rfl, hb.1 rfl, N + 1, fun fuel hf fuel' hf' => ?_⟩
      obtain ⟨fuel, rfl⟩ : ∃ k, fuel = k + 1 := ⟨fuel - 1, by omega⟩
      rw [hN fuel' (by omega)]
      rfl
    | true =>
      obtain ⟨k, hk, hkp, N', h⟩ := ih (n := n + 1) (by omega) (by omega)
      refine ⟨k, by omega, hkp, max N N' + 1, fun fuel hf fuel' hf' => ?_⟩
      obtain ⟨fuel, rfl⟩ : ∃ k, fuel = k + 1 := ⟨fuel - 1, by omega⟩
      rw [hN fuel' (by omega), Nat.mod_eq_of_lt (by omega), if_pos rfl]
      exact h fuel (by omega) fuel' (by omega)

/-! ## A prime above 2^31 -/

/-- A number is prime as 2 is a primitive root. -/
theorem prime_2147483659 : Nat.Prime 2147483659 := by
  have hne : ∀ {m : ℕ} [m.AtLeastTwo], m < 2147483659 → (OfNat.ofNat m : ZMod 2147483659) ≠ 1 := by
    intro m hm hlt h
    have h : ((OfNat.ofNat m : ℕ) : ZMod 2147483659) = ((1 : ℕ) : ZMod 2147483659) := by
      rw [Nat.cast_ofNat, Nat.cast_one, h]
    rw [ZMod.natCast_eq_natCast_iff', Nat.mod_eq_of_lt (show OfNat.ofNat m < _ from hlt)] at h
    exact absurd h Nat.AtLeastTwo.ne_one
  refine lucas_primality _ 2 ?_ fun q hq hd => ?_
  · change (2 : ZMod 2147483659) ^ 2147483658 = 1
    reduce_mod_char
  · have h : q ∣ 2 * 3 * 149 * 2402107 := hd
    have h₁ : Nat.Prime 2402107 := by norm_num
    have h₂ : Nat.Prime 149 := by norm_num
    rw [hq.dvd_mul, hq.dvd_mul, hq.dvd_mul, Nat.prime_dvd_prime_iff_eq hq Nat.prime_two,
      Nat.prime_dvd_prime_iff_eq hq Nat.prime_three, Nat.prime_dvd_prime_iff_eq hq h₂,
      Nat.prime_dvd_prime_iff_eq hq h₁] at h
    obtain ((rfl | rfl) | rfl) | rfl := h
    · change (2 : ZMod 2147483659) ^ 1073741829 ≠ 1
      reduce_mod_char
      exact hne (by norm_num)
    · change (2 : ZMod 2147483659) ^ 715827886 ≠ 1
      reduce_mod_char
      exact hne (by norm_num)
    · change (2 : ZMod 2147483659) ^ 14412642 ≠ 1
      reduce_mod_char
      exact hne (by norm_num)
    · change (2 : ZMod 2147483659) ^ 894 ≠ 1
      reduce_mod_char
      exact hne (by norm_num)

/-- A prime for which the trial division does not overflow follows every size. -/
theorem exists_prime_ge (hj : j ≤ 31) : ∃ p, p.Prime ∧ 2 ^ j ≤ p ∧ p < 65535 ^ 2 :=
  ⟨2147483659, prime_2147483659, (Nat.pow_le_pow_right (by omega) hj).trans (by omega), by omega⟩

/-- The size for a hint of up to 2^31 is found. It is a prime, and not less than the hint. -/
theorem exists_newSize (hh : hint ≤ 2 ^ 31) : ∃ n, n.Prime ∧ hint ≤ n ∧
    Yields (fun fuel => sizeLoop hint fuel 32 >>= primeLoop fuel fuel) n := by
  obtain ⟨k, hk₅, hk, hle, h⟩ := sizeLoop_yields hh (show 5 + 26 = 31 from rfl)
  obtain ⟨p, hp, hkp, hlt⟩ := exists_prime_ge hk
  have h₂ : 2 ^ 1 ≤ 2 ^ k := Nat.pow_le_pow_right Nat.two_pos (by omega)
  obtain ⟨n, hn, hnp, h'⟩ := primeLoop_yields hp hlt h₂ (show 2 ^ k + (p - 2 ^ k) = p by omega)
  exact ⟨n, hnp, hle.trans hn, h.bind h'⟩

end Dlb.Hash
