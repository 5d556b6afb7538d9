import Dlb.Bint.Alloc
import Dlb.Bint.Interface

/-!
# Multiplication

`bint_mul` adds the products of the chunks of `a` with all of `b` to the result,
one row for each chunk of `a`. A step of a row adds the carry of the row to a chunk
of the result before it adds the product of two chunks, and `chunk_mac` loses the
carry of that first addition. `mulRow_spec` and `mulLoop_spec` say that the loops
are exact apart from what is lost, and under which condition nothing is lost.
-/

namespace Dlb.Bint

variable {I : Type} [DecidableEq I] {h h' : Heap} {a b : Bint}

/-! ## A row -/

/-- No step of a row of `bint_mul` loses a carry: `r` is the part of the result to
    which the product of the chunk `a` and the number `b` is added, and `c` the
    carry at the start. -/
def RowExact (a b r c : ℕ) : Prop :=
  ∀ j, r % radix ^ (j + 1) + c + a * (b % radix ^ j) < radix ^ (j + 1)

theorem mod_pow_succ_digit {x y : ℕ} (hx : x < radix) (k : ℕ) :
    (x + radix * y) % radix ^ (k + 1) = x + radix * (y % radix ^ k) := by
  rw [pow_succ', Nat.mod_mul, Nat.add_mul_mod_self_left, Nat.mod_eq_of_lt hx,
    Nat.add_mul_div_left _ _ radix_pos, Nat.div_eq_of_lt hx, zero_add]

theorem digit_lt_pow_succ {x y k : ℕ} (hx : x < radix) :
    x + radix * y < radix ^ (k + 1) ↔ y < radix ^ k := by
  rw [pow_succ']
  constructor
  · intro hy
    exact lt_of_mul_lt_mul_left (lt_of_le_of_lt (Nat.le_add_left _ x) hy) (Nat.zero_le _)
  · intro hy
    calc x + radix * y < radix * (y + 1) := by rw [mul_add]; omega
      _ ≤ radix * radix ^ k := Nat.mul_le_mul_left _ hy

section

variable {a b₀ b r₀ r c x c' : ℕ}

theorem row_step (e : x + radix * c' = (r₀ + c) % radix + a * b₀) (hc : r₀ + c < radix) :
    r₀ + radix * r + c + a * (b₀ + radix * b) = x + radix * (r + c' + a * b) := by
  rw [Nat.mod_eq_of_lt hc] at e
  calc r₀ + radix * r + c + a * (b₀ + radix * b)
      = (r₀ + c + a * b₀) + radix * (r + a * b) := by ring
    _ = x + radix * (r + c' + a * b) := by rw [← e]; ring

/-- The step of a row: `x` is the chunk of the result and `c'` the next carry. -/
theorem rowExact_cons (hb : b₀ < radix) (hr : r₀ < radix) (hx : x < radix)
    (e : x + radix * c' = (r₀ + c) % radix + a * b₀) :
    RowExact a (b₀ + radix * b) (r₀ + radix * r) c ↔ r₀ + c < radix ∧ RowExact a b r c' := by
  constructor
  · intro he
    have hc : r₀ + c < radix := by
      simpa [Nat.mod_eq_of_lt hr, Nat.mod_one] using he 0
    refine ⟨hc, fun j => ?_⟩
    have := he (j + 1)
    rwa [mod_pow_succ_digit hr, mod_pow_succ_digit hb, row_step e hc, digit_lt_pow_succ hx] at this
  · rintro ⟨hc, he⟩ j
    cases j with
    | zero => simpa [Nat.mod_eq_of_lt hr, Nat.mod_one] using hc
    | succ j =>
      rw [mod_pow_succ_digit hr, mod_pow_succ_digit hb, row_step e hc, digit_lt_pow_succ hx]
      exact he j

/-- A row `y` of `n` chunks has the value `v` apart from what is lost, and nothing
    is lost if and only if `p` holds and there is room for `v`. -/
def Balance (y v n : ℕ) (p : Prop) : Prop :=
  ∃ lost, y + lost = v ∧ (lost = 0 ↔ p ∧ v < radix ^ n)

theorem Balance.row_cons {y n : ℕ} (hb : b₀ < radix) (hr : r₀ < radix) (hx : x < radix)
    (e : x + radix * c' = (r₀ + c) % radix + a * b₀)
    (hy : Balance y (r + c' + a * b) n (RowExact a b r c')) :
    Balance (x + radix * y) (r₀ + radix * r + c + a * (b₀ + radix * b)) (n + 1)
      (RowExact a (b₀ + radix * b) (r₀ + radix * r) c) := by
  obtain ⟨lost, hv, hl⟩ := hy
  have hd := Nat.mod_add_div (r₀ + c) radix
  refine ⟨radix * ((r₀ + c) / radix) + radix * lost, ?_, ?_⟩
  · calc x + radix * y + (radix * ((r₀ + c) / radix) + radix * lost)
        = x + radix * (y + lost) + radix * ((r₀ + c) / radix) := by ring
      _ = x + radix * c' + radix * (r + a * b) + radix * ((r₀ + c) / radix) := by rw [hv]; ring
      _ = (r₀ + c) % radix + radix * ((r₀ + c) / radix) + a * b₀ + radix * (r + a * b) := by
          rw [e]; ring
      _ = r₀ + radix * r + c + a * (b₀ + radix * b) := by rw [hd]; ring
  · rw [rowExact_cons hb hr hx e]
    have hz : radix * ((r₀ + c) / radix) + radix * lost = 0 ↔ r₀ + c < radix ∧ lost = 0 := by
      simp [radix_pos.ne', Nat.div_eq_zero_iff]
    rw [hz, hl]
    constructor
    · rintro ⟨hc, he, hlt⟩
      exact ⟨⟨hc, he⟩, by rwa [row_step e hc, digit_lt_pow_succ hx]⟩
    · rintro ⟨⟨hc, he⟩, hlt⟩
      rw [row_step e hc, digit_lt_pow_succ hx] at hlt
      exact ⟨hc, he, hlt⟩

end

/-- What a row of `bint_mul` computes. -/
theorem mulRow_spec (ac carry : Chunk) {bs rcs cs : List Chunk}
    (e : mulRow ac carry bs rcs = some cs) : cs.length = rcs.length ∧
      Balance (chain cs) (chain rcs + carry.val + ac.val * chain bs) rcs.length
        (RowExact ac.val (chain bs) (chain rcs) carry.val) := by
  induction rcs generalizing bs carry cs with
  | nil =>
    cases bs with
    | nil =>
      obtain rfl := Option.some_inj.1 e
      refine ⟨rfl, carry.val, by simp, ?_⟩
      constructor
      · intro h₀
        simp [RowExact, h₀, radix_pos]
      · rintro ⟨-, hlt⟩
        simpa using hlt
    | cons bc bs => simp [mulRow] at e
  | cons rc rcs ih =>
    cases bs with
    | nil =>
      obtain ⟨cs', e', rfl⟩ : ∃ cs', mulRow ac (chunkMac none rc carry).2 [] rcs = some cs' ∧
          (chunkMac none rc carry).1 :: cs' = cs := by
        simpa [mulRow, Option.bind_eq_some_iff] using e
      obtain ⟨h₁, h₂⟩ := chunkMac_none rc carry
      obtain ⟨hl, hb⟩ := ih _ e'
      have := hb.row_cons (show 0 < radix from radix_pos) rc.val_lt (chunkMac none rc carry).1.val_lt
        (c := carry.val) (by rw [h₁, h₂]; simp)
      exact ⟨by simp [hl], by simpa using this⟩
    | cons bc bs =>
      obtain ⟨cs', e', rfl⟩ : ∃ cs', mulRow ac (chunkMac (some (ac, bc)) rc carry).2 bs rcs =
          some cs' ∧ (chunkMac (some (ac, bc)) rc carry).1 :: cs' = cs := by
        simpa [mulRow, Option.bind_eq_some_iff] using e
      obtain ⟨hl, hb⟩ := ih _ e'
      exact ⟨by simp [hl], hb.row_cons bc.val_lt rc.val_lt
        (chunkMac (some (ac, bc)) rc carry).1.val_lt (chunkMac_val ac bc rc carry)⟩

theorem mulRow_returns (ac carry : Chunk) (bs rcs : List Chunk) :
    (∃ cs, mulRow ac carry bs rcs = some cs) ↔ bs.length ≤ rcs.length := by
  induction rcs generalizing bs carry with
  | nil => cases bs <;> simp [mulRow]
  | cons rc rcs ih =>
    cases bs with
    | nil =>
      obtain ⟨cs, e⟩ := (ih (chunkMac none rc carry).2 []).2 (by simp)
      simp [mulRow, e]
    | cons bc bs =>
      rw [List.length_cons, List.length_cons, Nat.add_le_add_iff_right,
        ← ih (chunkMac (some (ac, bc)) rc carry).2]
      simp [mulRow, Option.bind_eq_some_iff]

/-! ## All rows -/

/-- No row of `bint_mul` loses a carry, where `r` is the result so far. -/
def RowsExact (a b r : ℕ) : Prop :=
  ∀ i, RowExact (a / radix ^ i % radix) b ((r + a % radix ^ i * b) / radix ^ i) 0

/-- The first row: `x` is the chunk of the result which is final after it, and `s`
    what is left of the result. -/
theorem rowsExact_cons {a₀ a b r x s : ℕ} (ha : a₀ < radix) (hx : x < radix)
    (e : x + radix * s = r + a₀ * b) :
    RowsExact (a₀ + radix * a) b r ↔ RowExact a₀ b r 0 ∧ RowsExact a b s := by
  have hd : (a₀ + radix * a) / radix = a := by
    rw [Nat.add_mul_div_left _ _ radix_pos, Nat.div_eq_of_lt ha, zero_add]
  have hrow : ∀ i, (r + (a₀ + radix * a) % radix ^ (i + 1) * b) / radix ^ (i + 1) =
      (s + a % radix ^ i * b) / radix ^ i := by
    intro i
    rw [mod_pow_succ_digit ha, pow_succ', ← Nat.div_div_eq_div_mul]
    congr 1
    rw [show r + (a₀ + radix * (a % radix ^ i)) * b = x + radix * (s + a % radix ^ i * b) by
      calc r + (a₀ + radix * (a % radix ^ i)) * b
          = (r + a₀ * b) + radix * (a % radix ^ i * b) := by ring
        _ = x + radix * (s + a % radix ^ i * b) := by rw [← e]; ring]
    rw [Nat.add_mul_div_left _ _ radix_pos, Nat.div_eq_of_lt hx, zero_add]
  have hdig : ∀ i, (a₀ + radix * a) / radix ^ (i + 1) % radix = a / radix ^ i % radix := by
    intro i
    rw [pow_succ', ← Nat.div_div_eq_div_mul, hd]
  constructor
  · intro he
    refine ⟨by simpa [Nat.mod_one, Nat.mod_eq_of_lt ha] using he 0, fun i => ?_⟩
    have := he (i + 1)
    rwa [hrow, hdig] at this
  · rintro ⟨h₀, he⟩ i
    cases i with
    | zero => simpa [Nat.mod_one, Nat.mod_eq_of_lt ha] using h₀
    | succ i =>
      rw [hrow, hdig]
      exact he i

theorem rowsExact_zero (b r : ℕ) : RowsExact 0 b r := by
  intro i j
  have := Nat.mod_lt (r / radix ^ i) (Nat.pow_pos (n := j + 1) radix_pos)
  simpa using this

theorem RowsExact.first {a b r : ℕ} (he : RowsExact a b r) : RowExact (a % radix) b r 0 := by
  simpa [Nat.mod_one] using he 0

theorem Balance.rows_cons {a₀ a b r x r' y n : ℕ} (ha : a₀ < radix) (hx : x < radix)
    (h₁ : Balance (x + radix * r') (r + 0 + a₀ * b) (n + 1) (RowExact a₀ b r 0))
    (h₂ : Balance y (r' + a * b) n (RowsExact a b r')) :
    Balance (x + radix * y) (r + (a₀ + radix * a) * b) (n + 1)
      (RowsExact (a₀ + radix * a) b r) := by
  obtain ⟨l₁, hv₁, hl₁⟩ := h₁
  obtain ⟨l₂, hv₂, hl₂⟩ := h₂
  rw [add_zero] at hv₁ hl₁
  have hv : r + (a₀ + radix * a) * b = x + radix * (r' + a * b) + l₁ := by
    calc r + (a₀ + radix * a) * b = (r + a₀ * b) + radix * (a * b) := by ring
      _ = x + radix * (r' + a * b) + l₁ := by rw [← hv₁]; ring
  refine ⟨l₁ + radix * l₂, by rw [hv, ← hv₂]; ring, ?_⟩
  have hz : l₁ + radix * l₂ = 0 ↔ l₁ = 0 ∧ l₂ = 0 := by simp [radix_pos.ne']
  rw [hz]
  constructor
  · rintro ⟨h₀, h₀'⟩
    obtain ⟨he₁, -⟩ := hl₁.1 h₀
    obtain ⟨he₂, hlt⟩ := hl₂.1 h₀'
    rw [h₀, add_zero] at hv hv₁
    exact ⟨(rowsExact_cons ha hx hv₁).2 ⟨he₁, he₂⟩, by rwa [hv, digit_lt_pow_succ hx]⟩
  · rintro ⟨he, hlt⟩
    have he₁ := he.first
    rw [Nat.add_mul_mod_self_left, Nat.mod_eq_of_lt ha] at he₁
    have h₀ : l₁ = 0 := hl₁.2 ⟨he₁, lt_of_le_of_lt (by rw [hv, ← hv₁]; simp [mul_add]) hlt⟩
    rw [h₀, add_zero] at hv hv₁
    rw [hv, digit_lt_pow_succ hx] at hlt
    exact ⟨h₀, hl₂.2 ⟨((rowsExact_cons ha hx hv₁).1 he).2, hlt⟩⟩

/-- What the loops of `bint_mul` compute. -/
theorem mulLoop_spec (bs : List Chunk) {as rcs cs : List Chunk}
    (e : mulLoop bs as rcs = some cs) : cs.length = rcs.length ∧
      Balance (chain cs) (chain rcs + chain as * chain bs) rcs.length
        (RowsExact (chain as) (chain bs) (chain rcs)) := by
  induction as generalizing rcs cs with
  | nil =>
    obtain rfl := Option.some_inj.1 e
    refine ⟨rfl, 0, by simp, iff_of_true rfl ⟨rowsExact_zero _ _, ?_⟩⟩
    simpa using chain_lt rcs
  | cons ac as ih =>
    obtain ⟨row, e₁, e₂⟩ := Option.bind_eq_some_iff.1 e
    obtain ⟨hl, hb⟩ := mulRow_spec ac .zero e₁
    cases row with
    | nil => simp at e₂
    | cons rc rcs' =>
      obtain ⟨cs', e₃, rfl⟩ : ∃ cs', mulLoop bs as rcs' = some cs' ∧ rc :: cs' = cs := by
        simpa [Option.bind_eq_some_iff] using e₂
      obtain ⟨hl', hb'⟩ := ih e₃
      rw [← hl] at hb ⊢
      exact ⟨by simp [hl'], hb.rows_cons ac.val_lt rc.val_lt hb'⟩

theorem mulLoop_returns {bs : List Chunk} (hb : bs ≠ []) (as rcs : List Chunk) :
    (∃ cs, mulLoop bs as rcs = some cs) ↔ as = [] ∨ as.length + bs.length ≤ rcs.length + 1 := by
  induction as generalizing rcs with
  | nil => simp [mulLoop]
  | cons ac as ih =>
    have hb' := List.length_pos_iff.2 hb
    constructor
    · rintro ⟨cs, e⟩
      obtain ⟨row, e₁, e₂⟩ := Option.bind_eq_some_iff.1 e
      have hle := (mulRow_returns ac .zero _ _).1 ⟨row, e₁⟩
      have hl := (mulRow_spec ac .zero e₁).1
      cases row with
      | nil => simp at e₂
      | cons rc rcs' =>
        obtain ⟨cs', e₃, -⟩ : ∃ cs', mulLoop bs as rcs' = some cs' ∧ rc :: cs' = cs := by
          simpa [Option.bind_eq_some_iff] using e₂
        have := (ih _).1 ⟨cs', e₃⟩
        rw [List.length_cons] at hl ⊢
        rcases this with rfl | h₁
        · simp
          omega
        · omega
    · rintro (h₀ | hle)
      · simp at h₀
      · rw [List.length_cons] at hle
        obtain ⟨row, e₁⟩ := (mulRow_returns ac .zero bs rcs).2 (by omega)
        have hl := (mulRow_spec ac .zero e₁).1
        cases row with
        | nil =>
          simp at hl
          omega
        | cons rc rcs' =>
          rw [List.length_cons] at hl
          obtain ⟨cs', e₃⟩ := (ih rcs').2 (.inr (by omega))
          exact ⟨rc :: cs', Option.bind_eq_some_iff.2 ⟨_, e₁, by simp [e₃]⟩⟩

/-! ## The product -/

/-- The number of chunks in which `bint_mul` computes. -/
def mulRoom (result a b : Bint) : ℕ :=
  max ((bintBitLength a + bintBitLength b) % 2 ^ 32 / 128) result.next.length + 1

/-- The steps of `bint_mul` lose no carry: the carry of a row fits into a chunk
    together with the chunk of the result to which it is added. -/
def NoLostCarry (a b : ℕ) : Prop :=
  ∀ i j, a % radix ^ i * b / radix ^ i % radix ^ (j + 1) + a / radix ^ i % radix * (b % radix ^ j) <
    radix ^ (j + 1)

theorem noLostCarry_iff (a b : ℕ) : NoLostCarry a b ↔ RowsExact a b 0 := by
  simp [NoLostCarry, RowsExact, RowExact]

/-- No carry is lost, every row has its chunks in the result, and the product
    fits into them. -/
def MulExact (result a b : Bint) : Prop :=
  NoLostCarry (mag a) (mag b) ∧
    a.digits.length + b.digits.length ≤ mulRoom result a b + 1 ∧
    mag a * mag b < radix ^ mulRoom result a b

/-- What `bint_mul` leaves in its result `r`. -/
structure MulResult (result a b r : Bint) : Prop where
  negative : r.negative = decide (bintGetSign a * bintGetSign b < 0)
  length : r.digits.length = mulRoom result a b
  balance : Balance (mag r) (mag a * mag b) (mulRoom result a b) (NoLostCarry (mag a) (mag b))

theorem mulResult_of_loop (result d : Bint) {n : ℕ} (hn : n + 1 = mulRoom result a b)
    {cs : List Chunk} (e : mulLoop b.digits a.digits (List.replicate (n + 1) .zero) = some cs) :
    MulResult result a b (bintSetSign (d.setDigits cs) (bintGetSign a * bintGetSign b)) := by
  obtain ⟨hl, hb⟩ := mulLoop_spec _ e
  rw [List.length_replicate, chain_replicate_zero, zero_add, hn, ← noLostCarry_iff] at hb
  rw [List.length_replicate] at hl
  have hne : cs ≠ [] := by
    rintro rfl
    simp at hl
  refine ⟨rfl, ?_, ?_⟩
  · rw [← hn, ← hl]
    exact congrArg List.length (digits_setDigits d hne)
  · rw [← mag_setDigits d hne] at hb
    exact hb

theorem map_zero_digits (b : Bint) :
    (b.digits.map fun _ => Chunk.zero) = List.replicate (b.next.length + 1) .zero := by
  rw [List.map_const', length_digits]

theorem bintMul_spec {result : Bint} {r : (ℤ × Bint) × Heap}
    (e : bintMul result a b h = some r) : Outcome result (MulResult result a b) h r := by
  obtain ⟨⟨rc, d⟩, h₁, e₁, e₂⟩ := bind_eq_some.1 e
  cases extendLength_spec e₁ with
  | failed g hk =>
    obtain rfl := pure_eq_some.1 e₂
    exact .failed g hk
  | done hd g =>
    subst hd
    obtain ⟨cs, h₂, e₃, e₄⟩ := bind_eq_some.1 e₂
    obtain ⟨cs', e₅, e₆⟩ := lift_eq_some.1 e₃
    obtain ⟨rfl, rfl⟩ := Prod.mk.inj e₆
    obtain rfl := pure_eq_some.1 e₄
    rw [map_zero_digits, length_extend] at e₅
    have hr := mulResult_of_loop result
      (extend result ((bintBitLength a + bintBitLength b) % 2 ^ 32 / 128)) rfl e₅
    refine .done hr (g.of_eq ?_)
    have hl := hr.length
    rw [length_digits, mulRoom] at hl
    rw [length_extend]
    omega

theorem bintMul_returns {result : Bint} (hk : h.Ok)
    (hl : a.digits.length + b.digits.length ≤ mulRoom result a b + 1) :
    ∃ r, bintMul result a b h = some r := by
  obtain ⟨⟨⟨rc, d⟩, h₁⟩, e₁, ho⟩ :=
    extendLength_returns result ((bintBitLength a + bintBitLength b) % 2 ^ 32) h
  cases ho with
  | failed g hn => exact absurd hk hn
  | done hd g =>
    subst hd
    obtain ⟨cs, e₂⟩ := (mulLoop_returns b.digits_ne_nil a.digits
      (List.replicate (mulRoom result a b) .zero)).2 (.inr (by simpa using hl))
    refine ⟨_, bind_eq_some.2 ⟨_, _, e₁, bind_eq_some.2 ⟨cs, h₁, ?_, rfl⟩⟩⟩
    refine lift_eq_some.2 ⟨cs, ?_, rfl⟩
    rwa [map_zero_digits, length_extend]

/-- `bint_mul` dereferences `NULL` if a row has more chunks than the result. -/
theorem length_le_of_bintMul {result : Bint} {r : Bint}
    (e : bintMul result a b h = some ((0, r), h')) :
    a.digits.length + b.digits.length ≤ mulRoom result a b + 1 := by
  obtain ⟨⟨rc, d⟩, h₁, e₁, e₂⟩ := bind_eq_some.1 e
  cases extendLength_spec e₁ with
  | failed g hk =>
    have := pure_eq_some.1 e₂
    simp at this
  | done hd g =>
    subst hd
    obtain ⟨cs, h₂, e₃, -⟩ := bind_eq_some.1 e₂
    obtain ⟨cs', e₄, -⟩ := lift_eq_some.1 e₃
    rw [map_zero_digits, length_extend] at e₄
    have := (mulLoop_returns b.digits_ne_nil _ _).1 ⟨_, e₄⟩
    simpa [mulRoom, digits_ne_nil] using this

theorem MulResult.toInt_eq_iff {result r : Bint} (hr : MulResult result a b r) (ha : Canonical a)
    (hb : Canonical b) : toInt r = toInt a * toInt b ↔
      NoLostCarry (mag a) (mag b) ∧ mag a * mag b < radix ^ mulRoom result a b := by
  obtain ⟨lost, hv, hl⟩ := hr.balance
  rw [← hl]
  have hneg : r.negative = decide (toInt a * toInt b < 0) := by
    rw [hr.negative, ha.bintGetSign, hb.bintGetSign, ← Int.sign_mul]
    exact decide_eq_decide.2 Int.sign_neg_iff
  have habs : (toInt a * toInt b).natAbs = mag a * mag b := by
    rw [Int.natAbs_mul, natAbs_toInt, natAbs_toInt]
  rw [toInt, hneg]
  by_cases h₀ : toInt a * toInt b < 0
  · simp only [h₀, decide_true, if_true]
    omega
  · simp only [h₀, decide_false, Bool.false_eq_true, if_false]
    omega

/-- `bint_mul` computes the product if and only if none of its steps loses a carry and
    there is room for it. -/
theorem bintMul_exact_iff (σ : Store I) {result a b : I} (_ : (Op.mul result a b).Legal) (h : Heap)
    (ha : Canonical (σ a)) (hb : Canonical (σ b)) (hk : h.Ok) :
    Computes σ (.mul result a b) result (fun r => toInt r = toInt (σ a) * toInt (σ b)) h ↔
      MulExact (σ result) (σ a) (σ b) := by
  constructor
  · intro c
    obtain ⟨r, h', e₁, hv⟩ := c.of_onObject rfl
    have hlen := length_le_of_bintMul e₁
    cases bintMul_spec e₁ with
    | done hr g =>
      obtain ⟨h₁, h₂⟩ := (hr.toInt_eq_iff ha hb).1 hv
      exact ⟨h₁, hlen, h₂⟩
  · rintro ⟨h₁, hlen, h₂⟩
    obtain ⟨⟨⟨rc, r⟩, h'⟩, e⟩ := bintMul_returns hk hlen
    have he : exec σ (.mul result a b) h = some ((rc, Function.update σ result r), h') :=
      bind_eq_some.2 ⟨_, _, e, rfl⟩
    cases bintMul_spec e with
    | failed g hn => exact absurd hk hn
    | done hr g => exact (computes_iff he rfl).2 ((hr.toInt_eq_iff ha hb).2 ⟨h₁, h₂⟩)

/-- A number of one chunk loses no carry, as there is only one row. -/
theorem noLostCarry_of_lt {a : ℕ} (ha : a < radix) (b : ℕ) : NoLostCarry a b := by
  rw [noLostCarry_iff]
  have hx : RowsExact (a + radix * 0) b 0 := by
    refine (rowsExact_cons (s := a * b / radix) ha (Nat.mod_lt (a * b) radix_pos) ?_).2
      ⟨fun j => ?_, rowsExact_zero _ _⟩
    · rw [Nat.mod_add_div, zero_add]
    · rw [Nat.zero_mod, zero_add, zero_add]
      calc a * (b % radix ^ j) ≤ radix * (b % radix ^ j) := Nat.mul_le_mul_right _ ha.le
        _ < radix * radix ^ j :=
            Nat.mul_lt_mul_of_pos_left (Nat.mod_lt _ (Nat.pow_pos radix_pos)) radix_pos
        _ = radix ^ (j + 1) := (pow_succ' radix j).symm
  simpa using hx

/-- The number `2 ^ 256 - 1`. -/
def ones256 : Bint := ⟨false, .ones, [.ones]⟩

/-- The square of `2 ^ 256 - 1` is not computed, as a carry gets lost. -/
theorem bintMul_loses_carry : Canonical ones256 ∧ freshHeap.Ok ∧ toInt ones256 = 2 ^ 256 - 1 ∧
    (Op.mul false true true).Legal ∧
    ¬Computes (pair bintZero ones256) (.mul false true true) false
      (fun r => toInt r = toInt ones256 * toInt ones256) freshHeap := by
  refine ⟨by decide, fun _ => rfl, by decide, ⟨by decide, by decide⟩, ?_⟩
  intro c
  obtain ⟨r, h', e₁, hv⟩ := c.of_onObject rfl
  cases bintMul_spec e₁ with
  | done hr g =>
    have := ((hr.toInt_eq_iff (by decide) (by decide)).1 hv).1 1 1
    revert this
    decide

/-- The square of -1 in a result that has two chunks. -/
theorem bintMul_exact_iff_neg_one : Computes (pair (small true 1) ones256) (.mul true false false)
    true (fun r => toInt r = 1) freshHeap :=
  (bintMul_exact_iff (pair (small true 1) ones256)
    (show (Op.mul true false false).Legal from ⟨by decide, by decide⟩) freshHeap (by decide) (by decide) fun _ => rfl).2
    ⟨noLostCarry_of_lt (by decide) _, by decide, by decide⟩

end Dlb.Bint
