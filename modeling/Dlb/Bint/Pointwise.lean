import Dlb.Bint.Bitwise
import Dlb.Bint.Interface

/-!
# Bitwise operations bit by bit

What the functions on bits do is seen through `bint_bit_get`: `Pointwise` for the
operations on two numbers and `BitChanged` for those on one bit. All of them are right
on numbers of any length, apart from `bint_or` and `bint_xor`, which count the missing
chunks of the destination in an `unsigned int`, and `bint_bit_length`, which is
one as well (`bitwise_exact_iff`).
-/

namespace Dlb.Bint

variable {I : Type} [DecidableEq I] {h h' : Heap} {σ : Store I} {b d dst : Bint}

/-! ## The loops return -/

theorem combineLoop_returns (f : UInt32 → UInt32 → UInt32) (needTrim : Bool) {ds ss : List Chunk}
    (hl : ss.length ≤ ds.length) : ∃ r, combineLoop f needTrim ds ss = some r := by
  induction ss generalizing needTrim ds with
  | nil => exact ⟨_, by rw [combineLoop]⟩
  | cons s ss ih =>
    cases ds with
    | nil => simp at hl
    | cons d ds =>
      obtain ⟨⟨cs, t⟩, e⟩ := ih (chunkIsZero (d.zipWith f s)) (by simpa using hl)
      exact ⟨_, Option.bind_eq_some_iff.2 ⟨_, e, rfl⟩⟩

theorem andLoop_returns (needTrim : Bool) (ds ss : List Chunk) (h : Heap) :
    ∃ r h', andLoop needTrim ds ss h = some (r, h') := by
  induction ds generalizing needTrim ss h with
  | nil => exact ⟨_, h, rfl⟩
  | cons d ds ih =>
    cases ss with
    | nil => exact ⟨_, h, rfl⟩
    | cons s ss =>
      rw [andLoop]
      by_cases hn : ss = []
      · simp only [hn, if_true]
        exact ⟨_, _, bind_eq_some.2 ⟨_, _, destroyChain_eq ds h, rfl⟩⟩
      · simp only [hn, if_false]
        obtain ⟨⟨cs, t⟩, h', e⟩ := ih (chunkIsZero (d.zipWith (· &&& ·) s)) ss h
        exact ⟨_, h', bind_eq_some.2 ⟨_, _, e, rfl⟩⟩

theorem trim_if_returns (t : Bool) (b : Bint) (h : Heap) :
    ∃ r h', (if t then trimChunks b else pure b : Prog Bint) h = some (r, h') := by
  cases t with
  | false => exact ⟨b, h, rfl⟩
  | true =>
    obtain ⟨h', e, -⟩ := trimChunks_returns b h
    exact ⟨_, h', e⟩

/-- The number of chunks which `bint_or` and `bint_xor` allocate. -/
def missing (ds ss : List Chunk) : ℕ := (ss.length - ds.length) % 2 ^ 32

/-- The first part of `bint_or` and `bint_xor` if all allocations succeed. An empty chain is taken
    for a failure. -/
theorem matchLoop_returns (ds ss : List Chunk) (hk : h.Ok) : ∃ rc h',
    matchLoop ds ss h = some ((rc, ds ++ List.replicate (missing ds ss) .zero), h') ∧
      (rc = 0 ↔ ss.length < ds.length + 2 ^ 32 ∨ missing ds ss ≠ 0) := by
  induction ds generalizing ss with
  | nil =>
    cases ss with
    | nil => exact ⟨0, h, rfl, iff_of_true rfl (.inl (Nat.two_pow_pos 32))⟩
    | cons s ss =>
      obtain ⟨h', e, -⟩ | ⟨_, _, _, hn⟩ := allocChain_spec (chainLength (s :: ss)) h
      · have hm : chainLength (s :: ss) = missing [] (s :: ss) := by
          rw [missing, chainLength, List.length_nil, Nat.sub_zero]
        by_cases h₀ : missing [] (s :: ss) = 0
        · refine ⟨-1, h', bind_eq_some.2 ⟨_, _, e, ?_⟩, iff_of_false (by simp) ?_⟩
          · rw [hm, h₀]
            rfl
          · rw [missing] at h₀
            simp only [List.length_cons, List.length_nil] at h₀ ⊢
            simp only [missing, List.length_cons, List.length_nil]
            omega
        · refine ⟨0, h', bind_eq_some.2 ⟨_, _, e, ?_⟩, iff_of_true rfl (.inr h₀)⟩
          rw [hm, if_neg (by simpa using h₀)]
          rfl
      · exact absurd hk hn
  | cons d ds ih =>
    cases ss with
    | nil =>
      refine ⟨0, h, ?_, iff_of_true rfl (.inl (Nat.lt_add_left _ (Nat.two_pow_pos 32)))⟩
      simp [matchLoop, missing, pure_eq_some]
    | cons s ss =>
      obtain ⟨rc, h', e, hrc⟩ := ih ss
      have hm : missing (d :: ds) (s :: ss) = missing ds ss := by simp [missing]
      refine ⟨rc, h', bind_eq_some.2 ⟨_, _, e, ?_⟩, ?_⟩
      · rw [hm]
        rfl
      · rw [hrc, hm]
        simp only [List.length_cons]
        omega

/-! ## `bint_or` and `bint_xor` -/

/-- The chunks that the destination lacks can be counted. -/
def Matchable (dst src : Bint) : Prop := src.next.length < dst.next.length + 2 ^ 32

/-- The destination of `bint_or` and `bint_xor` after room is made in it. -/
def matched (dst src : Bint) : Bint :=
  { dst with next := dst.next ++ List.replicate (missing dst.next src.next) .zero }

theorem get_matched (dst : Bint) (src : Operand) :
    src.get (matched dst (src.get dst)) = src.get dst := by
  cases src with
  | self => simp [Operand.get, matched, missing]
  | other b => rfl

/-- The loop of `bint_or` and `bint_xor` runs past the end of the destination if the chunks of the
    source cannot be counted. -/
theorem matchable_of_combineLoop {src : Operand} {f : UInt32 → UInt32 → UInt32}
    {r : List Chunk × Bool} (e : combineLoop f false (matched dst (src.get dst)).digits
      (src.get (matched dst (src.get dst))).digits = some r) : Matchable dst (src.get dst) := by
  have hl := (combineLoop_spec e).1
  rw [get_matched, length_digits, length_digits] at hl
  have : (matched dst (src.get dst)).next.length =
      dst.next.length + missing dst.next (src.get dst).next := by
    simp [matched]
  have hlt : missing dst.next (src.get dst).next < 2 ^ 32 := Nat.mod_lt _ (Nat.two_pow_pos 32)
  rw [Matchable]
  omega

theorem matchable_combineLoop {src : Operand} (hm : Matchable dst (src.get dst))
    (f : UInt32 → UInt32 → UInt32) : ∃ r, combineLoop f false (matched dst (src.get dst)).digits
      (src.get (matched dst (src.get dst))).digits = some r := by
  refine combineLoop_returns f false ?_
  have hlt : (src.get dst).next.length - dst.next.length < 2 ^ 32 := by
    rw [Matchable] at hm
    omega
  rw [get_matched, length_digits, length_digits, matched, List.length_append, List.length_replicate,
    missing, Nat.mod_eq_of_lt hlt]
  omega

/-- What `bint_or` and `bint_xor` have in common, with `k` after the loop: 0 is returned if and only
    if the chunks can be counted. -/
theorem combine_returns_iff (hk : h.Ok) (src : Operand) (f : UInt32 → UInt32 → UInt32)
    {k : List Chunk × Bool → Bint → Prog (ℤ × Bint)}
    (hret : ∀ r b h, ∃ d h', k r b h = some ((0, d), h')) {m : Prog (ℤ × Bint)}
    (hm : m = do
      let (rc, next) ← matchLoop dst.next (src.get dst).next
      let dst := { dst with next := next }
      if rc < 0 then return (-1, dst)
      let r ← (combineLoop f false dst.digits (src.get dst).digits : Option _)
      k r dst) :
    (∃ d h', m h = some ((0, d), h')) ↔ Matchable dst (src.get dst) := by
  obtain ⟨rc, h₁, e₁, hrc⟩ := matchLoop_returns dst.next (src.get dst).next hk
  subst hm
  constructor
  · rintro ⟨d, h', e⟩
    obtain ⟨⟨rc', next⟩, h₂, e₂, e₃⟩ := bind_eq_some.1 e
    obtain ⟨hx, rfl⟩ := Prod.mk.inj (Option.some_inj.1 (e₁.symm.trans e₂))
    obtain ⟨rfl, rfl⟩ := Prod.mk.inj hx
    by_cases h₀ : rc < 0
    · simp only [h₀, if_true] at e₃
      have := pure_eq_some.1 e₃
      simp at this
    · simp only [h₀, if_false] at e₃
      obtain ⟨_, _, e₄, -⟩ := bind_eq_some.1 e₃
      obtain ⟨_, e₅, -⟩ := lift_eq_some.1 e₄
      exact matchable_of_combineLoop e₅
  · intro hm
    obtain rfl := hrc.2 (.inl hm)
    obtain ⟨r, e₂⟩ := matchable_combineLoop hm f
    obtain ⟨d, h', e₃⟩ := hret r (matched dst (src.get dst)) h₁
    exact ⟨d, h', bind_eq_some.2 ⟨_, _, e₁, bind_eq_some.2 ⟨_, _, lift_eq_some.2 ⟨_, e₂, rfl⟩, e₃⟩⟩⟩

theorem bintOr_returns_iff (hk : h.Ok) (src : Operand) :
    (∃ d h', bintOr dst src h = some ((0, d), h')) ↔ Matchable dst (src.get dst) :=
  combine_returns_iff hk src (· ||| ·) (k := fun r b => pure (0, b.setDigits r.1))
    (fun _ _ h => ⟨_, h, rfl⟩) rfl

theorem bintXor_returns_iff (hk : h.Ok) (src : Operand) :
    (∃ d h', bintXor dst src h = some ((0, d), h')) ↔ Matchable dst (src.get dst) := by
  refine combine_returns_iff hk src (· ^^^ ·) (k := fun r b => do
    if r.2 then return (0, ← trimChunks (b.setDigits r.1))
    return (0, b.setDigits r.1)) (fun r b h => ?_) rfl
  cases r.2 with
  | false => exact ⟨_, h, rfl⟩
  | true =>
    obtain ⟨h', e, -⟩ := trimChunks_returns (b.setDigits r.1) h
    exact ⟨_, h', bind_eq_some.2 ⟨_, _, e, rfl⟩⟩

/-! ## What is seen through `bint_bit_get` -/

/-- The bits of `d` are those of `dst` and `src` combined by `φ`. -/
structure Pointwise (φ : Bool → Bool → Bool) (dst src d : Bint) : Prop where
  canonical : Canonical d
  negative : d.negative = dst.negative
  bit : ∀ pos, bintBitGet d pos = φ (bintBitGet dst pos) (bintBitGet src pos)

/-- The bit `q` of `d` is `x`, and the others are those of `b`. -/
structure BitChanged (q : ℕ) (x : Bool) (b d : Bint) : Prop where
  canonical : Canonical d
  negative : d.negative = b.negative
  bit : ∀ pos, bintBitGet d pos = if pos = q then x else bintBitGet b pos

/-- The number `n` is one more than the position of the highest bit that is set, or 0 if
    there is none. -/
def IsLength (b : Bint) (n : ℕ) : Prop :=
  (n = 0 ∧ ∀ pos, bintBitGet b pos = false) ∨
    ∃ k, n = k + 1 ∧ bintBitGet b k = true ∧ ∀ pos, k < pos → bintBitGet b pos = false

theorem isLength_iff {n : ℕ} : IsLength b n ↔ n = Nat.size (mag b) := by
  simp only [IsLength, bintBitGet_eq]
  constructor
  · rintro (⟨rfl, h₀⟩ | ⟨k, rfl, h₁, h₂⟩)
    · rw [Nat.zero_of_testBit_eq_false h₀, Nat.size_zero]
    · refine le_antisymm (Nat.lt_size.2 (Nat.ge_two_pow_of_testBit h₁)) (Nat.size_le.2 ?_)
      by_contra hge
      obtain ⟨pos, hpos, hbit⟩ := Nat.exists_ge_and_testBit_of_ge_two_pow (not_lt.1 hge)
      rw [h₂ pos hpos] at hbit
      exact Bool.false_ne_true hbit
  · rintro rfl
    by_cases h₀ : mag b = 0
    · rw [h₀]
      exact .inl ⟨Nat.size_zero, Nat.zero_testBit⟩
    · have hpos := Nat.size_pos.2 (Nat.pos_of_ne_zero h₀)
      refine .inr ⟨Nat.size (mag b) - 1, (Nat.sub_add_cancel hpos).symm, testBit_size_pred h₀,
        fun pos hlt => Nat.testBit_eq_false_of_lt ((Nat.lt_size_self _).trans_le ?_)⟩
      exact Nat.pow_le_pow_right (by simp) (by omega)

/-! ## The operations -/

/-- A function whose result meets `P` whenever it returns 0. -/
theorem computes_iff_returns {op : Op I} {i : I} {P : Bint → Prop} {f : Prog (ℤ × Bint)}
    (ho : exec σ op = onObject σ i f) (hp : ∀ d h', f h = some ((0, d), h') → P d) :
    Computes σ op i P h ↔ ∃ d h', f h = some ((0, d), h') := by
  constructor
  · intro c
    obtain ⟨d, h', e, -⟩ := c.of_onObject ho
    exact ⟨d, h', e⟩
  · rintro ⟨d, h', e⟩
    have he : exec σ op h = some ((0, Function.update σ i d), h') := by
      rw [ho]
      exact bind_eq_some.2 ⟨_, _, e, rfl⟩
    exact (computes_iff he rfl).2 (hp d h' e)

theorem or_computes_iff {dst src : I} (hd : Canonical (σ dst)) (hs : Canonical (σ src))
    (hk : h.Ok) : Computes σ (.or dst src) dst (Pointwise or (σ dst) (σ src)) h ↔
      Matchable (σ dst) (σ src) := by
  have hg := operand_get σ dst src
  rw [computes_iff_returns rfl fun d h' e => ?_, bintOr_returns_iff hk, hg]
  cases bintOr_spec e with
  | done hr _ =>
    obtain ⟨hn, hm, hl⟩ := hr
    rw [hg] at hm hl
    refine ⟨canonical_of_or hd hs hm hl, hn, fun pos => ?_⟩
    rw [bintBitGet_eq, bintBitGet_eq, bintBitGet_eq, hm, Nat.testBit_or]

theorem xor_computes_iff {dst src : I} (hd : Canonical (σ dst)) (hk : h.Ok) :
    Computes σ (.xor dst src) dst (Pointwise xor (σ dst) (σ src)) h ↔
      Matchable (σ dst) (σ src) := by
  have hg := operand_get σ dst src
  rw [computes_iff_returns rfl fun d h' e => ?_, bintXor_returns_iff hk, hg]
  cases bintXor_spec hd e with
  | done hr _ =>
    obtain ⟨hc, hn, hm⟩ := hr
    rw [hg] at hm
    refine ⟨hc, hn, fun pos => ?_⟩
    rw [bintBitGet_eq, bintBitGet_eq, bintBitGet_eq, hm, Nat.testBit_xor]

/-- A function that returns nothing, and whose result meets `P`. -/
theorem computes_of_returns {op : Op I} {i : I} {P : Bint → Prop} {f : Prog Bint}
    (ho : exec σ op = onObject' σ i f) (hr : ∃ d h', f h = some (d, h'))
    (hp : ∀ d h', f h = some (d, h') → P d) : Computes σ op i P h := by
  obtain ⟨d, h', e⟩ := hr
  have he : exec σ op h = some ((0, Function.update σ i d), h') := by
    rw [ho]
    exact bind_eq_some.2 ⟨_, _, e, rfl⟩
  exact (computes_iff he rfl).2 (hp d h' e)

theorem and_computes {dst src : I} (σ : Store I) (h : Heap) :
    Computes σ (.and dst src) dst (Pointwise and (σ dst) (σ src)) h := by
  have hg := operand_get σ dst src
  refine computes_of_returns rfl ?_ fun d h' e => ?_
  · obtain ⟨⟨cs, t⟩, h₁, e₁⟩ :=
      andLoop_returns false (σ dst).digits ((operand σ dst src).get (σ dst)).digits h
    obtain ⟨d, h', e₂⟩ := trim_if_returns t ((σ dst).setDigits cs) h₁
    exact ⟨d, h', bind_eq_some.2 ⟨_, _, e₁, e₂⟩⟩
  · obtain ⟨hc, hn, hm, -⟩ := bintAnd_spec e
    rw [hg] at hm
    refine ⟨hc, hn, fun pos => ?_⟩
    rw [bintBitGet_eq, bintBitGet_eq, bintBitGet_eq, hm, Nat.testBit_and]

theorem bic_computes {dst src : I} (hd : Canonical (σ dst)) (h : Heap) :
    Computes σ (.bic dst src) dst (Pointwise (fun x y => x && !y) (σ dst) (σ src)) h := by
  have hg := operand_get σ dst src
  refine computes_of_returns rfl ?_ fun d h' e => ?_
  · exact trim_if_returns _ _ h
  · obtain ⟨hc, hn, hm, -⟩ := bintBic_spec hd e
    rw [hg] at hm
    refine ⟨hc, hn, fun pos => ?_⟩
    rw [bintBitGet_eq, bintBitGet_eq, bintBitGet_eq, hm, testBit_bic]

theorem bitSet_computes {b : I} (hb : Canonical (σ b)) (q : UInt32) (hk : h.Ok) :
    Computes σ (.bitSet b q) b (BitChanged q.toNat true (σ b)) h := by
  obtain ⟨⟨⟨rc, d⟩, h'⟩, e, ho⟩ := bintBitSet_returns (σ b) q.toNat h
  have he : exec σ (.bitSet b q) h = some ((rc, Function.update σ b d), h') :=
    bind_eq_some.2 ⟨_, _, e, rfl⟩
  cases ho with
  | failed g hn => exact absurd hk hn
  | done hr g =>
    refine (computes_iff he rfl).2 ⟨hr.canonical hb, hr.negative, fun pos => ?_⟩
    rw [bintBitGet_eq, bintBitGet_eq, hr.value, Nat.testBit_or, Nat.testBit_two_pow]
    split_ifs with hpos <;> simp [hpos, eq_comm]

theorem bitClear_computes {b : I} (hb : Canonical (σ b)) (q : UInt32) (h : Heap) :
    Computes σ (.bitClear b q) b (BitChanged q.toNat false (σ b)) h := by
  refine computes_of_returns rfl (trim_if_returns _ _ h) fun d h' e => ?_
  obtain ⟨hc, hn, hm, -⟩ := bintBitClear_spec hb e
  refine ⟨hc, hn, fun pos => ?_⟩
  rw [bintBitGet_eq, bintBitGet_eq, hm, testBit_bic, Nat.testBit_two_pow]
  split_ifs with hpos <;> simp [hpos, eq_comm]

theorem bintBitLength_iff (hb : Canonical b) :
    IsLength b (bintBitLength b) ↔ Nat.size (mag b) < 2 ^ 32 := by
  rw [isLength_iff, hb.bintBitLength, Nat.mod_eq_iff_lt (Nat.two_pow_pos 32).ne']

/-- The functions on bits act bit by bit, whatever the lengths, if and only if the missing chunks
    or the bits can be counted where they are. -/
theorem bitwise_exact_iff (σ : Store I) (dst src : I) (q : UInt32) (h : Heap)
    (hd : Canonical (σ dst)) (hs : Canonical (σ src)) (hk : h.Ok) :
    (Computes σ (.or dst src) dst (Pointwise or (σ dst) (σ src)) h ↔
      Matchable (σ dst) (σ src)) ∧
    (Computes σ (.xor dst src) dst (Pointwise xor (σ dst) (σ src)) h ↔
      Matchable (σ dst) (σ src)) ∧
    Computes σ (.and dst src) dst (Pointwise and (σ dst) (σ src)) h ∧
    Computes σ (.bic dst src) dst (Pointwise (fun x y => x && !y) (σ dst) (σ src)) h ∧
    Computes σ (.bitSet dst q) dst (BitChanged q.toNat true (σ dst)) h ∧
    Computes σ (.bitClear dst q) dst (BitChanged q.toNat false (σ dst)) h ∧
    (IsLength (σ dst) (bintBitLength (σ dst)) ↔ Nat.size (mag (σ dst)) < 2 ^ 32) :=
  ⟨or_computes_iff hd hs hk, xor_computes_iff hd hk, and_computes σ h, bic_computes hd h,
    bitSet_computes hd q hk, bitClear_computes hd q h, bintBitLength_iff hd⟩

theorem not_isLength_zero {k : ℕ} (hm : mag b = 2 ^ k) : ¬IsLength b 0 := by
  rw [isLength_iff, hm, Nat.size_pow]
  exact (Nat.succ_ne_zero k).symm

/-- The bit length of a number with the highest bit that can be set is 0. -/
theorem bintBitLength_overflows : Canonical topBit ∧ mag topBit = 2 ^ (2 ^ 32 - 1) ∧
    bintBitGet topBit (2 ^ 32 - 1) = true ∧ bintBitLength topBit = 0 ∧
    ¬IsLength topBit (bintBitLength topBit) := by
  refine ⟨canonical_topBit, mag_topBit, ?_, bintBitLength_topBit, ?_⟩
  · rw [bintBitGet_eq, mag_topBit, Nat.testBit_two_pow_self]
  · rw [bintBitLength_topBit]
    exact not_isLength_zero mag_topBit

/-- A source which is longer than the destination. -/
theorem bitwise_exact_iff_longer :
    Computes (pair (small true 5) ⟨false, .ones, [.ones]⟩) (.xor false true) false
      (Pointwise xor (small true 5) ⟨false, .ones, [.ones]⟩) freshHeap :=
  (bitwise_exact_iff (pair (small true 5) ⟨false, .ones, [.ones]⟩) false true 200 freshHeap
    (by decide) (by decide) fun _ => rfl).2.1.2 (by
      rw [Matchable]
      decide)

end Dlb.Bint
