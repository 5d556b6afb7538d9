import Mathlib.Data.Int.Order.Basic
import Dlb.Bint.ChunkValue
import Dlb.Bint.Code

/-!
# The numbers that the chains denote

The magnitude of a `struct bint` is the value of its chunks, and the number it
denotes is the magnitude with the sign of its flag. A number is canonical if no
chunk of zeroes is at the end of its allocated chain. On canonical numbers the
length of the chain, `bint_bit_length` and `mag_cmp` are known from the
magnitude.
-/

namespace Dlb.Bint

/-- The value of a list of chunks. -/
def chain (cs : List Chunk) : ℕ := eval radix Chunk.val cs

@[simp] theorem chain_nil : chain [] = 0 := rfl

@[simp] theorem chain_cons (c : Chunk) (cs : List Chunk) :
    chain (c :: cs) = c.val + radix * chain cs := rfl

theorem chain_append (l l' : List Chunk) :
    chain (l ++ l') = chain l + radix ^ l.length * chain l' := eval_append _ _ l l'

theorem chain_lt (cs : List Chunk) : chain cs < radix ^ cs.length := eval_lt fun c _ => c.val_lt

theorem chain_take (cs : List Chunk) (k : ℕ) : chain (cs.take k) = chain cs % radix ^ k :=
  eval_take (fun c _ => c.val_lt) radix_pos k

theorem chain_drop (cs : List Chunk) (k : ℕ) : chain (cs.drop k) = chain cs / radix ^ k :=
  eval_drop (fun c _ => c.val_lt) radix_pos k

theorem chain_eq_zero {cs : List Chunk} (h : ∀ c ∈ cs, c.val = 0) : chain cs = 0 := eval_eq_zero h

@[simp] theorem chain_replicate_zero (k : ℕ) : chain (List.replicate k .zero) = 0 :=
  chain_eq_zero fun c hc => by rw [List.eq_of_mem_replicate hc, Chunk.val_zero]

/-- The magnitude of a number. -/
def mag (b : Bint) : ℕ := chain b.digits

/-- The integer that a number denotes. -/
def toInt (b : Bint) : ℤ := if b.negative then -(mag b : ℤ) else mag b

/-- The allocated chain of a number does not end in a chunk of zeroes. -/
def Canonical (b : Bint) : Prop := ∀ c ∈ b.next.getLast?, chunkIsZero c = false

instance (b : Bint) : Decidable (Canonical b) := inferInstanceAs (Decidable (∀ c ∈ _, _))

variable {a b : Bint}

@[simp] theorem length_digits (b : Bint) : b.digits.length = b.next.length + 1 := rfl

@[simp] theorem mag_setDigits (b : Bint) {cs : List Chunk} (h : cs ≠ []) :
    mag (b.setDigits cs) = chain cs := by
  cases cs with
  | nil => exact absurd rfl h
  | cons c cs => rfl

@[simp] theorem digits_setDigits (b : Bint) {cs : List Chunk} (h : cs ≠ []) :
    (b.setDigits cs).digits = cs := by
  cases cs with
  | nil => exact absurd rfl h
  | cons c cs => rfl

@[simp] theorem negative_setDigits (b : Bint) (cs : List Chunk) :
    (b.setDigits cs).negative = b.negative := by
  cases cs <;> rfl

theorem setDigits_congr (hn : a.negative = b.negative) {cs : List Chunk} (h : cs ≠ []) :
    a.setDigits cs = b.setDigits cs := by
  cases cs with
  | nil => exact absurd rfl h
  | cons c cs => rw [setDigits, setDigits, hn]

theorem length_next_setDigits (b : Bint) {cs : List Chunk} (h : cs ≠ []) :
    (b.setDigits cs).next.length = cs.length - 1 := by
  cases cs with
  | nil => exact absurd rfl h
  | cons c cs => rfl

theorem digits_ne_nil (b : Bint) : b.digits ≠ [] := List.cons_ne_nil _ _

theorem mag_lt (b : Bint) : mag b < radix ^ (b.next.length + 1) := chain_lt b.digits

@[simp] theorem natAbs_toInt (b : Bint) : (toInt b).natAbs = mag b := by
  rw [toInt]
  split_ifs <;> simp

/-! ## Canonical numbers -/

theorem canonical_of_next_eq_nil (h : b.next = []) : Canonical b := by simp [Canonical, h]

theorem Canonical.pow_le (h : Canonical b) (hn : b.next ≠ []) : radix ^ b.next.length ≤ mag b := by
  obtain ⟨l, c, e⟩ := List.eq_nil_or_concat b.next |>.resolve_left hn
  rw [List.concat_eq_append] at e
  have hc : c.val ≠ 0 := chunkIsZero_eq_false.1 (h c (by simp [e]))
  calc radix ^ b.next.length = radix ^ (b.first :: l).length * 1 := by simp [e]
    _ ≤ radix ^ (b.first :: l).length * c.val := Nat.mul_le_mul_left _ (Nat.pos_of_ne_zero hc)
    _ ≤ chain (b.first :: l) + radix ^ (b.first :: l).length * c.val := Nat.le_add_left _ _
    _ = chain ((b.first :: l) ++ [c]) := by rw [chain_append, chain_cons c, chain_nil, mul_zero]; rfl
    _ = mag b := by rw [mag, digits, e]; rfl

theorem canonical_of_pow_le (h : radix ^ b.next.length ≤ mag b) : Canonical b := by
  intro c hc
  obtain ⟨l, e⟩ := List.getLast?_eq_some_iff.1 hc
  rw [chunkIsZero_eq_false]
  intro h₀
  have : mag b = chain (b.first :: l) := by
    rw [mag, digits, e, ← List.cons_append, chain_append, chain_cons c, h₀]
    simp
  have hlt := chain_lt (b.first :: l)
  rw [e, this] at h
  simp at h hlt
  omega

/-- A canonical number has no more chunks than it needs. -/
theorem Canonical.length_le (h : Canonical b) {k : ℕ} (hk : mag b < radix ^ (k + 1)) :
    b.next.length ≤ k := by
  by_cases hn : b.next = []
  · simp [hn]
  · by_contra hlt
    have := h.pow_le hn
    have hp : radix ^ (k + 1) ≤ radix ^ b.next.length :=
      Nat.pow_le_pow_right radix_pos (by omega)
    omega

theorem Canonical.length_eq (ha : Canonical a) (hb : Canonical b) (h : mag a = mag b) :
    a.next.length = b.next.length :=
  le_antisymm (ha.length_le (h ▸ mag_lt b)) (hb.length_le (h ▸ mag_lt a))

/-- A canonical number is determined by its sign flag and its magnitude, chunk for chunk. -/
theorem Canonical.eq_of_mag_eq (ha : Canonical a) (hb : Canonical b)
    (hn : a.negative = b.negative) (hm : mag a = mag b) : a = b := by
  have hl : a.digits.length = b.digits.length := congrArg Nat.succ (ha.length_eq hb hm)
  have hd := eval_inj Chunk.val_lt Chunk.val_injective hl hm
  obtain ⟨hc, hcs⟩ := List.cons.inj hd
  cases a
  cases b
  rw [Bint.mk.injEq]
  exact ⟨hn, hc, hcs⟩

/-! ## Bit lengths -/

theorem pow_radix (k : ℕ) : radix ^ k = 2 ^ (128 * k) := by rw [radix, pow_mul]

theorem size_mag_le (b : Bint) : Nat.size (mag b) ≤ 128 * (b.next.length + 1) := by
  rw [Nat.size_le, ← pow_radix]
  exact mag_lt b

theorem Canonical.lt_size (h : Canonical b) (hn : b.next ≠ []) :
    128 * b.next.length < Nat.size (mag b) := by
  rw [Nat.lt_size, ← pow_radix]
  exact h.pow_le hn

theorem Canonical.length_le_size (h : Canonical b) : b.next.length ≤ Nat.size (mag b) / 128 := by
  by_cases hn : b.next = []
  · simp [hn]
  · have := h.lt_size hn
    omega

theorem testBit_size_pred {m : ℕ} (hm : m ≠ 0) : m.testBit (Nat.size m - 1) = true := by
  have hpos := Nat.size_pos.2 (Nat.pos_of_ne_zero hm)
  refine Nat.testBit_of_two_pow_le_and_two_pow_add_one_gt (Nat.lt_size.1 (by omega)) ?_
  rw [Nat.sub_add_cancel hpos]
  exact Nat.lt_size_self m

/-- The number of chunks of a canonical number with the magnitude `m`, without the first. -/
def chunks (m : ℕ) : ℕ := (Nat.size m - 1) / 128

theorem Canonical.length_eq_chunks (hb : Canonical b) : b.next.length = chunks (mag b) := by
  have h₁ := size_mag_le b
  rw [chunks]
  by_cases hn : b.next = []
  · rw [hn, List.length_nil] at h₁ ⊢
    omega
  · have h₂ := hb.lt_size hn
    omega

theorem bintBitLength_eq (b : Bint) :
    bintBitLength b = if (b.digits.getLast b.digits_ne_nil).val = 0 then 0
      else Nat.size (mag b) % 2 ^ 32 := by
  have ht := topComponent_spec (b.digits.getLast b.digits_ne_nil).data
  rw [bintBitLength]
  split at ht
  · rename_i e
    rw [e, if_pos (show Chunk.val _ = 0 from ht)]
  · rename_i i d e
    rw [e, if_neg (show Chunk.val _ ≠ 0 from ht.1)]
    have hs : mag b = chain b.digits.dropLast + 2 ^ (128 * b.next.length) *
        (b.digits.getLast b.digits_ne_nil).val := by
      conv_lhs => rw [mag, ← List.dropLast_concat_getLast b.digits_ne_nil, chain_append]
      simp [pow_radix]
    have hlt : chain b.digits.dropLast < 2 ^ (128 * b.next.length) := by
      rw [← pow_radix]
      simpa using chain_lt b.digits.dropLast
    rw [hs, size_add_two_pow_mul hlt (show Chunk.val _ ≠ 0 from ht.1), Chunk.val, ht.2, ← add_assoc]

theorem Canonical.bintBitLength (h : Canonical b) :
    bintBitLength b = Nat.size (mag b) % 2 ^ 32 := by
  rw [bintBitLength_eq]
  split_ifs with h₀
  · by_cases hn : b.next = []
    · have hm : mag b = 0 := by
        simp only [digits, hn, List.getLast_singleton] at h₀
        simp [mag, digits, hn, h₀]
      simp [hm]
    · simp only [digits, List.getLast_cons hn] at h₀
      have := h (b.next.getLast hn) (by simp [List.getLast?_eq_some_getLast hn])
      exact absurd h₀ (chunkIsZero_eq_false.1 this)
  · rfl

theorem bintBitLength_of_two_pow {k : ℕ} (h : Canonical b) (hm : mag b = 2 ^ k) :
    bintBitLength b = (k + 1) % 2 ^ 32 := by
  rw [h.bintBitLength, hm, Nat.size_pow]

/-- The number with the chunk `c` above `n + 1` chunks of zeroes. -/
def above (n : ℕ) (c : Chunk) : Bint := ⟨false, .zero, List.replicate n .zero ++ [c]⟩

@[simp] theorem mag_above (n : ℕ) (c : Chunk) : mag (above n c) = radix ^ (n + 1) * c.val := by
  rw [mag, digits, above, chain_cons, chain_append, chain_replicate_zero, List.length_replicate,
    Chunk.val_zero]
  simp
  ring

@[simp] theorem length_above (n : ℕ) (c : Chunk) : (above n c).next.length = n + 1 := by
  simp [above]

theorem canonical_above {c : Chunk} (hc : c.val ≠ 0) (n : ℕ) : Canonical (above n c) := by
  refine canonical_of_pow_le ?_
  rw [length_above, mag_above]
  exact Nat.le_mul_of_pos_right _ (Nat.pos_of_ne_zero hc)

/-- The number `2 ^ (2 ^ 32 - 1)`, whose bit length is taken for 0. -/
def topBit : Bint := above (2 ^ 25 - 2) ⟨[0, 0, 0, 0x80000000], rfl⟩

theorem mag_above_top (n : ℕ) :
    mag (above n ⟨[0, 0, 0, 0x80000000], rfl⟩) = 2 ^ (128 * (n + 1) + 127) := by
  have hc : Chunk.val ⟨[0, 0, 0, 0x80000000], rfl⟩ = 2 ^ 127 := by decide +kernel
  rw [mag_above, pow_radix, pow_add, hc]

theorem mag_topBit : mag topBit = 2 ^ (2 ^ 32 - 1) := by
  rw [topBit, mag_above_top, show 128 * (2 ^ 25 - 2 + 1) + 127 = 2 ^ 32 - 1 by omega]

theorem canonical_topBit : Canonical topBit := canonical_above (by decide) _

theorem bintBitLength_topBit : bintBitLength topBit = 0 := by
  rw [bintBitLength_of_two_pow canonical_topBit mag_topBit,
    Nat.sub_add_cancel Nat.one_le_two_pow, Nat.mod_self]

/-! ## Order -/

/-- The order that `mag_cmp` decides: by the length, then by the value. -/
def chainSign (as bs : List Chunk) : ℤ :=
  if as.length = bs.length then Int.sign (chain as - chain bs)
  else Int.sign ((as.length : ℤ) - bs.length)

theorem chainSign_cons (a b : Chunk) (as bs : List Chunk) : chainSign (a :: as) (b :: bs) =
    if chainSign as bs ≠ 0 then chainSign as bs else compareChunk a b := by
  have hl : ((a :: as).length : ℤ) - (b :: bs).length = (as.length : ℤ) - bs.length := by simp
  rw [chainSign, chainSign, hl, chain_cons, chain_cons, sign_digit a.val_lt b.val_lt,
    compareChunk_eq]
  simp only [List.length_cons, Nat.add_right_cancel_iff]
  by_cases h₁ : as.length = bs.length
  · by_cases h₂ : chain as = chain bs
    · simp [h₁, h₂]
    · have : Int.sign ((chain as : ℤ) - chain bs) ≠ 0 := by
        rw [ne_eq, Int.sign_eq_zero_iff_zero]
        omega
      simp [h₁, h₂, this]
  · have : Int.sign ((as.length : ℤ) - bs.length) ≠ 0 := by
      rw [ne_eq, Int.sign_eq_zero_iff_zero]
      omega
    simp [h₁, this]

theorem magCmpLoop_eq (d : ℤ) (as bs : List Chunk) :
    magCmpLoop d as bs = if chainSign as bs ≠ 0 then chainSign as bs else d := by
  induction as generalizing d bs with
  | nil =>
    cases bs with
    | nil => simp [magCmpLoop, chainSign]
    | cons c bs =>
      have : chainSign [] (c :: bs) = -1 := by
        rw [chainSign, if_neg (by simp), Int.sign_eq_neg_one_of_neg]
        simp
        omega
      simp [magCmpLoop, this]
  | cons c as ih =>
    cases bs with
    | nil =>
      have : chainSign (c :: as) [] = 1 := by
        rw [chainSign, if_neg (by simp), Int.sign_eq_one_of_pos]
        simp
      simp [magCmpLoop, this]
    | cons e bs =>
      rw [magCmpLoop, ih, chainSign_cons]
      split_ifs <;> simp_all

theorem magCmp_eq (a b : Bint) : magCmp a b =
    if a.next.length = b.next.length then Int.sign ((mag a : ℤ) - mag b)
    else Int.sign ((a.next.length : ℤ) - b.next.length) := by
  have : magCmp a b = chainSign a.digits b.digits := by
    rw [magCmp, magCmpLoop_eq]
    split_ifs with h
    · rfl
    · exact (not_ne_iff.1 h).symm
  rw [this, chainSign]
  simp [mag]

theorem Canonical.magCmp (ha : Canonical a) (hb : Canonical b) :
    magCmp a b = Int.sign ((mag a : ℤ) - mag b) := by
  rw [magCmp_eq]
  split_ifs with h
  · rfl
  · rcases lt_or_gt_of_ne h with h | h
    · have h₁ := hb.pow_le (List.ne_nil_of_length_pos (by omega))
      have h₂ := (mag_lt a).trans_le (Nat.pow_le_pow_right radix_pos h)
      rw [Int.sign_eq_neg_one_of_neg (by omega), Int.sign_eq_neg_one_of_neg (by omega)]
    · have h₁ := ha.pow_le (List.ne_nil_of_length_pos (by omega))
      have h₂ := (mag_lt b).trans_le (Nat.pow_le_pow_right radix_pos h)
      rw [Int.sign_eq_one_of_pos (by omega), Int.sign_eq_one_of_pos (by omega)]

/-! ## Zero and signs -/

theorem Canonical.isZero_iff (h : Canonical b) : isZero b = true ↔ mag b = 0 := by
  rw [isZero, Bool.and_eq_true, decide_eq_true_iff, chunkIsZero_iff]
  constructor
  · rintro ⟨h₁, h₂⟩
    simp [mag, digits, h₁, h₂]
  · intro h₀
    have hn : b.next = [] := by
      by_contra hn
      have := h.pow_le hn
      have := Nat.pow_pos (n := b.next.length) radix_pos
      omega
    refine ⟨hn, ?_⟩
    simpa [mag, digits, hn] using h₀

theorem Canonical.bintGetSign (h : Canonical b) : bintGetSign b = Int.sign (toInt b) := by
  rw [Bint.bintGetSign]
  by_cases h₀ : mag b = 0
  · simp [h.isZero_iff.2 h₀, toInt, h₀]
  · have hz : isZero b ≠ true := fun hz => h₀ (h.isZero_iff.1 hz)
    rw [if_neg hz, toInt]
    split_ifs
    · rw [Int.sign_eq_neg_one_of_neg (by omega)]
    · rw [Int.sign_eq_one_of_pos (by omega)]

end Dlb.Bint
