import Dlb.Bint.Alloc

/-!
# Bits and bitwise operations

The functions on single bits, and `bint_or`, `bint_and`, `bint_bic` and `bint_xor`,
work on the magnitude. The bits of a number are the bits of its chunks
(`testBit_chain`), so that these functions are described chunk by chunk.
-/

namespace Dlb.Bint

variable {h h' : Heap} {a b dst : Bint}

/-! ## The bits of the chunks -/

/-- The value of the chunk `k` of a chain. -/
def digit (cs : List Chunk) (k : ℕ) : ℕ := (cs[k]?.map Chunk.val).getD 0

theorem testBit_chain (cs : List Chunk) (i : ℕ) :
    (chain cs).testBit i = (digit cs (i / 128)).testBit (i % 128) :=
  testBit_eval (by simp) (fun c _ => c.val_lt) i

@[simp] theorem digit_nil (k : ℕ) : digit [] k = 0 := rfl

@[simp] theorem digit_cons_zero (c : Chunk) (cs : List Chunk) : digit (c :: cs) 0 = c.val := rfl

@[simp] theorem digit_cons_succ (c : Chunk) (cs : List Chunk) (k : ℕ) :
    digit (c :: cs) (k + 1) = digit cs k := rfl

/-- A bitwise operation on the components of chunks is one on their values. -/
theorem testBit_limbs_zipWith {f : UInt32 → UInt32 → UInt32} {φ : Bool → Bool → Bool}
    (hf : ∀ x y i, i < 32 → (f x y).toNat.testBit i = φ (x.toNat.testBit i) (y.toNat.testBit i))
    (h₀ : φ false false = false) {l l' : List UInt32} (hl : l.length = l'.length) (i : ℕ) :
    (limbs (List.zipWith f l l')).testBit i = φ ((limbs l).testBit i) ((limbs l').testBit i) := by
  have hlt : ∀ m : List UInt32, ∀ d ∈ m, d.toNat < 2 ^ 32 := fun m d _ => d.toNat_lt
  rw [limbs, limbs, limbs, testBit_eval (by simp) (hlt _), testBit_eval (by simp) (hlt _),
    testBit_eval (by simp) (hlt _), List.getElem?_zipWith]
  rcases lt_or_ge (i / 32) l.length with hi | hi
  · rw [List.getElem?_eq_getElem hi, List.getElem?_eq_getElem (hl ▸ hi)]
    exact hf _ _ _ (Nat.mod_lt _ (by simp))
  · rw [List.getElem?_eq_none hi, List.getElem?_eq_none (hl ▸ hi)]
    simp [h₀]

theorem Chunk.testBit_zipWith {f : UInt32 → UInt32 → UInt32} {φ : Bool → Bool → Bool}
    (hf : ∀ x y i, i < 32 → (f x y).toNat.testBit i = φ (x.toNat.testBit i) (y.toNat.testBit i))
    (h₀ : φ false false = false) (c d : Chunk) (i : ℕ) :
    (c.zipWith f d).val.testBit i = φ (c.val.testBit i) (d.val.testBit i) :=
  testBit_limbs_zipWith hf h₀ (c.length_data.trans d.length_data.symm) i

theorem val_or (c d : Chunk) : (c.zipWith (· ||| ·) d).val = c.val ||| d.val :=
  Nat.eq_of_testBit_eq fun i => by
    rw [Chunk.testBit_zipWith (φ := or) (fun x y i _ => by simp) rfl, Nat.testBit_or]

theorem val_and (c d : Chunk) : (c.zipWith (· &&& ·) d).val = c.val &&& d.val :=
  Nat.eq_of_testBit_eq fun i => by
    rw [Chunk.testBit_zipWith (φ := and) (fun x y i _ => by simp) rfl, Nat.testBit_and]

theorem val_xor (c d : Chunk) : (c.zipWith (· ^^^ ·) d).val = c.val ^^^ d.val :=
  Nat.eq_of_testBit_eq fun i => by
    rw [Chunk.testBit_zipWith (φ := xor) (fun x y i _ => by simp) rfl, Nat.testBit_xor]

/-- The bits of `m` that are not in `n`. -/
def bic (m n : ℕ) : ℕ := Nat.bitwise (fun x y => x && !y) m n

theorem testBit_bic (m n i : ℕ) : (bic m n).testBit i = (m.testBit i && !n.testBit i) :=
  Nat.testBit_bitwise rfl _ _ _

theorem testBit_not (y : UInt32) {i : ℕ} (hi : i < 32) :
    (~~~y).toNat.testBit i = !y.toNat.testBit i := by
  have hy := y.toNat_lt
  rw [UInt32.toNat_not, show UInt32.size - 1 - y.toNat = 2 ^ 32 - (y.toNat + 1) by
    rw [UInt32.size]; omega, Nat.testBit_two_pow_sub_succ hy]
  simp [hi]

theorem val_bic (c d : Chunk) : (c.zipWith (fun x y => x &&& ~~~y) d).val = bic c.val d.val :=
  Nat.eq_of_testBit_eq fun i => by
    rw [Chunk.testBit_zipWith (φ := fun x y => x && !y)
      (fun x y i hi => by rw [UInt32.toNat_and, Nat.testBit_and, testBit_not _ hi]) rfl, testBit_bic]

/-! ## Single bits -/

/-- The chunk with only the bit `pos` set. -/
def bitChunk (pos : ℕ) : Chunk :=
  ⟨(List.replicate 4 0).set (pos / 32) (1 <<< UInt32.ofNat (pos % 32)), by simp⟩

theorem toNat_bit {s : ℕ} (hs : s < 32) : ((1 : UInt32) <<< UInt32.ofNat s).toNat = 2 ^ s := by
  rw [UInt32.toNat_shiftLeft, UInt32.toNat_ofNat_of_lt' (by simp [UInt32.size]; omega),
    UInt32.toNat_one, Nat.mod_eq_of_lt hs, Nat.shiftLeft_eq, one_mul, Nat.mod_eq_of_lt]
  exact Nat.pow_lt_pow_right (by simp) hs

theorem limbs_set_replicate {k n : ℕ} (hk : k < n) (d : UInt32) :
    limbs ((List.replicate n 0).set k d) = (2 ^ 32) ^ k * d.toNat := by
  rw [List.set_eq_take_append_cons_drop, if_pos (by simpa using hk), limbs_append, limbs_cons]
  simp [List.take_replicate, List.drop_replicate, hk.le]

theorem val_bitChunk {pos : ℕ} (hp : pos < 128) : (bitChunk pos).val = 2 ^ pos := by
  rw [Chunk.val, bitChunk, limbs_set_replicate (by omega), toNat_bit (Nat.mod_lt _ (by simp)),
    ← pow_mul, ← pow_add, Nat.div_add_mod]

theorem chunkBitGet_eq (pos : ℕ) (c : Chunk) : chunkBitGet pos c = c.val.testBit pos := by
  have hs := Nat.mod_lt pos (show 0 < 32 by simp)
  have hg : (c.data.getD (pos / 32) 0).toNat = (c.data[pos / 32]?.map UInt32.toNat).getD 0 := by
    rw [List.getD_eq_getElem?_getD]
    cases c.data[pos / 32]? <;> rfl
  rw [Chunk.val, limbs, testBit_eval (by simp) (fun d _ => d.toNat_lt), ← hg, chunkBitGet,
    Bool.eq_iff_iff, decide_eq_true_iff, ← toNat_ne_zero, UInt32.toNat_and, toNat_bit hs,
    Nat.and_two_pow]
  cases (c.data.getD (pos / 32) 0).toNat.testBit (pos % 32) <;> simp

theorem bitGetLoop_eq (cs : List Chunk) (pos : ℕ) : bitGetLoop cs pos = (chain cs).testBit pos := by
  rw [testBit_chain]
  induction cs generalizing pos with
  | nil => simp [bitGetLoop]
  | cons c cs ih =>
    rw [bitGetLoop]
    by_cases hp : 128 ≤ pos
    · rw [if_pos hp, ih, show pos / 128 = (pos - 128) / 128 + 1 by omega, digit_cons_succ,
        show pos % 128 = (pos - 128) % 128 by omega]
    · rw [if_neg hp, chunkBitGet_eq, Nat.div_eq_of_lt (by omega), digit_cons_zero,
        Nat.mod_eq_of_lt (by omega)]

/-- `bint_bit_get` reads a bit of the magnitude. -/
theorem bintBitGet_eq (b : Bint) (pos : ℕ) : bintBitGet b pos = (mag b).testBit pos :=
  bitGetLoop_eq b.digits pos

theorem modifyBit_eq {f : UInt32 → UInt32 → UInt32} (hf : ∀ x, f x 0 = x) (pos : ℕ) (c : Chunk) :
    c.modifyBit f pos = c.zipWith f (bitChunk pos) := by
  obtain ⟨data, hd⟩ := c
  simp only [Chunk.modifyBit, Chunk.zipWith, bitChunk, Chunk.mk.injEq]
  apply List.ext_getElem?
  intro i
  rw [List.getElem?_modify, List.getElem?_zipWith, List.getElem?_set]
  rcases lt_or_ge i 4 with hi | hi
  · rw [List.getElem?_eq_getElem (show i < data.length by omega)]
    by_cases he : pos / 32 = i
    · simp [he, hi]
    · rw [if_neg he, List.getElem?_replicate, if_pos hi]
      simp [he, hf]
  · rw [List.getElem?_eq_none (show data.length ≤ i by omega)]
    simp

theorem val_chunkBitSet {pos : ℕ} (hp : pos < 128) (c : Chunk) :
    (chunkBitSet pos c).val = c.val ||| 2 ^ pos := by
  rw [chunkBitSet, modifyBit_eq (by simp), val_or, val_bitChunk hp]

theorem val_chunkBitClear {pos : ℕ} (hp : pos < 128) (c : Chunk) :
    (chunkBitClear pos c).val = bic c.val (2 ^ pos) := by
  rw [chunkBitClear, modifyBit_eq (by simp), val_bic, val_bitChunk hp]

/-- The chunk of a chain that has the bit `pos`, changed by `f`. -/
theorem chain_modify_or {cs : List Chunk} {pos : ℕ} (hp : pos / 128 < cs.length) :
    chain (cs.modify (pos / 128) (chunkBitSet (pos % 128))) = chain cs ||| 2 ^ pos := by
  refine Nat.eq_of_testBit_eq fun i => ?_
  rw [Nat.testBit_or, testBit_chain, testBit_chain, Nat.testBit_two_pow, digit, digit,
    List.getElem?_modify]
  by_cases hi : i / 128 = pos / 128
  · rw [List.getElem?_eq_getElem (by omega)]
    have he : pos = i ↔ pos % 128 = i % 128 := by omega
    simp [hi, val_chunkBitSet (Nat.mod_lt pos (show 0 < 128 by simp)), Nat.testBit_two_pow, he]
  · have he : pos ≠ i := by
      rintro rfl
      exact hi rfl
    simp [Ne.symm hi, he]

theorem chain_modify_bic {cs : List Chunk} (pos : ℕ) :
    chain (cs.modify (pos / 128) (chunkBitClear (pos % 128))) = bic (chain cs) (2 ^ pos) := by
  refine Nat.eq_of_testBit_eq fun i => ?_
  rw [testBit_bic, testBit_chain, testBit_chain, Nat.testBit_two_pow, digit, digit,
    List.getElem?_modify]
  by_cases hi : i / 128 = pos / 128
  · have he : pos = i ↔ pos % 128 = i % 128 := by omega
    cases e : cs[i / 128]? with
    | none => simp [hi]
    | some c =>
      simp [hi, val_chunkBitClear (Nat.mod_lt pos (show 0 < 128 by simp)), testBit_bic,
        Nat.testBit_two_pow, he]
  · have he : pos ≠ i := by
      rintro rfl
      exact hi rfl
    simp [Ne.symm hi, he]

theorem mapLast_eq (f : Chunk → Chunk) (c : Chunk) (cs : List Chunk) :
    mapLast f (c :: cs) = (c :: cs).modify cs.length f := by
  induction cs generalizing c with
  | nil => rfl
  | cons d cs ih => rw [mapLast, ih]; rfl

/-- `bint_bit_set` makes room for the bit and sets it, or it fails. -/
theorem bitSetLoop_spec (c : Chunk) (cs : List Chunk) (pos : ℕ) (h : Heap) :
    (∃ h', bitSetLoop c cs pos h = some ((0, (c :: (cs ++
          List.replicate (pos / 128 - cs.length) .zero)).modify (pos / 128)
            (chunkBitSet (pos % 128))), h') ∧
        Gains h h' (pos / 128 - cs.length : ℕ)) ∨
      ∃ h', bitSetLoop c cs pos h = some ((-1, c :: cs), h') ∧ Gains h h' 0 ∧ ¬h.Ok := by
  induction cs generalizing c pos with
  | nil =>
    rw [bitSetLoop]
    by_cases hc : 128 ≤ pos
    · rw [if_pos hc]
      obtain ⟨m, hm⟩ : ∃ m, pos / 128 = m + 1 := ⟨pos / 128 - 1, by omega⟩
      obtain ⟨h', e, g⟩ | ⟨h', e, g, hk⟩ := allocChain_spec (pos / 128) h
      · refine .inl ⟨h', bind_eq_some.2 ⟨_, _, e, ?_⟩, by simpa using g⟩
        rw [hm, List.replicate_succ, if_neg (by simp), mapLast_eq]
        simp [pure_eq_some, List.replicate_succ]
      · exact .inr ⟨h', bind_eq_some.2 ⟨_, _, e, rfl⟩, g, hk⟩
    · rw [if_neg hc, Nat.div_eq_of_lt (by omega), Nat.mod_eq_of_lt (by omega)]
      exact .inl ⟨h, rfl, Gains.refl h⟩
  | cons d cs ih =>
    rw [bitSetLoop]
    by_cases hc : 128 ≤ pos
    · rw [if_pos hc, show pos % 128 = (pos - 128) % 128 by omega,
        show pos / 128 = (pos - 128) / 128 + 1 by omega, List.length_cons,
        Nat.add_sub_add_right]
      obtain ⟨h', e, g⟩ | ⟨h', e, g, hk⟩ := ih d (pos - 128)
      · exact .inl ⟨h', bind_eq_some.2 ⟨_, _, e, rfl⟩, g⟩
      · exact .inr ⟨h', bind_eq_some.2 ⟨_, _, e, rfl⟩, g, hk⟩
    · rw [if_neg hc, Nat.div_eq_of_lt (by omega), Nat.mod_eq_of_lt (by omega)]
      refine .inl ⟨h, ?_, by simpa using Gains.refl h⟩
      simp [pure_eq_some]

/-- The result of `bint_bit_set`. -/
structure BitSetResult (b : Bint) (pos : ℕ) (d : Bint) : Prop where
  negative : d.negative = b.negative
  value : mag d = mag b ||| 2 ^ pos
  length : d.next.length = max (pos / 128) b.next.length

theorem bintBitSet_returns (b : Bint) (pos : ℕ) (h : Heap) :
    ∃ r, bintBitSet b pos h = some r ∧ Outcome b (BitSetResult b pos) h r := by
  obtain ⟨h', e, g⟩ | ⟨h', e, g, hk⟩ := bitSetLoop_spec b.first b.next pos h
  · have hl : (extend b (pos / 128)).digits.length = max (pos / 128) b.next.length + 1 := by simp
    have hd : (b.first :: (b.next ++ List.replicate (pos / 128 - b.next.length) .zero)) =
        (extend b (pos / 128)).digits := rfl
    rw [hd] at e
    obtain ⟨ds, hds⟩ : ∃ ds, ds = (extend b (pos / 128)).digits.modify (pos / 128)
        (chunkBitSet (pos % 128)) := ⟨_, rfl⟩
    rw [← hds] at e
    have hl' : ds.length = max (pos / 128) b.next.length + 1 := by simp [hds]
    have hne : ds ≠ [] := by
      rintro rfl
      simp at hl'
    have hlen : (b.setDigits ds).next.length = max (pos / 128) b.next.length := by
      rw [length_next_setDigits _ hne, hl']
      rfl
    refine ⟨_, bind_eq_some.2 ⟨_, _, e, rfl⟩, .done ⟨negative_setDigits _ _, ?_, hlen⟩ (g.of_eq ?_)⟩
    · rw [mag_setDigits _ hne, hds, chain_modify_or (by omega), ← mag, mag_extend]
    · rw [hlen]
      omega
  · refine ⟨_, bind_eq_some.2 ⟨_, _, e, rfl⟩, .failed g hk⟩

theorem bintBitSet_spec {pos : ℕ} {r : (ℤ × Bint) × Heap} (e : bintBitSet b pos h = some r) :
    Outcome b (BitSetResult b pos) h r := by
  obtain ⟨r', e', ho⟩ := bintBitSet_returns b pos h
  rwa [Option.some_inj.1 (e.symm.trans e')]

theorem BitSetResult.canonical {pos : ℕ} {d : Bint} (hd : BitSetResult b pos d)
    (hb : Canonical b) : Canonical d := by
  by_cases hn : d.next = []
  · exact canonical_of_next_eq_nil hn
  · apply canonical_of_pow_le
    rw [hd.value, hd.length]
    rcases le_total (pos / 128) b.next.length with hl | hl
    · rw [max_eq_right hl]
      refine (hb.pow_le ?_).trans Nat.left_le_or
      intro hx
      refine hn (List.length_eq_zero_iff.1 ?_)
      rw [hd.length, max_eq_right hl, hx, List.length_nil]
    · rw [max_eq_left hl, pow_radix]
      exact (Nat.pow_le_pow_right (by simp) (by omega)).trans Nat.right_le_or

theorem bitClearLoop_eq (cs : List Chunk) (pos : ℕ) : bitClearLoop cs pos =
    (cs.modify (pos / 128) (chunkBitClear (pos % 128)), decide (pos / 128 + 1 = cs.length)) := by
  induction cs generalizing pos with
  | nil => simp [bitClearLoop]
  | cons c cs ih =>
    rw [bitClearLoop]
    by_cases hc : 128 ≤ pos
    · rw [if_pos hc, ih, show pos % 128 = (pos - 128) % 128 by omega,
        show pos / 128 = (pos - 128) / 128 + 1 by omega]
      simp
    · rw [if_neg hc, Nat.div_eq_of_lt (by omega), Nat.mod_eq_of_lt (by omega)]
      simp

/-! ## Chains that are combined -/

/-- Whether the last of the chunks which a loop has written is zero. -/
def topZero (needTrim : Bool) (cs : List Chunk) : Bool :=
  (cs.getLast?.map chunkIsZero).getD needTrim

theorem topZero_cons (needTrim : Bool) (c : Chunk) (cs : List Chunk) :
    topZero needTrim (c :: cs) = topZero (chunkIsZero c) cs := by
  cases cs <;> simp [topZero, List.getLast?_cons]

/-- The chunks of `ds` combined with those of `ss`. -/
def combined (g : Chunk → Chunk → Chunk) (ds ss : List Chunk) : List Chunk :=
  List.zipWith g ds ss ++ ds.drop ss.length

theorem length_combined (g : Chunk → Chunk → Chunk) (ds ss : List Chunk) :
    (combined g ds ss).length = ds.length := by
  simp [combined]
  omega

theorem combined_ne_nil (g : Chunk → Chunk → Chunk) (d s : Bint) :
    combined g d.digits s.digits ≠ [] := by
  rw [← List.length_pos_iff, length_combined]
  simp

theorem length_setDigits_combined (g : Chunk → Chunk → Chunk) (b d s : Bint) :
    (b.setDigits (combined g d.digits s.digits)).next.length = d.next.length := by
  rw [length_next_setDigits _ (combined_ne_nil g d s), length_combined]
  simp

theorem combineLoop_spec {f : UInt32 → UInt32 → UInt32} {needTrim : Bool} {ds ss : List Chunk}
    {r : List Chunk × Bool} (e : combineLoop f needTrim ds ss = some r) :
    ss.length ≤ ds.length ∧ r = (combined (Chunk.zipWith f) ds ss,
      topZero needTrim (List.zipWith (Chunk.zipWith f) ds ss)) := by
  induction ss generalizing needTrim ds r with
  | nil =>
    rw [combineLoop] at e
    simp [← Option.some_inj.1 e, combined, topZero]
  | cons s ss ih =>
    cases ds with
    | nil => cases e
    | cons d ds =>
      obtain ⟨⟨cs, t⟩, e₁, e₂⟩ := Option.bind_eq_some_iff.1 e
      obtain ⟨hl, hr⟩ := ih e₁
      obtain ⟨rfl, rfl⟩ := Prod.mk.inj hr
      refine ⟨by simpa using hl, ?_⟩
      rw [← Option.some_inj.1 e₂, List.zipWith_cons_cons, topZero_cons]
      simp [combined]

theorem bicLoop_eq (needTrim : Bool) (ds ss : List Chunk) : bicLoop needTrim ds ss =
    (combined (Chunk.zipWith fun x y => x &&& ~~~y) ds ss,
      topZero needTrim (List.zipWith (Chunk.zipWith fun x y => x &&& ~~~y) ds ss)) := by
  induction ds generalizing needTrim ss with
  | nil => cases ss <;> simp [bicLoop, combined, topZero]
  | cons d ds ih =>
    cases ss with
    | nil => simp [bicLoop, combined, topZero]
    | cons s ss =>
      rw [bicLoop, ih, List.zipWith_cons_cons, topZero_cons]
      simp [combined]

theorem andLoop_spec {needTrim : Bool} {ds ss : List Chunk} (hs : ss ≠ [])
    {r : List Chunk × Bool} (e : andLoop needTrim ds ss h = some (r, h')) :
    r = (List.zipWith (Chunk.zipWith (· &&& ·)) ds ss,
        topZero needTrim (List.zipWith (Chunk.zipWith (· &&& ·)) ds ss)) ∧
      Gains h h' (r.1.length - ds.length) := by
  induction ds generalizing needTrim ss r with
  | nil =>
    cases ss with
    | nil => exact absurd rfl hs
    | cons s ss =>
      obtain ⟨rfl, rfl⟩ := Prod.mk.inj (pure_eq_some.1 e)
      simpa [topZero] using Gains.refl h
  | cons d ds ih =>
    cases ss with
    | nil => exact absurd rfl hs
    | cons s ss =>
      rw [andLoop] at e
      rw [List.zipWith_cons_cons, topZero_cons]
      by_cases hn : ss = []
      · simp only [hn, if_true] at e
        obtain ⟨x, h₁, e₁, e₂⟩ := bind_eq_some.1 e
        obtain ⟨rfl, rfl⟩ := Prod.mk.inj (pure_eq_some.1 e₂)
        refine ⟨by simp [hn, topZero], (destroyChain_gains e₁).of_eq (by simp)⟩
      · simp only [hn, if_false] at e
        obtain ⟨⟨cs, t⟩, h₁, e₁, e₂⟩ := bind_eq_some.1 e
        obtain ⟨rfl, rfl⟩ := Prod.mk.inj (pure_eq_some.1 e₂)
        obtain ⟨hr, g⟩ := ih hn e₁
        obtain ⟨rfl, rfl⟩ := Prod.mk.inj hr
        exact ⟨rfl, g.of_eq (by simp)⟩

section

variable {g : Chunk → Chunk → Chunk} {F : ℕ → ℕ → ℕ} {ds ss : List Chunk}

theorem digit_combined (hg : ∀ c d, (g c d).val = F c.val d.val) (h₀ : ∀ x, F x 0 = x)
    (hl : ss.length ≤ ds.length ∨ ∀ y, F 0 y = 0) (k : ℕ) :
    digit (combined g ds ss) k = F (digit ds k) (digit ss k) := by
  induction ds generalizing ss k with
  | nil =>
    rcases hl with hl | hl
    · obtain rfl : ss = [] := by simpa using hl
      simp [combined, h₀]
    · simp [combined, hl]
  | cons d ds ih =>
    cases ss with
    | nil => simp [combined, h₀]
    | cons s ss =>
      cases k with
      | zero => simp [combined, hg]
      | succ k => exact ih (by simpa using hl) k

theorem digit_zipWith (hg : ∀ c d, (g c d).val = F c.val d.val) (h₀ : ∀ x, F x 0 = 0)
    (h₁ : ∀ y, F 0 y = 0) (k : ℕ) :
    digit (List.zipWith g ds ss) k = F (digit ds k) (digit ss k) := by
  induction ds generalizing ss k with
  | nil => simp [h₁]
  | cons d ds ih =>
    cases ss with
    | nil => simp [h₀]
    | cons s ss =>
      cases k with
      | zero => simp [hg]
      | succ k => exact ih k

/-- The last chunk of a chain is not zero. -/
def TopNonzero (cs : List Chunk) : Prop := ∀ c ∈ cs.getLast?, c.val ≠ 0

theorem TopNonzero.canonical {cs : List Chunk} (hc : TopNonzero cs) (hne : cs ≠ []) (b : Bint) :
    Canonical (b.setDigits cs) := by
  cases cs with
  | nil => exact absurd rfl hne
  | cons c cs =>
    intro d hd
    refine chunkIsZero_eq_false.2 (hc d ?_)
    change d ∈ cs.getLast? at hd
    rw [List.getLast?_cons, Option.mem_def.1 hd]
    simp

theorem Canonical.topNonzero (hb : Canonical b) (hn : b.next ≠ []) : TopNonzero b.digits := by
  intro c hc
  rw [digits, List.getLast?_cons_of_ne_nil hn] at hc
  exact chunkIsZero_eq_false.1 (hb c hc)

theorem topNonzero_of_topZero {t : Bool} {cs : List Chunk} (ht : topZero t cs = false) :
    TopNonzero cs := by
  intro c hc
  rw [topZero, Option.mem_def.1 hc] at ht
  exact chunkIsZero_eq_false.1 ht

theorem topNonzero_combined {t : Bool} (ht : topZero t (List.zipWith g ds ss) = false)
    (hd : ss.length < ds.length → TopNonzero ds) : TopNonzero (combined g ds ss) := by
  rcases lt_or_ge ss.length ds.length with hl | hl
  · intro c hc
    refine hd hl c ?_
    rw [combined, List.getLast?_append_of_ne_nil _ (by simpa using hl), List.getLast?_drop,
      if_neg (by omega)] at hc
    exact hc
  · rw [combined, List.drop_of_length_le hl, List.append_nil]
    exact topNonzero_of_topZero ht

end

/-! ## The bitwise operations -/

theorem matchLoop_spec {ds ss ds' : List Chunk} {rc : ℤ}
    (e : matchLoop ds ss h = some ((rc, ds'), h')) :
    (rc = 0 ∧ ∃ n, n ≤ ss.length - ds.length ∧ ds' = ds ++ List.replicate n .zero ∧ Gains h h' n) ∨
      rc = -1 ∧ ds' = ds ∧ Gains h h' 0 := by
  induction ds generalizing ss ds' with
  | nil =>
    cases ss with
    | nil =>
      obtain ⟨⟨rfl, rfl⟩, rfl⟩ := (Prod.mk.inj (pure_eq_some.1 e)).imp_left Prod.mk.inj
      exact .inl ⟨rfl, 0, by simp, rfl, Gains.refl h⟩
    | cons s ss =>
      obtain ⟨cs, h₁, e₁, e₂⟩ := bind_eq_some.1 e
      obtain ⟨h₂, e₃, g⟩ | ⟨h₂, e₃, g, -⟩ := allocChain_spec (chainLength (s :: ss)) h
      · obtain ⟨rfl, rfl⟩ := Prod.mk.inj (Option.some_inj.1 (e₁.symm.trans e₃))
        split_ifs at e₂ with h₀
        · obtain ⟨⟨rfl, rfl⟩, rfl⟩ := (Prod.mk.inj (pure_eq_some.1 e₂)).imp_left Prod.mk.inj
          rw [List.replicate_eq_nil_iff] at h₀
          exact .inr ⟨rfl, by rw [h₀]; rfl, by rwa [h₀] at g⟩
        · obtain ⟨⟨rfl, rfl⟩, rfl⟩ := (Prod.mk.inj (pure_eq_some.1 e₂)).imp_left Prod.mk.inj
          exact .inl ⟨rfl, _, Nat.mod_le _ _, rfl, g⟩
      · obtain ⟨rfl, rfl⟩ := Prod.mk.inj (Option.some_inj.1 (e₁.symm.trans e₃))
        obtain ⟨⟨rfl, rfl⟩, rfl⟩ := (Prod.mk.inj (pure_eq_some.1 e₂)).imp_left Prod.mk.inj
        exact .inr ⟨rfl, rfl, g⟩
  | cons d ds ih =>
    cases ss with
    | nil =>
      obtain ⟨⟨rfl, rfl⟩, rfl⟩ := (Prod.mk.inj (pure_eq_some.1 e)).imp_left Prod.mk.inj
      exact .inl ⟨rfl, 0, by simp, by simp, Gains.refl h⟩
    | cons s ss =>
      obtain ⟨⟨rc', cs⟩, h₁, e₁, e₂⟩ := bind_eq_some.1 e
      obtain ⟨⟨rfl, rfl⟩, rfl⟩ := (Prod.mk.inj (pure_eq_some.1 e₂)).imp_left Prod.mk.inj
      obtain ⟨rfl, n, hn, rfl, g⟩ | ⟨rfl, rfl, g⟩ := ih e₁
      · exact .inl ⟨rfl, n, by simpa using hn, rfl, g⟩
      · exact .inr ⟨rfl, rfl, g⟩

/-- The destination of `bint_or` and `bint_xor` after room is made in it. -/
structure Matched (dst src d : Bint) : Prop where
  negative : d.negative = dst.negative
  value : mag d = mag dst
  length : d.next.length = max dst.next.length src.next.length

/-- The first part of `bint_or` and `bint_xor` and the loop that follows it: an allocation fails, or
    the rest `k` of the function follows. -/
theorem matchLoop_combineLoop {src : Operand} {f : UInt32 → UInt32 → UInt32}
    {k : Bint → List Chunk × Bool → Prog (ℤ × Bint)} {r : (ℤ × Bint) × Heap}
    (e : (do
      let (rc, next) ← matchLoop dst.next (src.get dst).next
      let d : Bint := { dst with next := next }
      if rc < 0 then return (-1, d)
      k d (← (combineLoop f false d.digits (src.get d).digits : Option _)) : Prog (ℤ × Bint)) h = some r) :
    (∃ h', r = ((-1, dst), h') ∧ Gains h h' 0) ∨
      ∃ d h', Matched dst (src.get dst) d ∧ Gains h h' (d.next.length - dst.next.length) ∧
        k d (combined (Chunk.zipWith f) d.digits (src.get dst).digits,
          topZero false (List.zipWith (Chunk.zipWith f) d.digits (src.get dst).digits)) h' = some r := by
  obtain ⟨⟨rc, next⟩, h', e₁, e₂⟩ := bind_eq_some.1 e
  obtain ⟨rfl, n, hn, rfl, g⟩ | ⟨rfl, rfl, g⟩ := matchLoop_spec e₁
  · right
    have hs : src.get { dst with next := dst.next ++ List.replicate n .zero } = src.get dst := by
      cases src with
      | self =>
        have : n = 0 := by simpa [Operand.get] using hn
        simp [Operand.get, this]
      | other b => rfl
    obtain ⟨x, h₂, e₃, e₄⟩ := bind_eq_some.1 e₂
    obtain ⟨y, e₅, e₆⟩ := lift_eq_some.1 e₃
    obtain ⟨rfl, rfl⟩ := Prod.mk.inj e₆
    obtain ⟨hl, rfl⟩ := combineLoop_spec e₅
    rw [hs] at hl e₄
    refine ⟨{ dst with next := dst.next ++ List.replicate n .zero }, _, ⟨rfl, ?_, ?_⟩,
      g.of_eq (by simp), e₄⟩
    · simp [mag, digits, chain_append]
    · simp [digits] at hl
      simp
      omega
  · exact .inl ⟨_, (pure_eq_some.1 e₂).symm, g⟩

/-- The number in the chunks that the loop has combined. -/
theorem Matched.mag_combined {src d : Bint} {g : Chunk → Chunk → Chunk} {F : ℕ → ℕ → ℕ}
    {φ : Bool → Bool → Bool} (hm : Matched dst src d)
    (hF : ∀ m n i, (F m n).testBit i = φ (m.testBit i) (n.testBit i))
    (hg : ∀ c d, (g c d).val = F c.val d.val) (h₀ : ∀ x, F x 0 = x) :
    mag (d.setDigits (combined g d.digits src.digits)) = F (mag dst) (mag src) := by
  rw [mag_setDigits _ (combined_ne_nil _ _ _), ← hm.value]
  refine Nat.eq_of_testBit_eq fun i => ?_
  rw [hF, mag, mag, testBit_chain, testBit_chain, testBit_chain,
    digit_combined hg h₀ (.inl ?_), hF]
  simp [hm.length]

theorem bintOr_spec {src : Operand} {r : (ℤ × Bint) × Heap} (e : bintOr dst src h = some r) :
    Ends dst (fun d => d.negative = dst.negative ∧ mag d = mag dst ||| mag (src.get dst) ∧
      d.next.length = max dst.next.length (src.get dst).next.length) True h r := by
  obtain ⟨h', rfl, g⟩ | ⟨d, h', hm, g, e₁⟩ := matchLoop_combineLoop
    (k := fun d x => pure (0, d.setDigits x.1)) e
  · exact .failed g trivial
  · obtain rfl := pure_eq_some.1 e₁
    have hlen := length_setDigits_combined (Chunk.zipWith (· ||| ·)) d d (src.get dst)
    have hv := hm.mag_combined Nat.testBit_or val_or Nat.or_zero
    exact .done ⟨by simp [hm.negative], hv, hlen.trans hm.length⟩ (g.of_eq (by rw [hlen]))

theorem canonical_of_or {src d : Bint} (hd : Canonical dst) (hs : Canonical src)
    (hv : mag d = mag dst ||| mag src)
    (hl : d.next.length = max dst.next.length src.next.length) : Canonical d := by
  by_cases hn : d.next = []
  · exact canonical_of_next_eq_nil hn
  · have hpos : 0 < d.next.length := List.length_pos_iff.2 hn
    apply canonical_of_pow_le
    rw [hv]
    rcases le_total dst.next.length src.next.length with hle | hle
    · rw [hl, max_eq_right hle]
      exact (hs.pow_le (List.ne_nil_of_length_pos (by omega))).trans Nat.right_le_or
    · rw [hl, max_eq_left hle]
      exact (hd.pow_le (List.ne_nil_of_length_pos (by omega))).trans Nat.left_le_or

/-- If the loop has written no zeroes at the end, the result is canonical. -/
theorem Matched.canonical_combined {src d : Bint} {g : Chunk → Chunk → Chunk} {t : Bool}
    (hm : Matched dst src d) (hd : Canonical dst)
    (ht : topZero t (List.zipWith g d.digits src.digits) = false) :
    Canonical (d.setDigits (combined g d.digits src.digits)) := by
  refine (topNonzero_combined ht fun hl => ?_).canonical (combined_ne_nil _ _ _) d
  have hlen := hm.length
  rw [length_digits, length_digits] at hl
  have hn : dst.next ≠ [] := List.ne_nil_of_length_pos (by omega)
  refine Canonical.topNonzero (canonical_of_pow_le ?_) (List.ne_nil_of_length_pos (by omega))
  rw [hm.value, show d.next.length = dst.next.length by omega]
  exact hd.pow_le hn

/-- A destination that is trimmed if the loop has written zeroes at its end. -/
theorem trim_if {b r : Bint} {t : Bool} (ht : t = false → Canonical b)
    (e : (if t then trimChunks b else pure b : Prog Bint) h = some (r, h')) :
    Canonical r ∧ r.negative = b.negative ∧ mag r = mag b ∧
      Gains h h' (r.next.length - b.next.length) := by
  cases t with
  | false =>
    obtain ⟨rfl, rfl⟩ := Prod.mk.inj (pure_eq_some.1 e)
    exact ⟨ht rfl, rfl, rfl, by simpa using Gains.refl h⟩
  | true =>
    obtain ⟨rfl, g⟩ := trimChunks_spec e
    exact ⟨trimmed_canonical _, rfl, mag_trimmed _, g⟩

theorem bintXor_spec {src : Operand} {r : (ℤ × Bint) × Heap} (hd : Canonical dst)
    (e : bintXor dst src h = some r) :
    Ends dst (fun d => Canonical d ∧ d.negative = dst.negative ∧
      mag d = mag dst ^^^ mag (src.get dst)) True h r := by
  obtain ⟨h', rfl, g⟩ | ⟨d, h', hm, g, e₁⟩ := matchLoop_combineLoop (k := fun d x =>
    if x.2 then do return (0, ← trimChunks (d.setDigits x.1)) else pure (0, d.setDigits x.1)) e
  · exact .failed g trivial
  · have hlen := length_setDigits_combined (Chunk.zipWith (· ^^^ ·)) d d (src.get dst)
    have hv := hm.mag_combined Nat.testBit_xor val_xor Nat.xor_zero
    by_cases ht : topZero false
        (List.zipWith (Chunk.zipWith (· ^^^ ·)) d.digits (src.get dst).digits) = true
    · simp only [ht, if_true] at e₁
      obtain ⟨b', h₃, e₂, e₃⟩ := bind_eq_some.1 e₁
      obtain rfl := pure_eq_some.1 e₃
      obtain ⟨rfl, g'⟩ := trimChunks_spec e₂
      refine .done ⟨trimmed_canonical _, by simp [hm.negative], by rw [mag_trimmed, hv]⟩
        ((g.trans g').of_eq (by rw [hlen]; ring))
    · rw [if_neg ht] at e₁
      obtain rfl := pure_eq_some.1 e₁
      exact .done ⟨hm.canonical_combined hd (eq_false_of_ne_true ht), by simp [hm.negative], hv⟩
        (g.of_eq (by rw [hlen]))

theorem bintAnd_spec {src : Operand} {r : Bint} (e : bintAnd dst src h = some (r, h')) :
    Canonical r ∧ r.negative = dst.negative ∧ mag r = mag dst &&& mag (src.get dst) ∧
      Gains h h' (r.next.length - dst.next.length) := by
  obtain ⟨⟨cs, t⟩, h₁, e₁, e₂⟩ := bind_eq_some.1 e
  obtain ⟨hr, g⟩ := andLoop_spec (digits_ne_nil _) e₁
  obtain ⟨rfl, rfl⟩ := Prod.mk.inj hr
  have hne : List.zipWith (Chunk.zipWith (· &&& ·)) dst.digits (src.get dst).digits ≠ [] := by
    simp [digits]
  obtain ⟨hc, hn, hm, g'⟩ := trim_if
    (fun ht => (topNonzero_of_topZero ht).canonical hne dst) e₂
  refine ⟨hc, by rw [hn, negative_setDigits], ?_, (g.trans g').of_eq ?_⟩
  · rw [hm, mag_setDigits _ hne]
    refine Nat.eq_of_testBit_eq fun i => ?_
    rw [Nat.testBit_and, mag, mag, testBit_chain, testBit_chain, testBit_chain,
      digit_zipWith val_and (by simp) (by simp), Nat.testBit_and]
  · have := List.length_pos_iff.2 hne
    rw [length_next_setDigits _ hne, length_digits]
    dsimp only
    omega

theorem bintBic_spec {src : Operand} {r : Bint} (hd : Canonical dst)
    (e : bintBic dst src h = some (r, h')) :
    Canonical r ∧ r.negative = dst.negative ∧ mag r = bic (mag dst) (mag (src.get dst)) ∧
      Gains h h' (r.next.length - dst.next.length) := by
  rw [bintBic, bicLoop_eq] at e
  have hlen := length_setDigits_combined (Chunk.zipWith fun x y => x &&& ~~~y) dst dst (src.get dst)
  obtain ⟨hc, hn, hm, g⟩ := trim_if (fun ht => (topNonzero_combined ht fun hl =>
    hd.topNonzero (List.ne_nil_of_length_pos (by simp at hl; omega))).canonical
      (combined_ne_nil _ _ _) dst) e
  refine ⟨hc, by rw [hn, negative_setDigits], ?_, g.of_eq (by rw [hlen])⟩
  rw [hm, mag_setDigits _ (combined_ne_nil _ _ _)]
  refine Nat.eq_of_testBit_eq fun i => ?_
  rw [testBit_bic, mag, mag, testBit_chain, testBit_chain, testBit_chain,
    digit_combined val_bic (fun x => ?_) (.inr fun y => ?_), testBit_bic]
  · exact Nat.eq_of_testBit_eq fun i => by simp [testBit_bic]
  · exact Nat.eq_of_testBit_eq fun i => by simp [testBit_bic]

theorem bintBitClear_spec {pos : ℕ} {r : Bint} (hb : Canonical b)
    (e : bintBitClear b pos h = some (r, h')) :
    Canonical r ∧ r.negative = b.negative ∧ mag r = bic (mag b) (2 ^ pos) ∧
      Gains h h' (r.next.length - b.next.length) := by
  rw [bintBitClear, bitClearLoop_eq] at e
  have hne : b.digits.modify (pos / 128) (chunkBitClear (pos % 128)) ≠ [] := by
    rw [← List.length_pos_iff, List.length_modify]
    simp
  have hlen : (b.setDigits (b.digits.modify (pos / 128) (chunkBitClear (pos % 128)))).next.length =
      b.next.length := by
    rw [length_next_setDigits _ hne, List.length_modify, length_digits, Nat.add_sub_cancel]
  have hcan : decide (pos / 128 + 1 = b.digits.length) = false →
      Canonical (b.setDigits (b.digits.modify (pos / 128) (chunkBitClear (pos % 128)))) := by
    intro ht
    rw [decide_eq_false_iff_not, length_digits] at ht
    by_cases hn : b.next = []
    · exact canonical_of_next_eq_nil (List.length_eq_zero_iff.1 (by rw [hlen, hn, List.length_nil]))
    · refine TopNonzero.canonical (fun c hc => hb.topNonzero hn c ?_) hne b
      have hp : pos / 128 ≠ b.next.length := by omega
      rw [List.getLast?_eq_getElem?, List.length_modify, List.getElem?_modify] at hc
      rw [List.getLast?_eq_getElem?]
      simpa [hp] using hc
  obtain ⟨hc, hn, hm, g⟩ := trim_if hcan e
  refine ⟨hc, by rw [hn, negative_setDigits], ?_, g.of_eq (by rw [hlen])⟩
  rw [hm, mag_setDigits _ hne, chain_modify_bic, mag]

end Dlb.Bint
