import Dlb.Bint.Add

/-!
# Magnitude subtraction

`mag_sub` writes the difference of `big` and `small` into `dst`, which is one of
the two. `do_subtract` finds out which of its operands is the larger one, and makes
room if it is the source.
-/

namespace Dlb.Bint

variable {h h' : Heap} {a b dst : Bint}

/-! ## The loops -/

theorem borrowLoop_zero (ds bs : List Chunk) : borrowLoop 0 ds bs = some ds := by
  rw [borrowLoop.eq_def]
  cases bs <;> simp

theorem borrowLoop_nil (borrow : UInt32) (ds : List Chunk) : borrowLoop borrow ds [] = some ds := by
  simp [borrowLoop]

theorem borrowLoop_cons {borrow : UInt32} (hb : borrow ≠ 0) (d : Chunk) (ds : List Chunk) (bc : Chunk)
    (bs : List Chunk) : borrowLoop borrow (d :: ds) (bc :: bs) =
      (borrowLoop (bc.scan borrowComponent borrow).2 ds bs).map
        ((bc.scan borrowComponent borrow).1 :: ·) := by
  rw [borrowLoop.eq_def]
  simp [hb, Option.map_eq_bind]

theorem subLoop_nil_left (borrow : UInt32) (ds ss : List Chunk) :
    subLoop borrow ds [] ss = some ds := by
  cases ss <;> simp [subLoop]

theorem subLoop_nil_right (borrow : UInt32) (ds bs : List Chunk) :
    subLoop borrow ds bs [] = borrowLoop borrow ds bs := by
  cases bs with
  | nil => rw [subLoop_nil_left, borrowLoop_nil]
  | cons bc bs => simp [subLoop]

theorem subLoop_cons (borrow : UInt32) (d : Chunk) (ds : List Chunk) (bc : Chunk) (bs : List Chunk)
    (sc : Chunk) (ss : List Chunk) : subLoop borrow (d :: ds) (bc :: bs) (sc :: ss) =
      (subLoop (bc.scan₂ subComponent borrow sc).2 ds bs ss).map
        ((bc.scan₂ subComponent borrow sc).1 :: ·) := by
  rw [subLoop.eq_def]
  simp [Option.map_eq_bind]

theorem length_borrowLoop {borrow : UInt32} {ds bs cs : List Chunk}
    (e : borrowLoop borrow ds bs = some cs) : cs.length = ds.length := by
  induction bs generalizing borrow ds cs with
  | nil => rw [Option.some_inj.1 ((borrowLoop_nil borrow ds).symm.trans e)]
  | cons bc bs ih =>
    by_cases hb : borrow = 0
    · rw [hb, borrowLoop_zero] at e
      rw [Option.some_inj.1 e]
    · cases ds with
      | nil => simp [borrowLoop.eq_def, hb] at e
      | cons d ds =>
        rw [borrowLoop_cons hb] at e
        obtain ⟨cs', e', rfl⟩ := Option.map_eq_some_iff.1 e
        rw [List.length_cons, List.length_cons, ih e']

theorem length_subLoop {borrow : UInt32} {ds bs ss cs : List Chunk}
    (e : subLoop borrow ds bs ss = some cs) : cs.length = ds.length := by
  induction bs generalizing borrow ds ss cs with
  | nil => rw [Option.some_inj.1 ((subLoop_nil_left borrow ds ss).symm.trans e)]
  | cons bc bs ih =>
    cases ss with
    | nil =>
      rw [subLoop_nil_right] at e
      exact length_borrowLoop e
    | cons sc ss =>
      cases ds with
      | nil => simp [subLoop] at e
      | cons d ds =>
        rw [subLoop_cons] at e
        obtain ⟨cs', e', rfl⟩ := Option.map_eq_some_iff.1 e
        rw [List.length_cons, List.length_cons, ih e']

/-- A borrow that is left at the end of a loop shows that the difference is negative. -/
theorem borrow_le {borrow : UInt32} {x y s m n : ℕ} {b' : UInt32} (hx : x < radix)
    (e : x + s + flag borrow = y + radix * flag b')
    (hle : s + radix * m + flag borrow ≤ y + radix * n) : m + flag b' ≤ n := by
  by_contra hn
  have : radix * (n + 1) ≤ radix * (m + flag b') := Nat.mul_le_mul_left _ (by omega)
  rw [mul_add, mul_add] at this
  omega

/-- A step of the loops, with the rest `z` of the difference. -/
theorem sub_step {x y s m n z f f' : ℕ} (e : x + s + f = y + radix * f')
    (hz : z + m + f' = n) : x + radix * z + (s + radix * m) + f = y + radix * n := by
  calc x + radix * z + (s + radix * m) + f = (x + s + f) + radix * (z + m) := by ring
    _ = y + radix * (z + m + f') := by rw [e]; ring
    _ = y + radix * n := by rw [hz]

theorem borrowLoop_spec (borrow : UInt32) {bs : List Chunk} (hle : flag borrow ≤ chain bs) :
    ∃ cs, borrowLoop borrow bs bs = some cs ∧ chain cs + flag borrow = chain bs := by
  induction bs generalizing borrow with
  | nil => exact ⟨[], rfl, by simpa using hle⟩
  | cons bc bs ih =>
    by_cases hb : borrow = 0
    · exact ⟨bc :: bs, by rw [hb, borrowLoop_zero], by simp [hb]⟩
    · have e := val_subComponent borrow bc .zero
      rw [← scan_borrowComponent, Chunk.val_zero] at e
      have hle' := borrow_le (m := 0) (n := chain bs) (Chunk.val_lt _) e (by simpa using hle)
      obtain ⟨cs, e', hc⟩ := ih (bc.scan borrowComponent borrow).2 (by omega)
      refine ⟨(bc.scan borrowComponent borrow).1 :: cs, by rw [borrowLoop_cons hb, e']; rfl, ?_⟩
      have := sub_step (m := 0) (z := chain cs) (n := chain bs) e (by simpa using hc)
      simpa using this

/-- The difference if `dst` is `big`. -/
theorem subLoop_big (borrow : UInt32) {bs ss : List Chunk} (hl : ss.length ≤ bs.length)
    (hle : chain ss + flag borrow ≤ chain bs) :
    ∃ cs, subLoop borrow bs bs ss = some cs ∧ chain cs + chain ss + flag borrow = chain bs := by
  induction ss generalizing borrow bs with
  | nil =>
    rw [subLoop_nil_right]
    simpa using borrowLoop_spec borrow (by simpa using hle)
  | cons sc ss ih =>
    cases bs with
    | nil => simp at hl
    | cons bc bs =>
      have e := val_subComponent borrow bc sc
      obtain ⟨cs, e', hc⟩ := ih _ (by simpa using hl) (borrow_le (Chunk.val_lt _) e hle)
      exact ⟨_ :: cs, by rw [subLoop_cons, e']; rfl, sub_step e hc⟩

/-- The difference if `dst` is `small`. -/
theorem subLoop_small (borrow : UInt32) {bs ss : List Chunk} (hl : bs.length ≤ ss.length)
    (hle : chain ss + flag borrow ≤ chain bs) :
    ∃ cs, subLoop borrow ss bs ss = some cs ∧ chain cs + chain ss + flag borrow = chain bs := by
  induction bs generalizing borrow ss with
  | nil =>
    rw [chain_nil] at hle
    exact ⟨ss, subLoop_nil_left _ _ _, by rw [chain_nil]; omega⟩
  | cons bc bs ih =>
    cases ss with
    | nil => simp at hl
    | cons sc ss =>
      have e := val_subComponent borrow bc sc
      obtain ⟨cs, e', hc⟩ := ih _ (by simpa using hl) (borrow_le (Chunk.val_lt _) e hle)
      exact ⟨_ :: cs, by rw [subLoop_cons, e']; rfl, sub_step e hc⟩

/-! ## `mag_sub` and `do_subtract` -/

theorem magSub_spec {big small r : Bint} (e : magSub dst big small h = some (r, h')) :
    ∃ cs, subLoop 0 dst.digits big.digits small.digits = some cs ∧ cs.length = dst.digits.length ∧
      r = trimmed (dst.setDigits cs) ∧ Gains h h' (r.next.length - dst.next.length) := by
  obtain ⟨cs, h₁, e₁, e₂⟩ := bind_eq_some.1 e
  obtain ⟨cs', e₃, e₄⟩ := lift_eq_some.1 e₁
  obtain ⟨rfl, rfl⟩ := Prod.mk.inj e₄
  obtain ⟨rfl, g⟩ := trimChunks_spec e₂
  have hl := length_subLoop e₃
  have hn : cs' ≠ [] := by
    rintro rfl
    simp at hl
  refine ⟨cs', e₃, hl, rfl, g.of_eq ?_⟩
  rw [length_next_setDigits _ hn, hl]
  simp

theorem magSub_returns {big small : Bint} {cs : List Chunk}
    (e : subLoop 0 dst.digits big.digits small.digits = some cs) (h : Heap) :
    ∃ h', magSub dst big small h = some (trimmed (dst.setDigits cs), h') := by
  obtain ⟨h', e', -⟩ := trimChunks_returns (dst.setDigits cs) h
  exact ⟨h', bind_eq_some.2 ⟨_, _, lift_eq_some.2 ⟨_, e, rfl⟩, e'⟩⟩

/-- `mag_sub` if `dst` is `big`. -/
theorem magSub_big (hl : b.next.length ≤ a.next.length) (hle : mag b ≤ mag a) (h : Heap) :
    ∃ r h', magSub a a b h = some (r, h') ∧ Canonical r ∧ r.negative = a.negative ∧
      mag r + mag b = mag a ∧ Gains h h' (r.next.length - a.next.length) := by
  obtain ⟨cs, e, hc⟩ := subLoop_big 0
    (show b.digits.length ≤ a.digits.length by simpa using hl) hle
  obtain ⟨h', e'⟩ := magSub_returns e h
  obtain ⟨-, -, hl', -, g⟩ := magSub_spec e'
  have hn : cs ≠ [] := by
    rintro rfl
    have := length_subLoop e
    simp at this
  refine ⟨_, h', e', trimmed_canonical _, by simp, ?_, g⟩
  rw [mag_trimmed, mag_setDigits _ hn]
  exact hc

/-- The result of `do_subtract`. -/
structure SubResult (dst src d : Bint) : Prop where
  canonical : Canonical d
  ge : mag src ≤ mag dst → d.negative = dst.negative ∧ mag d + mag src = mag dst
  lt : mag dst < mag src → d.negative = !dst.negative ∧
    (Nat.size (mag src) < 2 ^ 32 → mag d + mag dst = mag src)

theorem doSubtract_lt (hs : Canonical b) (hlt : mag dst < mag b) {n : ℕ}
    (hn : n = Nat.size (mag b) % 2 ^ 32) {r : Bint}
    (e : magSub (extend dst (n / 128)) b (extend dst (n / 128)) h = some (r, h')) :
    SubResult dst b { r with negative := !r.negative } := by
  obtain ⟨cs, e₁, hl, rfl, -⟩ := magSub_spec e
  have hne : cs ≠ [] := by
    rintro rfl
    simp at hl
  refine ⟨trimmed_canonical _, fun hle => absurd hlt hle.not_gt,
    fun _ => ⟨by simp, fun hlen => ?_⟩⟩
  have hsz := hs.length_le_size
  rw [Nat.mod_eq_of_lt hlen] at hn
  obtain ⟨cs', e₂, hc⟩ := subLoop_small 0
    (show b.digits.length ≤ (extend dst (n / 128)).digits.length by simp [hn, hsz])
    (le_of_eq_of_le (mag_extend dst _) hlt.le)
  obtain rfl := Option.some_inj.1 (e₁.symm.trans e₂)
  change mag (trimmed ((extend dst (n / 128)).setDigits cs)) + mag dst = mag b
  rw [mag_trimmed, mag_setDigits _ hne, ← mag_extend dst (n / 128)]
  exact hc

theorem doSubtract_spec {src : Operand} {r : (ℤ × Bint) × Heap} (hd : Canonical dst)
    (hs : Canonical (src.get dst)) (e : doSubtract dst src h = some r) :
    Outcome dst (SubResult dst (src.get dst)) h r := by
  have hc := hd.magCmp hs
  rw [doSubtract] at e
  split_ifs at e with h₀
  · rw [hc, Int.sign_neg_iff] at h₀
    cases src with
    | self => simp [Operand.get] at h₀
    | other b =>
      change (mag dst : ℤ) - mag b < 0 at h₀
      obtain ⟨⟨rc, d⟩, h₁, e₁, e₂⟩ := bind_eq_some.1 e
      cases extendLength_spec e₁ with
      | failed g hk =>
        obtain rfl := pure_eq_some.1 e₂
        exact .failed g hk
      | done hx g =>
        subst hx
        obtain ⟨r', h₂, e₃, e₄⟩ := bind_eq_some.1 e₂
        obtain rfl := pure_eq_some.1 e₄
        obtain ⟨-, -, -, -, g'⟩ := magSub_spec e₃
        exact .done (doSubtract_lt (b := b) hs (by omega) hs.bintBitLength e₃)
          ((g.trans g').of_eq (by simp))
  · rw [hc, Int.sign_neg_iff] at h₀
    have hle : mag (src.get dst) ≤ mag dst := by omega
    obtain ⟨r', h₁, e₁, e₂⟩ := bind_eq_some.1 e
    obtain rfl := pure_eq_some.1 e₂
    obtain ⟨r'', h₂, e₃, hr₁, hr₂, hr₃, g⟩ :=
      magSub_big (hs.length_le (hle.trans_lt (mag_lt dst))) hle h
    obtain ⟨rfl, rfl⟩ := Prod.mk.inj (Option.some_inj.1 (e₁.symm.trans e₃))
    exact .done ⟨hr₁, fun _ => ⟨hr₂, hr₃⟩, fun hlt => absurd hle hlt.not_ge⟩ g

/-! ## `bint_add` and `bint_sub` -/

/-- The result of adding `src` to `dst`, where `same` says whether the magnitudes are
    added. -/
def SumResult (same : Prop) (dst : Bint) (src : Operand) (d : Bint) : Prop :=
  (same → d = trimmed (dst.setDigits (addDigits dst src))) ∧
    (¬same → SubResult dst (src.get dst) d)

theorem SumResult.canonical {same : Prop} {src : Operand} {d : Bint}
    (hd : SumResult same dst src d) : Canonical d := by
  by_cases hs : same
  · rw [hd.1 hs]
    exact trimmed_canonical _
  · exact (hd.2 hs).canonical

theorem bintAdd_spec {s : Operand} {r : (ℤ × Bint) × Heap} (hd : Canonical dst)
    (hs : Canonical (s.get dst)) (e : bintAdd dst s h = some r) :
    Outcome dst (SumResult (dst.negative = (s.get dst).negative) dst s) h r := by
  rw [bintAdd] at e
  by_cases hn : dst.negative = (s.get dst).negative
  · rw [if_pos (by simp [hn])] at e
    exact (magAdd_spec e).imp (fun d hx => ⟨fun _ => hx, fun h => absurd hn h⟩) id
  · rw [if_neg (by rw [Bool.eq_not.2 hn]; cases (s.get dst).negative <;> simp)] at e
    exact (doSubtract_spec hd hs e).imp (fun d hx => ⟨fun h => absurd h hn, fun _ => hx⟩) id

theorem bintSub_spec {s : Operand} {r : (ℤ × Bint) × Heap} (hd : Canonical dst)
    (hs : Canonical (s.get dst)) (e : bintSub dst s h = some r) :
    Outcome dst (SumResult (dst.negative ≠ (s.get dst).negative) dst s) h r := by
  rw [bintSub] at e
  by_cases hn : dst.negative = (s.get dst).negative
  · rw [if_neg (by simp [hn])] at e
    exact (doSubtract_spec hd hs e).imp (fun d hx => ⟨fun h => absurd hn h, fun _ => hx⟩) id
  · rw [if_pos (by rw [Bool.eq_not.2 hn]; cases (s.get dst).negative <;> simp)] at e
    exact (magAdd_spec e).imp (fun d hx => ⟨fun _ => hx, fun h => absurd hn h⟩) id

end Dlb.Bint
