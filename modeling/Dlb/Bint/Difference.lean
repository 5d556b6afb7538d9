import Dlb.Bint.Mul
import Dlb.Bint.Sub

/-!
# Exact differences

`mag_sub` writes the difference into the chunks of its destination, of which there
must be as many as `big` has. If `big` is the source, `do_subtract` makes this room
by `bint_bit_length`, which is reduced modulo `2 ^ 32`: a source with more bits than
that may not get its room. The difference is exact if and only if it does
(`bintAdd_bintSub_sub_exact_iff`).
-/

namespace Dlb.Bint

variable {I : Type} [DecidableEq I] {h h' : Heap} {dst b d : Bint}

/-- The loops of `mag_sub` if `big` has more chunks than `dst`: what is above the chunks of `dst`
    is lost. -/
theorem subLoop_short {borrow : UInt32} {ds bs ss cs : List Chunk} (hs : ds.length = ss.length)
    (hl : ds.length < bs.length) (e : subLoop borrow ds bs ss = some cs) :
    chain cs + chain ss + flag borrow = chain bs % radix ^ ds.length := by
  induction ds generalizing borrow bs ss cs with
  | nil =>
    obtain rfl := List.length_eq_zero_iff.1 hs.symm
    rw [subLoop_nil_right] at e
    cases bs with
    | nil => simp at hl
    | cons bc bs =>
      by_cases hb : borrow = 0
      · rw [hb, borrowLoop_zero] at e
        simp [← Option.some_inj.1 e, hb, Nat.mod_one]
      · -- The borrow is taken from a chunk that `dst` does not have.
        simp [borrowLoop, hb] at e
  | cons dc ds ih =>
    cases bs with
    | nil => simp at hl
    | cons bc bs =>
      cases ss with
      | nil => simp at hs
      | cons sc ss =>
        rw [subLoop_cons] at e
        obtain ⟨cs', e', rfl⟩ := Option.map_eq_some_iff.1 e
        have hz := ih (by simpa using hs) (by simpa using hl) e'
        rw [List.length_cons, chain_cons bc, mod_pow_succ_digit bc.val_lt]
        exact sub_step (val_subComponent borrow bc sc) hz

/-! ## `do_subtract` -/

/-- The number of chunks which `do_subtract` allocates if the source is larger. -/
def subRoom (dst src : Bint) : ℕ := max (bintBitLength src / 128) dst.next.length

/-- The source is not larger, or there is room for all of its chunks. -/
def SubExact (dst src : Bint) : Prop := mag src ≤ mag dst ∨ src.next.length ≤ subRoom dst src

theorem doSubtract_ge {src : Operand} (hd : Canonical dst) (hs : Canonical (src.get dst))
    (hle : mag (src.get dst) ≤ mag dst) (h : Heap) :
    ∃ d h', doSubtract dst src h = some ((0, d), h') ∧ Canonical d ∧ d.negative = dst.negative ∧
      mag d + mag (src.get dst) = mag dst := by
  have hc : ¬magCmp dst (src.get dst) < 0 := by
    rw [hd.magCmp hs, Int.sign_neg_iff]
    omega
  obtain ⟨d, h', e, hx, hn, hm, -⟩ := magSub_big (hs.length_le (hle.trans_lt (mag_lt dst))) hle h
  refine ⟨d, h', ?_, hx, hn, hm⟩
  rw [doSubtract, if_neg hc]
  exact bind_eq_some.2 ⟨_, _, e, rfl⟩

theorem magCmp_lt {src : Operand} (hd : Canonical dst) (hs : Canonical (src.get dst))
    (hlt : mag dst < mag (src.get dst)) : magCmp dst (src.get dst) < 0 := by
  rw [hd.magCmp hs, Int.sign_neg_iff]
  omega

theorem doSubtract_lt_returns {src : Operand} (hd : Canonical dst) (hs : Canonical (src.get dst))
    (hlt : mag dst < mag (src.get dst)) (hl : (src.get dst).next.length ≤ subRoom dst (src.get dst))
    (hk : h.Ok) :
    ∃ d h', doSubtract dst src h = some ((0, d), h') ∧ Canonical d ∧ d.negative = !dst.negative ∧
      mag d + mag dst = mag (src.get dst) := by
  cases src with
  | self => exact absurd hlt (lt_irrefl _)
  | other b =>
    change mag dst < mag b at hlt
    change b.next.length ≤ subRoom dst b at hl
    obtain ⟨⟨⟨rc, dst'⟩, h₁⟩, e₁, ho⟩ := extendLength_returns dst (bintBitLength b) h
    cases ho with
    | failed g hn => exact absurd hk hn
    | done hx g =>
      have hm : mag dst' = mag dst := by rw [hx, mag_extend]
      have hl' : b.digits.length ≤ dst'.digits.length := by
        rw [hx, length_digits, length_digits, length_extend]
        exact Nat.succ_le_succ hl
      obtain ⟨cs, e₂, hc⟩ := subLoop_small 0 hl'
        (show chain dst'.digits + flag 0 ≤ chain b.digits from hm.trans_le hlt.le)
      obtain ⟨h₂, e₃⟩ := magSub_returns e₂ h₁
      have hne : cs ≠ [] := by
        rintro rfl
        have := length_subLoop e₂
        simp at this
      have hcan := trimmed_canonical (dst'.setDigits cs)
      refine ⟨{ trimmed (dst'.setDigits cs) with negative := !(trimmed (dst'.setDigits cs)).negative },
        h₂, ?_, hcan, ?_, ?_⟩
      · rw [doSubtract, if_pos (magCmp_lt hd hs hlt)]
        exact bind_eq_some.2 ⟨_, _, e₁, bind_eq_some.2 ⟨_, _, e₃, rfl⟩⟩
      · simp [hx]
      · change mag (trimmed (dst'.setDigits cs)) + mag dst = mag b
        rw [mag_trimmed, mag_setDigits _ hne, ← hm]
        exact hc

/-- The difference without the room for the source. -/
theorem doSubtract_short {src : Operand} (hd : Canonical dst) (hs : Canonical (src.get dst))
    (hlt : mag dst < mag (src.get dst)) (hl : subRoom dst (src.get dst) < (src.get dst).next.length)
    (e : doSubtract dst src h = some ((0, d), h')) : mag d + mag dst < mag (src.get dst) := by
  cases src with
  | self => exact absurd hlt (lt_irrefl _)
  | other b =>
    change mag dst < mag b at hlt
    change subRoom dst b < b.next.length at hl
    rw [doSubtract, if_pos (magCmp_lt hd hs hlt)] at e
    obtain ⟨⟨rc, dst'⟩, h₁, e₁, e₂⟩ := bind_eq_some.1 e
    cases extendLength_spec e₁ with
    | failed g hk =>
      have := pure_eq_some.1 e₂
      simp at this
    | done hx g =>
      obtain ⟨d', h₂, e₃, e₄⟩ := bind_eq_some.1 e₂
      have e₄ := pure_eq_some.1 e₄
      simp only [Prod.mk.injEq] at e₄
      obtain ⟨⟨-, rfl⟩, -⟩ := e₄
      obtain ⟨cs, e₅, hcl, rfl, -⟩ := magSub_spec e₃
      have hm : mag dst' = mag dst := by rw [hx, mag_extend]
      have hlen : dst'.digits.length = subRoom dst b + 1 := by
        rw [hx, length_digits, length_extend]
        rfl
      have hne : cs ≠ [] := by
        rintro rfl
        simp at hcl
      have hv := subLoop_short rfl
        (show dst'.digits.length < b.digits.length by rw [hlen, length_digits]; omega) e₅
      -- The chunks of the source that are lost are not all zero.
      have hp := hs.pow_le (List.ne_nil_of_length_pos (Nat.zero_lt_of_lt hl))
      change radix ^ b.next.length ≤ mag b at hp
      change mag (trimmed (dst'.setDigits cs)) + mag dst < mag b
      rw [mag_trimmed, mag_setDigits _ hne, ← hm]
      change chain cs + chain dst'.digits + 0 = mag b % radix ^ dst'.digits.length at hv
      rw [add_zero] at hv
      rw [mag, hv]
      refine (Nat.mod_lt _ (Nat.pow_pos radix_pos)).trans_le (le_trans ?_ hp)
      exact Nat.pow_le_pow_right radix_pos (by omega)

theorem doSubtract_computes_iff {σ : Store I} {o : Op I} {i : I} {s : Operand} {z : ℤ}
    (hd : Canonical (σ i)) (hs : Canonical (s.get (σ i))) (hk : h.Ok)
    (ho : exec σ o = onObject σ i (doSubtract (σ i) s))
    (hz : z = if (σ i).negative then (mag (s.get (σ i)) - mag (σ i) : ℤ)
      else mag (σ i) - mag (s.get (σ i))) :
    Computes σ o i (fun d => Canonical d ∧ toInt d = z) h ↔ SubExact (σ i) (s.get (σ i)) := by
  have hexec : ∀ d h', doSubtract (σ i) s h = some ((0, d), h') →
      exec σ o h = some ((0, Function.update σ i d), h') := by
    intro d h' e
    rw [ho]
    exact bind_eq_some.2 ⟨_, _, e, rfl⟩
  rcases le_or_gt (mag (s.get (σ i))) (mag (σ i)) with hle | hlt
  · -- The destination is `big`.
    obtain ⟨d, h', e, hx, hn, hm⟩ := doSubtract_ge hd hs hle h
    rw [computes_iff (hexec d h' e) rfl]
    refine iff_of_true ⟨hx, ?_⟩ (.inl hle)
    rw [toInt, hz, hn]
    split_ifs <;> omega
  · rcases le_or_gt (s.get (σ i)).next.length (subRoom (σ i) (s.get (σ i))) with hl | hl
    · obtain ⟨d, h', e, hx, hn, hm⟩ := doSubtract_lt_returns hd hs hlt hl hk
      rw [computes_iff (hexec d h' e) rfl]
      refine iff_of_true ⟨hx, ?_⟩ (.inr hl)
      rw [toInt, hz, hn]
      cases (σ i).negative
      · simp only [Bool.not_false, if_true, Bool.false_eq_true, if_false]
        omega
      · simp only [Bool.not_true, if_true, Bool.false_eq_true, if_false]
        omega
    · refine iff_of_false ?_ (not_or.2 ⟨hlt.not_ge, hl.not_ge⟩)
      intro c
      obtain ⟨d, h', e₁, -, hv⟩ := c.of_onObject ho
      have hm := doSubtract_short hd hs hlt hl e₁
      have habs := natAbs_toInt d
      rw [hv, hz] at habs
      split_ifs at habs <;> omega

/-- Magnitude subtraction is exact if and only if the source is not larger, or its bit length
    makes room for it. -/
theorem bintAdd_bintSub_sub_exact_iff (σ : Store I) (dst src : I) (h : Heap)
    (hd : Canonical (σ dst)) (hs : Canonical (σ src)) (hk : h.Ok) :
    ((σ dst).negative = (σ src).negative →
      (Computes σ (.sub dst src) dst
          (fun d => Canonical d ∧ toInt d = toInt (σ dst) - toInt (σ src)) h ↔
        SubExact (σ dst) (σ src))) ∧
    ((σ dst).negative ≠ (σ src).negative →
      (Computes σ (.add dst src) dst
          (fun d => Canonical d ∧ toInt d = toInt (σ dst) + toInt (σ src)) h ↔
        SubExact (σ dst) (σ src))) := by
  have hg := operand_get σ dst src
  refine ⟨fun hn => ?_, fun hn => ?_⟩
  · have := doSubtract_computes_iff (σ := σ) (o := .sub dst src) (i := dst)
      (s := operand σ dst src) (z := toInt (σ dst) - toInt (σ src)) hd (hg.symm ▸ hs) hk
      (by simp [exec, bintSub, hn]) (by simp only [hg, toInt, hn]; split_ifs <;> ring)
    rwa [hg] at this
  · have hn : (σ dst).negative = !(σ src).negative := Bool.eq_not.2 hn
    have := doSubtract_computes_iff (σ := σ) (o := .add dst src) (i := dst)
      (s := operand σ dst src) (z := toInt (σ dst) + toInt (σ src)) hd (hg.symm ▸ hs) hk
      (by simp only [exec, bintAdd, hg, hn]; cases (σ src).negative <;> rfl)
      (by simp only [hg, toInt, hn]; cases (σ src).negative <;> simp <;> ring)
    rwa [hg] at this

/-- A source that does not get its room. -/
theorem bintSub_lacks_room_of {w : Bint} (hw : Canonical w) (hn : w.negative = false)
    (hm : 1 < mag w) (hl : subRoom bintOne w < w.next.length) :
    ¬Computes (pair bintOne w) (.sub false true) false
      (fun d => Canonical d ∧ toInt d = toInt bintOne - toInt w) freshHeap := by
  intro hc
  have hv : toInt w = mag w := if_neg (by simp [hn])
  have ho : exec (pair bintOne w) (.sub false true) =
      onObject (pair bintOne w) false (doSubtract bintOne (.other w)) := by
    change onObject _ _ (bintSub bintOne (.other w)) = _
    rw [bintSub]
    simp [Operand.get, hn, bintOne, small]
  have hone : Canonical (pair bintOne w false) := canonical_of_next_eq_nil rfl
  rcases (doSubtract_computes_iff (s := .other w) hone hw (fun _ => rfl) ho (by rw [hv]; rfl)).1 hc
    with hx | hx
  · exact hm.not_ge hx
  · exact hl.not_ge hx

/-- The number `2 ^ 2 ^ 32`, whose bit length is taken for 1. -/
def wide : Bint := above (2 ^ 25 - 1) bintOne.first

theorem mag_above_one (n : ℕ) : mag (above n bintOne.first) = 2 ^ (128 * (n + 1)) := by
  rw [mag_above, show bintOne.first.val = 1 by decide, mul_one, pow_radix]

theorem mag_wide : mag wide = 2 ^ 2 ^ 32 := by
  rw [wide, mag_above_one, show 128 * (2 ^ 25 - 1 + 1) = 2 ^ 32 by omega]

theorem canonical_wide : Canonical wide := canonical_above (by decide) _

theorem subRoom_wide_lt : subRoom bintOne wide < wide.next.length := by
  have hb : bintBitLength wide = 1 :=
    (bintBitLength_of_two_pow canonical_wide mag_wide).trans (Nat.add_mod_left _ _)
  rw [subRoom, hb, wide, length_above]
  simp [bintOne, small]

/-- The difference of 1 and `2 ^ 2 ^ 32` is not computed. -/
theorem bintSub_lacks_room : Canonical bintOne ∧ Canonical wide ∧ freshHeap.Ok ∧
    mag bintOne = 1 ∧ mag wide = 2 ^ 2 ^ 32 ∧ bintOne.negative = wide.negative ∧
    ¬Computes (pair bintOne wide) (.sub false true) false
      (fun d => Canonical d ∧ toInt d = toInt bintOne - toInt wide) freshHeap :=
  ⟨by decide, canonical_wide, fun _ => rfl, by decide, mag_wide, rfl,
    bintSub_lacks_room_of canonical_wide rfl
      (mag_wide ▸ Nat.one_lt_two_pow (show 2 ^ 32 ≠ 0 by simp)) subRoom_wide_lt⟩

/-- Differences of a larger source, and of an object and itself. -/
theorem bintAdd_bintSub_sub_exact_iff_ones :
    Computes (pair bintOne ones256) (.sub false true) false
      (fun d => Canonical d ∧ toInt d = toInt bintOne - toInt ones256) freshHeap ∧
    Computes (pair ones256 (small true 1)) (.add true false) true
      (fun d => Canonical d ∧ toInt d = toInt (small true 1) + toInt ones256) freshHeap :=
  ⟨((bintAdd_bintSub_sub_exact_iff (pair bintOne ones256) false true freshHeap (by decide) (by decide)
      fun _ => rfl).1 rfl).2 (.inr (by decide)),
    ((bintAdd_bintSub_sub_exact_iff (pair ones256 (small true 1)) true false freshHeap (by decide)
      (by decide) fun _ => rfl).2 (by decide)).2 (.inr (by decide))⟩

end Dlb.Bint
