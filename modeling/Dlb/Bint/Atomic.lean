import Dlb.Bint.Run

/-!
# Failed calls

`src/bint.h` promises that a function that fails leaves its operands as they were. A
call that returns -1 changes no object, and as many chunks are freed during it as are
allocated, whatever the allocator answers.
-/

namespace Dlb.Bint

variable {I : Type} [DecidableEq I] {h h' : Heap} {σ σ' : Store I} {op : Op I} {rc : ℤ}

/-- The objects that a call reads or changes. -/
def Op.objects : Op I → List I
  | .init b _ | .set b _ | .setSign b _ | .bitSet b _ | .bitClear b _ | .shiftLeft b _
  | .shiftRight b _ | .digitPush b _ _ | .digitPop b _ => [b]
  | .copy a b | .swap a b | .add a b | .sub a b | .or a b | .and a b | .bic a b | .xor a b => [a, b]
  | .mul a b c | .expt a b c => [a, b, c]
  | .div quotient dividend divisor remainder =>
    dividend :: divisor :: (quotient.toList ++ remainder.toList)

theorem Ends.of_failed {b d : Bint} {P : Bint → Prop} {F : Prop}
    (he : Ends b P F h ((-1, d), h')) : d = b ∧ Gains h h' 0 := by
  cases he with
  | failed g hf => exact ⟨rfl, g⟩

/-- A call that returns -1 leaves the objects and the number of chunks as they were. -/
theorem exec_failed (hσ : ∀ i ∈ op.objects, Canonical (σ i))
    (e : exec σ op h = some ((-1, σ'), h')) : σ' = σ ∧ Gains h h' 0 := by
  -- The calls that change one object, and return a code.
  have hone : ∀ {b : I} {f : Prog (ℤ × Bint)}, onObject σ b f h = some ((-1, σ'), h') →
      (∀ d, f h = some ((-1, d), h') → d = σ b ∧ Gains h h' 0) → σ' = σ ∧ Gains h h' 0 := by
    intro b f e hf
    obtain ⟨d, e₁, rfl⟩ := onObject_eq_some e
    obtain ⟨rfl, g⟩ := hf d e₁
    exact ⟨Function.update_eq_self b σ, g⟩
  -- The calls that cannot fail.
  have hvoid : ∀ {b : I} {f : Prog Bint}, ¬onObject' σ b f h = some ((-1, σ'), h') := by
    intro b f e
    obtain ⟨d, -, h₀, -⟩ := onObject'_eq_some e
    simp at h₀
  cases op with
  | init b value => exact absurd e hvoid
  | set b value => exact absurd e hvoid
  | setSign b sign => exact absurd e hvoid
  | bitClear b pos => exact absurd e hvoid
  | and dst src => exact absurd e hvoid
  | bic dst src => exact absurd e hvoid
  | shiftRight b count => exact absurd e hvoid
  | swap a b =>
    have e := pure_eq_some.1 e
    simp at e
  | digitPop b base =>
    obtain ⟨d, e₁, -⟩ := onObject_eq_some e
    obtain ⟨⟨digit, v⟩, h₁, -, e₃⟩ := bind_eq_some.1 e₁
    have e₃ := pure_eq_some.1 e₃
    simp only [Prod.mk.injEq] at e₃
    omega
  | copy dst src => exact hone e fun d e₁ => (bintCopy_spec e₁).of_failed
  | add dst src =>
    exact hone e fun d e₁ => (bintAdd_spec (hσ dst (by simp [Op.objects]))
      (by simpa using hσ src (by simp [Op.objects])) e₁).of_failed
  | sub dst src =>
    exact hone e fun d e₁ => (bintSub_spec (hσ dst (by simp [Op.objects]))
      (by simpa using hσ src (by simp [Op.objects])) e₁).of_failed
  | mul result a b => exact hone e fun d e₁ => (bintMul_spec e₁).of_failed
  | div quotient dividend divisor remainder =>
    rw [exec] at e
    cases bintDiv_spec (hσ dividend (by simp [Op.objects])) (hσ divisor (by simp [Op.objects])) e with
    | failed g => exact ⟨rfl, g⟩
  | expt result base exponent =>
    rw [exec] at e
    cases bintExpt_spec e with
    | failed g => exact ⟨rfl, g⟩
  | bitSet b pos => exact hone e fun d e₁ => (bintBitSet_spec e₁).of_failed
  | or dst src => exact hone e fun d e₁ => (bintOr_spec e₁).of_failed
  | xor dst src =>
    exact hone e fun d e₁ => (bintXor_spec (hσ dst (by simp [Op.objects])) e₁).of_failed
  | shiftLeft b count =>
    exact hone e fun d e₁ => (bintShiftLeft_spec (hσ b (by simp [Op.objects])) e₁).of_failed
  | digitPush b base digit => exact hone e fun d e₁ => (bintDigitPush_spec e₁).of_failed

/-- A failed call is atomic and leaks nothing. -/
theorem failed_call_atomic (_ : op.Legal) (hσ : ∀ i ∈ op.objects, Canonical (σ i))
    (e : exec σ op h = some ((-1, σ'), h')) :
    σ' = σ ∧ (h'.allocated : ℤ) - h.allocated = h'.freed - h.freed := by
  obtain ⟨hs, g⟩ := exec_failed hσ e
  have hl := g.live
  simp only [Heap.live] at hl
  exact ⟨hs, by omega⟩

/-- An allocator that answers once. -/
def scarceHeap : Heap := ⟨fun n => n = 0, 0, 0⟩

/-- The product of two numbers of two chunks needs room for four more chunks, and the second of
    them is not there. -/
theorem failed_call_atomic_mul : ∃ σ' h',
    exec (pair bintZero ones256) (.mul false true true) scarceHeap = some ((-1, σ'), h') ∧
      h'.allocated = 1 ∧ σ' = pair bintZero ones256 ∧
      (h'.allocated : ℤ) - scarceHeap.allocated = h'.freed - scarceHeap.freed := by
  obtain ⟨σ', h', e, ha⟩ : ∃ σ' h', exec (pair bintZero ones256) (.mul false true true) scarceHeap =
      some ((-1, σ'), h') ∧ h'.allocated = 1 := ⟨_, _, rfl, rfl⟩
  exact ⟨σ', h', e, ha, failed_call_atomic
    (show (Op.mul false true true).Legal from ⟨by decide, by decide⟩)
    (fun i _ => by cases i <;> decide) e⟩

end Dlb.Bint
