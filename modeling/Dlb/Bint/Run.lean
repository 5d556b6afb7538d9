import Mathlib.Logic.Relation
import Dlb.Bint.Base
import Dlb.Bint.Expt

/-!
# Runs of the interface

A run is a sequence of calls on the objects of a store, which are zero at the
start, with any answers of the allocator. The header comment of `src/bint.c` has it as
an invariant that no allocated chain ends in a chunk of zeroes. It is kept by all
calls apart from those of `bint_mul`, `bint_expt` and `bint_shift_left`, which do not trim,
and of `bint_copy` from an object to itself, which may extend it. `TidyCall` says when
these keep it too.
-/

namespace Dlb.Bint

variable {I : Type} [DecidableEq I] {h h' : Heap} {σ σ' : Store I} {op : Op I} {rc : ℤ}

/-! ## Calls -/

theorem bintSet_spec {b d : Bint} {value : Int32} (e : bintSet b value h = some (d, h')) :
    d = small (value < 0) (if value < 0 then (-value).toUInt32 else value.toUInt32) := by
  obtain ⟨_, h₁, -, e₂⟩ := bind_eq_some.1 e
  exact (Prod.mk.inj (pure_eq_some.1 e₂)).1.symm

/-- A property of all objects after the object `b` has got another value. -/
theorem forall_update {P : Bint → Prop} {b : I} {d : Bint} (hσ : ∀ i, P (σ i)) (hd : P d) (i : I) :
    P (Function.update σ b d i) := by
  by_cases hi : i = b
  · rw [hi, Function.update_self]
    exact hd
  · rw [Function.update_of_ne hi]
    exact hσ i

theorem Ends.apply {b d : Bint} {P : Bint → Prop} {F : Prop} {Q : Bint → Prop}
    (he : Ends b P F h ((rc, d), h')) (hb : Q b) (hP : P d → Q d) : Q d := by
  cases he with
  | done hp g => exact hP hp
  | failed g hf => exact hb

/-! ## The invariant -/

/-- A call that keeps the invariant: a copy of an object to itself does not extend it, products are
    tidy, and a shifted number is zero or has a length that is neither too large nor a
    multiple of the chunk size. -/
def TidyCall (σ : Store I) : Op I → Prop
  | .copy dst src => src = dst → bintBitLength (σ dst) / 128 ≤ (σ dst).next.length
  | .mul result a b => MulTidy (mag (σ result)) (mag (σ a)) (mag (σ b))
  | .expt _ base exponent =>
    ExptTidy (σ exponent) (bintBitLength (σ exponent)) 0 1 0 (mag (σ base))
  | .shiftLeft b count => mag (σ b) = 0 ∨ Nat.size (mag (σ b)) + count.toNat < 2 ^ 32 ∧
      ¬128 ∣ Nat.size (mag (σ b)) + count.toNat
  | _ => True

theorem canonical_copied {dst src : I} (hσ : ∀ i, Canonical (σ i))
    (ht : TidyCall σ (.copy dst src)) : Canonical (copied (σ dst) (operand σ dst src)) := by
  rw [operand]
  split_ifs with hs
  · rw [copied, extend_of_le (ht hs)]
    exact hσ dst
  · exact hσ src

theorem canonical_divStore {rem quot : Bint} {quotient remainder : Option I}
    (hσ : ∀ i, Canonical (σ i)) (hr : Canonical rem) (hq : Canonical quot) (i : I) :
    Canonical (divStore σ rem quot quotient remainder i) := by
  cases quotient <;> cases remainder <;> simp only [divStore, swapOut]
  · exact hσ i
  · exact forall_update hσ hr i
  · exact forall_update hσ hq i
  · exact forall_update (forall_update hσ hr) hq i

theorem digitPop_cases {b : I} {base : UInt32}
    (e : exec σ (.digitPop b base) h = some ((rc, σ'), h')) : ∃ d, σ' = Function.update σ b d ∧
      if base = 0 then d = σ b
      else Canonical d ∧ d.negative = (σ b).negative ∧ mag d = mag (σ b) / base.toNat := by
  obtain ⟨d, e₁, rfl⟩ := onObject_eq_some e
  obtain ⟨⟨digit, v⟩, h₁, e₂, e₃⟩ := bind_eq_some.1 e₁
  obtain ⟨he, -⟩ := Prod.mk.inj (pure_eq_some.1 e₃)
  obtain ⟨-, rfl⟩ := Prod.mk.inj he
  refine ⟨_, rfl, ?_⟩
  have hp := (bintDigitPop_spec e₂).2
  split_ifs at hp ⊢
  · exact hp.2
  · exact ⟨hp.1, hp.2.1, hp.2.2.1⟩

/-- Every call keeps the invariant under the condition `TidyCall`. -/
theorem exec_canonical (hσ : ∀ i, Canonical (σ i)) (ht : TidyCall σ op)
    (e : exec σ op h = some ((rc, σ'), h')) : ∀ i, Canonical (σ' i) := by
  have hsmall : ∀ n d, Canonical (small n d) := fun n d => canonical_of_next_eq_nil rfl
  cases op with
  | init b value =>
    obtain ⟨d, e₁, -, rfl⟩ := onObject'_eq_some e
    exact forall_update hσ (bintSet_spec e₁ ▸ hsmall _ _)
  | set b value =>
    obtain ⟨d, e₁, -, rfl⟩ := onObject'_eq_some e
    exact forall_update hσ (bintSet_spec e₁ ▸ hsmall _ _)
  | setSign b sign =>
    obtain ⟨d, e₁, -, rfl⟩ := onObject'_eq_some e
    obtain ⟨rfl, -⟩ := Prod.mk.inj (pure_eq_some.1 e₁)
    exact forall_update hσ (hσ b)
  | copy dst src =>
    obtain ⟨d, e₁, rfl⟩ := onObject_eq_some e
    exact forall_update hσ ((bintCopy_spec e₁).apply (hσ dst) fun hd =>
      hd.1 ▸ canonical_copied hσ ht)
  | swap a b =>
    have e := pure_eq_some.1 e
    simp only [Prod.mk.injEq] at e
    obtain ⟨⟨-, rfl⟩, -⟩ := e
    exact forall_update (forall_update hσ (hσ b)) (hσ a)
  | add dst src =>
    obtain ⟨d, e₁, rfl⟩ := onObject_eq_some e
    exact forall_update hσ ((bintAdd_spec (hσ dst) (by simp [hσ]) e₁).apply (hσ dst)
      SumResult.canonical)
  | sub dst src =>
    obtain ⟨d, e₁, rfl⟩ := onObject_eq_some e
    exact forall_update hσ ((bintSub_spec (hσ dst) (by simp [hσ]) e₁).apply (hσ dst)
      SumResult.canonical)
  | mul result a b =>
    obtain ⟨d, e₁, rfl⟩ := onObject_eq_some e
    exact forall_update hσ ((bintMul_spec e₁).apply (hσ result) fun hd =>
      (hd.product (hσ result) (hσ a) (hσ b) ht).canonical)
  | div quotient dividend divisor remainder =>
    rw [exec] at e
    cases bintDiv_spec (hσ dividend) (hσ divisor) e with
    | zero hz => exact hσ
    | failed g => exact hσ
    | done hz hr => exact canonical_divStore hσ hr.remainder.1 hr.quotient.1
  | expt result base exponent =>
    rw [exec] at e
    cases bintExpt_spec e with
    | failed g => exact hσ
    | done hr => exact forall_update hσ (hr (hσ base) ht).canonical
  | bitSet b pos =>
    obtain ⟨d, e₁, rfl⟩ := onObject_eq_some e
    exact forall_update hσ ((bintBitSet_spec e₁).apply (hσ b) fun hd => hd.canonical (hσ b))
  | bitClear b pos =>
    obtain ⟨d, e₁, -, rfl⟩ := onObject'_eq_some e
    exact forall_update hσ (bintBitClear_spec (hσ b) e₁).1
  | or dst src =>
    obtain ⟨d, e₁, rfl⟩ := onObject_eq_some e
    exact forall_update hσ ((bintOr_spec e₁).apply (hσ dst) fun hd =>
      canonical_of_or (hσ dst) (by simp [hσ]) hd.2.1 hd.2.2)
  | and dst src =>
    obtain ⟨d, e₁, -, rfl⟩ := onObject'_eq_some e
    exact forall_update hσ (bintAnd_spec e₁).1
  | bic dst src =>
    obtain ⟨d, e₁, -, rfl⟩ := onObject'_eq_some e
    exact forall_update hσ (bintBic_spec (hσ dst) e₁).1
  | xor dst src =>
    obtain ⟨d, e₁, rfl⟩ := onObject_eq_some e
    exact forall_update hσ ((bintXor_spec (hσ dst) e₁).apply (hσ dst) And.left)
  | shiftLeft b count =>
    obtain ⟨d, e₁, rfl⟩ := onObject_eq_some e
    refine forall_update hσ ((bintShiftLeft_spec (hσ b) e₁).apply (hσ b) fun hd => ?_)
    split_ifs at hd with h₀
    · exact hd ▸ hσ b
    · obtain ⟨h₁, h₂⟩ := ht.resolve_left h₀
      exact ((hd h₁).canonical_iff h₀).2 h₂
  | shiftRight b count =>
    obtain ⟨d, e₁, -, rfl⟩ := onObject'_eq_some e
    exact forall_update hσ (bintShiftRight_spec e₁).1
  | digitPush b base digit =>
    obtain ⟨d, e₁, rfl⟩ := onObject_eq_some e
    exact forall_update hσ ((bintDigitPush_spec e₁).apply (hσ b) And.left)
  | digitPop b base =>
    obtain ⟨d, rfl, hp⟩ := digitPop_cases e
    split_ifs at hp
    · exact forall_update hσ (hp ▸ hσ b)
    · exact forall_update hσ hp.1

/-! ## Runs -/

/-- A call, legal and with `P`, leads from the objects `σ` to the objects `σ'`. -/
def Step (P : Store I → Op I → Prop) (σ σ' : Store I) : Prop :=
  ∃ op rc h h', op.Legal ∧ P σ op ∧ exec σ op h = some ((rc, σ'), h')

/-- A run of calls with `P`, from objects that are zero. -/
def Run (P : Store I → Op I → Prop) (σ : Store I) : Prop :=
  Relation.ReflTransGen (Step P) (fun _ => bintZero) σ

/-- An invariant of every step holds of every run. -/
theorem Run.induction {P : Store I → Op I → Prop} {Q : Store I → Prop} (hr : Run P σ)
    (h₀ : Q fun _ => bintZero) (hs : ∀ σ σ', Q σ → Step P σ σ' → Q σ') : Q σ := by
  induction hr with
  | refl => exact h₀
  | tail _ hstep ih => exact hs _ _ ih hstep

/-- No run of tidy calls leaves a chunk of zeroes at the end of an allocated chain. -/
theorem run_canonical (hr : Run TidyCall σ) (i : I) : Canonical (σ i) := by
  refine hr.induction (Q := fun σ => ∀ i, Canonical (σ i))
    (fun _ => canonical_of_next_eq_nil rfl) ?_ i
  rintro σ σ' hσ ⟨op, rc, h, h', -, ht, e⟩
  exact exec_canonical hσ ht e

/-- One is set, and shifted to the length of one chunk: room is made for two. -/
theorem shiftLeft_not_canonical : ∃ σ : Store Unit, Run (fun _ _ => True) σ ∧
    σ () = ⟨false, ⟨[0, 0, 0, 0x80000000], rfl⟩, [.zero]⟩ ∧ ¬Canonical (σ ()) := by
  obtain ⟨σ₁, h₁, e₁, hv₁⟩ : ∃ σ₁ h₁, exec (fun _ : Unit => bintZero) (.init () 1) freshHeap =
      some ((0, σ₁), h₁) ∧ σ₁ () = bintOne := ⟨_, _, rfl, rfl⟩
  obtain ⟨d, h₂, e₂, hd⟩ : ∃ d h₂, bintShiftLeft bintOne 127 freshHeap = some ((0, d), h₂) ∧
      d = ⟨false, ⟨[0, 0, 0, 0x80000000], rfl⟩, [.zero]⟩ := ⟨_, _, rfl, by decide +kernel⟩
  refine ⟨Function.update σ₁ () d, ?_, by simpa using hd, by rw [Function.update_self, hd]; decide⟩
  refine (Relation.ReflTransGen.single ⟨.init () 1, _, _, _, trivial, trivial, e₁⟩).tail
    ⟨.shiftLeft () 127, 0, freshHeap, h₂, trivial, trivial, bind_eq_some.2 ⟨(0, d), h₂, ?_, rfl⟩⟩
  rw [hv₁]
  exact e₂

/-- One is set, and shifted by one chunk. -/
theorem run_canonical_shift : ∃ σ : Store Unit,
    mag (σ ()) = 2 ^ 128 ∧ Canonical (σ ()) := by
  obtain ⟨σ₁, h₁, e₁, hv₁⟩ : ∃ σ₁ h₁, exec (fun _ : Unit => bintZero) (.init () 1) freshHeap =
      some ((0, σ₁), h₁) ∧ σ₁ () = bintOne := ⟨_, _, rfl, rfl⟩
  obtain ⟨d, h₂, e₂, hd⟩ : ∃ d h₂, bintShiftLeft bintOne 128 freshHeap = some ((0, d), h₂) ∧
      mag d = 2 ^ 128 := ⟨_, _, rfl, by decide +kernel⟩
  refine ⟨Function.update σ₁ () d, by simpa using hd, run_canonical ?_ ()⟩
  refine (Relation.ReflTransGen.single ⟨.init () 1, _, _, _, trivial, trivial, e₁⟩).tail
    ⟨.shiftLeft () 128, 0, freshHeap, h₂, trivial, ?_, bind_eq_some.2 ⟨(0, d), h₂, ?_, rfl⟩⟩
  · rw [TidyCall, hv₁]
    decide
  · rw [hv₁]
    exact e₂

end Dlb.Bint
