import Dlb.Bint.Alloc
import Mathlib.Logic.Function.Basic

/-!
# The public interface of the big integers

The functions of `src/bint.h` on objects: `σ i` is the contents of the object
`i`. The functions that change an object and may read another are given the
objects, and find out whether they are the same.
-/

namespace Dlb.Bint

variable {I : Type} [DecidableEq I]

/-- The contents of all objects. -/
abbrev Store (I : Type) := I → Bint

/-- The source operand of a function with the destination `dst`. -/
def operand (σ : Store I) (dst src : I) : Operand := if src = dst then .self else .other (σ src)

@[simp] theorem operand_get (σ : Store I) (dst src : I) :
    (operand σ dst src).get (σ dst) = σ src := by
  rw [operand]
  split_ifs with e
  · rw [e]; rfl
  · rfl

/-- `bint_swap` with an object that is not in the store, if the pointer is not
    `NULL`: the store, and the other object. -/
def swapOut (σ : Store I) (b : Bint) : Option I → Store I × Bint
  | none => (σ, b)
  | some i => (Function.update σ i b, σ i)

/-- `bint_div`. -/
def bintDiv (quotient : Option I) (dividend divisor : I) (remainder : Option I) (σ : Store I) :
    Prog (ℤ × Store I) := do
  if bintBitLength (σ divisor) = 0 then return (1, σ)
  let (rc, sdiv, rem, quot) ← divCore (σ dividend) (σ divisor)
  if rc < 0 then
    bintDestroy rem
    bintDestroy sdiv
    bintDestroy quot
    return (-1, σ)
  let (σ, rem) := swapOut σ rem remainder
  let (σ, quot) := swapOut σ quot quotient
  bintDestroy rem
  bintDestroy sdiv
  bintDestroy quot
  return (0, σ)

/-- `bint_expt`. -/
def bintExpt (result base exponent : I) (σ : Store I) : Prog (ℤ × Store I) := do
  let (rc, r, p, b) ← exptCore (σ base) (σ exponent)
  if rc < 0 then
    bintDestroy r
    bintDestroy b
    bintDestroy p
    return (-1, σ)
  let (σ, r) := swapOut σ r (some result)
  bintDestroy r
  bintDestroy b
  bintDestroy p
  return (0, σ)

/-- A call of a function of the interface. -/
inductive Op (I : Type)
  | init (b : I) (value : Int32)
  | set (b : I) (value : Int32)
  | setSign (b : I) (sign : ℤ)
  | copy (dst src : I)
  | swap (a b : I)
  | add (dst src : I)
  | sub (dst src : I)
  | mul (result a b : I)
  | div (quotient : Option I) (dividend divisor : I) (remainder : Option I)
  | expt (result base exponent : I)
  | bitSet (b : I) (pos : UInt32)
  | bitClear (b : I) (pos : UInt32)
  | or (dst src : I)
  | and (dst src : I)
  | bic (dst src : I)
  | xor (dst src : I)
  | shiftLeft (b : I) (count : UInt32)
  | shiftRight (b : I) (count : UInt32)
  | digitPush (b : I) (base digit : UInt32)
  | digitPop (b : I) (base : UInt32)

/-- Neither of the operands of `bint_mul` may be its result. -/
def Op.Legal : Op I → Prop
  | .mul result a b => result ≠ a ∧ result ≠ b
  | _ => True

/-- A function that changes the object `b` and returns a code. -/
def onObject (σ : Store I) (b : I) (f : Prog (ℤ × Bint)) : Prog (ℤ × Store I) := do
  let (rc, v) ← f
  return (rc, Function.update σ b v)

/-- A function that changes the object `b` and returns nothing. -/
def onObject' (σ : Store I) (b : I) (f : Prog Bint) : Prog (ℤ × Store I) := do
  return (0, Function.update σ b (← f))

theorem onObject_eq_some {σ σ' : Store I} {h h' : Heap} {rc : ℤ} {b : I} {f : Prog (ℤ × Bint)}
    (e : onObject σ b f h = some ((rc, σ'), h')) :
    ∃ d, f h = some ((rc, d), h') ∧ σ' = Function.update σ b d := by
  obtain ⟨⟨rc', d⟩, h₁, e₁, e₂⟩ := bind_eq_some.1 e
  have e₂ := pure_eq_some.1 e₂
  simp only [Prod.mk.injEq] at e₂
  obtain ⟨⟨rfl, rfl⟩, rfl⟩ := e₂
  exact ⟨d, e₁, rfl⟩

theorem onObject'_eq_some {σ σ' : Store I} {h h' : Heap} {rc : ℤ} {b : I} {f : Prog Bint}
    (e : onObject' σ b f h = some ((rc, σ'), h')) :
    ∃ d, f h = some (d, h') ∧ rc = 0 ∧ σ' = Function.update σ b d := by
  obtain ⟨d, h₁, e₁, e₂⟩ := bind_eq_some.1 e
  have e₂ := pure_eq_some.1 e₂
  simp only [Prod.mk.injEq] at e₂
  obtain ⟨⟨rfl, rfl⟩, rfl⟩ := e₂
  exact ⟨d, e₁, rfl, rfl⟩

/-- A call: what it returns, `0` if it returns nothing, and the objects after it. -/
def exec (σ : Store I) : Op I → Prog (ℤ × Store I)
  | .init b value => onObject' σ b (bintInit value)
  | .set b value => onObject' σ b (bintSet (σ b) value)
  | .setSign b sign => onObject' σ b (pure (bintSetSign (σ b) sign))
  | .copy dst src => onObject σ dst (bintCopy (σ dst) (operand σ dst src))
  | .swap a b => pure (0, Function.update (Function.update σ a (σ b)) b (σ a))
  | .add dst src => onObject σ dst (bintAdd (σ dst) (operand σ dst src))
  | .sub dst src => onObject σ dst (bintSub (σ dst) (operand σ dst src))
  | .mul result a b => onObject σ result (bintMul (σ result) (σ a) (σ b))
  | .div quotient dividend divisor remainder => bintDiv quotient dividend divisor remainder σ
  | .expt result base exponent => bintExpt result base exponent σ
  | .bitSet b pos => onObject σ b (bintBitSet (σ b) pos.toNat)
  | .bitClear b pos => onObject' σ b (bintBitClear (σ b) pos.toNat)
  | .or dst src => onObject σ dst (bintOr (σ dst) (operand σ dst src))
  | .and dst src => onObject' σ dst (bintAnd (σ dst) (operand σ dst src))
  | .bic dst src => onObject' σ dst (bintBic (σ dst) (operand σ dst src))
  | .xor dst src => onObject σ dst (bintXor (σ dst) (operand σ dst src))
  | .shiftLeft b count => onObject σ b (bintShiftLeft (σ b) count.toNat)
  | .shiftRight b count => onObject' σ b (bintShiftRight (σ b) count.toNat)
  | .digitPush b base digit => onObject σ b (bintDigitPush (σ b) base digit)
  | .digitPop b base => onObject σ b do
    let (digit, v) ← bintDigitPop (σ b) base
    return (digit.toNat, v)

/-- The call returns 0, and the object `i` then meets `P` while the others are as
    they were. -/
def Computes (σ : Store I) (op : Op I) (i : I) (P : Bint → Prop) (h : Heap) : Prop :=
  ∃ σ' h', exec σ op h = some ((0, σ'), h') ∧ P (σ' i) ∧ ∀ j, j ≠ i → σ' j = σ j

theorem computes_iff {σ : Store I} {op : Op I} {i : I} {P : Bint → Prop} {h h' : Heap} {rc : ℤ}
    {d : Bint} (e : exec σ op h = some ((rc, Function.update σ i d), h')) (hrc : rc = 0) :
    Computes σ op i P h ↔ P d := by
  subst hrc
  constructor
  · rintro ⟨σ', h₁, e', hp, -⟩
    rw [e, Option.some_inj, Prod.mk.injEq, Prod.mk.injEq] at e'
    rw [← e'.1.2, Function.update_self] at hp
    exact hp
  · intro hp
    exact ⟨_, _, e, by rwa [Function.update_self], fun j hj => Function.update_of_ne hj _ _⟩

/-- What a call that computes something returned, if it changes the object `i` only. -/
theorem Computes.of_onObject {σ : Store I} {op : Op I} {i : I} {P : Bint → Prop} {h : Heap}
    {f : Prog (ℤ × Bint)} (c : Computes σ op i P h) (ho : exec σ op = onObject σ i f) :
    ∃ d h', f h = some ((0, d), h') ∧ P d := by
  obtain ⟨σ', h', e, hp, -⟩ := c
  rw [ho] at e
  obtain ⟨d, e₁, rfl⟩ := onObject_eq_some e
  rw [Function.update_self] at hp
  exact ⟨d, h', e₁, hp⟩

/-- A store of two objects. -/
def pair (a b : Bint) : Store Bool := fun i => if i then b else a

end Dlb.Bint
