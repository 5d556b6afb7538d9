import Mathlib.Algebra.Order.Ring.Nat
import Mathlib.Data.Nat.Cast.Basic
import Mathlib.Data.Nat.Bitwise
import Mathlib.Tactic.Ring

/-!
# Positional notation

Numbers as lists of digits in a base `β`, the least significant digit first, and
the loops over such lists that pass a carry along. A step of such a loop keeps a
balance between what it reads, what it writes and the carry, and so does the
whole loop: `eval_scan` for a loop that starts from the least significant digit,
`eval_scanDown` for one that starts from the most significant digit.
-/

namespace Dlb

variable {α γ σ R : Type*}

/-! ## The value of a list of digits -/

section

variable [CommSemiring R]

/-- The value of a list of digits in the base `β`, where the digit `a` counts as `g a`. -/
def eval (β : R) (g : α → R) : List α → R
  | [] => 0
  | a :: l => g a + β * eval β g l

variable (β : R) (g : α → R)

@[simp] theorem eval_nil : eval β g [] = 0 := rfl

@[simp] theorem eval_cons (a : α) (l : List α) : eval β g (a :: l) = g a + β * eval β g l := rfl

theorem eval_append (l l' : List α) :
    eval β g (l ++ l') = eval β g l + β ^ l.length * eval β g l' := by
  induction l with
  | nil => simp
  | cons a l ih =>
    simp only [List.cons_append, eval_cons, ih, List.length_cons, pow_succ]
    ring

theorem eval_map (f : γ → α) (l : List γ) : eval β g (l.map f) = eval β (fun a => g (f a)) l := by
  induction l with
  | nil => rfl
  | cons a l ih => simp [ih]

theorem eval_mul (m : R) (l : List α) : eval β (fun a => m * g a) l = m * eval β g l := by
  induction l with
  | nil => simp
  | cons a l ih =>
    rw [eval_cons, eval_cons, ih]
    ring

variable {β g}

theorem eval_eq_zero {l : List α} (h : ∀ a ∈ l, g a = 0) : eval β g l = 0 := by
  induction l with
  | nil => rfl
  | cons a l ih => simp [h a (by simp), ih fun b hb => h b (by simp [hb])]

/-- The value of the digit-wise sum of two lists of the same length. -/
theorem eval_zip {k : γ → R} {l : List α} {l' : List γ} (h : l.length = l'.length) :
    eval β (fun p => g p.1 + k p.2) (l.zip l') = eval β g l + eval β k l' := by
  induction l generalizing l' with
  | nil => cases l' <;> simp_all
  | cons a l ih =>
    cases l' with
    | nil => simp at h
    | cons b l' =>
      simp only [List.zip_cons_cons, eval_cons, ih (by simpa using h)]
      ring

end

section

variable {β : ℕ} {g : α → ℕ}

theorem eval_lt {l : List α} (h : ∀ a ∈ l, g a < β) : eval β g l < β ^ l.length := by
  induction l with
  | nil => simp
  | cons a l ih =>
    calc g a + β * eval β g l
        < β + β * eval β g l := by gcongr; exact h a (by simp)
      _ = β * (eval β g l + 1) := by ring
      _ ≤ β * β ^ l.length := by gcongr; exact ih fun b hb => h b (by simp [hb])
      _ = β ^ (l.length + 1) := by ring

theorem eval_eq_zero_iff (hβ : β ≠ 0) {l : List α} : eval β g l = 0 ↔ ∀ a ∈ l, g a = 0 := by
  induction l with
  | nil => simp
  | cons a l ih => simp [hβ, ih]

theorem eval_take {l : List α} (h : ∀ a ∈ l, g a < β) (hβ : 0 < β) (k : ℕ) :
    eval β g (l.take k) = eval β g l % β ^ k := by
  have ht : eval β g (l.take k) < β ^ k := by
    rcases le_total k l.length with hk | hk
    · simpa [hk] using eval_lt fun a ha => h a (List.mem_of_mem_take (i := k) ha)
    · rw [List.take_of_length_le hk]
      exact (eval_lt h).trans_le (Nat.pow_le_pow_right hβ hk)
  rcases le_total k l.length with hk | hk
  · conv_rhs => rw [← List.take_append_drop k l, eval_append, List.length_take_of_le hk,
      Nat.add_mul_mod_self_left, Nat.mod_eq_of_lt ht]
  · rw [List.take_of_length_le hk] at ht ⊢
    rw [Nat.mod_eq_of_lt ht]

theorem eval_drop {l : List α} (h : ∀ a ∈ l, g a < β) (hβ : 0 < β) (k : ℕ) :
    eval β g (l.drop k) = eval β g l / β ^ k := by
  rcases le_total k l.length with hk | hk
  · have ht := eval_lt fun a ha => h a (List.mem_of_mem_take (i := k) ha)
    rw [List.length_take_of_le hk] at ht
    conv_rhs => rw [← List.take_append_drop k l, eval_append, List.length_take_of_le hk,
      Nat.add_mul_div_left _ _ (pow_pos hβ k), Nat.div_eq_of_lt ht, zero_add]
  · rw [List.drop_of_length_le hk, Nat.div_eq_of_lt, eval_nil]
    exact (eval_lt h).trans_le (Nat.pow_le_pow_right hβ hk)

/-- A number of a given length has one list of digits. -/
theorem eval_inj (h : ∀ a, g a < β) (hg : Function.Injective g) {l l' : List α}
    (hl : l.length = l'.length) (he : eval β g l = eval β g l') : l = l' := by
  induction l generalizing l' with
  | nil => exact (List.length_eq_zero_iff.1 hl.symm).symm
  | cons a l ih =>
    cases l' with
    | nil => simp at hl
    | cons a' l' =>
      have hmod := congrArg (· % β) he
      have hdiv := congrArg (· / β) he
      have hβ : 0 < β := (Nat.zero_le _).trans_lt (h a)
      simp only [eval_cons, Nat.add_mul_mod_self_left, Nat.mod_eq_of_lt (h _)] at hmod
      simp only [eval_cons, Nat.add_mul_div_left _ _ hβ, Nat.div_eq_of_lt (h _), zero_add] at hdiv
      rw [hg hmod, ih (by simpa using hl) hdiv]

/-- The bits of a number are those of its digits. -/
theorem testBit_eval {k : ℕ} (hk : 0 < k) {l : List α} (h : ∀ a ∈ l, g a < 2 ^ k) (i : ℕ) :
    (eval (2 ^ k) g l).testBit i = ((l[i / k]?).map g |>.getD 0).testBit (i % k) := by
  induction l generalizing i with
  | nil => simp
  | cons a l ih =>
    rw [eval_cons, add_comm, Nat.testBit_two_pow_mul_add _ (h a (by simp))]
    rcases lt_or_ge i k with hi | hi
    · simp [hi, Nat.div_eq_of_lt hi, Nat.mod_eq_of_lt hi]
    · rw [if_neg hi.not_gt, ih fun b hb => h b (by simp [hb])]
      obtain ⟨j, rfl⟩ := Nat.exists_eq_add_of_le hi
      simp [Nat.add_div_left _ hk]

end

/-! ## Loops with a carry -/

/-- A loop over a list that passes a state along and replaces every element. -/
def scan (f : σ → α → γ × σ) : σ → List α → List γ × σ
  | s, [] => ([], s)
  | s, a :: l => ((f s a).1 :: (scan f (f s a).2 l).1, (scan f (f s a).2 l).2)

section

variable {f : σ → α → γ × σ}

@[simp] theorem scan_nil (s : σ) : scan f s [] = ([], s) := rfl

@[simp] theorem scan_cons (s : σ) (a : α) (l : List α) : scan f s (a :: l) =
    ((f s a).1 :: (scan f (f s a).2 l).1, (scan f (f s a).2 l).2) := rfl

@[simp] theorem length_scan (s : σ) (l : List α) : (scan f s l).1.length = l.length := by
  induction l generalizing s with
  | nil => rfl
  | cons a l ih => simp [ih]

theorem scan_append (s : σ) (l l' : List α) : scan f s (l ++ l') =
    ((scan f s l).1 ++ (scan f (scan f s l).2 l').1, (scan f (scan f s l).2 l').2) := by
  induction l generalizing s with
  | nil => rfl
  | cons a l ih => simp [ih]

/-- The invariant of a loop from the least significant digit. -/
theorem eval_scan [CommSemiring R] {β : R} {u : α → R} {v : γ → R} {w : σ → R}
    {p : σ → Prop}
    (hf : ∀ s a, p s → v (f s a).1 + β * w (f s a).2 = u a + w s ∧ p (f s a).2)
    {s : σ} (hs : p s) (l : List α) :
    eval β v (scan f s l).1 + β ^ l.length * w (scan f s l).2 = eval β u l + w s ∧
      p (scan f s l).2 := by
  induction l generalizing s with
  | nil => simpa using hs
  | cons a l ih =>
    obtain ⟨h₁, h₂⟩ := hf s a hs
    obtain ⟨h₃, h₄⟩ := ih h₂
    refine ⟨?_, h₄⟩
    calc v (f s a).1 + β * eval β v (scan f (f s a).2 l).1 +
          β ^ (l.length + 1) * w (scan f (f s a).2 l).2
        = v (f s a).1 + β * (eval β v (scan f (f s a).2 l).1 +
            β ^ l.length * w (scan f (f s a).2 l).2) := by ring
      _ = v (f s a).1 + β * w (f s a).2 + β * eval β u l := by rw [h₃]; ring
      _ = u a + β * eval β u l + w s := by rw [h₁]; ring

/-- The invariant of a loop from the least significant digit that subtracts `sub`,
    where the state is a borrow. -/
theorem eval_scan_borrow [CommSemiring R] {β : R} {u sub : α → R} {v : γ → R} {w : σ → R}
    (hf : ∀ s a, v (f s a).1 + sub a + w s = u a + β * w (f s a).2) (s : σ) (l : List α) :
    eval β v (scan f s l).1 + eval β sub l + w s =
      eval β u l + β ^ l.length * w (scan f s l).2 := by
  induction l generalizing s with
  | nil => simp
  | cons a l ih =>
    simp only [scan_cons, eval_cons, List.length_cons]
    calc v (f s a).1 + β * eval β v (scan f (f s a).2 l).1 + (sub a + β * eval β sub l) + w s
        = (v (f s a).1 + sub a + w s) +
            β * (eval β v (scan f (f s a).2 l).1 + eval β sub l) := by ring
      _ = u a + β * (eval β v (scan f (f s a).2 l).1 + eval β sub l + w (f s a).2) := by
          rw [hf]; ring
      _ = u a + β * eval β u l + β ^ (l.length + 1) * w (scan f (f s a).2 l).2 := by
          rw [ih]; ring

/-- A loop from the other end of the list. -/
def scanDown (f : σ → α → γ × σ) (s : σ) (l : List α) : List γ × σ :=
  ((scan f s l.reverse).1.reverse, (scan f s l.reverse).2)

@[simp] theorem scanDown_nil (s : σ) : scanDown f s [] = ([], s) := rfl

@[simp] theorem length_scanDown (s : σ) (l : List α) : (scanDown f s l).1.length = l.length := by
  simp [scanDown]

theorem scanDown_append (s : σ) (l l' : List α) : scanDown f s (l ++ l') =
    ((scanDown f (scanDown f s l').2 l).1 ++ (scanDown f s l').1,
      (scanDown f (scanDown f s l').2 l).2) := by
  simp [scanDown, scan_append]

theorem scanDown_cons (s : σ) (a : α) (l : List α) : scanDown f s (a :: l) =
    ((f (scanDown f s l).2 a).1 :: (scanDown f s l).1, (f (scanDown f s l).2 a).2) := by
  rw [← List.singleton_append, scanDown_append]
  simp [scanDown]

/-- The invariant of a loop from the most significant digit, which divides by `m`. -/
theorem eval_scanDown [CommSemiring R] {β m : R} {u : α → R} {v : γ → R} {w : σ → R}
    {p : σ → Prop}
    (hf : ∀ s a, p s → m * v (f s a).1 + w (f s a).2 = u a + β * w s ∧ p (f s a).2)
    {s : σ} (hs : p s) (l : List α) :
    m * eval β v (scanDown f s l).1 + w (scanDown f s l).2 =
        eval β u l + β ^ l.length * w s ∧ p (scanDown f s l).2 := by
  induction l with
  | nil => simpa using hs
  | cons a l ih =>
    obtain ⟨h₁, h₂⟩ := ih
    obtain ⟨h₃, h₄⟩ := hf _ a h₂
    rw [scanDown_cons]
    refine ⟨?_, h₄⟩
    simp only [eval_cons, List.length_cons]
    calc m * (v (f (scanDown f s l).2 a).1 + β * eval β v (scanDown f s l).1) +
          w (f (scanDown f s l).2 a).2
        = (m * v (f (scanDown f s l).2 a).1 + w (f (scanDown f s l).2 a).2) +
            β * (m * eval β v (scanDown f s l).1) := by ring
      _ = u a + β * (m * eval β v (scanDown f s l).1 + w (scanDown f s l).2) := by
          rw [h₃]; ring
      _ = u a + β * eval β u l + β ^ (l.length + 1) * w s := by rw [h₁]; ring

end

end Dlb
