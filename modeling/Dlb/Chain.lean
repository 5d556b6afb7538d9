import Mathlib.Data.List.Nodup
import Mathlib.Logic.Function.Basic

/-!
# Linked lists

A list of nodes that are linked one way by `next`, from a pointer on up to the null pointer `none`.

* `Chain.congr`: a chain only reads the links of its nodes;
* `Chain.push`, `Chain.snoc`, `Chain.unlink`: a node is put in front, put behind the last one, or
  taken out behind another one.
-/

namespace Dlb

variable {P : Type*}

/-- The nodes from the pointer `p` on are `l`. -/
def Chain (next : P → Option P) : Option P → List P → Prop
  | p, [] => p = none
  | p, x :: l => p = some x ∧ Chain next (next x) l

variable {next next' : P → Option P} {p v : Option P} {x y : P} {l l₁ l₂ : List P}

theorem chain_none : Chain next none l ↔ l = [] := by
  cases l <;> simp [Chain]

theorem chain_some : Chain next (some x) l ↔ ∃ l', l = x :: l' ∧ Chain next (next x) l' := by
  cases l with
  | nil => simp [Chain]
  | cons y l =>
    simp only [Chain, Option.some.injEq, List.cons.injEq]
    constructor
    · rintro ⟨rfl, h⟩
      exact ⟨l, ⟨rfl, rfl⟩, h⟩
    · rintro ⟨l', ⟨rfl, rfl⟩, h⟩
      exact ⟨rfl, h⟩

theorem Chain.congr (h : Chain next p l) (hn : ∀ x ∈ l, next' x = next x) : Chain next' p l := by
  induction l generalizing p with
  | nil => exact h
  | cons x l ih =>
    refine ⟨h.1, ?_⟩
    rw [hn x (by simp)]
    exact ih h.2 fun y hy => hn y (by simp [hy])

/-- The nodes are determined by the links. -/
theorem Chain.unique (h : Chain next p l₁) (h' : Chain next p l₂) : l₁ = l₂ := by
  induction l₁ generalizing p l₂ with
  | nil =>
    obtain rfl : p = none := h
    exact (chain_none.1 h').symm
  | cons x l₁ ih =>
    obtain ⟨rfl, h⟩ := h
    obtain ⟨l, rfl, hl⟩ := chain_some.1 h'
    rw [ih h hl]

variable [DecidableEq P]

theorem Chain.update_of_not_mem (h : Chain next p l) (hx : x ∉ l) :
    Chain (Function.update next x v) p l := by
  refine h.congr fun y hy => Function.update_of_ne ?_ _ _
  rintro rfl
  exact hx hy

theorem Chain.push (h : Chain next p l) (hx : x ∉ l) :
    Chain (Function.update next x p) (some x) (x :: l) := by
  refine ⟨rfl, ?_⟩
  rw [Function.update_self]
  exact h.update_of_not_mem hx

/-- The node `y` is put behind the last node `x`. -/
theorem Chain.snoc (h : Chain next p (l ++ [x])) (hd : (l ++ [x]).Nodup) (hy : y ∉ l ++ [x]) :
    Chain (Function.update (Function.update next y none) x (some y)) p (l ++ [x, y]) := by
  induction l generalizing p with
  | nil =>
    refine ⟨h.1, ?_⟩
    rw [Function.update_self]
    refine ⟨rfl, ?_⟩
    have hyx : y ≠ x := by simpa using hy
    rw [Function.update_of_ne hyx, Function.update_self]
    exact rfl
  | cons z l ih =>
    obtain ⟨hz, hd⟩ := List.nodup_cons.1 hd
    refine ⟨h.1, ?_⟩
    have hzx : z ≠ x := by
      rintro rfl
      exact hz (by simp)
    have hzy : z ≠ y := by
      rintro rfl
      exact hy (by simp)
    rw [Function.update_of_ne hzx, Function.update_of_ne hzy]
    exact ih h.2 hd fun hm => hy (List.mem_cons_of_mem _ hm)

/-- The node `y` is taken out, which is behind `x`. -/
theorem Chain.unlink (h : Chain next p (l₁ ++ x :: y :: l₂)) (hd : (l₁ ++ x :: y :: l₂).Nodup) :
    Chain (Function.update next x (next y)) p (l₁ ++ x :: l₂) := by
  induction l₁ generalizing p with
  | nil =>
    obtain ⟨rfl, -, h⟩ := h
    refine ⟨rfl, ?_⟩
    rw [Function.update_self]
    exact h.update_of_not_mem fun hx => (List.nodup_cons.1 hd).1 (List.mem_cons_of_mem _ hx)
  | cons z l₁ ih =>
    obtain ⟨hz, hd⟩ := List.nodup_cons.1 hd
    refine ⟨h.1, ?_⟩
    have hzx : z ≠ x := by
      rintro rfl
      exact hz (by simp)
    rw [Function.update_of_ne hzx]
    exact ih h.2 hd

end Dlb
