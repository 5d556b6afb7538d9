import Dlb.Tree.Zipper

/-!
# Red-black trees

The invariants of red-black trees, for trees whose elements have a colour
(`Coloured`), and for contexts: a context is balanced at the black height `n`
if plugging in a balanced tree of that height gives a balanced tree, provided
that no two red nodes meet at the hole. `isRedBlack_plug` says that a whole
tree is red-black exactly when it is so on both sides of any hole.
-/

namespace Dlb

/-- Elements with a colour, red or black. -/
class Coloured (α : Type*) where
  red : α → Bool

open Coloured

variable {α : Type*} [Coloured α]

namespace Tree

/-- The root is red; the empty tree is black. -/
def isRed : Tree α → Bool
  | nil => false
  | node _ x _ => red x

@[simp] theorem isRed_nil : (nil : Tree α).isRed = false := rfl

@[simp] theorem isRed_node (l : Tree α) (x : α) (r : Tree α) : (node l x r).isRed = red x := rfl

@[simp] theorem isRed_mk (d : Dir) (t : Tree α) (x : α) (s : Tree α) :
    (mk d t x s).isRed = red x := by cases d <;> rfl

/-- A red tree is a node. -/
theorem eq_mk_of_isRed {t : Tree α} (h : t.isRed = true) (d : Dir) :
    ∃ l x r, t = mk d l x r ∧ red x = true := by
  cases t with
  | nil => simp at h
  | node l x r =>
    obtain ⟨l', r', e⟩ := eq_mk_of_root? (root?_node l x r) d
    exact ⟨l', x, r', e, h⟩

/-- Every path to an empty subtree passes `n` black nodes, and no red node has a
    red child. -/
def Balanced : Tree α → ℕ → Prop
  | nil, n => n = 0
  | node l x r, n =>
    if red x then l.isRed = false ∧ r.isRed = false ∧ l.Balanced n ∧ r.Balanced n
    else ∃ k, n = k + 1 ∧ l.Balanced k ∧ r.Balanced k

@[simp] theorem balanced_nil {n : ℕ} : (nil : Tree α).Balanced n ↔ n = 0 := Iff.rfl

theorem balanced_red {d : Dir} {t s : Tree α} {x : α} {n : ℕ} (hx : red x = true) :
    (mk d t x s).Balanced n ↔
      t.isRed = false ∧ s.isRed = false ∧ t.Balanced n ∧ s.Balanced n := by
  cases d <;> simp only [mk, Balanced, hx, if_true]
  constructor <;> rintro ⟨h₁, h₂, h₃, h₄⟩ <;> exact ⟨h₂, h₁, h₄, h₃⟩

theorem balanced_black {d : Dir} {t s : Tree α} {x : α} {n : ℕ} (hx : red x = false) :
    (mk d t x s).Balanced n ↔ ∃ k, n = k + 1 ∧ t.Balanced k ∧ s.Balanced k := by
  cases d <;> simp [mk, Balanced, hx, and_comm]

/-- A balanced tree which is not just a leaf has a node at its root. -/
theorem Balanced.exists_mk {t : Tree α} {n : ℕ} (h : t.Balanced (n + 1)) (d : Dir) :
    ∃ l x r, t = mk d l x r := by
  cases t with
  | nil => simp at h
  | node l x r =>
    obtain ⟨l', r', e⟩ := eq_mk_of_root? (root?_node l x r) d
    exact ⟨l', x, r', e⟩

/-- A red-black tree: balanced, with a black root. -/
def IsRedBlack (t : Tree α) : Prop := t.isRed = false ∧ ∃ n, t.Balanced n

end Tree

namespace Ctx

/-- The hole has a parent, which is black: a red tree may be plugged in. -/
def BlackParent : Ctx α → Prop
  | [] => False
  | f :: _ => red f.val = false

@[simp] theorem blackParent_nil : ¬BlackParent ([] : Ctx α) := id

@[simp] theorem blackParent_cons {f : Frame α} {c : Ctx α} :
    BlackParent (f :: c) ↔ red f.val = false := Iff.rfl

/-- The whole tree is balanced, with a black root, once a tree of black height
    `n` is plugged in; the hole is the only place where two red nodes may meet,
    or where the root may be red. -/
def Balanced : Ctx α → ℕ → Prop
  | [], _ => True
  | f :: c, n => f.sib.Balanced n ∧
    if red f.val then f.sib.isRed = false ∧ BlackParent c ∧ Balanced c n
    else Balanced c (n + 1)

@[simp] theorem balanced_nil {n : ℕ} : Balanced ([] : Ctx α) n := trivial

theorem balanced_red {f : Frame α} {c : Ctx α} {n : ℕ} (hf : red f.val = true) :
    Balanced (f :: c) n ↔
      f.sib.Balanced n ∧ f.sib.isRed = false ∧ BlackParent c ∧ Balanced c n := by
  simp [Balanced, hf]

theorem balanced_black {f : Frame α} {c : Ctx α} {n : ℕ} (hf : red f.val = false) :
    Balanced (f :: c) n ↔ f.sib.Balanced n ∧ Balanced c (n + 1) := by
  simp [Balanced, hf]

end Ctx

/-- A tree is red-black exactly when, around any hole, the subtree and the
    context are balanced at the same height and no two red nodes meet. -/
theorem isRedBlack_plug {c : Ctx α} {t : Tree α} :
    (plug c t).IsRedBlack ↔
      ∃ n, Ctx.Balanced c n ∧ t.Balanced n ∧ (t.isRed = true → Ctx.BlackParent c) := by
  induction c generalizing t with
  | nil =>
    rw [plug_nil, Tree.IsRedBlack]
    cases t.isRed <;> simp
  | cons f c ih =>
    rw [plug_cons, ih]
    cases hf : red f.val with
    | true =>
      simp only [Ctx.balanced_red hf, Tree.balanced_red hf, Tree.isRed_mk, hf, forall_const,
        Ctx.blackParent_cons, Bool.true_eq_false, imp_false, Bool.not_eq_true]
      exact ⟨fun ⟨n, hc, ⟨h₁, h₂, h₃, h₄⟩, hb⟩ => ⟨n, ⟨h₄, h₂, hb, hc⟩, h₃, h₁⟩,
        fun ⟨n, ⟨h₄, h₂, hb, hc⟩, h₃, h₁⟩ => ⟨n, hc, ⟨h₁, h₂, h₃, h₄⟩, hb⟩⟩
    | false =>
      simp only [Ctx.balanced_black hf, Tree.balanced_black hf, Tree.isRed_mk, hf,
        Bool.false_eq_true, false_imp_iff, Ctx.blackParent_cons, implies_true, and_true]
      constructor
      · rintro ⟨_, hc, n, rfl, h₁, h₂⟩
        exact ⟨n, ⟨h₂, hc⟩, h₁⟩
      · rintro ⟨n, ⟨h₂, hc⟩, h₁⟩
        exact ⟨n + 1, hc, n, rfl, h₁, h₂⟩

end Dlb
