import Dlb.Rbt.Repair

/-!
# Removal, on trees

`rbt_remove` on trees. A node with two children first changes places with its
successor, the leftmost node of its right subtree (`swapTree`): the addresses
move, while the flags stay where they are. The node then has at most one child.
All its ancestors are marked, and it is unlinked (`unlinkTree`).
-/

namespace Dlb.Rbt

open Coloured

variable {P : Type}

/-- All the nodes on the way from the hole to the root are marked as modified. -/
def markCtx (c : Ctx (Cell P)) : Ctx (Cell P) := c.map fun f => { f with val := f.val.mark }

/-- The node `x` with the children `l` and `r`, brought to a place where it has
    at most one child: its context there, the node, and that child. -/
def swapTree (c : Ctx (Cell P)) : Tree (Cell P) → Cell P → Tree (Cell P) →
    Ctx (Cell P) × Cell P × Tree (Cell P)
  | .nil, x, r => (c, x, r)
  | l, x, .nil => (c, x, l)
  | l, x, .node rl y rr =>
    ((leftmostOf rl y rr).1 ++ ⟨.right, ⟨(leftmostOf rl y rr).2.1.addr, x.flags⟩, l⟩ :: c,
      ⟨x.addr, (leftmostOf rl y rr).2.1.flags⟩, (leftmostOf rl y rr).2.2)

/-- The node `x`, with the only child `s`, is unlinked. -/
def unlinkTree (c : Ctx (Cell P)) (x : Cell P) (s : Tree (Cell P)) : Tree (Cell P) :=
  match s with
  | .nil => if red x then plug c .nil else repairRemove c .nil
  | .node l y r => plug c (.node l (y.setRed false) r)

/-- `rbt_remove` of the node `x`. -/
def removeTree (c : Ctx (Cell P)) (l : Tree (Cell P)) (x : Cell P) (r : Tree (Cell P)) :
    Tree (Cell P) :=
  unlinkTree (markCtx (swapTree c l x r).1) (swapTree c l x r).2.1 (swapTree c l x r).2.2

/-! ## The order of the nodes -/

theorem order_plug_markCtx (c : Ctx (Cell P)) (t : Tree (Cell P)) :
    order (plug (markCtx c) t) = order (plug c t) := by
  induction c generalizing t with
  | nil => rfl
  | cons f c ih =>
    refine (ih _).trans (order_plug_congr c ?_)
    exact order_mk_congr rfl rfl rfl

theorem order_unlinkTree (c : Ctx (Cell P)) (x : Cell P) (s : Tree (Cell P)) :
    order (unlinkTree c x s) = order (plug c s) := by
  unfold unlinkTree
  split
  · split
    · rfl
    · exact order_repairRemove c .nil
  · exact order_plug_congr c (by simp)

/-- The successor takes the place of the node that is removed in the order. -/
theorem order_swapTree (c : Ctx (Cell P)) (l : Tree (Cell P)) (x : Cell P) (r : Tree (Cell P)) :
    order (plug (swapTree c l x r).1 (swapTree c l x r).2.2) =
      (Ctx.before c).map Cell.addr ++ (order l ++ (order r ++ (Ctx.after c).map Cell.addr)) := by
  fun_cases swapTree c l x r with
  | case1 x r => simp [order_plug]
  | case2 l x => simp [order_plug]
  | case3 l x rl y rr =>
    have h := congrArg order (plug_leftmostOf rl y rr)
    rw [order_plug, before_leftmostOf, order_node, order_node] at h
    rw [order_plug, Ctx.before_append, Ctx.after_append, before_leftmostOf, order_node, ← h]
    simp [Ctx.before, Ctx.after, order]

theorem order_removeTree (c : Ctx (Cell P)) (l : Tree (Cell P)) (x : Cell P)
    (r : Tree (Cell P)) : order (removeTree c l x r) =
      (Ctx.before c).map Cell.addr ++ (order l ++ (order r ++ (Ctx.after c).map Cell.addr)) := by
  rw [removeTree, order_unlinkTree, order_plug_markCtx, order_swapTree]

/-- The way to the successor is not longer than the right subtree. -/
theorem length_swapTree (c : Ctx (Cell P)) (l : Tree (Cell P)) (x : Cell P) (r : Tree (Cell P)) :
    (swapTree c l x r).1.length ≤ c.length + r.height := by
  fun_cases swapTree c l x r with
  | case1 | case2 => simp
  | case3 l x rl y rr =>
    have := length_leftmostOf rl y rr
    simp [Tree.height_node]
    omega

/-! ## Balance -/

/-- The balance of a context only depends on the flags in it. -/
theorem balanced_append_congr {p c c' : Ctx (Cell P)} {n : ℕ}
    (hb : Ctx.BlackParent c → Ctx.BlackParent c')
    (hc : ∀ k, Ctx.Balanced c k → Ctx.Balanced c' k) (h : Ctx.Balanced (p ++ c) n) :
    Ctx.Balanced (p ++ c') n := by
  induction p generalizing n with
  | nil => exact hc n h
  | cons f p ih =>
    cases hf : red f.val with
    | true =>
      obtain ⟨h₁, h₂, h₃, h₄⟩ := (Ctx.balanced_red hf).1 h
      refine (Ctx.balanced_red hf).2 ⟨h₁, h₂, ?_, ih h₄⟩
      cases p with
      | nil => exact hb h₃
      | cons g p => exact h₃
    | false =>
      obtain ⟨h₁, h₂⟩ := (Ctx.balanced_black hf).1 h
      exact (Ctx.balanced_black hf).2 ⟨h₁, ih h₂⟩

theorem blackParent_markCtx {c : Ctx (Cell P)} (h : Ctx.BlackParent c) :
    Ctx.BlackParent (markCtx c) := by
  cases c with
  | nil => exact h
  | cons f c => exact h

theorem balanced_markCtx {c : Ctx (Cell P)} {n : ℕ} (h : Ctx.Balanced c n) :
    Ctx.Balanced (markCtx c) n := by
  induction c generalizing n with
  | nil => trivial
  | cons f c ih =>
    cases hf : red f.val with
    | true =>
      obtain ⟨h₁, h₂, h₃, h₄⟩ := (Ctx.balanced_red hf).1 h
      exact (Ctx.balanced_red hf).2 ⟨h₁, h₂, blackParent_markCtx h₃, ih h₄⟩
    | false =>
      obtain ⟨h₁, h₂⟩ := (Ctx.balanced_black hf).1 h
      exact (Ctx.balanced_black hf).2 ⟨h₁, ih h₂⟩

/-- The tree is still red-black when the node has moved to the place where it
    has at most one child. -/
theorem swapTree_balanced {c : Ctx (Cell P)} {l r : Tree (Cell P)} {x : Cell P}
    (h : (plug c (.node l x r)).IsRedBlack) :
    ∃ d, (plug (swapTree c l x r).1
      (.mk d .nil (swapTree c l x r).2.1 (swapTree c l x r).2.2)).IsRedBlack := by
  fun_cases swapTree c l x r with
  | case1 x r => exact ⟨.left, h⟩
  | case2 l x => exact ⟨.right, h⟩
  | case3 l x rl y rr =>
    refine ⟨.left, ?_⟩
    rw [← plug_leftmostOf rl y rr] at h
    have h' : (plug ((leftmostOf rl y rr).1 ++ ⟨.right, x, l⟩ :: c)
        (.node .nil (leftmostOf rl y rr).2.1 (leftmostOf rl y rr).2.2)).IsRedBlack := by
      rwa [plug_append]
    obtain ⟨n, hc, ht, hr⟩ := isRedBlack_plug.1 h'
    have hc' : Ctx.Balanced ((leftmostOf rl y rr).1 ++
        ⟨.right, ⟨(leftmostOf rl y rr).2.1.addr, x.flags⟩, l⟩ :: c) n :=
      balanced_append_congr (c := ⟨.right, x, l⟩ :: c) id (fun _ h => h) hc
    refine isRedBlack_plug.2 ⟨n, hc', ht, fun h => ?_⟩
    have := hr h
    cases hp : (leftmostOf rl y rr).1 <;> rw [hp] at this <;> exact this

/-- Unlinking a node with at most one child gives a red-black tree. -/
theorem isRedBlack_unlinkTree {c : Ctx (Cell P)} {d : Dir} {x : Cell P} {s : Tree (Cell P)}
    (h : (plug c (.mk d .nil x s)).IsRedBlack) : (unlinkTree c x s).IsRedBlack := by
  obtain ⟨n, hc, ht, hr⟩ := isRedBlack_plug.1 h
  cases s with
  | nil =>
    cases hx : red x with
    | true =>
      obtain ⟨-, -, ht, -⟩ := (Tree.balanced_red hx).1 ht
      simpa [unlinkTree, hx] using isRedBlack_plug.2 ⟨n, hc, ht, by simp⟩
    | false =>
      obtain ⟨k, rfl, hk, -⟩ := (Tree.balanced_black hx).1 ht
      simpa [unlinkTree, hx] using isRedBlack_repairRemove hc hk rfl
  | node l y r =>
    -- The empty subtree on the other side has black height `0`: the child is red,
    -- and `x` is black.
    cases hx : red x with
    | true =>
      obtain ⟨-, hy, h₁, h₂⟩ := (Tree.balanced_red hx).1 ht
      obtain rfl : n = 0 := h₁
      rw [← Tree.mk_left, Tree.balanced_black hy] at h₂
      simp at h₂
    | false =>
      obtain ⟨k, rfl, h₁, h₂⟩ := (Tree.balanced_black hx).1 ht
      obtain rfl : k = 0 := h₁
      have hy : red y = true := by
        by_contra hy
        rw [← Tree.mk_left, Tree.balanced_black (by simpa using hy)] at h₂
        simp at h₂
      exact isRedBlack_plug.2 ⟨1, hc, balanced_mapRoot_black (t := .node l y r) hy h₂, by simp⟩

theorem isRedBlack_removeTree {c : Ctx (Cell P)} {l r : Tree (Cell P)} {x : Cell P}
    (h : (plug c (.node l x r)).IsRedBlack) : (removeTree c l x r).IsRedBlack := by
  obtain ⟨d, h⟩ := swapTree_balanced h
  obtain ⟨n, hc, ht, hr⟩ := isRedBlack_plug.1 h
  exact isRedBlack_unlinkTree
    (isRedBlack_plug.2 ⟨n, balanced_markCtx hc, ht, fun h => blackParent_markCtx (hr h)⟩)

end Dlb.Rbt
