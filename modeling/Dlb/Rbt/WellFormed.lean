import Mathlib.Order.Defs.LinearOrder
import Dlb.Rbt.Exec

/-!
# Well-formed trees, at the pointer level

What it means for the memory to hold a well-formed red-black tree, said of the
pointers alone: which nodes can be reached from the root (`Reach`), in which
order an in-order walk visits them (`Inorder`), and how many black nodes there
are on the way to a `NULL` child (`BlackPath`). `At.wellFormed` derives it from
a red-black tree that the memory holds.
-/

namespace Dlb.Rbt

open Coloured

variable {P : Type}

/-- The node at `a` is in the tree: it is reached from the root by child pointers. -/
inductive Reach (m : Mem P) : P → Prop
  | root {a : P} : m.root = some a → Reach m a
  | child {a b : P} (d : Dir) : Reach m a → (m.node a).child d = some b → Reach m b

/-- An in-order walk from the pointer visits the nodes of the list. -/
inductive Inorder (m : Mem P) : Option P → List P → Prop
  | null : Inorder m none []
  | node {a : P} {l r : List P} : Inorder m (m.node a).left l → Inorder m (m.node a).right r →
    Inorder m (some a) (l ++ a :: r)

/-- There is a way down from the pointer to `NULL` that passes `n` black nodes. -/
inductive BlackPath (m : Mem P) : Option P → ℕ → Prop
  | null : BlackPath m none 0
  | node {a : P} {n : ℕ} (d : Dir) : BlackPath m ((m.node a).child d) n →
    BlackPath m (some a) (if (m.node a).flags.red then n else n + 1)

/-- The memory holds a well-formed red-black tree, with the keys `key`. -/
structure WellFormed {K : Type*} [LT K] (m : Mem P) (key : P → K) : Prop where
  /-- The root has no parent. -/
  root_parent : ∀ a, m.root = some a → (m.node a).parent = none
  /-- The children of a node point back to it. -/
  child_parent : ∀ a d b, Reach m a → (m.node a).child d = some b → (m.node b).parent = some a
  /-- The keys increase in order. -/
  inorder : ∃ l, Inorder m m.root l ∧ (l.map key).Pairwise (· < ·)
  /-- The root is black. -/
  root_black : ∀ a, m.root = some a → (m.node a).flags.red = false
  /-- A red node has no red child. -/
  red_child : ∀ a d b, Reach m a → (m.node a).flags.red = true →
    (m.node a).child d = some b → (m.node b).flags.red = false
  /-- All ways down to `NULL` pass the same number of black nodes. -/
  black_height : ∃ n, ∀ k, BlackPath m m.root k → k = n

/-- The tree of `m'` is that of `m`, with the nodes renamed by `g`: the nodes are
    linked and coloured in the same way. -/
structure Renamed (g : P → P) (m m' : Mem P) : Prop where
  root : m'.root = m.root.map g
  left : ∀ a, Reach m a → (m'.node (g a)).left = (m.node a).left.map g
  right : ∀ a, Reach m a → (m'.node (g a)).right = (m.node a).right.map g
  parent : ∀ a, Reach m a → (m'.node (g a)).parent = (m.node a).parent.map g
  red : ∀ a, Reach m a → (m'.node (g a)).flags.red = (m.node a).flags.red

variable {m : Mem P} {t : Tree (Cell P)} {p : Option P}

/-! ## The nodes of the tree -/

/-- The subtree at a node of the tree, and its context. -/
theorem At.exists_node {a : P} (h : At m [] t) (ha : a ∈ order t) :
    ∃ c l x r, t = plug c (.node l x r) ∧ x.addr = a ∧ At m c (.node l x r) := by
  obtain ⟨x, hx, rfl⟩ := List.mem_map.1 ha
  obtain ⟨c, l, r, rfl⟩ := exists_plug_of_mem hx
  exact ⟨c, l, x, r, rfl, rfl, at_plug.2 h⟩

theorem TreeAt.child_mem {a b : P} {d : Dir} (h : TreeAt m p t) (ha : a ∈ order t)
    (hb : (m.node a).child d = some b) : b ∈ order t := by
  induction t generalizing p with
  | nil => simp at ha
  | node l x r ihl ihr =>
    have mem_ptr : ∀ {t : Tree (Cell P)}, ptr t = some b → b ∈ order t :=
      fun h => Multiset.mem_coe.1 (mem_addrs_of_ptr h)
    obtain ⟨hx, hl, hr⟩ := h
    rw [order_node, List.mem_append, List.mem_cons] at ha ⊢
    rcases ha with ha | rfl | ha
    · exact .inl (ihl hl ha)
    · rw [hx] at hb
      cases d with
      | left => exact .inl (mem_ptr hb)
      | right => exact .inr (.inr (mem_ptr hb))
    · exact .inr (.inr (ihr hr ha))

/-- The nodes in the tree are those of the tree in memory. -/
theorem At.reach_iff (h : At m [] t) {a : P} : Reach m a ↔ a ∈ order t := by
  constructor
  · intro ha
    induction ha with
    | root ha => exact Multiset.mem_coe.1 (mem_addrs_of_ptr ((show m.root = ptr t from h.ctx) ▸ ha))
    | child d _ hb ih => exact h.tree.child_mem ih hb
  · intro ha
    obtain ⟨c, l, x, r, rfl, rfl, h'⟩ := h.exists_node ha
    clear ha h
    induction c generalizing l x r with
    | nil => exact .root h'.ctx
    | cons f c ih =>
      obtain ⟨d, y, s⟩ := f
      have hy : Reach m y.addr := by
        cases d with
        | left => exact ih _ y _ (at_cons.1 h')
        | right => exact ih _ y _ (at_cons.1 h')
      exact .child d hy (by simp [h'.parent_eq])

theorem TreeAt.inorder (h : TreeAt m p t) : Inorder m (ptr t) (order t) := by
  induction t generalizing p with
  | nil => exact .null
  | node l x r ihl ihr =>
    obtain ⟨hx, hl, hr⟩ := h
    rw [ptr_node, order_node]
    exact .node (by rw [hx]; exact ihl hl) (by rw [hx]; exact ihr hr)

/-- In a balanced tree, the black height is the number of black nodes on the way
    to any empty subtree. -/
theorem TreeAt.blackPath {n k : ℕ} (h : TreeAt m p t) (hb : t.Balanced n)
    (hk : BlackPath m (ptr t) k) : k = n := by
  induction t generalizing p n k with
  | nil =>
    cases hk with
    | null => exact hb.symm
  | node l x r ihl ihr =>
    obtain ⟨hx, hl, hr⟩ := h
    -- The subtree that the way goes to, and its black height.
    have hd : ∀ {d j i}, l.Balanced i → r.Balanced i → BlackPath m ((m.node x.addr).child d) j →
        j = i := by
      intro d j i hi hi' hj
      rw [hx] at hj
      cases d with
      | left => exact ihl hl hi hj
      | right => exact ihr hr hi' hj
    rw [ptr_node] at hk
    cases hk with
    | node d hk =>
      rw [← Tree.mk_left] at hb
      cases hc : red x with
      | true =>
        obtain ⟨-, -, h₁, h₂⟩ := (Tree.balanced_red hc).1 hb
        rw [hx, if_pos (show x.flags.red = true from hc)]
        exact hd h₁ h₂ hk
      | false =>
        obtain ⟨i, rfl, h₁, h₂⟩ := (Tree.balanced_black hc).1 hb
        rw [hx, if_neg (show ¬x.flags.red = true by rw [← red_def, hc]; simp), hd h₁ h₂ hk]

/-- The memory is well-formed if it holds a red-black tree with increasing keys. -/
theorem At.wellFormed {K : Type*} [LT K] {key : P → K} (h : At m [] t) (hrb : t.IsRedBlack)
    (hk : ((order t).map key).Pairwise (· < ·)) : WellFormed m key := by
  have hroot : m.root = ptr t := h.ctx
  obtain ⟨hblack, n, hn⟩ := hrb
  -- At a child, the tree is seen from its parent.
  have hchild : ∀ a d b, Reach m a → (m.node a).child d = some b → ∃ c x l r,
      x.addr = a ∧ ptr l = some b ∧ At m (⟨d, x, r⟩ :: c) l ∧ t = plug c (.mk d l x r) := by
    intro a d b ha hb
    obtain ⟨c, l, x, r, rfl, rfl, h'⟩ := h.exists_node (h.reach_iff.1 ha)
    rw [h'.tree.1] at hb
    cases d with
    | left => exact ⟨c, x, l, r, rfl, hb, at_cons.2 h', rfl⟩
    | right => exact ⟨c, x, r, l, rfl, hb, at_cons.2 h', rfl⟩
  refine ⟨fun a ha => ?_, fun a d b ha hb => ?_, ⟨order t, ?_, hk⟩, fun a ha => ?_,
    fun a d b ha hr hb => ?_, n, fun k hk => ?_⟩
  · exact h.node_parent (hroot ▸ ha)
  · obtain ⟨c, x, l, r, rfl, hl, h', -⟩ := hchild a d b ha hb
    exact h'.node_parent hl
  · rw [hroot]
    exact h.tree.inorder
  · rw [hroot] at ha
    cases t with
    | nil => simp at ha
    | node l x r =>
      obtain rfl : x.addr = a := by simpa using ha
      rw [h.tree.1]
      exact hblack
  · obtain ⟨c, x, l, r, rfl, hl, h', e⟩ := hchild a d b ha hb
    have hx : red x = true := by
      rw [h'.parent_eq, Node.mkDir_flags] at hr
      exact hr
    have hrb : (plug c (.mk d l x r)).IsRedBlack := e ▸ ⟨hblack, n, hn⟩
    obtain ⟨i, -, hi, -⟩ := isRedBlack_plug.1 hrb
    have hl' := ((Tree.balanced_red hx).1 hi).1
    cases l with
    | nil => simp at hl
    | node l y r =>
      obtain rfl : y.addr = b := by simpa using hl
      rw [h'.tree.1]
      exact hl'
  · exact h.tree.blackPath hn (hroot ▸ hk)

/-! ## Renaming -/

/-- What a node is apart from its mark. -/
def Cell.link (x : Cell P) : P × Bool := (x.addr, red x)

/-- The same, with the address renamed. -/
def Cell.rename (g : P → P) (x : Cell P) : P × Bool := (g x.addr, red x)

theorem ptr_eq_of_map {g : P → P} {t t' : Tree (Cell P)} (h : t'.map Cell.link = t.map (Cell.rename g)) :
    ptr t' = (ptr t).map g := by
  cases t <;> cases t' <;> simp_all [Tree.map, Cell.link, Cell.rename]

theorem TreeAt.renamed {g : P → P} {m' : Mem P} {t t' : Tree (Cell P)} {a : P} (h : TreeAt m p t)
    (h' : TreeAt m' (p.map g) t') (ht : t'.map Cell.link = t.map (Cell.rename g))
    (ha : a ∈ order t) :
    (m'.node (g a)).left = (m.node a).left.map g ∧
      (m'.node (g a)).right = (m.node a).right.map g ∧
      (m'.node (g a)).parent = (m.node a).parent.map g ∧
      (m'.node (g a)).flags.red = (m.node a).flags.red := by
  induction t generalizing t' p with
  | nil => simp at ha
  | node l x r ihl ihr =>
    cases t' with
    | nil => simp [Tree.map] at ht
    | node l' x' r' =>
      simp only [Tree.map, Tree.node.injEq, Cell.link, Cell.rename, Prod.mk.injEq] at ht
      obtain ⟨htl, ⟨hx, hc⟩, htr⟩ := ht
      obtain ⟨h₁, hl, hr⟩ := h
      obtain ⟨h₁', hl', hr'⟩ := h'
      rw [order_node, List.mem_append, List.mem_cons] at ha
      rcases ha with ha | rfl | ha
      · exact ihl hl (by rw [Option.map_some, ← hx]; exact hl') htl ha
      · rw [← hx, h₁, h₁']
        exact ⟨ptr_eq_of_map htl, ptr_eq_of_map htr, rfl, hc⟩
      · exact ihr hr (by rw [Option.map_some, ← hx]; exact hr') htr ha

theorem At.renamed {g : P → P} {m' : Mem P} {t' : Tree (Cell P)} (h : At m [] t) (h' : At m' [] t')
    (ht : t'.map Cell.link = t.map (Cell.rename g)) : Renamed g m m' := by
  have key := fun a (ha : Reach m a) => h.tree.renamed h'.tree ht (h.reach_iff.1 ha)
  refine ⟨?_, fun a ha => (key a ha).1, fun a ha => (key a ha).2.1, fun a ha => (key a ha).2.2.1,
    fun a ha => (key a ha).2.2.2⟩
  rw [show m'.root = ptr t' from h'.ctx, show m.root = ptr t from h.ctx]
  exact ptr_eq_of_map ht

end Dlb.Rbt
