import Mathlib.Data.Finset.Insert
import Mathlib.Data.List.Nodup

/-!
# Binary trees with a hole

Binary trees, and the contexts in which they occur as a subtree. A context is
the list of the frames met on the way from the subtree up to the root: each
frame is an ancestor, with the side the subtree is on and the subtree on its
other side. Plugging a tree into a context gives the whole tree back.

Most facts about trees come in two mirrored forms. `Tree.mk d t x s` builds a
node with `t` on the side `d` and `s` on the other one, so that a fact stated
with it covers both.

* `inorder_plug`: the in-order traversal of the whole tree is that of the
  subtree, between what comes before it and what comes after it;
* `exists_plug_of_mem`: every element of a tree is at the root of a subtree.
-/

namespace Dlb

/-- The two sides of a node. -/
inductive Dir
  | left
  | right
  deriving DecidableEq, Repr

/-- The opposite side. -/
def Dir.other : Dir → Dir
  | .left => .right
  | .right => .left

@[simp] theorem Dir.other_left : Dir.other .left = .right := rfl
@[simp] theorem Dir.other_right : Dir.other .right = .left := rfl
@[simp] theorem Dir.other_other (d : Dir) : d.other.other = d := by cases d <;> rfl

/-- A binary tree with the elements `α` at its nodes. -/
inductive Tree (α : Type*)
  | nil
  | node (l : Tree α) (x : α) (r : Tree α)

namespace Tree

variable {α : Type*}

/-- The node `x` with the subtree `t` on the side `d` and `s` on the other. -/
def mk (d : Dir) (t : Tree α) (x : α) (s : Tree α) : Tree α :=
  match d with
  | .left => node t x s
  | .right => node s x t

theorem mk_left (t : Tree α) (x : α) (s : Tree α) : mk .left t x s = node t x s := rfl
theorem mk_right (t : Tree α) (x : α) (s : Tree α) : mk .right t x s = node s x t := rfl

theorem mk_other (d : Dir) (t : Tree α) (x : α) (s : Tree α) : mk d.other t x s = mk d s x t := by
  cases d <;> rfl

/-- The element at the root. -/
def root? : Tree α → Option α
  | nil => none
  | node _ x _ => some x

@[simp] theorem root?_nil : (nil : Tree α).root? = none := rfl
@[simp] theorem root?_node (l : Tree α) (x : α) (r : Tree α) : (node l x r).root? = some x := rfl

@[simp] theorem root?_mk (d : Dir) (t : Tree α) (x : α) (s : Tree α) :
    (mk d t x s).root? = some x := by cases d <;> rfl

/-- The elements in order. -/
def inorder : Tree α → List α
  | nil => []
  | node l x r => l.inorder ++ x :: r.inorder

@[simp] theorem inorder_nil : (nil : Tree α).inorder = [] := rfl

@[simp] theorem inorder_node (l : Tree α) (x : α) (r : Tree α) :
    (node l x r).inorder = l.inorder ++ x :: r.inorder := rfl

/-- The number of elements on the longest path down from the root. -/
def height : Tree α → ℕ
  | nil => 0
  | node l _ r => max l.height r.height + 1

@[simp] theorem height_nil : (nil : Tree α).height = 0 := rfl

theorem height_node (l : Tree α) (x : α) (r : Tree α) :
    (node l x r).height = max l.height r.height + 1 := rfl

theorem height_mk (d : Dir) (t : Tree α) (x : α) (s : Tree α) :
    (mk d t x s).height = max t.height s.height + 1 := by
  cases d
  · rfl
  · rw [mk, height_node, Nat.max_comm]

theorem height_le_length (t : Tree α) : t.height ≤ t.inorder.length := by
  induction t with
  | nil => simp
  | node l x r ihl ihr =>
    simp only [height_node, inorder_node, List.length_append, List.length_cons]
    omega

/-- The subtree on the side `d`. -/
def child (d : Dir) : Tree α → Tree α
  | nil => nil
  | node l _ r => match d with
    | .left => l
    | .right => r

@[simp] theorem child_mk (d : Dir) (t : Tree α) (x : α) (s : Tree α) :
    (mk d t x s).child d = t := by cases d <;> rfl

@[simp] theorem child_other_mk (d : Dir) (t : Tree α) (x : α) (s : Tree α) :
    (mk d t x s).child d.other = s := by cases d <;> rfl

/-- The tree with the element at its root changed by `f`. -/
def mapRoot (f : α → α) : Tree α → Tree α
  | nil => nil
  | node l x r => node l (f x) r

@[simp] theorem mapRoot_nil (f : α → α) : (nil : Tree α).mapRoot f = nil := rfl

@[simp] theorem mapRoot_mk (f : α → α) (d : Dir) (t : Tree α) (x : α) (s : Tree α) :
    (mk d t x s).mapRoot f = mk d t (f x) s := by cases d <;> rfl

/-- The tree with all its elements changed by `f`. -/
def map {β : Type*} (f : α → β) : Tree α → Tree β
  | nil => nil
  | node l x r => node (l.map f) (f x) (r.map f)

@[simp] theorem map_mk {β : Type*} (f : α → β) (d : Dir) (t : Tree α) (x : α) (s : Tree α) :
    (mk d t x s).map f = mk d (t.map f) (f x) (s.map f) := by cases d <;> rfl

theorem map_map {β γ : Type*} (f : α → β) (g : β → γ) (t : Tree α) :
    (t.map f).map g = t.map fun x => g (f x) := by
  induction t with
  | nil => rfl
  | node l x r ihl ihr => simp [map, ihl, ihr]

theorem map_congr {β : Type*} {f g : α → β} {t : Tree α} (h : ∀ x ∈ t.inorder, f x = g x) :
    t.map f = t.map g := by
  induction t with
  | nil => rfl
  | node l x r ihl ihr =>
    simp only [inorder_node, List.mem_append, List.mem_cons] at h
    rw [map, map, ihl fun y hy => h y (.inl hy), h x (.inr (.inl rfl)),
      ihr fun y hy => h y (.inr (.inr hy))]

/-- Any tree but the empty one is a node, seen from either side. -/
theorem eq_mk_of_root? {t : Tree α} {x : α} (h : t.root? = some x) (d : Dir) :
    ∃ l r, t = mk d l x r := by
  cases t with
  | nil => simp at h
  | node l y r =>
    obtain rfl : y = x := by simpa using h
    cases d with
    | left => exact ⟨l, r, rfl⟩
    | right => exact ⟨r, l, rfl⟩

end Tree

/-- An ancestor of a hole: the side of the hole, the element of the ancestor and
    the subtree on its other side. -/
structure Frame (α : Type*) where
  dir : Dir
  val : α
  sib : Tree α

/-- A tree with a hole, as the frames from the hole up to the root. -/
abbrev Ctx (α : Type*) := List (Frame α)

variable {α : Type*}

/-- The whole tree, with `t` in the hole. -/
def plug : Ctx α → Tree α → Tree α
  | [], t => t
  | f :: c, t => plug c (.mk f.dir t f.val f.sib)

@[simp] theorem plug_nil (t : Tree α) : plug [] t = t := rfl

@[simp] theorem plug_cons (f : Frame α) (c : Ctx α) (t : Tree α) :
    plug (f :: c) t = plug c (.mk f.dir t f.val f.sib) := rfl

/-- The way down to a subtree, and on to its deepest element, is a path of the whole tree. -/
theorem length_add_height_le (c : Ctx α) (t : Tree α) :
    c.length + t.height ≤ (plug c t).height := by
  induction c generalizing t with
  | nil => simp
  | cons f c ih =>
    have h := ih (.mk f.dir t f.val f.sib)
    rw [Tree.height_mk] at h
    simp only [List.length_cons, plug_cons]
    omega

theorem plug_append (c e : Ctx α) (t : Tree α) : plug (c ++ e) t = plug e (plug c t) := by
  induction c generalizing t with
  | nil => rfl
  | cons f c ih => exact ih _

namespace Ctx

/-- The elements before the hole, in order. -/
def before : Ctx α → List α
  | [] => []
  | ⟨.left, _, _⟩ :: c => before c
  | ⟨.right, x, s⟩ :: c => before c ++ (s.inorder ++ [x])

/-- The elements after the hole, in order. -/
def after : Ctx α → List α
  | [] => []
  | ⟨.left, x, s⟩ :: c => x :: s.inorder ++ after c
  | ⟨.right, _, _⟩ :: c => after c

theorem before_append (c e : Ctx α) : before (c ++ e) = before e ++ before c := by
  induction c with
  | nil => simp [before]
  | cons f c ih =>
    obtain ⟨d, x, s⟩ := f
    cases d <;> simp [before, ih]

theorem after_append (c e : Ctx α) : after (c ++ e) = after c ++ after e := by
  induction c with
  | nil => simp [after]
  | cons f c ih =>
    obtain ⟨d, x, s⟩ := f
    cases d <;> simp [after, ih]

/-- The parent of the hole. -/
def parent? : Ctx α → Option α
  | [] => none
  | f :: _ => some f.val

@[simp] theorem parent?_nil : parent? ([] : Ctx α) = none := rfl
@[simp] theorem parent?_cons (f : Frame α) (c : Ctx α) : parent? (f :: c) = some f.val := rfl

end Ctx

theorem inorder_plug (c : Ctx α) (t : Tree α) :
    (plug c t).inorder = Ctx.before c ++ (t.inorder ++ Ctx.after c) := by
  induction c generalizing t with
  | nil => simp [Ctx.before, Ctx.after]
  | cons f c ih =>
    obtain ⟨d, x, s⟩ := f
    cases d <;> simp [ih, Ctx.before, Ctx.after, Tree.mk]

theorem map_plug_congr {β : Type*} {f : α → β} (c : Ctx α) {t t' : Tree α}
    (h : t'.map f = t.map f) : (plug c t').map f = (plug c t).map f := by
  induction c generalizing t t' with
  | nil => exact h
  | cons g c ih => exact ih (by simp [h])

/-- Every element of a tree is at the root of one of its subtrees. -/
theorem exists_plug_of_mem {t : Tree α} {x : α} (hx : x ∈ t.inorder) :
    ∃ c l r, t = plug c (.node l x r) := by
  induction t with
  | nil => simp at hx
  | node l y r ihl ihr =>
    rcases List.mem_append.1 hx with hl | hr
    · obtain ⟨c, l', r', rfl⟩ := ihl hl
      exact ⟨c ++ [⟨.left, y, r⟩], l', r', by rw [plug_append]; rfl⟩
    · rcases List.mem_cons.1 hr with rfl | hr
      · exact ⟨[], l, r, rfl⟩
      · obtain ⟨c, l', r', rfl⟩ := ihr hr
        exact ⟨c ++ [⟨.right, y, l⟩], l', r', by rw [plug_append]; rfl⟩

/-- The leftmost element of the tree `node l x r`: its context, the element, and
    its right subtree. -/
def leftmostOf : Tree α → α → Tree α → Ctx α × α × Tree α
  | .nil, x, r => ([], x, r)
  | .node l y r', x, r =>
    ((leftmostOf l y r').1 ++ [⟨.left, x, r⟩], (leftmostOf l y r').2)

theorem plug_leftmostOf (l : Tree α) (x : α) (r : Tree α) :
    plug (leftmostOf l x r).1 (.node .nil (leftmostOf l x r).2.1 (leftmostOf l x r).2.2) =
      .node l x r := by
  induction l generalizing x r with
  | nil => rfl
  | node l y r' ih =>
    rw [leftmostOf, plug_append, ih]
    rfl

/-- The way to the leftmost element only goes to the left. -/
theorem dir_leftmostOf (l : Tree α) (x : α) (r : Tree α) :
    ∀ f ∈ (leftmostOf l x r).1, f.dir = .left := by
  induction l generalizing x r with
  | nil => simp [leftmostOf]
  | node l y r' ih =>
    intro f hf
    rcases List.mem_append.1 hf with hf | hf
    · exact ih y r' f hf
    · rw [List.mem_singleton.1 hf]

theorem length_leftmostOf (l : Tree α) (x : α) (r : Tree α) :
    (leftmostOf l x r).1.length ≤ l.height := by
  induction l generalizing x r with
  | nil => simp [leftmostOf]
  | node l y r' ih =>
    have := ih y r'
    simp [leftmostOf, Tree.height_node]
    omega

/-- Nothing comes before the leftmost element. -/
theorem before_leftmostOf (l : Tree α) (x : α) (r : Tree α) :
    Ctx.before (leftmostOf l x r).1 = [] := by
  induction l generalizing x r with
  | nil => rfl
  | node l y r' ih => simp [leftmostOf, Ctx.before_append, ih, Ctx.before]

end Dlb
