import Mathlib.Algebra.Order.Group.Multiset
import Dlb.Rbt.Code
import Dlb.Tree.RedBlack

/-!
# Trees in memory

When the memory holds a tree: a `Tree` whose elements are the addresses of the
nodes, with their flags (`Cell`). `TreeAt m p t` says that the nodes of `t` are
linked in `m` as they are in `t`, below the parent `p`; `CtxAt m h c` says the
same of a context, with `h` in its hole and the root pointer at its top. Both
are put together, with the distinctness of the nodes, in `At m c t`: the memory
holds the tree `plug c t`, which is seen from the subtree `t`.

Every function of the code is then described by what it does to `c` and `t`.
-/

namespace Dlb.Rbt

/-- A node of a tree in memory: its address and its flags. -/
structure Cell (P : Type) where
  addr : P
  flags : Flags

instance (P : Type) : Coloured (Cell P) := ⟨fun x => x.flags.red⟩

variable {P : Type}

theorem red_def (x : Cell P) : Coloured.red x = x.flags.red := rfl

/-- The cell `x` with its flags changed by `f`. -/
def Cell.mapFlags (x : Cell P) (f : Flags → Flags) : Cell P := { x with flags := f x.flags }

@[simp] theorem Cell.mapFlags_addr (x : Cell P) (f : Flags → Flags) :
    (x.mapFlags f).addr = x.addr := rfl

@[simp] theorem Cell.mapFlags_flags (x : Cell P) (f : Flags → Flags) :
    (x.mapFlags f).flags = f x.flags := rfl

/-- The cell `x` painted red or black. -/
def Cell.setRed (x : Cell P) (b : Bool) : Cell P := x.mapFlags (·.setRed b)

/-- The cell `x` marked as modified. -/
def Cell.mark (x : Cell P) : Cell P := x.mapFlags .mark

@[simp] theorem Cell.setRed_addr (x : Cell P) (b : Bool) : (x.setRed b).addr = x.addr := rfl
@[simp] theorem Cell.mark_addr (x : Cell P) : x.mark.addr = x.addr := rfl
@[simp] theorem Cell.red_setRed (x : Cell P) (b : Bool) : Coloured.red (x.setRed b) = b := rfl
@[simp] theorem Cell.red_mark (x : Cell P) : Coloured.red x.mark = Coloured.red x := rfl

@[simp] theorem Cell.setRed_modified (x : Cell P) (b : Bool) :
    (x.setRed b).flags.modified = x.flags.modified := rfl

@[simp] theorem Cell.mark_modified (x : Cell P) : x.mark.flags.modified = true := rfl

@[simp] theorem Flags.setRed_red (fl : Flags) (b : Bool) : (fl.setRed b).red = b := rfl
@[simp] theorem Flags.mark_red (fl : Flags) : fl.mark.red = fl.red := rfl

@[simp] theorem Flags.setRed_modified (fl : Flags) (b : Bool) :
    (fl.setRed b).modified = fl.modified := rfl

@[simp] theorem Flags.mark_modified (fl : Flags) : fl.mark.modified = true := rfl

section

variable (x : Node P) (p : Option P) (f : Flags → Flags)

@[simp] theorem Node.setParent_parent : (x.setParent p).parent = p := rfl
@[simp] theorem Node.setParent_left : (x.setParent p).left = x.left := rfl
@[simp] theorem Node.setParent_right : (x.setParent p).right = x.right := rfl
@[simp] theorem Node.mapFlags_parent : (x.mapFlags f).parent = x.parent := rfl
@[simp] theorem Node.mapFlags_left : (x.mapFlags f).left = x.left := rfl
@[simp] theorem Node.mapFlags_right : (x.mapFlags f).right = x.right := rfl

end

/-- The node with the child `u` on the side `d` and `v` on the other. -/
def Node.mkDir (d : Dir) (fl : Flags) (u v p : Option P) : Node P :=
  match d with
  | .left => ⟨fl, u, v, p⟩
  | .right => ⟨fl, v, u, p⟩

section

variable (d : Dir) (fl : Flags) (u v p : Option P)

@[simp] theorem Node.mkDir_flags : (mkDir d fl u v p).flags = fl := by cases d <;> rfl
@[simp] theorem Node.mkDir_parent : (mkDir d fl u v p).parent = p := by cases d <;> rfl
@[simp] theorem Node.mkDir_child : (mkDir d fl u v p).child d = u := by cases d <;> rfl
@[simp] theorem Node.mkDir_child_other : (mkDir d fl u v p).child d.other = v := by cases d <;> rfl

@[simp] theorem Node.mkDir_setChild (w : Option P) :
    (mkDir d fl u v p).setChild d w = mkDir d fl w v p := by cases d <;> rfl

@[simp] theorem Node.mkDir_setChild_other (w : Option P) :
    (mkDir d fl u v p).setChild d.other w = mkDir d fl u w p := by cases d <;> rfl

@[simp] theorem Node.mkDir_setParent (w : Option P) :
    (mkDir d fl u v p).setParent w = mkDir d fl u v w := by cases d <;> rfl

@[simp] theorem Node.mkDir_mapFlags (f : Flags → Flags) :
    (mkDir d fl u v p).mapFlags f = mkDir d (f fl) u v p := by cases d <;> rfl

end

/-! ## Pointers and addresses -/

/-- The pointer to a tree. -/
def ptr (t : Tree (Cell P)) : Option P := t.root?.map Cell.addr

@[simp] theorem ptr_nil : ptr (.nil : Tree (Cell P)) = none := rfl

@[simp] theorem ptr_node (l : Tree (Cell P)) (x : Cell P) (r : Tree (Cell P)) :
    ptr (.node l x r) = some x.addr := rfl

@[simp] theorem ptr_mk (d : Dir) (t : Tree (Cell P)) (x : Cell P) (s : Tree (Cell P)) :
    ptr (.mk d t x s) = some x.addr := by cases d <;> rfl

@[simp] theorem ptr_mapRoot (t : Tree (Cell P)) (f : Flags → Flags) :
    ptr (t.mapRoot (·.mapFlags f)) = ptr t := by cases t <;> rfl

theorem exists_ptr {t : Tree (Cell P)} (h : t ≠ .nil) : ∃ a, ptr t = some a := by
  cases t with
  | nil => exact absurd rfl h
  | node l x r => exact ⟨_, rfl⟩

/-- The addresses of the nodes of a tree, in order. -/
def order (t : Tree (Cell P)) : List P := t.inorder.map Cell.addr

@[simp] theorem order_nil : order (.nil : Tree (Cell P)) = [] := rfl

@[simp] theorem order_node (l : Tree (Cell P)) (x : Cell P) (r : Tree (Cell P)) :
    order (.node l x r) = order l ++ x.addr :: order r := by simp [order]

theorem height_le_length_order (t : Tree (Cell P)) : t.height ≤ (order t).length := by
  simpa [order] using t.height_le_length

theorem order_plug (c : Ctx (Cell P)) (t : Tree (Cell P)) : order (plug c t) =
    (Ctx.before c).map Cell.addr ++ (order t ++ (Ctx.after c).map Cell.addr) := by
  simp [order, inorder_plug]

/-- Subtrees with the same nodes in the same order may replace each other. -/
theorem order_plug_congr (c : Ctx (Cell P)) {t t' : Tree (Cell P)} (h : order t' = order t) :
    order (plug c t') = order (plug c t) := by rw [order_plug, order_plug, h]

/-- The addresses of the nodes of a tree. -/
def addrs (t : Tree (Cell P)) : Multiset P := ↑(order t)

@[simp] theorem addrs_nil : addrs (.nil : Tree (Cell P)) = 0 := rfl

@[simp] theorem addrs_mk (d : Dir) (t : Tree (Cell P)) (x : Cell P) (s : Tree (Cell P)) :
    addrs (.mk d t x s) = x.addr ::ₘ (addrs t + addrs s) := by
  cases d <;> simp [addrs, Tree.mk, ← Multiset.coe_add, ← Multiset.cons_coe, add_comm]

@[grind →]
theorem mem_addrs_of_ptr {t : Tree (Cell P)} {a : P} (h : ptr t = some a) : a ∈ addrs t := by
  cases t with
  | nil => simp at h
  | node l x r =>
    rw [← Tree.mk_left] at h ⊢
    simp_all

/-- The pointer to the parent of a hole. -/
def up (c : Ctx (Cell P)) : Option P := c.parent?.map Cell.addr

@[simp] theorem up_nil : up ([] : Ctx (Cell P)) = none := rfl

@[simp] theorem up_cons (f : Frame (Cell P)) (c : Ctx (Cell P)) : up (f :: c) = some f.val.addr := rfl

/-- The addresses of the nodes of a context. -/
def addrsCtx : Ctx (Cell P) → Multiset P
  | [] => 0
  | f :: c => f.val.addr ::ₘ (addrs f.sib + addrsCtx c)

@[simp] theorem addrsCtx_nil : addrsCtx ([] : Ctx (Cell P)) = 0 := rfl

@[simp] theorem addrsCtx_cons (f : Frame (Cell P)) (c : Ctx (Cell P)) :
    addrsCtx (f :: c) = f.val.addr ::ₘ (addrs f.sib + addrsCtx c) := rfl

theorem mem_addrsCtx_of_sib {c : Ctx (Cell P)} {f : Frame (Cell P)} {a : P} (hf : f ∈ c)
    (ha : a ∈ addrs f.sib) : a ∈ addrsCtx c := by
  induction c with
  | nil => simp at hf
  | cons g c ih =>
    rw [addrsCtx_cons, Multiset.mem_cons, Multiset.mem_add]
    rcases List.mem_cons.1 hf with rfl | hf
    · exact .inr (.inl ha)
    · exact .inr (.inr (ih hf))

theorem addrs_plug (c : Ctx (Cell P)) (t : Tree (Cell P)) :
    addrs (plug c t) = addrs t + addrsCtx c := by
  induction c generalizing t with
  | nil => simp
  | cons f c ih => simp [ih, add_assoc]

/-! ## Representation -/

/-- The memory holds the tree `t`, below the parent `p`. -/
def TreeAt (m : Mem P) : Option P → Tree (Cell P) → Prop
  | _, .nil => True
  | p, .node l x r => m.node x.addr = ⟨x.flags, ptr l, ptr r, p⟩ ∧
    TreeAt m (some x.addr) l ∧ TreeAt m (some x.addr) r

/-- The memory holds the context `c`, with the pointer `h` in its hole. -/
def CtxAt (m : Mem P) : Option P → Ctx (Cell P) → Prop
  | h, [] => m.root = h
  | h, f :: c => m.node f.val.addr = .mkDir f.dir f.val.flags h (ptr f.sib) (up c) ∧
    TreeAt m (some f.val.addr) f.sib ∧ CtxAt m (some f.val.addr) c

/-- The memory holds the tree `plug c t`, whose nodes are distinct. -/
structure At (m : Mem P) (c : Ctx (Cell P)) (t : Tree (Cell P)) : Prop where
  ctx : CtxAt m (ptr t) c
  tree : TreeAt m (up c) t
  nodup : (addrs t + addrsCtx c).Nodup

section

variable {m : Mem P} {p h : Option P} {c : Ctx (Cell P)} {t : Tree (Cell P)}

@[simp] theorem treeAt_nil : TreeAt m p .nil := trivial

@[simp] theorem treeAt_mk {d : Dir} {l r : Tree (Cell P)} {x : Cell P} :
    TreeAt m p (.mk d l x r) ↔ m.node x.addr = .mkDir d x.flags (ptr l) (ptr r) p ∧
      TreeAt m (some x.addr) l ∧ TreeAt m (some x.addr) r := by
  cases d
  · rfl
  · simp only [Tree.mk, TreeAt, Node.mkDir]
    tauto

@[simp] theorem ctxAt_nil : CtxAt m h [] ↔ m.root = h := Iff.rfl

@[simp] theorem ctxAt_cons {f : Frame (Cell P)} :
    CtxAt m h (f :: c) ↔ m.node f.val.addr = .mkDir f.dir f.val.flags h (ptr f.sib) (up c) ∧
      TreeAt m (some f.val.addr) f.sib ∧ CtxAt m (some f.val.addr) c := Iff.rfl

/-- The same tree, seen from the parent. -/
theorem at_cons {d : Dir} {x : Cell P} {s : Tree (Cell P)} :
    At m (⟨d, x, s⟩ :: c) t ↔ At m c (.mk d t x s) := by
  constructor
  · rintro ⟨⟨h₁, h₂, h₃⟩, h₄, h₅⟩
    exact ⟨by simpa using h₃, by simpa using ⟨h₁, h₄, h₂⟩, by simpa [add_assoc] using h₅⟩
  · rintro ⟨h₁, h₂, h₃⟩
    rw [treeAt_mk] at h₂
    exact ⟨⟨h₂.1, h₂.2.2, by simpa using h₁⟩, h₂.2.1, by simpa [add_assoc] using h₃⟩

/-- The same tree, seen from the root. -/
theorem at_plug : At m c t ↔ At m [] (plug c t) := by
  induction c generalizing t with
  | nil => rfl
  | cons f c ih => rw [at_cons, ih, plug_cons]

end

/-! ## Updates -/

/-- A tree is not affected by changes outside of it. -/
theorem TreeAt.congr {m m' : Mem P} {t : Tree (Cell P)} {p : Option P} (h : TreeAt m p t)
    (hm : ∀ b ∈ addrs t, m'.node b = m.node b) : TreeAt m' p t := by
  induction t generalizing p with
  | nil => trivial
  | node l x r ihl ihr =>
    rw [← Tree.mk_left] at h hm ⊢
    rw [treeAt_mk] at h ⊢
    refine ⟨by rw [hm _ (by simp), h.1], ihl h.2.1 fun b hb => hm b ?_,
      ihr h.2.2 fun b hb => hm b ?_⟩ <;> simp [hb]

/-- A context is not affected by changes outside of it. -/
theorem CtxAt.congr {m m' : Mem P} {c : Ctx (Cell P)} {h : Option P} (hc : CtxAt m h c)
    (hm : ∀ b ∈ addrsCtx c, m'.node b = m.node b) (hr : m'.root = m.root) : CtxAt m' h c := by
  induction c generalizing h with
  | nil => exact hr.trans hc
  | cons f c ih =>
    rw [addrsCtx_cons] at hm
    exact ⟨by rw [hm _ (by simp), hc.1], hc.2.1.congr fun b hb => hm b (by simp [hb]),
      ih hc.2.2 fun b hb => hm b (by simp [hb])⟩

variable [DecidableEq P] {m : Mem P}

@[simp] theorem update_root (a : P) (f : Node P → Node P) : (m.update a f).root = m.root := rfl

@[simp] theorem update_node_self (a : P) (f : Node P → Node P) :
    (m.update a f).node a = f (m.node a) := by simp [Mem.update]

theorem update_node_of_ne {a b : P} (f : Node P → Node P) (h : b ≠ a) :
    (m.update a f).node b = m.node b := by simp [Mem.update, h]

@[grind =]
theorem update_node (a b : P) (f : Node P → Node P) :
    (m.update a f).node b = if b = a then f (m.node a) else m.node b := by
  by_cases h : b = a
  · subst h
    simp
  · rw [update_node_of_ne f h, if_neg h]

theorem TreeAt.update {a : P} {f : Node P → Node P} {t : Tree (Cell P)} {p : Option P}
    (h : TreeAt m p t) (ha : a ∉ addrs t) : TreeAt (m.update a f) p t :=
  h.congr fun _ hb => update_node_of_ne f fun e => ha (e ▸ hb)

theorem CtxAt.update {a : P} {f : Node P → Node P} {c : Ctx (Cell P)} {h : Option P}
    (hc : CtxAt m h c) (ha : a ∉ addrsCtx c) : CtxAt (m.update a f) h c :=
  hc.congr (fun _ hb => update_node_of_ne f fun e => ha (e ▸ hb)) rfl

/-- The memory after `if (p) p->parent = q;`. -/
def Mem.reparent (m : Mem P) (q : Option P) : Option P → Mem P
  | none => m
  | some a => m.update a (·.setParent q)

@[simp] theorem reparent_root (p q : Option P) : (m.reparent q p).root = m.root := by
  cases p <;> rfl

@[grind =]
theorem reparent_node (p q : Option P) (b : P) : (m.reparent q p).node b =
    if p = some b then (m.node b).setParent q else m.node b := by
  cases p with
  | none => simp [Mem.reparent]
  | some a =>
    by_cases h : b = a
    · subst h
      simp [Mem.reparent]
    · rw [Mem.reparent, update_node_of_ne _ h, if_neg (by simpa using fun e => h e.symm)]

/-- A tree moves below another parent once the parent of its root is set. -/
theorem TreeAt.reparent {m' : Mem P} {t : Tree (Cell P)} {p : Option P} (h : TreeAt m p t)
    (q : Option P) (hnd : (addrs t).Nodup)
    (hm : ∀ b ∈ addrs t, m'.node b = if ptr t = some b then (m.node b).setParent q else m.node b) :
    TreeAt m' q t := by
  cases t with
  | nil => trivial
  | node l x r =>
    rw [← Tree.mk_left] at *
    simp only [treeAt_mk] at h ⊢
    simp only [addrs_mk, ptr_mk, Multiset.nodup_cons, Multiset.mem_add, Multiset.mem_cons,
      Option.some.injEq] at hnd hm
    refine ⟨?_, h.2.1.congr fun b hb => ?_, h.2.2.congr fun b hb => ?_⟩
    · rw [hm _ (.inl rfl), if_pos rfl, h.1, Node.mkDir_setParent]
    · rw [hm b (.inr (.inl hb)), if_neg (by grind)]
    · rw [hm b (.inr (.inr hb)), if_neg (by grind)]

end Dlb.Rbt
