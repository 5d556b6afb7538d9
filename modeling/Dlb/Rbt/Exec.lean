import Dlb.Rbt.Rep

/-!
# What the primitives do

The accesses to the memory, the flag updates, `fix_downptr` and the rotations,
as steps from a tree in memory to another: each function is run symbolically
once, here, and the rest of the development only uses the outcome.
-/

namespace Dlb.Rbt

variable {P : Type} {m : Mem P}

@[simp] theorem run_load (a : P) (m : Mem P) : (load (some a)).run m = some (m.node a, m) := rfl

/-- The conjunction `&&`, which only runs its right side if the left one holds. -/
@[simp] theorem run_andM (x y : Prog P Bool) (m : Mem P) :
    (x <&&> y).run m = (x.run m).bind fun r => if r.1 then y.run r.2 else some (false, r.2) := by
  rw [andM, StateT.run_bind]
  congr
  funext ⟨b, m'⟩
  cases b <;> rfl

@[simp] theorem run_loadRoot (m : Mem P) : loadRoot.run m = some (m.root, m) := rfl

@[simp] theorem run_storeRoot (v : Option P) (m : Mem P) :
    (storeRoot v).run m = some ((), { m with root := v }) := rfl

section

variable {c : Ctx (Cell P)} {d : Dir} {l r t : Tree (Cell P)} {x : Cell P}

/-- The node at the root of the subtree. -/
theorem At.node_eq (h : At m c (.mk d l x r)) :
    m.node x.addr = .mkDir d x.flags (ptr l) (ptr r) (up c) := (treeAt_mk.1 h.tree).1

/-- The node at the parent of the subtree. -/
theorem At.parent_eq {s : Tree (Cell P)} (h : At m (⟨d, x, s⟩ :: c) t) :
    m.node x.addr = .mkDir d x.flags (ptr t) (ptr s) (up c) := h.ctx.1

/-- The parent of the root of the subtree. -/
theorem At.node_parent {a : P} (h : At m c t) (ha : ptr t = some a) :
    (m.node a).parent = up c := by
  cases t with
  | nil => simp at ha
  | node l x r =>
    obtain rfl : x.addr = a := by simpa using ha
    rw [h.tree.1]

/-- The subtrees on the two sides of the parent are different. -/
theorem At.ptr_sib_ne {a : P} {s : Tree (Cell P)} (h : At m (⟨d, x, s⟩ :: c) t)
    (ha : ptr t = some a) : ptr s ≠ some a := by
  have hnd := h.nodup
  simp only [addrsCtx_cons, Multiset.add_cons, Multiset.nodup_cons, Multiset.nodup_add,
    Multiset.disjoint_left, Multiset.mem_add] at hnd
  grind

theorem run_isRed (h : At m c t) : (isRed (ptr t)).run m = some (t.isRed, m) := by
  cases t with
  | nil => rfl
  | node l x r => simp [isRed, h.tree.1, red_def]

theorem run_isBlack (h : At m c t) : (isBlack (ptr t)).run m = some (!t.isRed, m) := by
  cases t with
  | nil => rfl
  | node l x r => simp [isBlack, h.tree.1, red_def]

theorem run_isRed_parent {s : Tree (Cell P)} (h : At m (⟨d, x, s⟩ :: c) t) :
    (isRed (some x.addr)).run m = some (Coloured.red x, m) := by
  simpa using run_isRed (at_cons.1 h)

theorem run_isBlack_parent {s : Tree (Cell P)} (h : At m (⟨d, x, s⟩ :: c) t) :
    (isBlack (some x.addr)).run m = some (!Coloured.red x, m) := by
  simpa using run_isBlack (at_cons.1 h)

/-- The same tree, seen from the sibling of the subtree. -/
theorem at_sib {s : Tree (Cell P)} :
    At m (⟨d, x, s⟩ :: c) t ↔ At m (⟨d.other, x, t⟩ :: c) s := by
  rw [at_cons, at_cons, Tree.mk_other]

/-- `grandparent`, where there is one. -/
theorem run_grandparent {d' : Dir} {g : Cell P} {s u : Tree (Cell P)} {a : P}
    (h : At m (⟨d, x, s⟩ :: ⟨d', g, u⟩ :: c) t) (ha : ptr t = some a) :
    (grandparent (some a)).run m = some (some g.addr, m) := by
  simp [grandparent, h.node_parent ha, h.parent_eq]

end

variable [DecidableEq P]

theorem run_store (a : P) (f : Node P → Node P) (m : Mem P) :
    (store (some a) f).run m = some ((), m.update a f) := rfl

@[simp] theorem run_reparent (p q : Option P) :
    (reparent q p).run m = some ((), m.reparent q p) := by
  cases p <;> rfl

/-- Changing the flags of the root of the subtree. -/
theorem At.mapFlags {c : Ctx (Cell P)} {d : Dir} {l r : Tree (Cell P)} {x : Cell P}
    (h : At m c (.mk d l x r)) (f : Flags → Flags) :
    At (m.update x.addr (·.mapFlags f)) c (.mk d l (x.mapFlags f) r) := by
  obtain ⟨hc, ht, hnd⟩ := h
  have hnd' := hnd
  simp only [addrs_mk, Multiset.cons_add, Multiset.nodup_cons, Multiset.mem_add, not_or] at hnd
  rw [treeAt_mk] at ht
  refine ⟨by simpa using hc.update hnd.1.2, treeAt_mk.2 ⟨?_, ?_, ?_⟩, by simpa using hnd'⟩
  · simp [ht.1]
  · exact ht.2.1.update hnd.1.1.1
  · exact ht.2.2.update hnd.1.1.2

/-- Changing the flags of the root of the subtree, as the code does. -/
theorem At.store_root {c : Ctx (Cell P)} {t : Tree (Cell P)} {a : P} (h : At m c t)
    (ha : ptr t = some a) (f : Flags → Flags) :
    ∃ m', (store (some a) (·.mapFlags f)).run m = some ((), m') ∧
      At m' c (t.mapRoot (·.mapFlags f)) := by
  cases t with
  | nil => simp at ha
  | node l x r =>
    obtain rfl : x.addr = a := by simpa using ha
    exact ⟨_, rfl, At.mapFlags (d := .left) h f⟩

/-- Changing the flags of the parent of the subtree. -/
theorem At.store_parent {c : Ctx (Cell P)} {d : Dir} {p : Cell P} {s t : Tree (Cell P)}
    (h : At m (⟨d, p, s⟩ :: c) t) (f : Flags → Flags) :
    ∃ m', (store (some p.addr) (·.mapFlags f)).run m = some ((), m') ∧
      At m' (⟨d, p.mapFlags f, s⟩ :: c) t :=
  ⟨_, rfl, at_cons.2 ((at_cons.1 h).mapFlags f)⟩

/-- Changing the flags of the sibling of the subtree. -/
theorem At.store_sib {c : Ctx (Cell P)} {d : Dir} {p : Cell P} {s t : Tree (Cell P)} {a : P}
    (h : At m (⟨d, p, s⟩ :: c) t) (ha : ptr s = some a) (f : Flags → Flags) :
    ∃ m', (store (some a) (·.mapFlags f)).run m = some ((), m') ∧
      At m' (⟨d, p, s.mapRoot (·.mapFlags f)⟩ :: c) t := by
  obtain ⟨m', hrun, h'⟩ := (at_sib.1 h).store_root ha f
  exact ⟨m', hrun, at_sib.2 h'⟩

/-- `sibling`, where there is a parent. -/
theorem run_sibling {c : Ctx (Cell P)} {d : Dir} {x : Cell P} {s t : Tree (Cell P)} {a : P}
    (h : At m (⟨d, x, s⟩ :: c) t) (ha : ptr t = some a) :
    (sibling (some a)).run m = some (ptr s, m) := by
  have hp := h.parent_eq
  have hne := h.ptr_sib_ne ha
  cases d <;> simp [sibling, h.node_parent ha, hp, ha, Node.mkDir, hne.symm]

/-- `fix_downptr` changes the pointer in the hole of a context, and only the
    context. -/
theorem fixDownptr_spec {c : Ctx (Cell P)} {a : P} (v : Option P)
    (hc : CtxAt m (some a) c) (hnd : (addrsCtx c).Nodup) (ha : a ∉ addrsCtx c) :
    ∃ m', (fixDownptr (up c) (some a) v).run m = some ((), m') ∧ CtxAt m' v c ∧
      ∀ b, b ∉ addrsCtx c → m'.node b = m.node b := by
  cases c with
  | nil => exact ⟨{ m with root := v }, rfl, rfl, fun _ _ => rfl⟩
  | cons f c =>
    obtain ⟨d, ⟨q, fl⟩, s⟩ := f
    obtain ⟨hq, hs, hc⟩ := hc
    simp only [addrsCtx_cons, Multiset.nodup_cons, Multiset.mem_cons, Multiset.mem_add,
      not_or] at hnd ha
    have hrun : (fixDownptr (some q) (some a) v).run m = some ((), m.update q (·.setChild d v)) := by
      cases d with
      | left => simp [fixDownptr, run_store, hq, Node.mkDir]
      | right =>
        -- The test is on the left child only: it must not be the old pointer.
        have hne : ptr s ≠ some a := fun h => ha.2.1 (mem_addrs_of_ptr h)
        simp [fixDownptr, run_store, hq, Node.mkDir, hne]
    exact ⟨_, hrun, ⟨by simp [hq], hs.update hnd.1.1, hc.update hnd.1.2⟩,
      fun b hb => update_node_of_ne _ fun e => hb (by simp [e])⟩

/-- A rotation, on either side. -/
theorem rotate_spec {c : Ctx (Cell P)} {d : Dir} {x y z : Tree (Cell P)} {n r : Cell P}
    (h : At m c (.mk d x n (.mk d y r z))) :
    ∃ m', (rotate d (some n.addr)).run m = some ((), m') ∧
      At m' c (.mk d (.mk d x n y) r z) := by
  obtain ⟨hc, ht, hnd⟩ := h
  have hnd' : (addrs (.mk d (.mk d x n y) r z) + addrsCtx c).Nodup := by
    convert hnd using 2
    simp [Multiset.cons_swap, add_assoc]
  simp only [treeAt_mk, ptr_mk] at ht hc
  obtain ⟨hn, hx, hr, hy, hz⟩ := ht
  simp only [addrs_mk, Multiset.add_cons, Multiset.cons_add, Multiset.nodup_cons,
    Multiset.nodup_add, Multiset.disjoint_left, Multiset.mem_cons, Multiset.mem_add] at hnd
  have hne : n.addr ≠ r.addr := by grind
  have hyn : ptr y ≠ some n.addr := by grind
  have hyr : ptr y ≠ some r.addr := by grind
  -- The memory before `fix_downptr`.
  let m₁ := ((((m.update n.addr (·.setChild d.other (ptr y))).reparent (some n.addr) (ptr y)).update
    r.addr (·.setChild d (some n.addr))).update n.addr (·.setParent (some r.addr))).update
    r.addr (·.setParent (up c))
  have h₁n : m₁.node n.addr = .mkDir d n.flags (ptr x) (ptr y) (some r.addr) := by
    simp [m₁, update_node, reparent_node, hn, hne, hyn]
  have h₁r : m₁.node r.addr = .mkDir d r.flags (some n.addr) (ptr z) (up c) := by
    simp [m₁, update_node, reparent_node, hr, hne.symm, hyr]
  have h₁c : CtxAt m₁ (some n.addr) c :=
    hc.congr (fun b hb => by have : ptr y ≠ some b := by grind
                             grind) (by simp [m₁])
  obtain ⟨m', hrun, hc', hm'⟩ := fixDownptr_spec (some r.addr) h₁c hnd.2.2.2.1 (by grind)
  have hrun₁ : (rotate d (some n.addr)).run m =
      (fixDownptr (up c) (some n.addr) (some r.addr)).run m₁ := by
    simp [rotate, run_store, hn, hr, m₁]
  refine ⟨m', hrun₁.trans hrun, by simpa using hc', ?_, hnd'⟩
  simp only [treeAt_mk, ptr_mk]
  refine ⟨by rw [hm' _ (by grind), h₁r], ⟨by rw [hm' _ (by grind), h₁n], ?_, ?_⟩, ?_⟩
  · refine hx.congr fun b hb => ?_
    have : ptr y ≠ some b := by grind
    grind
  · exact hy.reparent _ (by grind) fun b hb => by grind
  · refine hz.congr fun b hb => ?_
    have : ptr y ≠ some b := by grind
    grind

/-- A rotation, seen from the other side. -/
theorem rotate_other_spec {c : Ctx (Cell P)} {d : Dir} {x y z : Tree (Cell P)} {n r : Cell P}
    (h : At m c (.mk d (.mk d x r y) n z)) :
    ∃ m', (rotate d.other (some n.addr)).run m = some ((), m') ∧
      At m' c (.mk d x r (.mk d y n z)) := by
  have h' : At m c (.mk d.other z n (.mk d.other y r x)) := by
    rwa [Tree.mk_other, Tree.mk_other]
  simpa only [Tree.mk_other] using rotate_spec h'

end Dlb.Rbt
