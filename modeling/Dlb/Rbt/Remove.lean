import Dlb.Rbt.Local
import Dlb.Rbt.Unlink

/-!
# Removal

`rbt_remove` in memory: the node is swapped with its successor if it has two children,
taken out, the path above it is marked, and the colours are repaired. The swap
is the one part which moves a node to another place of the tree, and it is done
differently for a successor which is the child of the node.
-/

namespace Dlb.Rbt

open Coloured

variable {P : Type} {m : Mem P}

/-! ## Swapping with the successor -/

theorem leftmost_spec {c : Ctx (Cell P)} {l r : Tree (Cell P)} {x : Cell P} {fuel : ℕ}
    (h : At m c (.node l x r)) (hf : l.height < fuel) :
    (leftmost fuel (some x.addr)).run m = some (some (leftmostOf l x r).2.1.addr, m) := by
  obtain ⟨fuel, rfl⟩ := Nat.exists_eq_succ_of_ne_zero (Nat.ne_zero_of_lt hf)
  induction l generalizing c x r fuel with
  | nil => simp [leftmost, h.tree.1, leftmostOf]
  | node l y r' ih _ =>
    rw [Tree.height_node] at hf
    obtain ⟨fuel, rfl⟩ : ∃ k, fuel = k + 1 := Nat.exists_eq_succ_of_ne_zero (by omega)
    have := ih (c := ⟨.left, x, r⟩ :: c) (at_cons.2 h) fuel (by omega)
    rw [leftmost]
    simp [h.tree.1, leftmostOf, this]

/-- The last frame of a context. -/
def top : Ctx (Cell P) → Option P
  | [] => none
  | [f] => some f.val.addr
  | _ :: g :: c => top (g :: c)

@[simp] theorem top_concat (c : Ctx (Cell P)) (f : Frame (Cell P)) :
    top (c ++ [f]) = some f.val.addr := by
  induction c with
  | nil => rfl
  | cons g c ih => cases c <;> simp_all [top]

theorem mem_addrsCtx_of_top {c : Ctx (Cell P)} {a : P} (h : top c = some a) : a ∈ addrsCtx c := by
  fun_induction top c with
  | case1 => simp at h
  | case2 f => simp_all
  | case3 f g c ih => exact Multiset.mem_cons_of_mem (Multiset.mem_add.2 (.inr (ih h)))

theorem addrsCtx_append (p e : Ctx (Cell P)) : addrsCtx (p ++ e) = addrsCtx p + addrsCtx e := by
  induction p with
  | nil => simp
  | cons f p ih => simp [ih, add_assoc]

/-- The upper part of a context in memory. -/
theorem CtxAt.of_append {p e : Ctx (Cell P)} {h : Option P} (hp : p ≠ [])
    (hc : CtxAt m h (p ++ e)) : CtxAt m (top p) e := by
  fun_induction top p generalizing h with
  | case1 => exact absurd rfl hp
  | case2 f => exact hc.2.2
  | case3 f g c ih => exact ih (by simp) hc.2.2

/-- Another pointer is written to the hole of a context. -/
theorem CtxAt.setHole {f : Frame (Cell P)} {c : Ctx (Cell P)} {m' : Mem P} {h : Option P}
    (hc : CtxAt m h (f :: c)) (v : Option P)
    (hf : m'.node f.val.addr = (m.node f.val.addr).setChild f.dir v)
    (hm : ∀ b ∈ addrs f.sib + addrsCtx c, m'.node b = m.node b) (hr : m'.root = m.root) :
    CtxAt m' v (f :: c) := by
  obtain ⟨hc₁, hc₂, hc₃⟩ := hc
  refine ⟨by rw [hf, hc₁, Node.mkDir_setChild], hc₂.congr fun b hb => ?_,
    hc₃.congr (fun b hb => ?_) hr⟩
  · exact hm b (Multiset.mem_add.2 (.inl hb))
  · exact hm b (Multiset.mem_add.2 (.inr hb))

variable [DecidableEq P]

/-- The lower part of a context is put below another one. -/
theorem CtxAt.rebase {p e e' : Ctx (Cell P)} {m' : Mem P} {h : Option P} (hp : p ≠ [])
    (hc : CtxAt m h (p ++ e)) (he : CtxAt m' (top p) e') (hnd : (addrsCtx p).Nodup)
    (hm : ∀ b ∈ addrsCtx p, m'.node b =
      if top p = some b then (m.node b).setParent (up e') else m.node b) :
    CtxAt m' h (p ++ e') := by
  fun_induction top p generalizing h with
  | case1 => exact absurd rfl hp
  | case2 f =>
    obtain ⟨hf, hs, -⟩ := hc
    simp only [addrsCtx_cons, addrsCtx_nil, add_zero, Multiset.nodup_cons, Multiset.mem_cons,
      Option.some.injEq] at hnd hm
    refine ⟨?_, hs.congr fun b hb => ?_, he⟩
    · rw [hm _ (.inl rfl), if_pos rfl, hf, Node.mkDir_setParent]
      rfl
    · rw [hm b (.inr hb), if_neg (by grind)]
  | case3 f g c ih =>
    obtain ⟨hf, hs, hc⟩ := hc
    rw [addrsCtx_cons, Multiset.nodup_cons, Multiset.nodup_add, Multiset.disjoint_left] at hnd
    rw [addrsCtx_cons] at hm
    have ht : ∀ b ∉ addrsCtx (g :: c), top (g :: c) ≠ some b :=
      fun b hb e => hb (mem_addrsCtx_of_top e)
    refine ⟨?_, hs.congr fun b hb => ?_, ih (by simp) hc he hnd.2.2.1 fun b hb => hm b ?_⟩
    · rw [hm _ (by simp), if_neg (ht _ (by grind)), hf]
      rfl
    · rw [hm b (by simp [hb]), if_neg (ht _ (by grind))]
    · exact Multiset.mem_cons_of_mem (Multiset.mem_add.2 (.inr hb))

/-- `swap_with_successor` where the successor is the right child. -/
theorem swapWithSuccessor_adjacent {c : Ctx (Cell P)} {l t : Tree (Cell P)} {x s : Cell P}
    {fuel : ℕ} (hl : l ≠ .nil) (h : At m (⟨.right, x, l⟩ :: c) (.node .nil s t)) :
    ∃ m', (swapWithSuccessor fuel (some x.addr)).run m = some ((), m') ∧
      At m' (⟨.right, ⟨s.addr, x.flags⟩, l⟩ :: c) (.node .nil ⟨x.addr, s.flags⟩ t) := by
  obtain ⟨a, ha⟩ := exists_ptr hl
  obtain ⟨⟨hx, hl, hc⟩, ⟨hs, -, ht⟩, hnd⟩ := h
  have hnd' := hnd
  rw [← Tree.mk_left] at hnd
  simp only [addrs_mk, addrs_nil, zero_add, addrsCtx_cons, Multiset.add_cons, Multiset.cons_add,
    Multiset.nodup_cons, Multiset.nodup_add, Multiset.disjoint_left, Multiset.mem_cons,
    Multiset.mem_add] at hnd
  have hne : x.addr ≠ s.addr := by grind
  have hax : a ≠ x.addr := by grind
  have has : a ≠ s.addr := by grind
  -- The memory before `fix_downptr`, and the one after it.
  let m₁ := (m.update s.addr fun _ => ⟨x.flags, ptr l, some x.addr, up c⟩).update x.addr
    fun _ => ⟨s.flags, none, ptr t, some s.addr⟩
  have hc₁ : CtxAt m₁ (some x.addr) c := (hc.update (by grind)).update (by grind)
  obtain ⟨m₂, hrun, hc₂, hm₂⟩ := fixDownptr_spec (some s.addr) hc₁ (by grind) (by grind)
  have hx₂ : m₂.node x.addr = ⟨s.flags, none, ptr t, some s.addr⟩ := by
    rw [hm₂ _ (by grind)]
    simp [m₁]
  have hs₂ : m₂.node s.addr = ⟨x.flags, ptr l, some x.addr, up c⟩ := by
    rw [hm₂ _ (by grind)]
    simp [m₁, update_node, hne.symm]
  let m' := ((m₂.update a (·.setParent (some s.addr))).update x.addr
    (·.setParent (some s.addr))).reparent (some x.addr) (ptr t)
  have hxt : ptr t ≠ some x.addr := by grind
  have hst : ptr t ≠ some s.addr := by grind
  refine ⟨m', ?_, ⟨?_, ?_, ?_⟩, ⟨?_, trivial, ?_⟩, ?_⟩
  · simp only [m₁, ha] at hrun
    simp [swapWithSuccessor, hx, hs, Node.mkDir, run_store, hrun, hs₂, hx₂, ha, update_node,
      hax.symm, has.symm, m']
  · simp [m', reparent_node, update_node, hne.symm, has.symm, hst, hs₂, Node.mkDir]
  · refine hl.reparent _ (by grind) fun b hb => ?_
    have : ptr t ≠ some b := by grind
    grind
  · refine hc₂.congr (fun b hb => ?_) (by simp [m'])
    have : ptr t ≠ some b := by grind
    grind
  · simp [m', reparent_node, update_node, hax.symm, hxt, hx₂, Node.setParent]
  · refine ht.reparent _ (by grind) fun b hb => ?_
    grind
  · rw [← Tree.mk_left] at hnd' ⊢
    simp only [addrs_mk, addrs_nil, zero_add, addrsCtx_cons, Multiset.add_cons,
      Multiset.cons_add] at hnd' ⊢
    rwa [Multiset.cons_swap]

/-- `swap_with_successor` where there are nodes between: `p` is the path from the
    right child of `x` to its successor `s`. -/
theorem swapWithSuccessor_distant {c p : Ctx (Cell P)} {f : Frame (Cell P)}
    {l t : Tree (Cell P)} {x s : Cell P} {fuel : ℕ} {q : P} (hl : l ≠ .nil) (hd : f.dir = .left)
    (hq : top (f :: p) = some q)
    (h : At m (f :: p ++ ⟨.right, x, l⟩ :: c) (.node .nil s t))
    (hmin : (leftmost fuel (some q)).run m = some (some s.addr, m)) (hqs : (m.node q).left ≠ none) :
    ∃ m', (swapWithSuccessor fuel (some x.addr)).run m = some ((), m') ∧
      At m' (f :: p ++ ⟨.right, ⟨s.addr, x.flags⟩, l⟩ :: c) (.node .nil ⟨x.addr, s.flags⟩ t) := by
  obtain ⟨a, ha⟩ := exists_ptr hl
  obtain ⟨hp, ⟨hs, -, ht⟩, hnd⟩ := h
  obtain ⟨hx, hl, hc⟩ := hp.of_append (by simp)
  rw [hq] at hx
  have hnd' := hnd
  have hqm := mem_addrsCtx_of_top hq
  have hfm : f.val.addr ∈ addrsCtx (f :: p) := by simp
  rw [← Tree.mk_left] at hnd
  simp only [addrsCtx_append, addrs_mk, addrs_nil, zero_add, Multiset.add_cons,
    Multiset.cons_add, addrsCtx_cons ⟨.right, x, l⟩, Multiset.nodup_cons, Multiset.nodup_add,
    Multiset.disjoint_left, Multiset.mem_cons, Multiset.mem_add] at hnd
  have hne : x.addr ≠ s.addr := by grind
  have hax : a ≠ x.addr := by grind
  have has : a ≠ s.addr := by grind
  have hfx : f.val.addr ≠ x.addr := by grind
  have hfs : f.val.addr ≠ s.addr := by grind
  have hqx : q ≠ x.addr := by grind
  have hqs' : q ≠ s.addr := by grind
  have hxt : ptr t ≠ some x.addr := by grind
  have hst : ptr t ≠ some s.addr := by grind
  -- The memory before `fix_downptr`, and the one after it.
  let m₁ := ((m.update s.addr fun _ => m.node x.addr).update x.addr fun _ => m.node s.addr).update
    f.val.addr (·.setChild .left (some x.addr))
  have hc₁ : CtxAt m₁ (some x.addr) c :=
    ((hc.update (by grind)).update (by grind)).update (by grind)
  obtain ⟨m₂, hrun, hc₂, hm₂⟩ := fixDownptr_spec (some s.addr) hc₁ (by grind) (by grind)
  have hx₂ : m₂.node x.addr = m.node s.addr := by
    rw [hm₂ _ (by grind)]
    simp [m₁, update_node, hfx.symm]
  have hs₂ : m₂.node s.addr = m.node x.addr := by
    rw [hm₂ _ (by grind)]
    simp [m₁, update_node, hfs.symm, hne.symm]
  let m' := ((m₂.update a (·.setParent (some s.addr))).update q
    (·.setParent (some s.addr))).reparent (some x.addr) (ptr t)
  refine ⟨m', ?_, ?_, ⟨?_, trivial, ?_⟩, ?_⟩
  · have hup : (m.node s.addr).parent = some f.val.addr := by rw [hs]; rfl
    have hxp : (m.node x.addr).parent = up c := by rw [hx]; rfl
    have hxr : (m.node x.addr).right = some q := by rw [hx]; rfl
    have hxl : (m.node x.addr).left = some a := by rw [hx, ← ha]; rfl
    have hsr : (m.node s.addr).right = ptr t := by rw [hs]
    simp only [swapWithSuccessor, StateT.run_bind, run_load, Option.bind_eq_bind,
      Option.bind_some, StateT.run_pure, hxp, hxr, ne_eq, hqs, not_false_eq_true, if_true, hmin,
      run_store, update_node_self, hup, Option.pure_def]
    simp only [m₁] at hrun
    simp [hrun, hs₂, hx₂, hxl, hxr, hsr, run_store, update_node, has.symm, hax.symm, hqx.symm,
      m']
  · -- The frames of the path are below the new place of `s` and above that of `x`.
    have he : CtxAt m' (some q) (⟨.right, ⟨s.addr, x.flags⟩, l⟩ :: c) := by
      refine ⟨?_, ?_, ?_⟩
      · simp [m', reparent_node, update_node, has.symm, hqs'.symm, hst, hs₂, hx, Node.mkDir]
      · refine hl.reparent _ (by grind) fun b hb => ?_
        have : ptr t ≠ some b := by grind
        grind
      · refine hc₂.congr (fun b hb => ?_) (by simp [m'])
        have : ptr t ≠ some b := by grind
        grind
    let m₀ := m.update f.val.addr (·.setChild .left (some x.addr))
    have hp₀ : CtxAt m₀ (some x.addr) (f :: (p ++ ⟨.right, x, l⟩ :: c)) := by
      have hfp : (addrsCtx (f :: p)).Nodup := by grind
      rw [addrsCtx_cons, Multiset.nodup_cons, Multiset.mem_add, not_or] at hfp
      refine CtxAt.setHole (c := p ++ ⟨.right, x, l⟩ :: c) hp _ (by rw [hd, update_node_self]) (fun b hb => ?_) rfl
      simp only [addrsCtx_append, addrsCtx_cons, Multiset.mem_add, Multiset.mem_cons] at hb
      exact update_node_of_ne _ (by grind)
    refine CtxAt.rebase (p := f :: p) (by simp) hp₀ (hq ▸ he) (by grind) fun b hb => ?_
    have : ptr t ≠ some b := by grind
    have : m₁.node b = m₀.node b := by grind
    grind [up_cons]
  · simp [m', reparent_node, update_node, hax.symm, hqx.symm, hxt, hx₂, hs]
  · refine ht.reparent _ (by grind) fun b hb => ?_
    grind
  · rw [← Tree.mk_left] at hnd' ⊢
    simp only [addrsCtx_append, addrs_mk, addrs_nil, zero_add, addrsCtx_cons ⟨.right, x, l⟩,
      addrsCtx_cons ⟨.right, ⟨s.addr, x.flags⟩, l⟩, Multiset.add_cons,
      Multiset.cons_add] at hnd' ⊢
    rwa [Multiset.cons_swap]

/-- `swap_with_successor` does what `swapTree` does to the tree. -/
theorem swapWithSuccessor_spec {c : Ctx (Cell P)} {l r : Tree (Cell P)} {x : Cell P} {fuel : ℕ}
    (h : At m c (.node l x r)) (hl : l ≠ .nil) (hr : r ≠ .nil) (hf : r.height < fuel) :
    ∃ m', (swapWithSuccessor fuel (some x.addr)).run m = some ((), m') ∧
      At m' (swapTree c l x r).1 (.node .nil (swapTree c l x r).2.1 (swapTree c l x r).2.2) := by
  cases r with
  | nil => exact absurd rfl hr
  | node rl y rr =>
    replace h : At m (⟨.right, x, l⟩ :: c) (.node rl y rr) := at_cons.2 h
    have hsw : swapTree c l x (.node rl y rr) =
        ((leftmostOf rl y rr).1 ++ ⟨.right, ⟨(leftmostOf rl y rr).2.1.addr, x.flags⟩, l⟩ :: c,
          ⟨x.addr, (leftmostOf rl y rr).2.1.flags⟩, (leftmostOf rl y rr).2.2) := by
      cases l with
      | nil => exact absurd rfl hl
      | node => rfl
    rw [hsw]
    cases rl with
    | nil => exact swapWithSuccessor_adjacent hl h
    | node rl z zr =>
      have hmin := leftmost_spec h (show _ < fuel by rw [Tree.height_node] at hf; omega)
      have hy : (m.node y.addr).left ≠ none := by simp [h.tree.1]
      rw [← plug_leftmostOf, at_plug, ← plug_append, ← at_plug] at h
      have htop : top (leftmostOf (.node rl z zr) y rr).1 = some y.addr := top_concat _ _
      have hdir := dir_leftmostOf (.node rl z zr) y rr
      cases hp : (leftmostOf (.node rl z zr) y rr).1 with
      | nil => simp [leftmostOf] at hp
      | cons f p =>
        rw [hp] at h htop hdir
        exact swapWithSuccessor_distant hl (hdir f (by simp)) htop h hmin hy

/-! ## Marking -/

theorem rbtMarkModified_none (fuel : ℕ) : rbtMarkModified fuel (none : Option P) = pure () := by
  cases fuel <;> rfl

/-- `rbt_mark_modified` marks a node and all its ancestors. -/
theorem rbtMarkModified_spec {c : Ctx (Cell P)} {t : Tree (Cell P)} {a : P} {fuel : ℕ}
    (h : At m c t) (ha : ptr t = some a) (hf : c.length < fuel) :
    ∃ m', (rbtMarkModified fuel (some a)).run m = some ((), m') ∧
      At m' (markCtx c) (t.mapRoot .mark) := by
  induction c generalizing m t a fuel with
  | nil =>
    obtain ⟨fuel, rfl⟩ := Nat.exists_eq_succ_of_ne_zero (Nat.ne_zero_of_lt hf)
    obtain ⟨m₁, hrun₁, h₁⟩ := h.store_root ha .mark
    refine ⟨m₁, ?_, h₁⟩
    have hp : (m₁.node a).parent = none := h₁.node_parent (by simpa using ha)
    simp [rbtMarkModified, markModified, hrun₁, hp, rbtMarkModified_none]
  | cons f c ih =>
    obtain ⟨fuel, rfl⟩ := Nat.exists_eq_succ_of_ne_zero (Nat.ne_zero_of_lt hf)
    obtain ⟨d, p, s⟩ := f
    obtain ⟨m₁, hrun₁, h₁⟩ := h.store_root ha .mark
    obtain ⟨m', hrun, h'⟩ := ih (at_cons.1 h₁) (ptr_mk _ _ _ _) (show _ < fuel by simpa using hf)
    refine ⟨m', ?_, ?_⟩
    · have hp : (m₁.node a).parent = some p.addr :=
        h₁.node_parent (by simpa using ha)
      simp [rbtMarkModified, markModified, hrun₁, hp, hrun]
    · rw [Tree.mapRoot_mk] at h'
      exact at_cons.2 h'

/-! ## The repair -/

section

variable {c : Ctx (Cell P)} {d : Dir} {p x : Cell P} {t u v : Tree (Cell P)}

omit [DecidableEq P] in
/-- The same tree, seen from the inner child of the sibling of the subtree. -/
theorem at_inner : At m (⟨d, p, .mk d u x v⟩ :: c) t ↔
    At m (⟨d, x, v⟩ :: ⟨d.other, p, t⟩ :: c) u := by
  rw [at_sib]
  exact at_cons.symm

omit [DecidableEq P] in
/-- The same tree, seen from the outer child of the sibling of the subtree. -/
theorem at_outer : At m (⟨d, p, .mk d u x v⟩ :: c) t ↔
    At m (⟨d.other, x, u⟩ :: ⟨d.other, p, t⟩ :: c) v := by
  rw [at_inner, at_sib]

omit [DecidableEq P] in
/-- The sibling is known to be the other child, also where the subtree is empty. -/
theorem At.ptr_ne_sib {s : Tree (Cell P)} {a : P} (h : At m (⟨d, p, s⟩ :: c) t)
    (ha : ptr s = some a) : ptr t ≠ some a := (at_sib.1 h).ptr_sib_ne ha

/-- The last part of `repair_after_remove`. -/
theorem repairAfterRemoveOuter_spec (h : At m (⟨d, p, .mk d u x v⟩ :: c) t) (hv : v ≠ .nil) :
    ∃ m', (repairAfterRemoveOuter (ptr t) (some p.addr) (some x.addr)).run m = some ((), m') ∧
      At m' c (.mk d (.mk d t (p.setRed false) u) (x.mapFlags fun _ => p.flags.mark)
        (v.mapRoot (·.setRed false))) := by
  obtain ⟨b, hb⟩ := exists_ptr hv
  -- The sibling gets the flags of the parent, which is painted black.
  obtain ⟨m₁, hrun₁, h₁⟩ := h.store_sib (ptr_mk _ _ _ _) fun _ => p.flags.mark
  rw [Tree.mapRoot_mk] at h₁
  obtain ⟨m₂, hrun₂, h₂⟩ := h₁.store_parent (·.setRed false)
  obtain ⟨m₃, hrun₃, h₃⟩ := (at_outer.1 h₂).store_root hb (·.setRed false)
  obtain ⟨m', hrun, h'⟩ := rotate_spec (at_cons.1 (at_outer.2 h₃))
  refine ⟨m', ?_, h'⟩
  have hp := h.parent_eq
  have hp₂ : m₂.node p.addr = _ := h₂.parent_eq
  have hx₂ : m₂.node x.addr = _ := (at_sib.1 h₂).node_eq
  have hne : ptr t ≠ some x.addr := h.ptr_ne_sib (ptr_mk _ _ _ _)
  simp only [Cell.mapFlags_addr] at hrun
  cases d <;>
    simp [repairAfterRemoveOuter, makeBlack, hp, hrun₁, hrun₂, hp₂, hx₂, Node.mkDir, hne, hb,
      hrun₃, rotateLeft, rotateRight, hrun]

/-- The part of `repair_after_remove` after its loop, where the outer child of
    the sibling is red. -/
theorem repairAfterRemoveRotate_outer (h : At m (⟨d, p, .mk d u x v⟩ :: c) t)
    (hv : v.isRed = true) :
    ∃ m', (repairAfterRemoveRotate (ptr t) (some p.addr) (some x.addr)).run m = some ((), m') ∧
      At m' c (.mk d (.mk d t (p.setRed false) u) (x.mapFlags fun _ => p.flags.mark)
        (v.mapRoot (·.setRed false))) := by
  obtain ⟨m', hrun, h'⟩ := repairAfterRemoveOuter_spec h (by rintro rfl; simp at hv)
  refine ⟨m', ?_, h'⟩
  have hp := h.parent_eq
  have hrp := run_isRed_parent h
  have hx := (at_sib.1 h).node_eq
  have hu := run_isBlack (at_inner.1 h)
  have hv' := run_isBlack (at_outer.1 h)
  rw [hv] at hv'
  have hne : ptr t ≠ some x.addr := h.ptr_ne_sib (ptr_mk _ _ _ _)
  cases d <;> cases hr : red p <;> cases hu' : u.isRed <;>
    simp [repairAfterRemoveRotate, hrp, hr, hx, hp, Node.mkDir, hu, hu', hv', hne, hrun]

/-- The part of `repair_after_remove` after its loop, where only the inner child
    of the sibling is red. -/
theorem repairAfterRemoveRotate_inner {y : Cell P} {w z : Tree (Cell P)}
    (h : At m (⟨d, p, .mk d (.mk d w y z) x v⟩ :: c) t) (hy : red y = true)
    (hv : v.isRed = false) :
    ∃ m', (repairAfterRemoveRotate (ptr t) (some p.addr) (some x.addr)).run m = some ((), m') ∧
      At m' c (.mk d (.mk d t (p.setRed false) w) (y.mapFlags fun _ => p.flags.mark)
        (.mk d z (x.setRed false).mark v)) := by
  -- The sibling is painted red and its inner child black, and both are marked.
  obtain ⟨m₁, hrun₁, h₁⟩ := h.store_sib (ptr_mk _ _ _ _) (·.setRed true)
  rw [Tree.mapRoot_mk] at h₁
  obtain ⟨m₂, hrun₂, h₂⟩ := (at_inner.1 h₁).store_root (ptr_mk _ _ _ _) (·.setRed false)
  obtain ⟨m₃, hrun₃, h₃⟩ := (at_inner.2 h₂).store_sib (ptr_mk _ _ _ _) .mark
  rw [Tree.mapRoot_mk, Tree.mapRoot_mk] at h₃
  obtain ⟨m₄, hrun₄, h₄⟩ := (at_inner.1 h₃).store_root (ptr_mk _ _ _ _) .mark
  rw [Tree.mapRoot_mk] at h₄
  -- The inner child takes the place of the sibling.
  obtain ⟨m₅, hrun₅, h₅⟩ := rotate_other_spec (at_cons.1 h₄)
  have hx₅ : m₅.node x.addr = _ := (at_outer.1 (at_sib.2 h₅)).node_eq
  obtain ⟨m', hrun, h'⟩ := repairAfterRemoveOuter_spec (at_sib.2 h₅) (by cases d <;> simp [Tree.mk])
  refine ⟨m', ?_, ?_⟩
  · have hp := h.parent_eq
    have hrp := run_isRed_parent h
    have hx := (at_sib.1 h).node_eq
    have hx₁ : m₁.node x.addr = _ := (at_sib.1 h₁).node_eq
    have hx₃ : m₃.node x.addr = _ := (at_sib.1 h₃).node_eq
    have hu : (isBlack (some y.addr)).run m = some (false, m) := by
      simpa [hy] using run_isBlack (at_inner.1 h)
    have hv' := run_isBlack (at_outer.1 h)
    have hne : ptr t ≠ some x.addr := h.ptr_ne_sib (ptr_mk _ _ _ _)
    simp only [Cell.mapFlags_addr] at hrun₂ hrun₃ hrun₄ hrun₅ hrun
    cases d <;> cases hr : red p <;>
      simp [repairAfterRemoveRotate, hrp, hr, hx, hp, Node.mkDir, hu, hv, hv', hne, makeRed,
        makeBlack, markModified, hrun₁, hx₁, hrun₂, hrun₃, hx₃, hrun₄, rotateLeft, rotateRight] <;>
      dsimp only [Dir.other] at hrun₅ <;> simp [hrun₅, hx₅, Node.mkDir, hrun]
  · rw [Tree.mapRoot_mk] at h'
    exact h'

/-- The part of `repair_after_remove` after its loop, where both children of the
    sibling are black. -/
theorem repairAfterRemoveRotate_black (h : At m (⟨d, p, .mk d u x v⟩ :: c) t)
    (hp : red p = true) (hu : u.isRed = false) (hv : v.isRed = false) :
    ∃ m', (repairAfterRemoveRotate (ptr t) (some p.addr) (some x.addr)).run m = some ((), m') ∧
      At m' c (.mk d t (p.setRed false) (.mk d u (x.setRed true) v)) := by
  obtain ⟨m₁, hrun₁, h₁⟩ := h.store_sib (ptr_mk _ _ _ _) (·.setRed true)
  rw [Tree.mapRoot_mk] at h₁
  obtain ⟨m', hrun, h'⟩ := h₁.store_parent (·.setRed false)
  refine ⟨m', ?_, at_cons.1 h'⟩
  have hrp := run_isRed_parent h
  have hx := (at_sib.1 h).node_eq
  have hu' := run_isBlack (at_inner.1 h)
  have hv' := run_isBlack (at_outer.1 h)
  cases d <;> simp [repairAfterRemoveRotate, hrp, hp, hx, Node.mkDir, hu, hu', hv, hv', makeRed,
    makeBlack, hrun₁, hrun]

/-- The part of `repair_after_remove` after its loop does what `removeRotate`
    does to the tree. -/
theorem repairAfterRemoveRotate_spec (h : At m (⟨d, p, .mk d u x v⟩ :: c) t)
    (hr : ¬(red p = false ∧ u.isRed = false ∧ v.isRed = false)) :
    ∃ m', (repairAfterRemoveRotate (ptr t) (some p.addr) (some x.addr)).run m = some ((), m') ∧
      At m' c (removeRotate d t p (.mk d u x v)) := by
  simp only [removeRotate, Tree.root?_mk, Tree.child_mk, Tree.child_other_mk, Tree.mapRoot_mk]
  split_ifs with h₁ h₂
  · exact repairAfterRemoveRotate_black h h₁.1 h₁.2.1 h₁.2.2
  · exact repairAfterRemoveRotate_outer h h₂
  · rw [Bool.not_eq_true] at h₂
    have hu : u.isRed = true := by
      cases hp : red p <;> cases hu : u.isRed <;> simp_all
    obtain ⟨w, y, z, rfl, hy⟩ := Tree.eq_mk_of_isRed hu d
    simpa using repairAfterRemoveRotate_inner h hy h₂

/-- An iteration of `repair_after_remove` where the sibling is black. -/
theorem run_repairAfterRemoveLoop_black (fuel : ℕ) (h : At m (⟨d, p, .mk d u x v⟩ :: c) t)
    (hx : red x = false) :
    (repairAfterRemoveLoop (fuel + 1) (ptr t) (some p.addr)).run m =
      if red p = false ∧ u.isRed = false ∧ v.isRed = false then (do
        makeRed (some x.addr)
        repairAfterRemoveLoop fuel (some p.addr) (← load (some p.addr)).parent : Prog P Unit).run m
      else (repairAfterRemoveRotate (ptr t) (some p.addr) (some x.addr)).run m := by
  have hp := h.parent_eq
  have hx' := (at_sib.1 h).node_eq
  have hrx : (isRed (some x.addr)).run m = some (false, m) := by
    simpa [hx] using run_isRed (at_sib.1 h)
  have hrp := run_isBlack_parent h
  have hu := run_isBlack (at_inner.1 h)
  have hv := run_isBlack (at_outer.1 h)
  have hne : ptr t ≠ some x.addr := h.ptr_ne_sib (ptr_mk _ _ _ _)
  rw [repairAfterRemoveLoop]
  cases d <;> cases hr : red p <;> cases hu' : u.isRed <;> cases hv' : v.isRed <;>
    simp [hp, hx', Node.mkDir, hne.symm, hrx, hrp, hr, hu, hu', hv, hv']

/-- An iteration of `repair_after_remove` where the sibling is red: the tree is
    rotated so that the sibling is black, and the loop ends. -/
theorem run_repairAfterRemoveLoop_red (fuel : ℕ) (h : At m (⟨d, p, .mk d u x v⟩ :: c) t)
    (hx : red x = true) :
    ∃ m', (repairAfterRemoveLoop (fuel + 1) (ptr t) (some p.addr)).run m =
        (repairAfterRemoveRotate (ptr t) (some p.addr) (ptr u)).run m' ∧
      At m' (⟨d, p.setRed true, u⟩ :: ⟨d, (x.setRed false).mark, v⟩ :: c) t := by
  obtain ⟨m₁, hrun₁, h₁⟩ := h.store_parent (·.setRed true)
  obtain ⟨m₂, hrun₂, h₂⟩ := h₁.store_sib (ptr_mk _ _ _ _) (·.setRed false)
  rw [Tree.mapRoot_mk] at h₂
  obtain ⟨m₃, hrun₃, h₃⟩ := h₂.store_sib (ptr_mk _ _ _ _) .mark
  rw [Tree.mapRoot_mk] at h₃
  obtain ⟨m', hrun, h'⟩ := rotate_spec (at_cons.1 h₃)
  replace h' := at_cons.2 (at_cons.2 h')
  refine ⟨m', ?_, h'⟩
  have hp := h.parent_eq
  have hrx : (isRed (some x.addr)).run m = some (true, m) := by
    simpa [hx] using run_isRed (at_sib.1 h)
  have hp₃ : m₃.node p.addr = _ := h₃.parent_eq
  have hp' : m'.node p.addr = _ := h'.parent_eq
  have hrp : (isBlack (some p.addr)).run m' = some (false, m') := run_isBlack_parent h'
  have hne : ptr t ≠ some x.addr := h.ptr_ne_sib (ptr_mk _ _ _ _)
  simp only [Cell.mapFlags_addr] at hrun₃ hrun
  rw [repairAfterRemoveLoop]
  cases d <;>
    simp [hp, Node.mkDir, hne, hne.symm, hrx, makeRed, hrun₁, makeBlack, hrun₂, markModified,
      hrun₃, hp₃, rotateLeft, rotateRight, hrun, hp', hrp]

end

/-- `repair_after_remove` does what `repairRemove` does to the tree. -/
theorem repairAfterRemoveLoop_spec {c : Ctx (Cell P)} {t : Tree (Cell P)} {fuel n : ℕ}
    (h : At m c t) (hc : Ctx.Balanced c (n + 1)) (ht : t.Balanced n) (hf : c.length < fuel) :
    ∃ m', (repairAfterRemoveLoop fuel (ptr t) (up c)).run m = some ((), m') ∧
      At m' [] (repairRemove c t) := by
  obtain ⟨fuel, rfl⟩ := Nat.exists_eq_succ_of_ne_zero (Nat.ne_zero_of_lt hf)
  fun_induction repairRemove c t generalizing m fuel n with
  | case1 t => exact ⟨m, by simp [repairAfterRemoveLoop], h⟩
  | case2 f c t hn =>
    obtain ⟨_, _, _, e⟩ := Tree.Balanced.exists_mk hc.1 .left
    simp [e] at hn
  | case3 f c t s hs hsr =>
    obtain ⟨d, p, sib⟩ := f
    obtain ⟨u, v, rfl⟩ := Tree.eq_mk_of_root? hs d
    have hu := ((Tree.balanced_red hsr).1 hc.1).2.2.1
    obtain ⟨u₁, y, u₂, rfl⟩ := hu.exists_mk d
    obtain ⟨m₁, hrun₁, h₁⟩ := run_repairAfterRemoveLoop_red fuel h hsr
    obtain ⟨m', hrun, h'⟩ := repairAfterRemoveRotate_spec h₁ (by simp)
    refine ⟨m', ?_, by simpa using at_plug.1 (at_cons.1 h')⟩
    rw [up_cons, hrun₁, ptr_mk]
    exact hrun
  | case4 f c t s hs hsr hb ih =>
    obtain ⟨d, p, sib⟩ := f
    obtain ⟨u, v, rfl⟩ := Tree.eq_mk_of_root? hs d
    rw [Bool.not_eq_true] at hsr
    simp only [Tree.child_mk, Tree.child_other_mk] at hb
    obtain ⟨fuel, rfl⟩ : ∃ k, fuel = k + 1 :=
      Nat.exists_eq_succ_of_ne_zero (by simp at hf; omega)
    obtain ⟨m₁, hrun₁, h₁⟩ := h.store_sib (ptr_mk _ _ _ _) (·.setRed true)
    obtain ⟨hsib, hc⟩ := (Ctx.balanced_black hb.1).1 hc
    have hbal : (Tree.mk d t p ((Tree.mk d u s v).mapRoot (·.setRed true))).Balanced (n + 1) := by
      rw [Tree.mapRoot_mk]
      exact (Tree.balanced_black hb.1).2 ⟨n, rfl, ht, balanced_mk_red hsr hb.2.1 hb.2.2 hsib⟩
    obtain ⟨m', hrun, h'⟩ := ih (at_cons.1 h₁) hc hbal fuel (by simpa using hf)
    refine ⟨m', ?_, h'⟩
    have hp₁ := h₁.parent_eq
    rw [up_cons, run_repairAfterRemoveLoop_black (fuel + 1) h hsr, if_pos hb]
    rw [ptr_mk] at hrun
    simp [makeRed, hrun₁, hp₁, hrun]
  | case5 f c t s hs hsr hb =>
    obtain ⟨d, p, sib⟩ := f
    obtain ⟨u, v, rfl⟩ := Tree.eq_mk_of_root? hs d
    rw [Bool.not_eq_true] at hsr
    simp only [Tree.child_mk, Tree.child_other_mk] at hb
    obtain ⟨m', hrun, h'⟩ := repairAfterRemoveRotate_spec h hb
    refine ⟨m', ?_, at_plug.1 h'⟩
    rw [up_cons, run_repairAfterRemoveLoop_black fuel h hsr, if_neg hb, hrun]

/-! ## `rbt_remove` -/

/-- `rbt_remove` once the node has at most one child. The node keeps its links. -/
theorem rbtRemoveUnlink_spec {c : Ctx (Cell P)} {d d' : Dir} {x : Cell P} {s : Tree (Cell P)}
    {fuel : ℕ} (h : At m c (.mk d .nil x s)) (hrb : (plug c (.mk d' .nil x s)).IsRedBlack)
    (hf : c.length < fuel) :
    ∃ m', (rbtRemoveUnlink fuel (some x.addr)).run m = some ((), m') ∧
      At m' [] (unlinkTree (markCtx c) x s) ∧
      m'.node x.addr = .mkDir d x.flags.mark none (ptr s) (up c) := by
  have hup : up (markCtx c) = up c := by cases c <;> rfl
  obtain ⟨m₁, hrun₁, h₁⟩ := rbtMarkModified_spec h (ptr_mk _ _ _ _) hf
  rw [Tree.mapRoot_mk] at h₁
  have hnd := h₁.nodup
  simp only [addrs_mk, addrs_nil, zero_add, Multiset.cons_add, Multiset.nodup_cons,
    Multiset.nodup_add, Multiset.mem_add, Multiset.disjoint_left, Cell.mark_addr] at hnd
  have hc₁ := h₁.ctx
  rw [ptr_mk, Cell.mark_addr] at hc₁
  obtain ⟨m₂, hrun₂, hc₂, hm₂⟩ := fixDownptr_spec (ptr s) hc₁ (by grind) (by grind)
  have hx₁ : m₁.node x.addr = _ := h₁.node_eq
  have hx₂ : m₂.node x.addr = _ := (hm₂ _ (by grind)).trans hx₁
  have hx' : m₂.node x.addr = .mkDir d x.flags.mark none (ptr s) (up c) := hup ▸ hx₂
  have hs₂ : TreeAt m₂ (some x.addr) s :=
    (treeAt_mk.1 h₁.tree).2.2.congr fun b hb => hm₂ b (by grind)
  cases s with
  | node l y r =>
    have h₂ : At (m₂.reparent (up (markCtx c)) (some y.addr)) (markCtx c) (.node l y r) := by
      refine ⟨hc₂.congr (fun b hb => ?_) (by simp), hs₂.reparent _ (by grind) fun b hb => ?_, ?_⟩
      · have : y.addr ∈ addrs (.node l y r) := mem_addrs_of_ptr rfl
        grind
      · rw [reparent_node, ptr_node]
      · simpa [Multiset.nodup_add, Multiset.disjoint_left] using hnd.2
    obtain ⟨m', hrun, h'⟩ := h₂.store_root (ptr_node l y r) (·.setRed false)
    rw [ptr_node] at hrun₂
    rw [Mem.reparent] at hrun
    refine ⟨m', ?_, at_plug.1 h', ?_⟩
    · cases d <;>
        simp [rbtRemoveUnlink, hrun₁, hx₁, Node.mkDir, hrun₂, hx₂, run_store, makeBlack] <;>
        simpa [run_store] using hrun
    · have hne : x.addr ≠ y.addr := by
        have : y.addr ∈ addrs (.node l y r) := mem_addrs_of_ptr rfl
        grind
      obtain rfl := (Prod.mk.inj (Option.some.inj hrun)).2
      rw [update_node_of_ne _ hne, update_node_of_ne _ hne, hx']
  | nil =>
    rw [ptr_nil] at hrun₂
    have hx₂' : (m₂.node x.addr).flags.red = red x := by rw [hx₂, Node.mkDir_flags]; rfl
    have hx₂'' : (m₂.node x.addr).parent = up (markCtx c) := by rw [hx₂, Node.mkDir_parent]
    have h₂ : At m₂ (markCtx c) .nil := ⟨hc₂, trivial, by simpa using hnd.2.2.1⟩
    cases hr : red x with
    | true =>
      refine ⟨m₂, ?_, ?_, hx'⟩
      · cases d <;> simp [rbtRemoveUnlink, hrun₁, hx₁, Node.mkDir, hrun₂, isRed, hx₂', hr]
      · simpa [unlinkTree, hr] using at_plug.1 h₂
    | false =>
      obtain ⟨n, hcb, hxb, -⟩ := isRedBlack_plug.1 hrb
      obtain ⟨k, rfl, hk, -⟩ := (Tree.balanced_black hr).1 hxb
      obtain ⟨m', hrun, h'⟩ := repairAfterRemoveLoop_spec h₂ (balanced_markCtx hcb) hk
        (show _ < fuel by simpa [markCtx] using hf)
      refine ⟨m', ?_, by simpa [unlinkTree, hr] using h', ?_⟩
      · cases d <;>
          simp [rbtRemoveUnlink, hrun₁, hx₁, Node.mkDir, hrun₂, isRed, hx₂', hr, repairAfterRemove,
            hx₂''] <;>
          exact hrun
      · -- The repair only touches the tree, which the node is not part of.
        have hcl := (at_plug.1 h₂).closed
        have hmem : ∀ a, a ∈ order (plug (markCtx c) .nil) ↔ a ∈ addrsCtx (markCtx c) := by
          intro a
          rw [← Multiset.mem_coe, ← addrs, addrs_plug, addrs_nil, zero_add]
        have hp : Within {a | a ∈ order (plug (markCtx c) .nil)} (up (markCtx c)) := by
          cases c with
          | nil => exact within_none
          | cons f c => exact within_some.2 ((hmem _).2 (by simp [markCtx]))
        exact ((local_repairAfterRemoveLoop hp _ hcl hrun).2.1 _ (by simp [hmem]; grind)).trans hx'

/-- `rbt_remove` does what `removeTree` does to the tree. The node keeps the links it had before it
    was unlinked. -/
theorem rbtRemove_spec {c : Ctx (Cell P)} {l r : Tree (Cell P)} {x : Cell P} {fuel : ℕ}
    (h : At m c (.node l x r)) (hrb : (plug c (.node l x r)).IsRedBlack)
    (hf : c.length + r.height < fuel) :
    ∃ m', (rbtRemove fuel x.addr).run m = some ((), m') ∧ At m' [] (removeTree c l x r) ∧
      ∃ d fl, (d = .right ↔ l ≠ .nil ∧ r = .nil) ∧ m'.node x.addr =
        .mkDir d fl none (ptr (swapTree c l x r).2.2) (up (swapTree c l x r).1) := by
  obtain ⟨d', hrb'⟩ := swapTree_balanced hrb
  have hlen := length_swapTree c l x r
  have hx' : (swapTree c l x r).2.1.addr = x.addr := by
    fun_cases swapTree c l x r <;> rfl
  suffices ∃ d m₁, (d = .right ↔ l ≠ .nil ∧ r = .nil) ∧
      (rbtRemove fuel x.addr).run m = (rbtRemoveUnlink fuel (some x.addr)).run m₁ ∧
      At m₁ (swapTree c l x r).1 (.mk d .nil (swapTree c l x r).2.1 (swapTree c l x r).2.2) by
    obtain ⟨d, m₁, hd, hrun₁, h₁⟩ := this
    rw [hrun₁, ← hx']
    obtain ⟨m', hrun, h', hn⟩ := rbtRemoveUnlink_spec h₁ hrb' (show _ < fuel by omega)
    exact ⟨m', hrun, h', d, _, hd, hn⟩
  have hx := h.tree.1
  by_cases hl : l = .nil
  · subst hl
    exact ⟨.left, m, by simp, by simp [rbtRemove, hx], h⟩
  by_cases hr : r = .nil
  · subst hr
    have hsw : swapTree c l x .nil = (c, x, l) := by cases l <;> rfl
    rw [hsw]
    exact ⟨.right, m, by simp [hl], by simp [rbtRemove, hx], h⟩
  · obtain ⟨m₁, hrun₁, h₁⟩ := swapWithSuccessor_spec h hl hr (show _ < fuel by omega)
    obtain ⟨a, ha⟩ := exists_ptr hl
    obtain ⟨b, hb⟩ := exists_ptr hr
    exact ⟨.left, m₁, by simp [hr], by simp [rbtRemove, hx, ha, hb, hrun₁], h₁⟩

end Dlb.Rbt
