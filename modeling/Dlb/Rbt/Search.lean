import Dlb.Rbt.Repair

/-!
# Insertion, on trees

The search made by `rbt_insert`, as a walk from a subtree and its context to
the place of the key: a node with that key, or an empty subtree. The walk marks
every node it visits as modified. `cmp a` is the outcome of comparing the key
with the node at `a`; it is *sorted* along a list of nodes (`Sorted`) if the
nodes before the key come first, then at most one node with the key, and then
those after the key.

`insertTree` is `rbt_insert` on trees: the node which is displaced, if any, and
the tree after the insertion.
-/

namespace Dlb.Rbt

open Coloured

variable {P : Type} (cmp : P → ℤ)

/-- Along the list, the outcomes of the comparison decrease, and at most one of
    them is `0`. -/
def Sorted (l : List P) : Prop :=
  l.Pairwise fun a b => (cmp a ≤ 0 → cmp b < 0) ∧ (0 ≤ cmp b → 0 < cmp a)

/-- The search of `rbt_insert` from the subtree `t` in the context `c`. -/
def search : Ctx (Cell P) → Tree (Cell P) → Ctx (Cell P) × Tree (Cell P)
  | c, .nil => (c, .nil)
  | c, .node l x r =>
    if cmp x.addr = 0 then (c, .node l x.mark r)
    else if cmp x.addr < 0 then search (⟨.left, x.mark, r⟩ :: c) l
    else search (⟨.right, x.mark, l⟩ :: c) r

/-- The end of `rbt_insert` of the node at `n`, at the place that the search has
    reached: the node that is displaced, and the tree. -/
def insertAt (n : P) : Ctx (Cell P) × Tree (Cell P) → Option P × Tree (Cell P)
  | (c, .nil) => (none, repairInsert c (.node .nil ⟨n, ⟨true, true⟩⟩ .nil))
  | (c, .node l x r) => (some x.addr, plug c (.node l ⟨n, x.flags⟩ r))

/-- `rbt_insert` of the node at `n`: the node it displaces, and the tree. -/
def insertTree (n : P) (t : Tree (Cell P)) : Option P × Tree (Cell P) :=
  insertAt n (search cmp [] t)

variable {cmp}

/-! ## What the search keeps -/

/-- A property of the tree which holds whatever the marks are holds after the
    search. -/
theorem search_induction {p : Tree (Cell P) → Prop}
    (hp : ∀ c l x r, p (plug c (.node l x r)) → p (plug c (.node l x.mark r)))
    {c : Ctx (Cell P)} {t : Tree (Cell P)} (h : p (plug c t)) :
    p (plug (search cmp c t).1 (search cmp c t).2) := by
  fun_induction search cmp c t with
  | case1 c => exact h
  | case2 c l x r hx => exact hp c l x r h
  | case3 c l x r hx hlt ih => exact ih (hp c l x r h)
  | case4 c l x r hx hlt ih => exact ih (hp c l x r h)

theorem order_search (cmp : P → ℤ) (t : Tree (Cell P)) :
    order (plug (search cmp [] t).1 (search cmp [] t).2) = order t := by
  refine search_induction (p := fun t' => order t' = order t) ?_ (c := []) rfl
  intro c l x r h
  rw [← h]
  exact order_plug_congr c (by simp)

theorem isRedBlack_search (cmp : P → ℤ) {t : Tree (Cell P)} (ht : t.IsRedBlack) :
    (plug (search cmp [] t).1 (search cmp [] t).2).IsRedBlack := by
  refine search_induction (p := Tree.IsRedBlack) ?_ (c := []) ht
  intro c l x r h
  rwa [isRedBlack_plug] at h ⊢

/-! ## What the search finds -/

/-- The nodes before and after the place of the search compare as they should,
    and so does the node that is found. -/
theorem search_spec {c : Ctx (Cell P)} {t : Tree (Cell P)} (hs : Sorted cmp (order t))
    (hb : ∀ x ∈ Ctx.before c, 0 < cmp x.addr) (ha : ∀ x ∈ Ctx.after c, cmp x.addr < 0) :
    (∀ x ∈ (search cmp c t).2.root?, cmp x.addr = 0) ∧
      (∀ a ∈ (Ctx.before (search cmp c t).1).map Cell.addr ++
        order ((search cmp c t).2.child .left), 0 < cmp a) ∧
      (∀ a ∈ order ((search cmp c t).2.child .right) ++
        (Ctx.after (search cmp c t).1).map Cell.addr, cmp a < 0) := by
  fun_induction search cmp c t with
  | case1 c => simpa [Tree.child] using ⟨hb, ha⟩
  | case2 c l x r hx =>
    rw [Sorted, order_node, List.pairwise_append, List.pairwise_cons] at hs
    obtain ⟨-, ⟨hr, -⟩, hl⟩ := hs
    refine ⟨by simpa using hx, fun a h => ?_, fun a h => ?_⟩
    · rcases List.mem_append.1 h with h | h
      · obtain ⟨y, hy, rfl⟩ := List.mem_map.1 h
        exact hb y hy
      · exact (hl a h x.addr (by simp)).2 hx.ge
    · rcases List.mem_append.1 h with h | h
      · exact (hr a h).1 hx.le
      · obtain ⟨y, hy, rfl⟩ := List.mem_map.1 h
        exact ha y hy
  | case3 c l x r hx hlt ih =>
    rw [Sorted, order_node, List.pairwise_append, List.pairwise_cons] at hs
    obtain ⟨hl, ⟨hr, -⟩, -⟩ := hs
    refine ih hl hb fun y hy => ?_
    simp only [Ctx.after, List.cons_append, List.mem_cons, List.mem_append] at hy
    rcases hy with rfl | hy | hy
    · exact hlt
    · exact (hr _ (List.mem_map_of_mem hy)).1 hlt.le
    · exact ha y hy
  | case4 c l x r hx hlt ih =>
    rw [Sorted, order_node, List.pairwise_append, List.pairwise_cons] at hs
    obtain ⟨-, ⟨hr, hr'⟩, hl⟩ := hs
    have hgt : 0 < cmp x.addr := by omega
    refine ih hr' (fun y hy => ?_) ha
    simp only [Ctx.before, List.mem_append, List.mem_singleton] at hy
    rcases hy with hy | hy | rfl
    · exact hb y hy
    · exact (hl _ (List.mem_map_of_mem hy) x.addr (by simp)).2 hgt.le
    · exact hgt

/-- After an insertion, the new node stands in the order where the key belongs,
    in the place of the displaced node, if any. -/
theorem order_insertTree {n : P} {t : Tree (Cell P)} (hs : Sorted cmp (order t)) :
    ∃ xs ys, order t = xs ++ ((insertTree cmp n t).1.toList ++ ys) ∧
      order (insertTree cmp n t).2 = xs ++ n :: ys ∧
      (∀ a ∈ xs, 0 < cmp a) ∧ (∀ a ∈ ys, cmp a < 0) ∧
      (∀ a ∈ (insertTree cmp n t).1, cmp a = 0) := by
  have ho := order_search cmp t
  have hf := search_spec (c := []) hs (by simp [Ctx.before]) (by simp [Ctx.after])
  rw [order_plug] at ho
  unfold insertTree
  generalize search cmp [] t = z at ho hf
  obtain ⟨c, t'⟩ := z
  cases t' with
  | nil =>
    refine ⟨_, _, ho.symm, ?_, by simpa [Tree.child] using hf.2.1,
      by simpa [Tree.child] using hf.2.2, by simp [insertAt]⟩
    rw [insertAt, order_repairInsert, order_plug]
    simp
  | node l x r =>
    refine ⟨(Ctx.before c).map Cell.addr ++ order l, order r ++ (Ctx.after c).map Cell.addr,
      by simpa [insertAt] using ho.symm, ?_, hf.2.1, hf.2.2, by simpa [insertAt] using hf.1⟩
    rw [insertAt, order_plug]
    simp

theorem isRedBlack_insertTree (cmp : P → ℤ) (n : P) {t : Tree (Cell P)} (ht : t.IsRedBlack) :
    (insertTree cmp n t).2.IsRedBlack := by
  have h := isRedBlack_search cmp ht
  unfold insertTree
  generalize search cmp [] t = z at h
  obtain ⟨c, t'⟩ := z
  obtain ⟨k, hc, ht', hr⟩ := isRedBlack_plug.1 h
  cases t' with
  | nil =>
    obtain rfl : k = 0 := ht'
    exact isRedBlack_repairInsert hc ((Tree.balanced_red (d := .left) rfl).2 (by simp)) rfl
  | node l x r => exact isRedBlack_plug.2 ⟨k, hc, ht', hr⟩

end Dlb.Rbt
