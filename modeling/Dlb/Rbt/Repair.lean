import Dlb.Rbt.Rep

/-!
# The repairs, on trees

What `repair_after_insert` and `repair_after_remove` do to the tree, as
functions on a subtree and its context. They only look at the colours, and only
change the flags and the shape of the tree:

* `order_repairInsert`, `order_repairRemove`: the nodes stay in the same order;
* `isRedBlack_repairInsert`: a red subtree below a red parent is repaired;
* `isRedBlack_repairRemove`: a subtree whose black height is one too small for
  its context is repaired.
-/

namespace Dlb.Rbt

open Coloured

variable {P : Type}

/-! ## After an insertion -/

/-- The last rotation after an insertion: the red parent `p` takes the place of
    the grandparent `g`, on the side `d` of which it is, as `t` is of `p`. -/
def insertRotate (d : Dir) (t : Tree (Cell P)) (p : Cell P) (s : Tree (Cell P)) (g : Cell P)
    (u : Tree (Cell P)) : Tree (Cell P) :=
  .mk d t (p.setRed false) (.mk d s (g.setRed true) u)

/-- `repair_after_insert` of the subtree `t` in the context `c`. -/
def repairInsert : Ctx (Cell P) → Tree (Cell P) → Tree (Cell P)
  | [], t => t.mapRoot (·.setRed false)
  | [f], t => plug [f] t
  | f :: g :: c, t =>
    if red f.val = false then plug (f :: g :: c) t
    else if g.sib.isRed then
      repairInsert c (.mk g.dir (.mk f.dir t (f.val.setRed false) f.sib) (g.val.setRed true)
        (g.sib.mapRoot (·.setRed false)))
    else if f.dir = g.dir then plug c (insertRotate g.dir t f.val f.sib g.val g.sib)
    else match t.root? with
      | none => plug (f :: g :: c) t
      | some n => plug c (insertRotate g.dir (.mk g.dir f.sib f.val (t.child g.dir)) n
          (t.child g.dir.other) g.val g.sib)

/-! ## After a removal -/

/-- The last step after a removal: the subtree `t`, on the side `d` of its
    parent `p`, is short of a black node, and its sibling `s` is black. -/
def removeRotate (d : Dir) (t : Tree (Cell P)) (p : Cell P) (s : Tree (Cell P)) : Tree (Cell P) :=
  match s.root? with
  | none => .mk d t p s
  | some x =>
    if red p ∧ (s.child d).isRed = false ∧ (s.child d.other).isRed = false then
      .mk d t (p.setRed false) (s.mapRoot (·.setRed true))
    else if (s.child d.other).isRed then
      .mk d (.mk d t (p.setRed false) (s.child d)) (x.mapFlags fun _ => p.flags.mark)
        ((s.child d.other).mapRoot (·.setRed false))
    else match (s.child d).root? with
      | none => .mk d t p s
      | some y =>
        .mk d (.mk d t (p.setRed false) ((s.child d).child d)) (y.mapFlags fun _ => p.flags.mark)
          (.mk d ((s.child d).child d.other) (x.setRed false).mark (s.child d.other))

/-- `repair_after_remove` of the subtree `t` in the context `c`. -/
def repairRemove : Ctx (Cell P) → Tree (Cell P) → Tree (Cell P)
  | [], t => t
  | f :: c, t =>
    match f.sib.root? with
    | none => plug (f :: c) t
    | some s =>
      if red s then
        plug c (.mk f.dir
          (removeRotate f.dir t (f.val.setRed true) (f.sib.child f.dir)) (s.setRed false).mark
          (f.sib.child f.dir.other))
      else if red f.val = false ∧ (f.sib.child f.dir).isRed = false ∧
          (f.sib.child f.dir.other).isRed = false then
        repairRemove c (.mk f.dir t f.val (f.sib.mapRoot (·.setRed true)))
      else plug c (removeRotate f.dir t f.val f.sib)

/-! ## The order of the nodes -/

theorem order_mapRoot (f : Flags → Flags) (t : Tree (Cell P)) :
    order (t.mapRoot (·.mapFlags f)) = order t := by
  cases t <;> simp [Tree.mapRoot]

/-- Repainting the nodes of a tree, or replacing its subtrees, keeps the order
    as long as the parts have the same order. -/
theorem order_mk_congr {d : Dir} {t t' s s' : Tree (Cell P)} {x x' : Cell P}
    (ht : order t' = order t) (hx : x'.addr = x.addr) (hs : order s' = order s) :
    order (.mk d t' x' s') = order (.mk d t x s) := by
  cases d <;> simp [Tree.mk, ht, hx, hs]

/-- A rotation keeps the order. -/
theorem order_rotate (d : Dir) (t y z : Tree (Cell P)) (p r : Cell P) :
    order (.mk d (.mk d t p y) r z) = order (.mk d t p (.mk d y r z)) := by
  cases d <;> simp [Tree.mk]

theorem order_insertRotate (d : Dir) (t s u : Tree (Cell P)) (p g : Cell P) :
    order (insertRotate d t p s g u) = order (.mk d (.mk d t p s) g u) := by
  rw [order_rotate]
  exact order_mk_congr rfl rfl (order_mk_congr rfl rfl rfl)

theorem order_repairInsert (c : Ctx (Cell P)) (t : Tree (Cell P)) :
    order (repairInsert c t) = order (plug c t) := by
  fun_induction repairInsert c t with
  | case1 t => exact order_mapRoot _ t
  | case2 | case3 => rfl
  | case4 f g c t hf hu ih =>
    rw [ih]
    exact order_plug_congr _
      (order_mk_congr (order_mk_congr rfl rfl rfl) rfl (order_mapRoot _ _))
  | case5 f g c t hf hu hd =>
    rw [plug_cons, plug_cons, ← hd]
    exact order_plug_congr _ (order_insertRotate _ _ _ _ _ _)
  | case6 => rfl
  | case7 f g c t hf hu hd n hn =>
    obtain ⟨a, b, rfl⟩ := Tree.eq_mk_of_root? hn g.dir
    have hd' : f.dir = g.dir.other := by
      cases h₁ : f.dir <;> cases h₂ : g.dir <;> simp_all
    rw [plug_cons, plug_cons, hd', Tree.mk_other, Tree.child_mk, Tree.child_other_mk]
    refine order_plug_congr _ ?_
    rw [order_insertRotate]
    exact order_mk_congr (order_rotate _ _ _ _ _ _) rfl rfl

theorem order_removeRotate (d : Dir) (t s : Tree (Cell P)) (p : Cell P) :
    order (removeRotate d t p s) = order (.mk d t p s) := by
  unfold removeRotate
  split
  · rfl
  · next x hx =>
    obtain ⟨a, b, rfl⟩ := Tree.eq_mk_of_root? hx d
    simp only [Tree.child_mk, Tree.child_other_mk, Tree.mapRoot_mk]
    split_ifs with h₁ h₂
    · exact order_mk_congr rfl rfl (order_mk_congr rfl rfl rfl)
    · rw [← order_rotate]
      exact order_mk_congr (order_mk_congr rfl rfl rfl) rfl (order_mapRoot _ _)
    · split
      · rfl
      · next y hy =>
        obtain ⟨a₁, a₂, rfl⟩ := Tree.eq_mk_of_root? hy d
        simp only [Tree.child_mk, Tree.child_other_mk]
        rw [order_rotate]
        refine order_mk_congr rfl rfl ?_
        rw [order_rotate]
        exact order_mk_congr rfl rfl (order_mk_congr rfl rfl rfl)

theorem order_repairRemove (c : Ctx (Cell P)) (t : Tree (Cell P)) :
    order (repairRemove c t) = order (plug c t) := by
  fun_induction repairRemove c t with
  | case1 => rfl
  | case2 => rfl
  | case3 f c t s hs hr =>
    obtain ⟨a, b, e⟩ := Tree.eq_mk_of_root? hs f.dir
    rw [plug_cons, e, Tree.child_mk, Tree.child_other_mk]
    refine order_plug_congr _ ?_
    rw [← order_rotate]
    refine order_mk_congr ?_ rfl rfl
    rw [order_removeRotate]
    exact order_mk_congr rfl rfl rfl
  | case4 f c t s hs hr hb ih =>
    rw [ih]
    exact order_plug_congr _ (order_mk_congr rfl rfl (order_mapRoot _ _))
  | case5 => exact order_plug_congr _ (order_removeRotate _ _ _ _)

/-! ## Balance -/

theorem isRed_mapRoot_setRed {t : Tree (Cell P)} (b : Bool) (ht : t.isRed = true) :
    (t.mapRoot (·.setRed b)).isRed = b := by
  cases t with
  | nil => simp at ht
  | node l x r => exact Cell.red_setRed x b

/-- Painting the root of a red tree black adds a black node to every path. -/
theorem balanced_mapRoot_black {t : Tree (Cell P)} {n : ℕ} (ht : t.isRed = true)
    (h : t.Balanced n) : (t.mapRoot (·.setRed false)).Balanced (n + 1) := by
  obtain ⟨l, x, r, rfl, hx⟩ := Tree.eq_mk_of_isRed ht .left
  rw [Tree.balanced_red hx] at h
  rw [Tree.mapRoot_mk, Tree.balanced_black (Cell.red_setRed x false)]
  exact ⟨n, rfl, h.2.2⟩

/-- Painting a black root red removes a black node from every path. -/
theorem balanced_mk_red {d : Dir} {l r : Tree (Cell P)} {x : Cell P} {n : ℕ}
    (hx : red x = false) (hl : l.isRed = false) (hr : r.isRed = false)
    (h : (Tree.mk d l x r).Balanced (n + 1)) : (Tree.mk d l (x.setRed true) r).Balanced n := by
  rw [Tree.balanced_black hx] at h
  obtain ⟨k, hk, h₁, h₂⟩ := h
  obtain rfl : n = k := by omega
  exact (Tree.balanced_red (Cell.red_setRed x true)).2 ⟨hl, hr, h₁, h₂⟩

theorem balanced_insertRotate {d : Dir} {t s u : Tree (Cell P)} {p g : Cell P} {n : ℕ}
    (ht : t.Balanced n) (hs : s.Balanced n) (hu : u.Balanced n) (hs' : s.isRed = false)
    (hu' : u.isRed = false) : (insertRotate d t p s g u).Balanced (n + 1) :=
  (Tree.balanced_black (Cell.red_setRed p false)).2 ⟨n, rfl, ht,
    (Tree.balanced_red (Cell.red_setRed g true)).2 ⟨hs', hu', hs, hu⟩⟩

/-- The repair after an insertion: the subtree is red and balanced, and its
    parent may be red. -/
theorem isRedBlack_repairInsert {c : Ctx (Cell P)} {t : Tree (Cell P)} {n : ℕ}
    (hc : Ctx.Balanced c n) (ht : t.Balanced n) (hr : t.isRed = true) :
    (repairInsert c t).IsRedBlack := by
  fun_induction repairInsert c t generalizing n with
  | case1 t => exact ⟨isRed_mapRoot_setRed false hr, _, balanced_mapRoot_black hr ht⟩
  | case2 t f =>
    refine isRedBlack_plug.2 ⟨n, hc, ht, fun _ => ?_⟩
    by_contra hf
    rw [Ctx.blackParent_cons, Bool.not_eq_false] at hf
    exact ((Ctx.balanced_red hf).1 hc).2.2.1
  | case3 f g c t hf => exact isRedBlack_plug.2 ⟨n, hc, ht, fun _ => hf⟩
  | case4 f g c t hf hu ih =>
    rw [Bool.not_eq_false] at hf
    obtain ⟨hs, hs', hg, hc⟩ := (Ctx.balanced_red hf).1 hc
    obtain ⟨hu', hc⟩ := (Ctx.balanced_black hg).1 hc
    refine ih hc ?_ (by simp)
    refine (Tree.balanced_red (Cell.red_setRed _ true)).2 ⟨by simp, isRed_mapRoot_setRed _ hu,
      ?_, balanced_mapRoot_black hu hu'⟩
    exact (Tree.balanced_black (Cell.red_setRed _ false)).2 ⟨n, rfl, ht, hs⟩
  | case5 f g c t hf hu hd =>
    rw [Bool.not_eq_false] at hf
    rw [Bool.not_eq_true] at hu
    obtain ⟨hs, hs', hg, hc⟩ := (Ctx.balanced_red hf).1 hc
    obtain ⟨hu', hc⟩ := (Ctx.balanced_black hg).1 hc
    exact isRedBlack_plug.2 ⟨n + 1, hc, balanced_insertRotate ht hs hu' hs' hu,
      by simp [insertRotate]⟩
  | case6 f g c t hf hu hd hn => cases t <;> simp at hr hn
  | case7 f g c t hf hu hd x hx =>
    rw [Bool.not_eq_false] at hf
    rw [Bool.not_eq_true] at hu
    obtain ⟨hs, hs', hg, hc⟩ := (Ctx.balanced_red hf).1 hc
    obtain ⟨hu', hc⟩ := (Ctx.balanced_black hg).1 hc
    obtain ⟨a, b, rfl⟩ := Tree.eq_mk_of_root? hx g.dir
    rw [Tree.isRed_mk] at hr
    obtain ⟨ha', hb', ha, hb⟩ := (Tree.balanced_red hr).1 ht
    simp only [Tree.child_mk, Tree.child_other_mk]
    refine isRedBlack_plug.2 ⟨n + 1, hc, balanced_insertRotate ?_ hb hu' hb' hu,
      by simp [insertRotate]⟩
    exact (Tree.balanced_red hf).2 ⟨hs', ha', hs, ha⟩

/-- The last step of the repair after a removal gives the right black height,
    and the colour of the parent to the new root of the subtree. -/
theorem balanced_removeRotate {d : Dir} {t s : Tree (Cell P)} {p : Cell P} {n k : ℕ}
    (ht : t.Balanced n) (hs : s.Balanced (n + 1)) (hs' : s.isRed = false)
    (hp : red p = false → ¬((s.child d).isRed = false ∧ (s.child d.other).isRed = false))
    (hk : k = if red p then n + 1 else n + 2) :
    (removeRotate d t p s).Balanced k ∧ ((removeRotate d t p s).isRed = true → red p = true) := by
  obtain ⟨a, x, b, rfl⟩ := hs.exists_mk d
  rw [Tree.isRed_mk] at hs'
  obtain ⟨_, hn, ha, hb⟩ := (Tree.balanced_black hs').1 hs
  obtain rfl : n = _ := Nat.succ.inj hn
  simp only [removeRotate, Tree.root?_mk, Tree.child_mk, Tree.child_other_mk, Tree.mapRoot_mk] at hp ⊢
  -- The new root of the subtree, which takes over the flags of `p`, is balanced
  -- at the height of `p` once its two children are balanced at `n + 1`.
  have key : ∀ {u v : Tree (Cell P)} {z : Cell P}, u.Balanced (n + 1) → v.Balanced (n + 1) →
      u.isRed = false → v.isRed = false →
      (Tree.mk d u (z.mapFlags fun _ => p.flags.mark) v).Balanced k ∧
        ((Tree.mk d u (z.mapFlags fun _ => p.flags.mark) v).isRed = true → red p = true) := by
    intro u v z hu hv hu' hv'
    have hz : red (z.mapFlags fun _ => p.flags.mark) = red p := rfl
    rw [Tree.isRed_mk, hz]
    refine ⟨?_, id⟩
    cases hr : red p with
    | true =>
      rw [hr, if_pos rfl] at hk
      exact (Tree.balanced_red (hz.trans hr)).2 ⟨hu', hv', hk ▸ hu, hk ▸ hv⟩
    | false =>
      rw [hr, if_neg (by simp)] at hk
      exact (Tree.balanced_black (hz.trans hr)).2 ⟨n + 1, hk, hu, hv⟩
  split_ifs with h₁ h₂
  · refine ⟨?_, by simp⟩
    rw [hk, if_pos h₁.1]
    exact (Tree.balanced_black (Cell.red_setRed p false)).2 ⟨n, rfl, ht,
      balanced_mk_red hs' h₁.2.1 h₁.2.2 hs⟩
  · exact key ((Tree.balanced_black (Cell.red_setRed p false)).2 ⟨n, rfl, ht, ha⟩)
      (balanced_mapRoot_black h₂ hb) (by simp) (isRed_mapRoot_setRed false h₂)
  · have ha' : a.isRed = true := by
      cases hr : red p <;> cases h : a.isRed <;> simp_all
    obtain ⟨a₁, y, a₂, rfl, hy⟩ := Tree.eq_mk_of_isRed ha' d
    obtain ⟨h₃, h₄, h₅, h₆⟩ := (Tree.balanced_red hy).1 ha
    simp only [Tree.root?_mk, Tree.child_mk, Tree.child_other_mk]
    exact key ((Tree.balanced_black (Cell.red_setRed p false)).2 ⟨n, rfl, ht, h₅⟩)
      ((Tree.balanced_black (by simp)).2 ⟨n, rfl, h₆, hb⟩) (by simp) (by simp)

/-- The repair after a removal: the subtree is black, and its black height is one
    less than its context requires. -/
theorem isRedBlack_repairRemove {c : Ctx (Cell P)} {t : Tree (Cell P)} {n : ℕ}
    (hc : Ctx.Balanced c (n + 1)) (ht : t.Balanced n) (hr : t.isRed = false) :
    (repairRemove c t).IsRedBlack := by
  fun_induction repairRemove c t generalizing n with
  | case1 t => exact ⟨hr, n, ht⟩
  | case2 f c t hn =>
    obtain ⟨_, _, _, e⟩ := Tree.Balanced.exists_mk hc.1 .left
    simp [e] at hn
  | case3 f c t s hs hsr =>
    obtain ⟨a, b, e⟩ := Tree.eq_mk_of_root? hs f.dir
    have hp : red f.val = false := by
      by_contra hf
      rw [Bool.not_eq_false] at hf
      have := ((Ctx.balanced_red hf).1 hc).2.1
      simp [e, hsr] at this
    obtain ⟨hsib, hc⟩ := (Ctx.balanced_black hp).1 hc
    rw [e, Tree.balanced_red hsr] at hsib
    obtain ⟨ha', hb', ha, hb⟩ := hsib
    rw [e, Tree.child_mk, Tree.child_other_mk]
    have hrot := balanced_removeRotate (d := f.dir) (p := f.val.setRed true) ht ha ha'
      (by simp) rfl
    refine isRedBlack_plug.2 ⟨n + 2, hc, (Tree.balanced_black (by simp)).2 ⟨n + 1, rfl, ?_, hb⟩,
      by simp⟩
    simpa using hrot.1
  | case4 f c t s hs hsr hb ih =>
    rw [Bool.not_eq_true] at hsr
    obtain ⟨a, b, e⟩ := Tree.eq_mk_of_root? hs f.dir
    obtain ⟨hsib, hc⟩ := (Ctx.balanced_black hb.1).1 hc
    rw [e, Tree.child_mk, Tree.child_other_mk] at hb
    rw [e] at hsib
    refine ih hc ?_ (by simpa using hb.1)
    rw [e, Tree.mapRoot_mk]
    exact (Tree.balanced_black hb.1).2 ⟨n, rfl, ht, balanced_mk_red hsr hb.2.1 hb.2.2 hsib⟩
  | case5 f c t s hs hsr hb =>
    rw [Bool.not_eq_true] at hsr
    have hsib' : f.sib.isRed = false := by
      obtain ⟨a, b, e⟩ := Tree.eq_mk_of_root? hs f.dir
      simp [e, hsr]
    cases hp : red f.val with
    | true =>
      obtain ⟨hsib, _, hbp, hc⟩ := (Ctx.balanced_red hp).1 hc
      have := balanced_removeRotate (d := f.dir) (p := f.val) ht hsib hsib' (by simp [hp]) rfl
      rw [hp, if_pos rfl] at this
      exact isRedBlack_plug.2 ⟨n + 1, hc, this.1, fun _ => hbp⟩
    | false =>
      obtain ⟨hsib, hc⟩ := (Ctx.balanced_black hp).1 hc
      have := balanced_removeRotate (d := f.dir) (p := f.val) ht hsib hsib'
        (fun _ h => hb ⟨hp, h⟩) rfl
      rw [hp, if_neg (by simp)] at this
      exact isRedBlack_plug.2 ⟨n + 2, hc, this.1, fun h => absurd (this.2 h) (by simp)⟩

end Dlb.Rbt
