import Dlb.Rbt.Exec
import Dlb.Rbt.Search

/-!
# Insertion

`repair_after_insert` and `rbt_insert` in memory. The search comes down to a slot, the
root pointer or a link of the parent, which is either empty or points to an entry
with the same key; `rbtInsert_spec` says that the code then does what `insertTree`
does on the tree.
-/

namespace Dlb.Rbt

open Coloured

variable {P : Type} [DecidableEq P] {m : Mem P}

/-- The last part of `repair_after_insert`. -/
theorem repairAfterInsertOuter_spec {c : Ctx (Cell P)} {d : Dir} {p g : Cell P}
    {t s u : Tree (Cell P)} {a : P} (h : At m (⟨d, p, s⟩ :: ⟨d, g, u⟩ :: c) t)
    (ha : ptr t = some a) :
    ∃ m', (repairAfterInsertOuter (some a)).run m = some ((), m') ∧
      At m' c (insertRotate d t p s g u) := by
  -- The parent is painted black, and the grandparent red.
  obtain ⟨m₁, hrun₁, h₁⟩ := h.store_parent (·.setRed false)
  obtain ⟨m₂, hrun₂, h₂⟩ := (at_cons.1 h₁).store_parent (·.setRed true)
  replace h₂ := at_cons.2 h₂
  -- The grandparent is rotated away from `t`.
  obtain ⟨m', hrun, h'⟩ := rotate_other_spec (at_cons.1 (at_cons.1 h₂))
  refine ⟨m', ?_, h'⟩
  have hs : some a ≠ ptr s := (h₂.ptr_sib_ne ha).symm
  have hp₂ : m₂.node p.addr = _ := h₂.parent_eq
  have ha₂ : (m₂.node a).parent = some p.addr := h₂.node_parent ha
  have hg₂ := run_grandparent h₂ ha
  cases d <;>
    simp [repairAfterInsertOuter, makeBlack, makeRed, h.node_parent ha, hrun₁,
      run_grandparent h₁ ha, hrun₂, ha₂, hp₂, Node.mkDir, ha, hs, hg₂, rotateRight, rotateLeft] <;>
    exact hrun

/-- The part of `repair_after_insert` after its loop, where `t` is on the other
    side of its parent than its parent is. -/
theorem repairAfterInsertRotate_inner {c : Ctx (Cell P)} {d : Dir} {n p g : Cell P}
    {x y s u : Tree (Cell P)} (h : At m (⟨d.other, p, s⟩ :: ⟨d, g, u⟩ :: c) (.mk d x n y)) :
    ∃ m', (repairAfterInsertRotate (some n.addr)).run m = some ((), m') ∧
      At m' c (insertRotate d (.mk d s p x) n y g u) := by
  have h₀ : At m (⟨d, g, u⟩ :: c) (.mk d s p (.mk d x n y)) := by
    rw [← Tree.mk_other]
    exact at_cons.1 h
  obtain ⟨m₁, hrun₁, h₁⟩ := rotate_spec h₀
  obtain ⟨m', hrun, h'⟩ := repairAfterInsertOuter_spec (at_cons.2 h₁) (ptr_mk _ _ _ _)
  refine ⟨m', ?_, h'⟩
  have hs : some n.addr ≠ ptr s := (h.ptr_sib_ne (ptr_mk _ _ _ _)).symm
  have hn := h.node_parent (ptr_mk _ _ _ _)
  have hp := h.parent_eq
  have hg := (at_cons.1 h).parent_eq
  have hgp := run_grandparent h (ptr_mk _ _ _ _)
  have hn₁ := h₁.node_eq
  cases d <;>
    simp [repairAfterInsertRotate, hn, hp, hg, hgp, hs, Node.mkDir, rotateRight, rotateLeft,
      hrun₁, hn₁, hrun]

/-- The part of `repair_after_insert` after its loop, where `t` is on the same
    side of its parent as its parent is. -/
theorem repairAfterInsertRotate_outer {c : Ctx (Cell P)} {d : Dir} {p g : Cell P}
    {t s u : Tree (Cell P)} {a : P} (h : At m (⟨d, p, s⟩ :: ⟨d, g, u⟩ :: c) t)
    (ha : ptr t = some a) :
    ∃ m', (repairAfterInsertRotate (some a)).run m = some ((), m') ∧
      At m' c (insertRotate d t p s g u) := by
  obtain ⟨m', hrun, h'⟩ := repairAfterInsertOuter_spec h ha
  refine ⟨m', ?_, h'⟩
  have hs : some a ≠ ptr s := (h.ptr_sib_ne ha).symm
  have hu : some p.addr ≠ ptr u := ((at_cons.1 h).ptr_sib_ne (ptr_mk _ _ _ _)).symm
  have hn := h.node_parent ha
  have hp := h.parent_eq
  have hg := (at_cons.1 h).parent_eq
  have hgp := run_grandparent h ha
  cases d <;> simp [repairAfterInsertRotate, hn, hp, hg, hgp, hs, hu, Node.mkDir, ha, hrun]

/-- A black parent ends `repair_after_insert`. -/
theorem run_repairAfterInsert_black {c : Ctx (Cell P)} {f : Frame (Cell P)} {t : Tree (Cell P)}
    {a : P} (fuel : ℕ) (h : At m (f :: c) t) (ha : ptr t = some a) (hf : red f.val = false) :
    (repairAfterInsert (fuel + 1) (some a)).run m = some ((), m) := by
  have hp : (isBlack (some f.val.addr)).run m = some (!red f.val, m) := run_isBlack_parent h
  simp [repairAfterInsert, h.node_parent ha, hp, hf]

/-- Below a red parent, `repair_after_insert` looks at the uncle. -/
theorem run_repairAfterInsert_red {c : Ctx (Cell P)} {d d' : Dir} {p g : Cell P}
    {t s u : Tree (Cell P)} {a : P} (fuel : ℕ) (h : At m (⟨d, p, s⟩ :: ⟨d', g, u⟩ :: c) t)
    (ha : ptr t = some a) (hp : red p = true) :
    (repairAfterInsert (fuel + 1) (some a)).run m =
      if u.isRed then (do
        makeBlack (ptr u)
        makeBlack (← load (some a)).parent
        makeRed (← grandparent (some a))
        repairAfterInsert fuel (← grandparent (some a)) : Prog P Unit).run m
      else (repairAfterInsertRotate (some a)).run m := by
  have hp' := run_isBlack_parent h
  have hs := run_sibling (at_cons.1 h) (ptr_mk _ _ _ _)
  have hu := run_isBlack (at_sib.1 (at_cons.1 h))
  rw [repairAfterInsert]
  cases hr : u.isRed <;> simp [h.node_parent ha, hp', hp, hs, hu, hr]

/-- `repair_after_insert` does what `repairInsert` does to the tree. -/
theorem repairAfterInsert_spec {c : Ctx (Cell P)} {t : Tree (Cell P)} {a : P} {fuel n : ℕ}
    (h : At m c t) (ha : ptr t = some a) (hc : Ctx.Balanced c n) (hf : c.length < fuel) :
    ∃ m', (repairAfterInsert fuel (some a)).run m = some ((), m') ∧
      At m' [] (repairInsert c t) := by
  obtain ⟨fuel, rfl⟩ := Nat.exists_eq_succ_of_ne_zero (Nat.ne_zero_of_lt hf)
  fun_induction repairInsert c t generalizing m a fuel n with
  | case1 t =>
    obtain ⟨m', hrun, h'⟩ := h.store_root ha (·.setRed false)
    refine ⟨m', ?_, h'⟩
    simp [repairAfterInsert, h.node_parent ha, makeBlack, hrun]
  | case2 f t =>
    -- A red node at the root would have no black parent.
    have hb : red f.val = false := by
      by_contra hr
      rw [Bool.not_eq_false] at hr
      exact ((Ctx.balanced_red hr).1 hc).2.2.1
    exact ⟨m, run_repairAfterInsert_black fuel h ha hb, at_plug.1 h⟩
  | case3 f g c t hr => exact ⟨m, run_repairAfterInsert_black fuel h ha hr, at_plug.1 h⟩
  | case4 f g c t hr hu ih =>
    obtain ⟨d, p, s⟩ := f
    obtain ⟨d', q, u⟩ := g
    rw [Bool.not_eq_false] at hr
    obtain ⟨b, hb⟩ : ∃ b, ptr u = some b := by
      obtain ⟨l, x, r, rfl, -⟩ := Tree.eq_mk_of_isRed hu .left
      exact ⟨_, ptr_mk _ _ _ _⟩
    -- The uncle, the parent and the grandparent are painted in turn.
    obtain ⟨m₁, hrun₁, h₁⟩ := (at_cons.1 h).store_sib hb (·.setRed false)
    replace h₁ := at_cons.2 h₁
    obtain ⟨m₂, hrun₂, h₂⟩ := h₁.store_parent (·.setRed false)
    obtain ⟨m₃, hrun₃, h₃⟩ := (at_cons.1 h₂).store_parent (·.setRed true)
    replace h₃ := at_cons.2 h₃
    obtain ⟨fuel, rfl⟩ : ∃ k, fuel = k + 1 :=
      Nat.exists_eq_succ_of_ne_zero (by simp at hf; omega)
    have hg := (Ctx.balanced_red hr).1 hc
    obtain ⟨m', hrun, h'⟩ := ih (at_cons.1 (at_cons.1 h₃)) (ptr_mk _ _ _ _)
      ((Ctx.balanced_black hg.2.2.1).1 hg.2.2.2).2 fuel (by simp at hf ⊢; omega)
    refine ⟨m', ?_, h'⟩
    have hg₂ := run_grandparent h₂ ha
    have hg₃ := run_grandparent h₃ ha
    rw [run_repairAfterInsert_red (fuel + 1) h ha hr, if_pos hu]
    simp [makeBlack, makeRed, hb, hrun₁, h₁.node_parent ha, hrun₂, hg₂, hrun₃, hg₃]
    exact hrun
  | case5 f g c t hr hu hd =>
    obtain ⟨d, p, s⟩ := f
    obtain ⟨d', q, u⟩ := g
    obtain rfl : d = d' := hd
    rw [Bool.not_eq_false] at hr
    obtain ⟨m', hrun, h'⟩ := repairAfterInsertRotate_outer h ha
    refine ⟨m', ?_, at_plug.1 h'⟩
    rw [run_repairAfterInsert_red fuel h ha hr, if_neg hu, hrun]
  | case6 f g c t hr hu hd ht => cases t <;> simp at ht ha
  | case7 f g c t hr hu hd x hx =>
    obtain ⟨d, p, s⟩ := f
    obtain ⟨d', q, u⟩ := g
    obtain rfl : d = d'.other := by cases d <;> cases d' <;> simp at hd ⊢
    rw [Bool.not_eq_false] at hr
    obtain ⟨l, r, rfl⟩ := Tree.eq_mk_of_root? hx d'
    obtain rfl : x.addr = a := by simpa using ha
    obtain ⟨m', hrun, h'⟩ := repairAfterInsertRotate_inner h
    refine ⟨m', ?_, by simpa using at_plug.1 h'⟩
    rw [run_repairAfterInsert_red fuel h ha hr, if_neg hu, hrun]

/-! ## The search -/

/-- The place that holds the pointer to the hole of a context. -/
def slot : Ctx (Cell P) → Slot P
  | [] => .root
  | f :: _ => .child f.dir (some f.val.addr)

omit [DecidableEq P] in
theorem slot_cons (f : Frame (Cell P)) (c : Ctx (Cell P)) :
    slot (f :: c) = .child f.dir (some f.val.addr) := rfl

omit [DecidableEq P] in
theorem run_loadSlot {c : Ctx (Cell P)} {t : Tree (Cell P)} (h : At m c t) :
    (loadSlot (slot c)).run m = some (ptr t, m) := by
  cases c with
  | nil => simpa [slot, loadSlot] using h.ctx
  | cons f c => simp [slot, loadSlot, h.ctx.1]

/-- Writing to the hole of a context only changes the context. -/
theorem storeSlot_spec {c : Ctx (Cell P)} {a : Option P} (v : Option P) (hc : CtxAt m a c)
    (hnd : (addrsCtx c).Nodup) :
    ∃ m', (storeSlot v (slot c)).run m = some ((), m') ∧ CtxAt m' v c ∧
      ∀ b, b ∉ addrsCtx c → m'.node b = m.node b := by
  cases c with
  | nil => exact ⟨{ m with root := v }, rfl, rfl, fun _ _ => rfl⟩
  | cons f c =>
    obtain ⟨hq, hs, hc⟩ := hc
    simp only [addrsCtx_cons, Multiset.nodup_cons, Multiset.mem_add, not_or] at hnd
    exact ⟨_, rfl, ⟨by simp [hq], hs.update hnd.1.1, hc.update hnd.1.2⟩,
      fun b hb => update_node_of_ne _ fun e => hb (by simp [e])⟩

section

variable {c : Ctx (Cell P)} {n : P}

/-- Linking `n` as a leaf. -/
theorem rbtInsertLeaf_spec (h : At m c .nil) (hn : n ∉ addrsCtx c) :
    ∃ m', (rbtInsertLeaf (some n) (up c) (slot c)).run m = some ((), m') ∧
      At m' c (.node .nil ⟨n, ⟨true, true⟩⟩ .nil) := by
  have hnd : (addrsCtx c).Nodup := by simpa using h.nodup
  obtain ⟨m₁, hrun, hc, -⟩ := storeSlot_spec (some n) h.ctx hnd
  refine ⟨_, by simp [rbtInsertLeaf, hrun, run_store, makeRed, markModified]; rfl, ?_, ?_, ?_⟩
  · exact ((hc.update hn).update hn).update hn
  · refine ⟨?_, trivial, trivial⟩
    simp [Node.mapFlags, Flags.setRed, Flags.mark]
  · simpa [addrs] using ⟨hn, hnd⟩

/-- Putting `n` in the place of a node. -/
theorem rbtInsertReplace_spec {l r : Tree (Cell P)} {x : Cell P} (h : At m c (.node l x r))
    (hn : n ∉ addrs (.node l x r) + addrsCtx c) :
    ∃ m', (rbtInsertReplace (some n) (some x.addr) (slot c)).run m = some ((), m') ∧
      At m' c (.node l ⟨n, x.flags⟩ r) := by
  obtain ⟨hc, ⟨hx, hl, hr⟩, hnd⟩ := h
  rw [← Tree.mk_left] at hnd hn
  simp only [addrs_mk, Multiset.cons_add, Multiset.nodup_cons, Multiset.nodup_add,
    Multiset.disjoint_left, Multiset.mem_cons, Multiset.mem_add] at hnd hn
  have hc₁ : CtxAt (m.update n fun _ => m.node x.addr) (some x.addr) c := hc.update (by grind)
  obtain ⟨m₁, hrun, hc', hm₁⟩ := storeSlot_spec (some n) hc₁ (by grind)
  have hn₁ : m₁.node n = ⟨x.flags, ptr l, ptr r, up c⟩ := by
    rw [hm₁ n (by grind), update_node_self, hx]
  let m' := (m₁.reparent (some n) (ptr l)).reparent (some n) (ptr r)
  have hln : ptr l ≠ some n := by grind
  have hrn : ptr r ≠ some n := by grind
  refine ⟨m', ?_, ?_, ?_, ?_⟩
  · simp [rbtInsertReplace, run_store, hrun, hn₁, reparent_node, hln, m']
  · refine hc'.congr (fun b hb => ?_) (by simp [m'])
    have : ptr l ≠ some b := by grind
    have : ptr r ≠ some b := by grind
    grind
  · refine ⟨by simp [m', reparent_node, hn₁, hln, hrn], ?_, ?_⟩
    · refine hl.reparent _ (by grind) fun b hb => ?_
      have : ptr r ≠ some b := by grind
      grind
    · refine hr.reparent _ (by grind) fun b hb => ?_
      have : ptr l ≠ some b := by grind
      grind
  · rw [← Tree.mk_left]
    simp only [addrs_mk, Multiset.cons_add, Multiset.nodup_cons, Multiset.nodup_add,
      Multiset.disjoint_left, Multiset.mem_add]
    grind

end

variable {K : Type*} {compare : K → P → ℤ} {key : K} {n : P}

/-- `rbt_insert` from its loop on. -/
theorem rbtInsertLoop_spec {c : Ctx (Cell P)} {t : Tree (Cell P)} {fuel repairFuel : ℕ}
    (h : At m c t) (hn : n ∉ addrs t + addrsCtx c) (hrb : (plug c t).IsRedBlack)
    (hf : t.height < fuel) (hrf : c.length + t.height < repairFuel) :
    ∃ m', (rbtInsertLoop compare repairFuel key (some n) fuel (up c) (slot c)).run m =
        some ((insertAt n (search (compare key) c t)).1, m') ∧
      At m' [] (insertAt n (search (compare key) c t)).2 := by
  obtain ⟨fuel, rfl⟩ := Nat.exists_eq_succ_of_ne_zero (Nat.ne_zero_of_lt hf)
  induction t generalizing m c fuel with
  | nil =>
    obtain ⟨k, hc, hk, -⟩ := isRedBlack_plug.1 hrb
    obtain ⟨m₁, hrun₁, h₁⟩ := rbtInsertLeaf_spec (n := n) h (by simpa using hn)
    obtain ⟨m', hrun, h'⟩ := repairAfterInsert_spec h₁ rfl hc (by simpa using hrf)
    refine ⟨m', ?_, h'⟩
    have hslot := run_loadSlot h
    rw [ptr_nil] at hslot
    simp [rbtInsertLoop, hslot, hrun₁, hrun, search, insertAt]
  | node l x r ihl ihr =>
    have hslot := run_loadSlot h
    obtain ⟨m₁, hrun₁, h₁⟩ := h.store_root (ptr_node l x r) .mark
    replace h₁ : At m₁ c (.node l x.mark r) := h₁
    have hrb₁ : (plug c (.node l x.mark r)).IsRedBlack := by
      rwa [isRedBlack_plug] at hrb ⊢
    have hn₁ : n ∉ addrs (.node l x.mark r) + addrsCtx c := by
      rwa [← Tree.mk_left, addrs_mk] at hn ⊢
    rw [Tree.height_node] at hf hrf
    rw [ptr_node] at hslot
    simp only [search]
    -- At the node `x`, which is marked first, the search stops or goes down.
    split_ifs with hx hlt
    · obtain ⟨m', hrun, h'⟩ := rbtInsertReplace_spec h₁ hn₁
      refine ⟨m', ?_, at_plug.1 h'⟩
      rw [Cell.mark_addr] at hrun
      simp [rbtInsertLoop, hslot, markModified, hrun₁, hx, hrun, insertAt]
    · obtain ⟨fuel, rfl⟩ : ∃ k, fuel = k + 1 := Nat.exists_eq_succ_of_ne_zero (by omega)
      have hnl : n ∉ addrs l + addrsCtx (⟨.left, x.mark, r⟩ :: c) := by
        rw [← Tree.mk_left, addrs_mk] at hn₁
        simp only [addrsCtx_cons, Multiset.mem_add, Multiset.mem_cons] at hn₁ ⊢
        tauto
      obtain ⟨m', hrun, h'⟩ := ihl (at_cons.2 h₁) hnl hrb₁ (by simp; omega) fuel (by omega)
      refine ⟨m', ?_, h'⟩
      rw [slot_cons] at hrun
      rw [rbtInsertLoop]
      simpa [hslot, markModified, hrun₁, hx, hlt] using hrun
    · obtain ⟨fuel, rfl⟩ : ∃ k, fuel = k + 1 := Nat.exists_eq_succ_of_ne_zero (by omega)
      have hnr : n ∉ addrs r + addrsCtx (⟨.right, x.mark, l⟩ :: c) := by
        rw [← Tree.mk_right, addrs_mk] at hn₁
        simp only [addrsCtx_cons, Multiset.mem_add, Multiset.mem_cons] at hn₁ ⊢
        tauto
      obtain ⟨m', hrun, h'⟩ := ihr (at_cons.2 h₁) hnr hrb₁ (by simp; omega) fuel (by omega)
      refine ⟨m', ?_, h'⟩
      rw [slot_cons] at hrun
      rw [rbtInsertLoop]
      simpa [hslot, markModified, hrun₁, hx, hlt] using hrun

/-- `rbt_insert` does what `insertTree` does to the tree. -/
theorem rbtInsert_spec (compare : K → P → ℤ) (key : K) {t : Tree (Cell P)} {fuel : ℕ}
    (h : At m [] t) (hn : n ∉ addrs t) (hrb : t.IsRedBlack) (hf : t.height < fuel) :
    ∃ m', (rbtInsert compare fuel key n).run m = some ((insertTree (compare key) n t).1, m') ∧
      At m' [] (insertTree (compare key) n t).2 :=
  rbtInsertLoop_spec h (by simpa using hn) hrb hf (by simpa using hf)

end Dlb.Rbt
