import Mathlib.Data.Set.Defs
import Dlb.Rbt.Exec

/-!
# Nodes that are not touched

A program that starts from pointers to nodes of a set `D`, which only point to each other, does not
leave the set: it changes no other node (`Local`). So the repair of a tree does not touch the nodes
which are not in the tree, in particular not the one that has just been taken out.
-/

namespace Dlb.Rbt

variable {P : Type} {D : Set P} {α β : Type}

/-- The results of programs: which nodes they point to. -/
class Pointers (P α : Type) where
  /-- Only to nodes of the set. -/
  Within : Set P → α → Prop

export Pointers (Within)

instance : Pointers P Unit := ⟨fun _ _ => True⟩
instance : Pointers P Bool := ⟨fun _ _ => True⟩
instance : Pointers P (Option P) := ⟨fun D p => ∀ a ∈ p, a ∈ D⟩
instance : Pointers P (Node P) := ⟨fun D x => Within D x.left ∧ Within D x.right ∧ Within D x.parent⟩

theorem within_none : Within D (none : Option P) := nofun

theorem within_some {a : P} : Within D (some a) ↔ a ∈ D :=
  ⟨fun h => h a rfl, fun h _ hb => Option.some.inj hb ▸ h⟩

section

variable {x : Node P} (h : Within D x)

include h

theorem within_left : Within D x.left := h.1
theorem within_right : Within D x.right := h.2.1
theorem within_parent : Within D x.parent := h.2.2

theorem within_child (d : Dir) : Within D (x.child d) := by
  cases d
  · exact h.1
  · exact h.2.1

theorem within_setChild (d : Dir) {v : Option P} (hv : Within D v) :
    Within D (x.setChild d v) := by
  cases d
  · exact ⟨hv, h.2⟩
  · exact ⟨h.1, hv, h.2.2⟩

theorem within_setParent {v : Option P} (hv : Within D v) : Within D (x.setParent v) :=
  ⟨h.1, h.2.1, hv⟩

theorem within_mapFlags (f : Flags → Flags) : Within D (x.mapFlags f) := h

end

/-- The root and the nodes of the set point to nodes of the set. -/
structure Closed (D : Set P) (m : Mem P) : Prop where
  root : Within D m.root
  node : ∀ b ∈ D, Within D (m.node b)

theorem within_ptr {t : Tree (Cell P)} (h : ∀ a ∈ order t, a ∈ D) : Within D (ptr t) := by
  cases t with
  | nil => exact within_none
  | node l x r => exact within_some.2 (h _ (by simp))

theorem TreeAt.within {m : Mem P} {p : Option P} {t : Tree (Cell P)} (h : TreeAt m p t)
    (hp : Within D p) (ht : ∀ a ∈ order t, a ∈ D) : ∀ b ∈ order t, Within D (m.node b) := by
  induction t generalizing p with
  | nil => simp
  | node l x r ihl ihr =>
    obtain ⟨hx, hl, hr⟩ := h
    simp only [order_node, List.mem_append, List.mem_cons] at ht ⊢
    have hl' : ∀ a ∈ order l, a ∈ D := fun a ha => ht a (.inl ha)
    have hr' : ∀ a ∈ order r, a ∈ D := fun a ha => ht a (.inr (.inr ha))
    have hx' : Within D (some x.addr) := within_some.2 (ht _ (.inr (.inl rfl)))
    rintro b (hb | rfl | hb)
    · exact ihl hl hx' hl' b hb
    · rw [hx]
      exact ⟨within_ptr hl', within_ptr hr', hp⟩
    · exact ihr hr hx' hr' b hb

/-- The nodes of a tree only point to each other. -/
theorem At.closed {m : Mem P} {t : Tree (Cell P)} (h : At m [] t) : Closed {a | a ∈ order t} m where
  root := by
    rw [show m.root = ptr t from h.ctx]
    exact within_ptr fun _ ha => ha
  node := h.tree.within within_none fun _ ha => ha

/-- The program changes nodes of the set only, and never gets out of it. -/
def Local [Pointers P α] (D : Set P) (x : Prog P α) : Prop :=
  ∀ ⦃m r m'⦄, Closed D m → x.run m = some (r, m') →
    Closed D m' ∧ (∀ b ∉ D, m'.node b = m.node b) ∧ Within D r

/-! ## Rules -/

section

variable [Pointers P α] [Pointers P β]

theorem Local.pure {r : α} (h : Within D r) : Local D (Pure.pure r : Prog P α) := by
  rintro m _ _ hm ⟨⟩
  exact ⟨hm, fun _ _ => rfl, h⟩

theorem local_failure : Local D (failure : Prog P α) := by
  intro m r m' hm e
  cases e

theorem Local.bind {x : Prog P α} {f : α → Prog P β} (hx : Local D x)
    (hf : ∀ r, Within D r → Local D (f r)) : Local D (x >>= f) := by
  intro m r m' hm e
  rw [StateT.run_bind, Option.bind_eq_bind, Option.bind_eq_some_iff] at e
  obtain ⟨⟨a, m₁⟩, e₁, e₂⟩ := e
  obtain ⟨hm₁, hx₁, ha⟩ := hx hm e₁
  obtain ⟨hm', hx', hr⟩ := hf a ha hm₁ e₂
  exact ⟨hm', fun b hb => (hx' b hb).trans (hx₁ b hb), hr⟩

theorem Local.ite {p : Prop} [Decidable p] {x y : Prog P α} (hx : Local D x) (hy : Local D y) :
    Local D (if p then x else y) := by
  split
  · exact hx
  · exact hy

theorem local_andM {x y : Prog P Bool} (hx : Local D x) (hy : Local D y) : Local D (x <&&> y) :=
  hx.bind fun b _ => by cases b <;> [exact .pure trivial; exact hy]

end

/-! ## The accesses to the memory -/

theorem local_load {p : Option P} (hp : Within D p) : Local D (load p) := by
  intro m r m' hm e
  cases p with
  | none => cases e
  | some a =>
    cases e
    exact ⟨hm, fun _ _ => rfl, hm.node a (within_some.1 hp)⟩

theorem local_isRed {p : Option P} (hp : Within D p) : Local D (isRed p) := by
  cases p with
  | none => exact .pure trivial
  | some a => exact (local_load hp).bind fun x _ => .pure trivial

theorem local_isBlack {p : Option P} (hp : Within D p) : Local D (isBlack p) := by
  cases p with
  | none => exact .pure trivial
  | some a => exact (local_load hp).bind fun x _ => .pure trivial

theorem local_storeRoot {v : Option P} (hv : Within D v) : Local D (storeRoot v) := by
  rintro m r m' hm ⟨⟩
  exact ⟨⟨hv, hm.node⟩, fun _ _ => rfl, trivial⟩

variable [DecidableEq P]

theorem local_store {p : Option P} (hp : Within D p) {f : Node P → Node P}
    (hf : ∀ x, Within D x → Within D (f x)) : Local D (store p f) := by
  intro m r m' hm e
  cases p with
  | none => cases e
  | some a =>
    cases e
    have ha := within_some.1 hp
    refine ⟨⟨hm.root, fun b hb => ?_⟩, fun b hb => update_node_of_ne f fun e => hb (e ▸ ha), trivial⟩
    rcases eq_or_ne b a with rfl | hne
    · rw [update_node_self]
      exact hf _ (hm.node b hb)
    · rw [update_node_of_ne f hne]
      exact hm.node b hb

theorem local_mapFlags {p : Option P} (hp : Within D p) (f : Flags → Flags) :
    Local D (store p (·.mapFlags f)) :=
  local_store hp fun _ hx => within_mapFlags hx f

theorem local_reparent {p q : Option P} (hp : Within D p) (hq : Within D q) :
    Local D (reparent q p) := by
  cases p with
  | none => exact .pure trivial
  | some a => exact local_store hp fun _ hx => within_setParent hx hq

theorem local_fixDownptr {p old n : Option P} (hp : Within D p) (hn : Within D n) :
    Local D (fixDownptr p old n) := by
  cases p with
  | none => exact local_storeRoot hn
  | some a =>
    refine (local_load hp).bind fun x _ => .ite ?_ ?_
    · exact local_store hp fun _ hx => within_setChild hx _ hn
    · exact local_store hp fun _ hx => within_setChild hx _ hn

theorem local_rotate (d : Dir) {n : Option P} (hn : Within D n) : Local D (rotate d n) := by
  refine (local_load hn).bind fun x hx => (local_load hn).bind fun y hy => ?_
  have hr := within_child hy d.other
  refine (local_load hr).bind fun z hz => ?_
  refine (local_store hn fun _ h => within_setChild h _ (within_child hz d)).bind fun _ _ => ?_
  refine (local_load hn).bind fun w hw => ?_
  refine (local_reparent (within_child hw d.other) hn).bind fun _ _ => ?_
  refine (local_store hr fun _ h => within_setChild h _ hn).bind fun _ _ => ?_
  refine (local_store hn fun _ h => within_setParent h hr).bind fun _ _ => ?_
  refine (local_store hr fun _ h => within_setParent h (within_parent hx)).bind fun _ _ => ?_
  exact (local_load hr).bind fun v hv => local_fixDownptr (within_parent hv) hr

/-! ## The repair after a removal -/

section

variable {n p s : Option P} (hn : Within D n) (hp : Within D p) (hs : Within D s)

omit [DecidableEq P] in
include hs in
theorem local_isBlack_children {x : Prog P Bool} (hx : Local D x) :
    Local D (x <&&> (do isBlack (← load s).left) <&&> (do isBlack (← load s).right)) :=
  local_andM hx (local_andM ((local_load hs).bind fun _ h => local_isBlack (within_left h))
    ((local_load hs).bind fun _ h => local_isBlack (within_right h)))

include hp hs

theorem local_repairAfterRemoveOuter : Local D (repairAfterRemoveOuter n p s) := by
  refine (local_load hp).bind fun x _ => (local_mapFlags hs _).bind fun _ _ => ?_
  refine (local_mapFlags hp _).bind fun _ _ => (local_load hp).bind fun y _ => .ite ?_ ?_
  · refine (local_load hs).bind fun z hz => (local_mapFlags (within_right hz) _).bind fun _ _ => ?_
    exact local_rotate _ hp
  · refine (local_load hs).bind fun z hz => (local_mapFlags (within_left hz) _).bind fun _ _ => ?_
    exact local_rotate _ hp

theorem local_repairAfterRemoveRotate : Local D (repairAfterRemoveRotate n p s) := by
  -- The sibling is rotated, and its parent is the new sibling.
  have hinner : ∀ {c : Node P → Option P}, (∀ x, Within D x → Within D (c x)) → ∀ d,
      Local D (do
        makeRed s
        makeBlack (c (← load s))
        markModified s
        markModified (c (← load s))
        rotate d s
        repairAfterRemoveOuter n p (← load s).parent) := by
    intro c hc d
    refine (local_mapFlags hs _).bind fun _ _ => (local_load hs).bind fun x hx => ?_
    refine (local_mapFlags (hc x hx) _).bind fun _ _ => (local_mapFlags hs _).bind fun _ _ => ?_
    refine (local_load hs).bind fun y hy => (local_mapFlags (hc y hy) _).bind fun _ _ => ?_
    refine (local_rotate _ hs).bind fun _ _ => (local_load hs).bind fun z hz => ?_
    exact local_repairAfterRemoveOuter hp (within_parent hz)
  refine (local_isBlack_children hs (local_isRed hp)).bind fun _ _ => .ite ?_ ?_
  · exact (local_mapFlags hs _).bind fun _ _ => local_mapFlags hp _
  refine (local_andM ((local_load hp).bind fun _ _ => .pure trivial) ((local_load hs).bind fun _ h =>
    local_isBlack (within_right h))).bind fun _ _ => .ite (hinner (fun _ h => within_left h) _) ?_
  refine (local_andM ((local_load hp).bind fun _ _ => .pure trivial) ((local_load hs).bind fun _ h =>
    local_isBlack (within_left h))).bind fun _ _ => .ite (hinner (fun _ h => within_right h) _) ?_
  exact local_repairAfterRemoveOuter hp hs

end

theorem local_repairAfterRemoveLoop {n p : Option P} (hp : Within D p) (fuel : ℕ) :
    Local D (repairAfterRemoveLoop fuel n p) := by
  induction fuel generalizing n p with
  | zero => exact local_failure
  | succ fuel ih =>
    have hend : ∀ s, Within D s → Local D (do
        if ← isBlack p <&&> (do isBlack (← load s).left) <&&> (do isBlack (← load s).right) then
          makeRed s
          repairAfterRemoveLoop fuel p (← load p).parent
        else
          repairAfterRemoveRotate n p s) := by
      intro s hs
      refine (local_isBlack_children hs (local_isBlack hp)).bind fun _ _ => .ite ?_ ?_
      · refine (local_mapFlags hs _).bind fun _ _ => (local_load hp).bind fun y hy => ?_
        exact ih (within_parent hy)
      · exact local_repairAfterRemoveRotate hp hs
    -- The sibling is black after the first test.
    have hsib : ∀ s, Within D s → Local D (do
        let s ←
          if ← isRed s then
            makeRed p
            makeBlack s
            markModified s
            if n = (← load p).left then
              rotateLeft p
              pure (← load p).right
            else
              rotateRight p
              pure (← load p).left
          else pure s
        if ← isBlack p <&&> (do isBlack (← load s).left) <&&> (do isBlack (← load s).right) then
          makeRed s
          repairAfterRemoveLoop fuel p (← load p).parent
        else
          repairAfterRemoveRotate n p s) := by
      intro s hs
      refine (local_isRed hs).bind fun _ _ => ?_
      dsimp only
      refine .ite ?_ ?_
      · refine (local_mapFlags hp _).bind fun _ _ => (local_mapFlags hs _).bind fun _ _ => ?_
        refine (local_mapFlags hs _).bind fun _ _ => (local_load hp).bind fun _ _ => .ite ?_ ?_
        · refine (local_rotate _ hp).bind fun _ _ => (local_load hp).bind fun y hy => ?_
          exact hend _ (within_right hy)
        · refine (local_rotate _ hp).bind fun _ _ => (local_load hp).bind fun y hy => ?_
          exact hend _ (within_left hy)
      · exact hend s hs
    rw [repairAfterRemoveLoop]
    refine .ite (.pure trivial) ((local_load hp).bind fun x hx => ?_)
    dsimp only
    refine .ite ?_ ?_
    · exact (local_load hp).bind fun y hy => hsib _ (within_right hy)
    · exact (local_load hp).bind fun y hy => hsib _ (within_left hy)

end Dlb.Rbt
