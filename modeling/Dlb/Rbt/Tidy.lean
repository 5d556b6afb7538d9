import Mathlib.Algebra.BigOperators.Group.List.Basic
import Dlb.Rbt.Search
import Dlb.Rbt.Unlink

/-!
# Summaries, on trees

Every node may store a summary of its subtree: the product, in order, of the
contributions `own` of the nodes in it. A node whose subtree changes is marked as
modified, and its summary is then not to be relied on. A tree is *tidy* if the
summaries of all the nodes without a mark are right, and the children of such a
node are without a mark as well.

An operation opens the tree on the way from the root to the place where it
changes it: all the nodes on that way are marked (`Open`). There the tree may be
cut and put together in any way.
-/

namespace Dlb.Rbt

variable {P S : Type} [Monoid S]

/-- The root is marked as modified. -/
def marked : Tree (Cell P) → Bool
  | .nil => false
  | .node _ x _ => x.flags.modified

@[simp] theorem marked_nil : marked (.nil : Tree (Cell P)) = false := rfl

@[simp] theorem marked_mk (d : Dir) (t : Tree (Cell P)) (x : Cell P) (s : Tree (Cell P)) :
    marked (.mk d t x s) = x.flags.modified := by cases d <;> rfl

section

variable (own sum : P → S)

/-- The product of the contributions of the nodes of a tree, in order. -/
def total (t : Tree (Cell P)) : S := ((order t).map own).prod

/-- The nodes without a mark have the right summary, and children without a mark. -/
def Tidy : Tree (Cell P) → Prop
  | .nil => True
  | .node l x r => Tidy l ∧ Tidy r ∧ (x.flags.modified = false →
    marked l = false ∧ marked r = false ∧ sum x.addr = total own (.node l x r))

/-- All the nodes on the way to the hole are marked, and the subtrees beside the
    way are tidy. -/
def Open (c : Ctx (Cell P)) : Prop := ∀ f ∈ c, f.val.flags.modified = true ∧ Tidy own sum f.sib

end

variable {own sum : P → S}

@[simp] theorem tidy_nil : Tidy own sum .nil := trivial

theorem tidy_mk {d : Dir} {t s : Tree (Cell P)} {x : Cell P} :
    Tidy own sum (.mk d t x s) ↔ Tidy own sum t ∧ Tidy own sum s ∧ (x.flags.modified = false →
      marked t = false ∧ marked s = false ∧ sum x.addr = total own (.mk d t x s)) := by
  cases d
  · rfl
  · simp only [Tree.mk, Tidy]
    tauto

/-- A marked node is tidy if its children are. -/
theorem Tidy.mk_marked {d : Dir} {t s : Tree (Cell P)} {x : Cell P}
    (hx : x.flags.modified = true) (ht : Tidy own sum t) (hs : Tidy own sum s) :
    Tidy own sum (.mk d t x s) := by
  simp [tidy_mk, hx, ht, hs]

theorem Tidy.left {d : Dir} {t s : Tree (Cell P)} {x : Cell P} (h : Tidy own sum (.mk d t x s)) :
    Tidy own sum t := (tidy_mk.1 h).1

theorem Tidy.right {d : Dir} {t s : Tree (Cell P)} {x : Cell P} (h : Tidy own sum (.mk d t x s)) :
    Tidy own sum s := (tidy_mk.1 h).2.1

theorem Tidy.child {t : Tree (Cell P)} (h : Tidy own sum t) (d : Dir) :
    Tidy own sum (t.child d) := by
  cases t with
  | nil => exact h
  | node l x r =>
    cases d with
    | left => exact h.1
    | right => exact h.2.1

/-- Colours do not matter. -/
theorem Tidy.setRed {t : Tree (Cell P)} (h : Tidy own sum t) (b : Bool) :
    Tidy own sum (t.mapRoot (·.setRed b)) := by
  cases t with
  | nil => exact h
  | node l x r =>
    refine ⟨h.1, h.2.1, fun hx => ?_⟩
    simpa [total] using h.2.2 hx

/-- A subtree of a tidy tree is tidy. -/
theorem Tidy.of_plug {c : Ctx (Cell P)} {t : Tree (Cell P)} (h : Tidy own sum (plug c t)) :
    Tidy own sum t ∧ ∀ f ∈ c, Tidy own sum f.sib := by
  induction c generalizing t with
  | nil => exact ⟨h, by simp⟩
  | cons f c ih =>
    obtain ⟨ht, hc⟩ := ih h
    exact ⟨ht.left, fun g hg => by
      rcases List.mem_cons.1 hg with rfl | hg
      · exact ht.right
      · exact hc g hg⟩

theorem open_nil : Open own sum ([] : Ctx (Cell P)) := by simp [Open]

theorem open_cons {f : Frame (Cell P)} {c : Ctx (Cell P)} :
    Open own sum (f :: c) ↔
      (f.val.flags.modified = true ∧ Tidy own sum f.sib) ∧ Open own sum c := by
  simp [Open]

/-- Any tidy tree may be plugged into an open context. -/
theorem Open.tidy_plug {c : Ctx (Cell P)} {t : Tree (Cell P)} (hc : Open own sum c)
    (ht : Tidy own sum t) : Tidy own sum (plug c t) := by
  induction c generalizing t with
  | nil => exact ht
  | cons f c ih =>
    obtain ⟨⟨hf, hs⟩, hc⟩ := open_cons.1 hc
    exact ih hc (.mk_marked hf ht hs)

/-- Only the values at the nodes of the tree matter. -/
theorem Tidy.congr {own' sum' : P → S} {t : Tree (Cell P)} (h : Tidy own sum t)
    (ho : ∀ a ∈ order t, own' a = own a) (hs : ∀ a ∈ order t, sum' a = sum a) :
    Tidy own' sum' t := by
  induction t with
  | nil => trivial
  | node l x r ihl ihr =>
    have ho' : total own' (.node l x r) = total own (.node l x r) := by
      rw [total, total, List.map_congr_left ho]
    rw [order_node] at ho hs
    refine ⟨ihl h.1 (fun a ha => ho a (by simp [ha])) fun a ha => hs a (by simp [ha]),
      ihr h.2.1 (fun a ha => ho a (by simp [ha])) fun a ha => hs a (by simp [ha]), fun hx => ?_⟩
    rw [ho', hs x.addr (by simp)]
    exact h.2.2 hx

/-! ## Insertion -/

/-- The repair after an insertion rotates marked nodes only. -/
theorem Open.tidy_repairInsert {c : Ctx (Cell P)} {t : Tree (Cell P)} (hc : Open own sum c)
    (ht : Tidy own sum t) (hm : marked t = true) : Tidy own sum (repairInsert c t) := by
  fun_induction repairInsert c t with
  | case1 t => exact ht.setRed false
  | case2 f t => exact hc.tidy_plug ht
  | case3 f g c t hr => exact hc.tidy_plug ht
  | case4 f g c t hr hu ih =>
    obtain ⟨⟨hf, hs⟩, hgc⟩ := open_cons.1 hc
    obtain ⟨⟨hg, hu⟩, hc⟩ := open_cons.1 hgc
    refine ih hc (.mk_marked hg (.mk_marked hf ht hs) (hu.setRed false)) ?_
    simpa using hg
  | case5 f g c t hr hu hd =>
    obtain ⟨⟨hf, hs⟩, hgc⟩ := open_cons.1 hc
    obtain ⟨⟨hg, hu⟩, hc⟩ := open_cons.1 hgc
    exact hc.tidy_plug (.mk_marked hf ht (.mk_marked hg hs hu))
  | case6 f g c t hr hu hd hn => exact hc.tidy_plug ht
  | case7 f g c t hr hu hd x hx =>
    obtain ⟨⟨hf, hs⟩, hgc⟩ := open_cons.1 hc
    obtain ⟨⟨hg, hu⟩, hc⟩ := open_cons.1 hgc
    have hx' : x.flags.modified = true := by
      obtain ⟨l, r, rfl⟩ := Tree.eq_mk_of_root? hx .left
      simpa using hm
    exact hc.tidy_plug (.mk_marked hx' (.mk_marked hf hs (ht.child _))
      (.mk_marked hg (ht.child _) hu))

/-- The search marks all the nodes on its way. -/
theorem Open.search (cmp : P → ℤ) {c : Ctx (Cell P)} {t : Tree (Cell P)} (hc : Open own sum c)
    (ht : Tidy own sum t) :
    Open own sum (search cmp c t).1 ∧ Tidy own sum (search cmp c t).2 ∧
      ∀ x ∈ (search cmp c t).2.root?, x.flags.modified = true := by
  fun_induction Rbt.search cmp c t with
  | case1 c => exact ⟨hc, ht, by simp⟩
  | case2 c l x r hx => exact ⟨hc, ⟨ht.1, ht.2.1, by simp⟩, by simp⟩
  | case3 c l x r hx hlt ih => exact ih (open_cons.2 ⟨⟨rfl, ht.2.1⟩, hc⟩) ht.1
  | case4 c l x r hx hlt ih => exact ih (open_cons.2 ⟨⟨rfl, ht.1⟩, hc⟩) ht.2.1

theorem Tidy.insertTree {t : Tree (Cell P)} (ht : Tidy own sum t) (cmp : P → ℤ) (n : P) :
    Tidy own sum (insertTree cmp n t).2 := by
  obtain ⟨hc, ht', hx⟩ := open_nil.search cmp ht
  unfold Rbt.insertTree
  generalize search cmp [] t = z at hc ht' hx
  obtain ⟨c, t'⟩ := z
  cases t' with
  | nil => exact hc.tidy_repairInsert ⟨trivial, trivial, by simp⟩ rfl
  | node l x r =>
    have hm : x.flags.modified = true := by simpa using hx
    exact hc.tidy_plug ⟨ht'.1, ht'.2.1, fun h => by simp [hm] at h⟩

/-! ## Removal -/

theorem Tidy.removeRotate {d : Dir} {t s : Tree (Cell P)} {p : Cell P} (ht : Tidy own sum t)
    (hs : Tidy own sum s) (hp : p.flags.modified = true) :
    Tidy own sum (removeRotate d t p s) := by
  have hts : Tidy own sum (.mk d t p s) := .mk_marked hp ht hs
  fun_cases Rbt.removeRotate d t p s with
  | case1 => exact hts
  | case2 x => exact .mk_marked hp ht (hs.setRed true)
  | case3 x hx hr ho =>
    exact .mk_marked rfl (.mk_marked hp ht (hs.child _)) ((hs.child _).setRed false)
  | case4 => exact hts
  | case5 x hx hr ho y hy =>
    exact .mk_marked rfl (.mk_marked hp ht ((hs.child _).child _))
      (.mk_marked rfl ((hs.child _).child _) (hs.child _))

theorem Open.tidy_repairRemove {c : Ctx (Cell P)} {t : Tree (Cell P)} (hc : Open own sum c)
    (ht : Tidy own sum t) : Tidy own sum (repairRemove c t) := by
  fun_induction repairRemove c t with
  | case1 t => exact ht
  | case2 f c t hn => exact hc.tidy_plug ht
  | case3 f c t s hs hsr =>
    obtain ⟨⟨hf, hsib⟩, hc⟩ := open_cons.1 hc
    exact hc.tidy_plug (.mk_marked rfl (ht.removeRotate (hsib.child _) hf) (hsib.child _))
  | case4 f c t s hs hsr hb ih =>
    obtain ⟨⟨hf, hsib⟩, hc⟩ := open_cons.1 hc
    exact ih hc (.mk_marked hf ht (hsib.setRed true))
  | case5 f c t s hs hsr hb =>
    obtain ⟨⟨hf, hsib⟩, hc⟩ := open_cons.1 hc
    exact hc.tidy_plug (ht.removeRotate hsib hf)

theorem open_markCtx {c : Ctx (Cell P)} (h : ∀ f ∈ c, Tidy own sum f.sib) :
    Open own sum (markCtx c) := by
  intro f hf
  obtain ⟨g, hg, rfl⟩ := List.mem_map.1 hf
  exact ⟨rfl, h g hg⟩

theorem Tidy.removeTree {c : Ctx (Cell P)} {l r : Tree (Cell P)} {x : Cell P}
    (h : Tidy own sum (plug c (.node l x r))) : Tidy own sum (removeTree c l x r) := by
  obtain ⟨ht, hc⟩ := h.of_plug
  -- The subtrees beside the way to the place of `x` are subtrees of the tree.
  have hsw : (∀ f ∈ (swapTree c l x r).1, Tidy own sum f.sib) ∧
      Tidy own sum (swapTree c l x r).2.2 := by
    fun_cases swapTree c l x r with
    | case1 x r => exact ⟨hc, ht.2.1⟩
    | case2 l x => exact ⟨hc, ht.1⟩
    | case3 l x rl y rr =>
      have hr := ht.2.1
      rw [← plug_leftmostOf] at hr
      obtain ⟨hs, hp⟩ := hr.of_plug
      refine ⟨fun f hf => ?_, hs.2.1⟩
      rcases List.mem_append.1 hf with hf | hf
      · exact hp f hf
      · rcases List.mem_cons.1 hf with rfl | hf
        · exact ht.1
        · exact hc f hf
  have ho := open_markCtx hsw.1
  unfold Rbt.removeTree unlinkTree
  split
  · split
    · exact ho.tidy_plug trivial
    · exact ho.tidy_repairRemove trivial
  · rename_i l' y r' e
    have hs := hsw.2
    rw [e] at hs
    exact ho.tidy_plug (hs.setRed false)

end Dlb.Rbt
