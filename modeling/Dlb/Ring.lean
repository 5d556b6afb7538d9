import Mathlib.Data.List.Chain
import Mathlib.Data.List.Nodup
import Mathlib.Logic.Function.Basic
import Mathlib.Tactic.Tauto

/-!
# Doubly linked rings

A ring is a circular list of nodes which are linked both ways, given by the two functions `next` and
`prev`. It starts and ends at a node `b` that is not a member. A list that ends at a null
pointer is a ring as well: `b` is then the null pointer, `next b` the variable that holds the
first node, and `prev b` is what nobody reads.

* `Ring.insert_before`, `Ring.unlink`: the changes of a ring;
* `Ring.move`: another node takes the place of the start;
* `Ring.congr`: a ring only reads the links of its nodes.
-/

namespace Dlb

variable {α : Type*} [DecidableEq α]

/-- The nodes `x` and `y` are linked both ways. -/
def Link (next prev : α → α) (x y : α) : Prop := next x = y ∧ prev y = x

/-- The ring of the nodes `l`, with the start `b`. -/
def Ring (next prev : α → α) (b : α) (l : List α) : Prop :=
  (b :: l ++ [b]).IsChain (Link next prev)

variable {next prev next' prev' : α → α} {b x : α} {l l₁ l₂ : List α}

omit [DecidableEq α] in
theorem ring_nil : Ring next prev b [] ↔ next b = b ∧ prev b = b := by
  simp [Ring, Link]

omit [DecidableEq α] in
theorem Ring.next_eq (h : Ring next prev b l) : next b = l.head?.getD b := by
  cases l with
  | nil => exact (ring_nil.1 h).1
  | cons x l => exact (List.isChain_cons_cons.1 h).1.1

omit [DecidableEq α] in
/-- The last node of a chain is not linked to a next one, and the first one to no previous one. -/
theorem isChain_imp {R S : α → α → Prop} (h : l.IsChain R)
    (hs : ∀ x ∈ l.dropLast, ∀ y ∈ l.tail, R x y → S x y) : l.IsChain S := by
  rw [List.isChain_iff_forall_rel_of_append_cons_cons] at h ⊢
  intro x y l₁ l₂ e
  refine hs x ?_ y ?_ (h e)
  · rw [e, List.dropLast_append_cons]
    simp
  · rw [e]
    cases l₁ <;> simp

omit [DecidableEq α] in
theorem Ring.congr (h : Ring next prev b l) (hn : ∀ x ∈ b :: l, next' x = next x)
    (hp : ∀ x ∈ b :: l, prev' x = prev x) : Ring next' prev' b l := by
  refine isChain_imp h fun x hx y hy hl => ⟨?_, ?_⟩
  · rw [List.dropLast_concat] at hx
    exact (hn x hx).trans hl.1
  · have hy' : y ∈ b :: l := by simpa [or_comm] using hy
    exact (hp y hy').trans hl.2

section Seam

variable {u w : List α} {a c : α}

omit [DecidableEq α] in
/-- A ring is two chains and the link between them. -/
theorem ring_append_iff (hu : b :: l₁ = u ++ [a]) (hw : l₂ ++ [b] = c :: w) :
    Ring next prev b (l₁ ++ l₂) ↔
      (u ++ [a]).IsChain (Link next prev) ∧ Link next prev a c ∧
        (c :: w).IsChain (Link next prev) := by
  rw [← List.isChain_append_cons_cons, Ring, ← List.cons_append, List.append_assoc, hu, hw,
    List.append_assoc, List.singleton_append]

omit [DecidableEq α] in
/-- The two chains stay if only the link between them changes. -/
theorem chains_congr (hd : (b :: (l₁ ++ l₂)).Nodup) (hu : b :: l₁ = u ++ [a])
    (hw : l₂ ++ [b] = c :: w) (hn : ∀ y ∈ b :: (l₁ ++ l₂), y ≠ a → next' y = next y)
    (hp : ∀ y ∈ b :: (l₁ ++ l₂), y ≠ c → prev' y = prev y)
    (h₁ : (u ++ [a]).IsChain (Link next prev)) (h₂ : (c :: w).IsChain (Link next prev)) :
    (u ++ [a]).IsChain (Link next' prev') ∧ (c :: w).IsChain (Link next' prev') := by
  -- `a` is nowhere but before the seam, and `c` nowhere but after it.
  have hau : a ∉ u ++ l₂ := by
    have hd' : (u ++ a :: l₂).Nodup := by
      rwa [← List.cons_append, hu, List.append_assoc] at hd
    exact (List.nodup_middle.1 hd').notMem
  have hcw : c ∉ l₁ ++ w := by
    have hd' : (l₁ ++ (l₂ ++ [b])).Nodup := by
      rw [← List.append_assoc]
      exact List.nodup_append_comm.1 hd
    rw [hw] at hd'
    exact (List.nodup_middle.1 hd').notMem
  have hl : ∀ y, y ∈ b :: (l₁ ++ l₂) ↔ y ∈ u ++ [a] ∨ y ∈ l₂ := by
    intro y
    rw [← List.cons_append, hu, List.mem_append]
  constructor
  · refine isChain_imp h₁ fun y hy z hz hyz => ⟨?_, ?_⟩
    · rw [List.dropLast_concat] at hy
      refine (hn y ((hl y).2 (by simp [hy])) ?_).trans hyz.1
      rintro rfl
      simp [hy] at hau
    · rw [← hu, List.tail_cons] at hz
      refine (hp z (by simp [hz]) ?_).trans hyz.2
      rintro rfl
      simp [hz] at hcw
  · refine isChain_imp h₂ fun y hy z hz hyz => ⟨?_, ?_⟩
    · rw [← hw, List.dropLast_concat] at hy
      refine (hn y ((hl y).2 (.inr hy)) ?_).trans hyz.1
      rintro rfl
      simp [hy] at hau
    · have hz' : z ∈ l₂ ++ [b] := hw ▸ List.mem_of_mem_tail hz
      refine (hp z ?_ ?_).trans hyz.2
      · simp only [List.mem_append, List.mem_singleton] at hz'
        simp only [List.mem_cons, List.mem_append]
        tauto
      · rintro rfl
        exact hcw (List.mem_append_right _ hz)

omit [DecidableEq α] in
/-- The node `x` is linked between `a` and `c`. -/
theorem Ring.insert_between (h : Ring next prev b (l₁ ++ l₂)) (hd : (b :: (l₁ ++ l₂)).Nodup)
    (hu : b :: l₁ = u ++ [a]) (hw : l₂ ++ [b] = c :: w)
    (hn : ∀ y ∈ b :: (l₁ ++ l₂), y ≠ a → next' y = next y)
    (hp : ∀ y ∈ b :: (l₁ ++ l₂), y ≠ c → prev' y = prev y) (hax : Link next' prev' a x)
    (hxc : Link next' prev' x c) : Ring next' prev' b (l₁ ++ x :: l₂) := by
  obtain ⟨h₁, -, h₂⟩ := (ring_append_iff hu hw).1 h
  obtain ⟨h₁', h₂'⟩ := chains_congr hd hu hw hn hp h₁ h₂
  refine (ring_append_iff hu (by rw [List.cons_append])).2 ⟨h₁', hax, ?_⟩
  rw [hw, List.isChain_cons_cons]
  exact ⟨hxc, h₂'⟩

end Seam

omit [DecidableEq α] in
/-- The start and the nodes up to one of them, and the nodes after it. -/
theorem exists_concat_cons (b : α) (l₁ l₂ : List α) :
    ∃ u a c w, b :: l₁ = u ++ [a] ∧ l₂ ++ [b] = c :: w := by
  obtain ⟨u, a, h⟩ := List.eq_nil_or_concat' (b :: l₁) |>.resolve_left (List.cons_ne_nil _ _)
  obtain ⟨c, w, h'⟩ := List.exists_cons_of_ne_nil (show l₂ ++ [b] ≠ [] by simp)
  exact ⟨u, a, c, w, h, h'⟩

omit [DecidableEq α] in
/-- The nodes before and after `x`. -/
theorem Ring.neighbours (h : Ring next prev b (l₁ ++ x :: l₂)) :
    prev x ∈ b :: l₁ ∧ next x ∈ l₂ ++ [b] := by
  obtain ⟨u, a, c, w, hu, hw⟩ := exists_concat_cons b l₁ l₂
  obtain ⟨-, hax, h₂⟩ := (ring_append_iff hu (by rw [List.cons_append])).1 h
  rw [hw, List.isChain_cons_cons] at h₂
  rw [hax.2, h₂.1.1, hu, hw]
  simp

omit [DecidableEq α] in
/-- The node before `y`, which follows the nodes `l₁`. -/
theorem Ring.prev_mem_of_eq {y : α} {w : List α} (h : Ring next prev b (l₁ ++ l₂))
    (hw : l₂ ++ [b] = y :: w) : prev y ∈ b :: l₁ := by
  obtain ⟨u, a, hu⟩ := List.eq_nil_or_concat' (b :: l₁) |>.resolve_left (List.cons_ne_nil _ _)
  have hya : prev y = a := ((ring_append_iff hu hw).1 h).2.1.2
  rw [hya, hu]
  simp

omit [DecidableEq α] in
/-- The last node. -/
theorem Ring.prev_mem (h : Ring next prev b l) : prev b ∈ b :: l := by
  rw [← List.append_nil l] at h
  exact h.prev_mem_of_eq rfl

/-- The node `x` is linked before `y`, which follows the nodes `l₁`. -/
theorem Ring.insert_before {y : α} {w : List α} (h : Ring next prev b (l₁ ++ l₂))
    (hd : (b :: (l₁ ++ l₂)).Nodup) (hx : x ∉ b :: (l₁ ++ l₂)) (hw : l₂ ++ [b] = y :: w) :
    Ring (Function.update (Function.update next x y) (prev y) x)
      (Function.update (Function.update prev x (prev y)) y x) b (l₁ ++ x :: l₂) := by
  obtain ⟨u, a, hu⟩ := List.eq_nil_or_concat' (b :: l₁) |>.resolve_left (List.cons_ne_nil _ _)
  have hya : prev y = a := ((ring_append_iff hu hw).1 h).2.1.2
  have hax : a ≠ x := by
    rintro rfl
    have hmem : a ∈ b :: l₁ := hu ▸ by simp
    exact hx (List.mem_append_left l₂ hmem)
  have hyx : y ≠ x := by
    rintro rfl
    have hmem : y ∈ l₂ ++ [b] := hw ▸ List.mem_cons_self
    simp only [List.mem_append, List.mem_singleton] at hmem
    simp only [List.mem_cons, List.mem_append] at hx
    tauto
  rw [hya]
  refine h.insert_between hd hu hw (fun z hz hza => ?_) (fun z hz hzy => ?_) ⟨by simp, ?_⟩
    ⟨?_, by simp⟩
  · rw [Function.update_of_ne hza, Function.update_of_ne]
    rintro rfl
    exact hx hz
  · rw [Function.update_of_ne hzy, Function.update_of_ne]
    rintro rfl
    exact hx hz
  · rw [Function.update_of_ne hyx.symm, Function.update_self]
  · rw [Function.update_of_ne hax.symm, Function.update_self]

/-- The node `x` is linked at the front. -/
theorem Ring.insert_front (h : Ring next prev b l) (hd : (b :: l).Nodup) (hx : x ∉ b :: l) :
    Ring (Function.update (Function.update next x (next b)) b x)
      (Function.update (Function.update prev x b) (next b) x) b (x :: l) := by
  obtain ⟨c, w, hw⟩ := List.exists_cons_of_ne_nil (show l ++ [b] ≠ [] by simp)
  have hbc : Link next prev b c := ((ring_append_iff (u := []) rfl hw).1 h).2.1
  obtain rfl := hbc.1
  rw [← List.nil_append l] at h hd hx
  have hring := h.insert_before hd hx hw
  rwa [hbc.2] at hring

/-- The node `x` is linked at the back. -/
theorem Ring.insert_back (h : Ring next prev b l) (hd : (b :: l).Nodup) (hx : x ∉ b :: l) :
    Ring (Function.update (Function.update next x b) (prev b) x)
      (Function.update (Function.update prev x (prev b)) b x) b (l ++ [x]) := by
  rw [← List.append_nil l] at h hd hx
  exact h.insert_before hd hx rfl

/-- The node `x` is unlinked. -/
theorem Ring.unlink (h : Ring next prev b (l₁ ++ x :: l₂)) (hd : (b :: (l₁ ++ x :: l₂)).Nodup) :
    Ring (Function.update next (prev x) (next x)) (Function.update prev (next x) (prev x)) b
      (l₁ ++ l₂) := by
  obtain ⟨u, a, c, w, hu, hw⟩ := exists_concat_cons b l₁ l₂
  obtain ⟨h₁, hax, h₂⟩ := (ring_append_iff hu (by rw [List.cons_append])).1 h
  rw [hw, List.isChain_cons_cons] at h₂
  obtain ⟨hxc, h₂⟩ := h₂
  -- The neighbours of `x` are what its own links say.
  obtain rfl := hax.2
  obtain rfl := hxc.1
  have hd' : (b :: (l₁ ++ l₂)).Nodup := by
    refine hd.sublist ?_
    simp
  obtain ⟨h₁', h₂'⟩ := chains_congr hd' hu hw
    (fun y _ hy => Function.update_of_ne hy (next x) next)
    (fun y _ hy => Function.update_of_ne hy (prev x) prev) h₁ h₂
  exact (ring_append_iff hu hw).2 ⟨h₁', ⟨by simp, by simp⟩, h₂'⟩

omit [DecidableEq α] in
/-- A ring may start at its last node. -/
theorem ring_rotate {c : α} : Ring next prev b (l ++ [c]) ↔ Ring next prev c (b :: l) := by
  have hb : Ring next prev b (l ++ [c]) ↔
      (b :: l ++ [c]).IsChain (Link next prev) ∧ Link next prev c b := by
    rw [← List.append_nil (l ++ [c]), ring_append_iff (List.cons_append ..).symm (List.nil_append [b])]
    simp
  have hc : Ring next prev c (b :: l) ↔
      Link next prev c b ∧ (b :: l ++ [c]).IsChain (Link next prev) := by
    rw [← List.nil_append (b :: l), ring_append_iff (u := []) rfl rfl]
    simp
  rw [hb, hc, and_comm]

/-- The node `c` takes the place of the start. -/
theorem Ring.move {c : α} (h : Ring next prev b l) (hd : (b :: l).Nodup) (hc : c ∉ b :: l)
    (hl : l ≠ []) :
    Ring (Function.update (Function.update next c (next b)) (prev b) c)
      (Function.update (Function.update prev c (prev b)) (next b) c) c l := by
  have hbc : b ≠ c := fun e => hc (e ▸ List.mem_cons_self)
  have hcp : c ≠ prev b := fun e => hc (e ▸ h.prev_mem)
  have hbp : b ≠ prev b := by
    obtain ⟨u, a, rfl⟩ := List.eq_nil_or_concat' l |>.resolve_left hl
    have hmem : prev b ∈ u ++ [a] := by
      have hring := ring_rotate.1 h
      rw [(List.isChain_cons_cons.1 hring).1.2]
      simp
    rintro e
    exact (List.nodup_cons.1 hd).1 (e ▸ hmem)
  -- The node `c` is linked at the back, where the ring then starts, and `b` is unlinked.
  have hrot := ring_rotate.1 (h.insert_back hd hc)
  rw [← List.nil_append (b :: l)] at hrot hd hc
  have hring := hrot.unlink (List.nodup_cons.2 ⟨hc, hd⟩)
  rw [Function.update_self, Function.update_of_ne hbp, Function.update_of_ne hbc] at hring
  refine hring.congr (fun y hy => ?_) fun y hy => ?_
  · rcases eq_or_ne y c with rfl | hyc
    · rw [Function.update_of_ne hcp, Function.update_self, Function.update_self]
    · rw [Function.update_of_ne hyc]
      simp only [Function.update_apply, hyc, if_false]
  · have hyb : y ≠ b := by
      rintro rfl
      rcases List.mem_cons.1 hy with e | hy
      · exact hbc e
      · exact (List.nodup_cons.1 hd).1 hy
    simp only [Function.update_apply, hyb, if_false]

end Dlb
