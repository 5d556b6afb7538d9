import Dlb.Rbt.Iter

/-!
# Walks through a tree

Walks with `rbt_iter_next` from `rbt_iter_first` on, and with `rbt_iter_prev` from `rbt_iter_last`
on, until `NULL`. After every history, the first visits the nodes in order, and the second visits
them in the opposite order; and each step of one is undone by a step of the other.
-/

namespace Dlb.Rbt

variable {P : Type}

/-- `for (; n; n = next(n))`: the nodes that are visited. -/
def visit (next : Option P → Prog P (Option P)) : ℕ → Option P → Prog P (List P)
  | _, none => pure []
  | 0, some _ => failure
  | fuel + 1, some n => do return n :: (← visit next fuel (← next (some n)))

variable [DecidableEq P]

/-- A walk from the first node on. -/
def walkForward (fuel : ℕ) : Prog P (List P) := do
  visit (rbtIterNext fuel) fuel (← rbtIterFirst fuel)

/-- A walk from the last node back. -/
def walkBackward (fuel : ℕ) : Prog P (List P) := do
  visit (rbtIterPrev fuel) fuel (← rbtIterLast fuel)

omit [DecidableEq P] in
/-- If every node of the list is followed by the next one, and the last one by `NULL`, then they are
    the nodes visited. -/
theorem visit_spec {next : Option P → Prog P (Option P)} {m : Mem P} {l : List P} {fuel : ℕ}
    (h : ∀ xs n ys, l = xs ++ n :: ys → (next (some n)).run m = some (ys.head?, m))
    (hf : l.length ≤ fuel) : (visit next fuel l.head?).run m = some (l, m) := by
  induction l generalizing fuel with
  | nil => cases fuel <;> rfl
  | cons n l ih =>
    obtain ⟨fuel, rfl⟩ : ∃ k, fuel = k + 1 :=
      Nat.exists_eq_succ_of_ne_zero (by simp at hf; omega)
    have hn := h [] n l rfl
    have hl := ih (fun xs a ys e => h (n :: xs) a ys (by rw [e]; rfl)) (show _ ≤ fuel by simpa using hf)
    simp [visit, hn, hl]

variable {K : Type} [LinearOrder K] {s : State K P} {t : Tree (Cell P)} {cmp : K → K → ℤ}

theorem Holds.walkForward (h : Holds s t) :
    Returns (fun fuel => walkForward fuel) s.mem (order t) s.mem :=
  h.first.bind ⟨(order t).length, fun _ hf =>
    visit_spec (fun _ _ _ ho => h.next_run ho ((height_le_length_order t).trans hf)) hf⟩

theorem Holds.walkBackward (h : Holds s t) :
    Returns (fun fuel => walkBackward fuel) s.mem (order t).reverse s.mem := by
  refine h.last.bind ⟨(order t).length, fun fuel hf => ?_⟩
  rw [← List.head?_reverse]
  refine visit_spec (fun xs n ys e => ?_) (by simpa using hf)
  -- What follows a node on the way back is what is before it.
  have ho : order t = ys.reverse ++ n :: xs.reverse := by
    rw [← List.reverse_reverse (order t), e]
    simp
  rw [h.prev_run ho ((height_le_length_order t).trans hf), List.getLast?_reverse]

/-- The node before the one after `a` is `a`. -/
theorem Holds.next_prev (h : Holds s t) {a : P} (ha : a ∈ order t) :
    ∃ r, Returns (fun fuel => rbtIterNext fuel (some a)) s.mem r s.mem ∧ ∀ b ∈ r,
      b ∈ order t ∧ Returns (fun fuel => rbtIterPrev fuel (some b)) s.mem (some a) s.mem := by
  obtain ⟨xs, ys, ho⟩ := List.append_of_mem ha
  refine ⟨_, h.next ho, fun b hb => ?_⟩
  obtain ⟨zs, rfl⟩ : ∃ zs, ys = b :: zs := List.head?_eq_some_iff.1 hb
  have ho' : order t = (xs ++ [a]) ++ b :: zs := by simpa using ho
  exact ⟨by simp [ho], by simpa using h.prev ho'⟩

/-- The node after the one before `a` is `a`. -/
theorem Holds.prev_next (h : Holds s t) {a : P} (ha : a ∈ order t) :
    ∃ r, Returns (fun fuel => rbtIterPrev fuel (some a)) s.mem r s.mem ∧ ∀ b ∈ r,
      b ∈ order t ∧ Returns (fun fuel => rbtIterNext fuel (some b)) s.mem (some a) s.mem := by
  obtain ⟨xs, ys, ho⟩ := List.append_of_mem ha
  refine ⟨_, h.prev ho, fun b hb => ?_⟩
  obtain ⟨zs, rfl⟩ : ∃ zs, xs = zs ++ [b] := List.getLast?_eq_some_iff.1 hb
  have ho' : order t = zs ++ b :: (a :: ys) := by simpa using ho
  exact ⟨by simp [ho], by simpa using h.next ho'⟩

/-- After every history, the walk from the first node on visits all nodes, in order and each once,
    and the walk from the last node back visits them in the opposite order. On the nodes of the
    tree, `rbt_iter_next` and `rbt_iter_prev` return, and each of them undoes the other. -/
theorem run_walk (hcmp : Compares cmp) {ops : List (Op K P)} (h : Run cmp ops s) :
    ∃ l, Inorder s.mem s.mem.root l ∧ (∀ a, a ∈ l ↔ Reach s.mem a) ∧ l.Nodup ∧
      (l.map s.key).Pairwise (· < ·) ∧
      Returns (fun fuel => walkForward fuel) s.mem l s.mem ∧
      Returns (fun fuel => walkBackward fuel) s.mem l.reverse s.mem ∧
      (∀ a, Reach s.mem a → ∃ r, Returns (fun fuel => rbtIterNext fuel (some a)) s.mem r s.mem ∧
        ∀ b ∈ r, Reach s.mem b ∧
          Returns (fun fuel => rbtIterPrev fuel (some b)) s.mem (some a) s.mem) ∧
      ∀ a, Reach s.mem a → ∃ r, Returns (fun fuel => rbtIterPrev fuel (some a)) s.mem r s.mem ∧
        ∀ b ∈ r, Reach s.mem b ∧
          Returns (fun fuel => rbtIterNext fuel (some b)) s.mem (some a) s.mem := by
  obtain ⟨t, ht, -⟩ := h.holds hcmp
  have hroot : s.mem.root = ptr t := ht.mem.ctx
  have hreach : ∀ a, a ∈ order t ↔ Reach s.mem a := fun a => ht.mem.reach_iff.symm
  refine ⟨order t, hroot ▸ ht.mem.tree.inorder, hreach, ht.nodup, ht.keys, ht.walkForward,
    ht.walkBackward, fun a ha => ?_, fun a ha => ?_⟩
  · simpa only [hreach] using ht.next_prev ((hreach a).2 ha)
  · simpa only [hreach] using ht.prev_next ((hreach a).2 ha)

omit [DecidableEq P] [LinearOrder K] in
theorem run_walk_one : ∃ (s : State ℤ ℕ) (l : List ℕ), Run (fun a b => a - b) [.insert 5 0] s ∧
    Reach s.mem 0 ∧ (∀ a, a ∈ l ↔ Reach s.mem a) ∧
    Returns (fun fuel => walkForward fuel) s.mem l s.mem := by
  have hcmp : Compares fun a b : ℤ => a - b := ⟨by omega, by omega⟩
  obtain ⟨s, h, hp⟩ := exists_run_insert hcmp 5 (0 : ℕ)
  obtain ⟨l, -, hmem, -, -, hrun, -⟩ := run_walk hcmp h
  exact ⟨s, l, h, hp.1, hmem, hrun⟩

end Dlb.Rbt
