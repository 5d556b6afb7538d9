import Dlb.Rbt.Nearest
import Dlb.Tree.Height

/-!
# Logarithmic bounds

Each function makes one or more walks up or down the tree, and each of its loops follows one of
them. In a tree of `n` nodes that is at most `2 * log (n + 1)` nodes long, whatever history has led
to the tree.
-/

namespace Dlb.Rbt

variable {K P : Type} [LinearOrder K] {α : Type}

/-- The program returns with `b` iterations of each loop what it returns with more. -/
def ReturnsBy (b : ℕ) (x : ℕ → Prog P α) (m : Mem P) : Prop :=
  ∃ r m', (x b).run m = some (r, m') ∧ Returns x m r m'

omit [LinearOrder K] in
theorem Fuelled.returnsBy {b : ℕ} {x : ℕ → Prog P α} (hx : Fuelled x) {m m' : Mem P} {r : α}
    (h : (x b).run m = some (r, m')) : ReturnsBy b x m :=
  ⟨r, m', h, hx.returns b h⟩

variable {cmp : K → K → ℤ} {s : State K P} {t : Tree (Cell P)} {b : ℕ} {k : K} {n : P}

theorem Holds.find_by (hcmp : Compares cmp) (h : Holds s t) (hb : t.height ≤ b) (k : K) :
    ReturnsBy b (fun fuel => rbtFind (s.compare cmp) fuel k) s.mem := by
  obtain ⟨r, hrun, -⟩ := rbtFindLoop_spec h.mem.tree (h.sorted hcmp k) hb
  rw [← show s.mem.root = ptr t from h.mem.ctx] at hrun
  have hfind : (rbtFind (s.compare cmp) b k).run s.mem = some (r, s.mem) := by
    simpa [rbtFind] using hrun
  exact Fuelled.returnsBy (fuelled_rbtFind _ k) hfind

theorem Holds.nearest_by (hcmp : Compares cmp) (h : Holds s t) (hb : t.height ≤ b) {exact : Bool}
    {d : Dir} {test : ℤ → Bool}
    (htest : ∀ r, (exact = true → r ≠ 0) → (test r = true ↔ 0 < toward d r)) (k : K) :
    ReturnsBy b
      (fun fuel => do nearestLoop (s.compare cmp) exact d test k fuel (← loadRoot) none) s.mem := by
  have hrun : ∀ fuel, t.height ≤ fuel →
      (do nearestLoop (s.compare cmp) exact d test k fuel (← loadRoot) none : Prog P (Option P)).run
        s.mem = some (endOf d (good (s.compare cmp k) exact d (order t)), s.mem) := by
    intro fuel hf
    have hrun := nearestLoop_spec (b := none) htest h.mem.tree (h.sorted hcmp k) hf
    rw [Option.or_none, ← show s.mem.root = ptr t from h.mem.ctx] at hrun
    exact hrun
  exact ⟨_, _, hrun b hb, t.height, hrun⟩

theorem Holds.farthest_by (h : Holds s t) (hb : t.height ≤ b) (d : Dir) :
    ReturnsBy b (fun fuel => do farthest d fuel (← loadRoot)) s.mem := by
  have hx : Fuelled fun fuel => (do farthest d fuel (← loadRoot) : Prog P (Option P)) :=
    fun _ _ hf => Approx.bind_right fun n => fuelled_farthest d n hf
  have hrun : (do farthest d b (← loadRoot) : Prog P (Option P)).run s.mem =
      some (endOf d (order t), s.mem) := by
    simp [show s.mem.root = ptr t from h.mem.ctx, farthest_spec h.mem.tree hb]
  exact Fuelled.returnsBy hx hrun

variable [DecidableEq P]

theorem Holds.insert_by (h : Holds s t) (hb : t.height < b) (k : K)
    (hn : n ∉ order t) :
    ReturnsBy b (fun fuel => rbtInsert ((s.setKey n k).compare cmp) fuel k n) s.mem := by
  obtain ⟨m', hrun, -⟩ := rbtInsert_spec ((s.setKey n k).compare cmp) k h.mem
    (by simpa [addrs] using hn) h.redBlack hb
  exact Fuelled.returnsBy (fuelled_rbtInsert _ k n) hrun

theorem Holds.remove_by (h : Holds s t) (hb : t.height < b) (hn : n ∈ order t) :
    ReturnsBy b (fun fuel => rbtRemove fuel n) s.mem := by
  obtain ⟨c, l, x, r, rfl, rfl, hat⟩ := h.mem.exists_node hn
  have hlen := length_add_height_le c (.node l x r)
  rw [Tree.height_node] at hlen
  obtain ⟨m', hrun, -⟩ := rbtRemove_spec hat h.redBlack (show _ < b by omega)
  exact Fuelled.returnsBy (fuelled_rbtRemove _) hrun

theorem Holds.mark_by (h : Holds s t) (hb : t.height < b) (hn : n ∈ order t) :
    ReturnsBy b (fun fuel => rbtMarkModified fuel (some n)) s.mem := by
  obtain ⟨c, l, x, r, rfl, rfl, hat⟩ := h.mem.exists_node hn
  have hlen := length_add_height_le c (.node l x r)
  obtain ⟨m', hrun, -⟩ := rbtMarkModified_spec hat (ptr_node l x r) (show _ < b by omega)
  exact Fuelled.returnsBy (fuelled_rbtMarkModified _) hrun

theorem Holds.step_by (h : Holds s t) (hb : t.height ≤ b) (hn : n ∈ order t) :
    ReturnsBy b (fun fuel => rbtIterNext fuel (some n)) s.mem ∧
      ReturnsBy b (fun fuel => rbtIterPrev fuel (some n)) s.mem := by
  obtain ⟨xs, ys, ho⟩ := List.append_of_mem hn
  exact ⟨⟨_, _, h.next_run ho hb, h.next ho⟩, ⟨_, _, h.prev_run ho hb, h.prev ho⟩⟩

/-- After every history no loop of a function makes more than `2 * log (n + 1) + 1` iterations, where
`n` is the number of nodes in the tree. -/
theorem run_logarithmic (hcmp : Compares cmp) {ops : List (Op K P)} (h : Run cmp ops s) :
    ∃ l, Inorder s.mem s.mem.root l ∧ ∀ b, 2 * Nat.log 2 (l.length + 1) < b →
      (∀ k, ReturnsBy b (fun fuel => rbtFind (s.compare cmp) fuel k) s.mem ∧
        ReturnsBy b (fun fuel => rbtIterLe (s.compare cmp) fuel k) s.mem ∧
        ReturnsBy b (fun fuel => rbtIterGe (s.compare cmp) fuel k) s.mem ∧
        ReturnsBy b (fun fuel => rbtIterLt (s.compare cmp) fuel k) s.mem ∧
        ReturnsBy b (fun fuel => rbtIterGt (s.compare cmp) fuel k) s.mem) ∧
      ReturnsBy b (fun fuel => rbtIterFirst fuel) s.mem ∧
      ReturnsBy b (fun fuel => rbtIterLast fuel) s.mem ∧
      (∀ k n, Legal s (.insert k n) →
        ReturnsBy b (fun fuel => rbtInsert ((s.setKey n k).compare cmp) fuel k n) s.mem) ∧
      ∀ n, Legal s (.remove n) → ReturnsBy b (fun fuel => rbtRemove fuel n) s.mem ∧
        ReturnsBy b (fun fuel => rbtMarkModified fuel (some n)) s.mem ∧
        ReturnsBy b (fun fuel => rbtIterNext fuel (some n)) s.mem ∧
        ReturnsBy b (fun fuel => rbtIterPrev fuel (some n)) s.mem := by
  obtain ⟨t, ht, -⟩ := h.holds hcmp
  refine ⟨order t, ?_, fun b hb => ?_⟩
  · rw [show s.mem.root = ptr t from ht.mem.ctx]
    exact ht.mem.tree.inorder
  have hlt : t.height < b := by
    have := ht.redBlack.height_le
    simp only [order, List.length_map] at hb
    omega
  have hle := hlt.le
  refine ⟨fun k => ⟨ht.find_by hcmp hle k, ht.nearest_by hcmp hle ?_ k, ht.nearest_by hcmp hle ?_ k,
    ht.nearest_by hcmp hle ?_ k, ht.nearest_by hcmp hle ?_ k⟩, ht.farthest_by hle .left,
    ht.farthest_by hle .right, fun k n hl => ?_, fun n hl => ?_⟩
  · intro r hr
    have := hr rfl
    simp only [toward, decide_eq_true_eq]
    omega
  · intro r _
    simp only [toward, decide_eq_true_eq]
    omega
  · intro r _
    simp only [toward, decide_eq_true_eq]
    omega
  · intro r _
    simp only [toward, decide_eq_true_eq]
    omega
  · exact ht.insert_by hlt k fun hn => hl (ht.mem.reach_iff.2 hn)
  · have hn := ht.mem.reach_iff.1 hl
    exact ⟨ht.remove_by hlt hn, ht.mark_by hlt hn, ht.step_by hle hn⟩

omit [LinearOrder K] [DecidableEq P] in
/-- A tree with one node. -/
theorem run_logarithmic_one : ∃ s : State ℤ ℕ, Run (fun a b => a - b) [.insert 5 0] s ∧
    ∃ l, Inorder s.mem s.mem.root l ∧ ∀ b, 2 * Nat.log 2 (l.length + 1) < b →
      ReturnsBy b (fun fuel => rbtFind (s.compare fun a b => a - b) fuel 7) s.mem := by
  have hcmp : Compares fun a b : ℤ => a - b := ⟨by omega, by omega⟩
  obtain ⟨s, h, -⟩ := exists_run_insert hcmp 5 (0 : ℕ)
  obtain ⟨l, hl, hb⟩ := run_logarithmic hcmp h
  exact ⟨s, h, l, hl, fun b hlt => ((hb b hlt).1 7).1⟩

end Dlb.Rbt
