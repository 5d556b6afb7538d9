import Dlb.Rbt.Iter

/-!
# Searches for the nearest key

`rbt_iter_le`, `rbt_iter_ge`, `rbt_iter_lt` and `rbt_iter_gt`, of `src/rbt_iter.c`. They have one
loop, which walks down the tree and keeps the best node so far. Where a node is not good enough, the
search goes on on the side where the better ones are; else it goes on on the other side.

The nodes that are good enough are at one end of the order, and the loop finds the innermost one of
them.
-/

namespace Dlb.Rbt

variable {K P : Type}

/-! ## The code -/

section

variable (compare : K → P → ℤ)

/-- The loop of the searches. If `exact` holds, a node with the key itself is returned at once. A
    node at which the comparison passes `test` is the best one so far, and the search goes on below
    it on the side `d`. -/
def nearestLoop (exact : Bool) (d : Dir) (test : ℤ → Bool) (key : K) :
    ℕ → Option P → Option P → Prog P (Option P)
  | _, none, m => pure m
  | 0, some _, _ => failure
  | fuel + 1, some n, m => do
    let r := compare key n
    if exact ∧ r = 0 then return some n
    let x ← load (some n)
    if test r then nearestLoop exact d test key fuel (x.child d) (some n)
    else nearestLoop exact d test key fuel (x.child d.other) m

/-- `rbt_iter_le`. -/
def rbtIterLe (fuel : ℕ) (key : K) : Prog P (Option P) := do
  nearestLoop compare true .right (fun r => ¬r < 0) key fuel (← loadRoot) none

/-- `rbt_iter_ge`. -/
def rbtIterGe (fuel : ℕ) (key : K) : Prog P (Option P) := do
  nearestLoop compare true .left (fun r => r < 0) key fuel (← loadRoot) none

/-- `rbt_iter_lt`. -/
def rbtIterLt (fuel : ℕ) (key : K) : Prog P (Option P) := do
  nearestLoop compare false .right (fun r => ¬r ≤ 0) key fuel (← loadRoot) none

/-- `rbt_iter_gt`. -/
def rbtIterGt (fuel : ℕ) (key : K) : Prog P (Option P) := do
  nearestLoop compare false .left (fun r => r < 0) key fuel (← loadRoot) none

end

/-! ## What the loop finds -/

/-- The outcome of a comparison, seen from the side `d`: positive if the key is on the side `d`. -/
def toward : Dir → ℤ → ℤ
  | .left, r => -r
  | .right, r => r

/-- The node is good enough: the key is beyond it, or at it if `exact` holds. -/
def Good (exact : Bool) (d : Dir) (r : ℤ) : Prop := 0 < toward d r ∨ exact ∧ r = 0

instance (exact : Bool) (d : Dir) (r : ℤ) : Decidable (Good exact d r) :=
  inferInstanceAs (Decidable (_ ∨ _))

/-- The good nodes of a list. -/
def good (compare : P → ℤ) (exact : Bool) (d : Dir) (l : List P) : List P :=
  l.filter fun a => Good exact d (compare a)

variable {exact : Bool} {d : Dir}

theorem good_mk (compare : P → ℤ) (u : Tree (Cell P)) (x : Cell P) (v : Tree (Cell P)) :
    endOf d (good compare exact d (order (.mk d u x v))) =
      (endOf d (good compare exact d (order u))).or
        (if Good exact d (compare x.addr) then some x.addr
          else endOf d (good compare exact d (order v))) := by
  cases d with
  | left =>
    simp only [good, Tree.mk, order_node, List.filter_append, List.filter_cons, endOf,
      List.head?_append, decide_eq_true_eq]
    split <;> rfl
  | right =>
    simp only [good, Tree.mk, order_node, List.filter_append, List.filter_cons, endOf,
      List.getLast?_append, decide_eq_true_eq]
    split <;> simp [List.getLast?_cons]

theorem Sorted.of_mk {cmp : P → ℤ} {u v : Tree (Cell P)} {x : Cell P}
    (h : Sorted cmp (order (.mk d u x v))) : Sorted cmp (order u) ∧ Sorted cmp (order v) ∧
      ∀ a ∈ order u, toward d (cmp x.addr) ≤ 0 → toward d (cmp a) < 0 := by
  cases d with
  | left =>
    rw [Tree.mk_left, Sorted, order_node, List.pairwise_append, List.pairwise_cons] at h
    obtain ⟨hu, ⟨-, hv⟩, hux⟩ := h
    refine ⟨hu, hv, fun a ha hx => ?_⟩
    have := (hux a ha x.addr (by simp)).2
    simp only [toward] at hx ⊢
    omega
  | right =>
    rw [Tree.mk_right, Sorted, order_node, List.pairwise_append, List.pairwise_cons] at h
    obtain ⟨hv, ⟨hxu, hu⟩, -⟩ := h
    exact ⟨hu, hv, fun a ha => (hxu a ha).1⟩

/-- The loop returns the innermost good node, or the best node so far if there is none. -/
theorem nearestLoop_spec {m : Mem P} {compare : K → P → ℤ} {k : K} {test : ℤ → Bool}
    {p b : Option P} {t : Tree (Cell P)} {fuel : ℕ}
    (htest : ∀ r, (exact = true → r ≠ 0) → (test r = true ↔ 0 < toward d r)) (h : TreeAt m p t)
    (hs : Sorted (compare k) (order t)) (hf : t.height ≤ fuel) :
    (nearestLoop compare exact d test k fuel (ptr t) b).run m =
      some ((endOf d (good (compare k) exact d (order t))).or b, m) := by
  induction t generalizing p b fuel with
  | nil => cases fuel <;> cases d <;> rfl
  | node l x r ihl ihr =>
    rw [Tree.height_node] at hf
    obtain ⟨fuel, rfl⟩ : ∃ j, fuel = j + 1 := Nat.exists_eq_succ_of_ne_zero (by omega)
    obtain ⟨hx, hl, hr⟩ := h
    -- The two subtrees as they are seen from the side `d`, and the loop on each.
    obtain ⟨u, v, ht, hu, hv, ihu, ihv⟩ : ∃ u v, Tree.node l x r = .mk d u x v ∧
        (m.node x.addr).child d = ptr u ∧ (m.node x.addr).child d.other = ptr v ∧
        (Sorted (compare k) (order u) → ∀ b,
          (nearestLoop compare exact d test k fuel (ptr u) b).run m =
            some ((endOf d (good (compare k) exact d (order u))).or b, m)) ∧
        (Sorted (compare k) (order v) → ∀ b,
          (nearestLoop compare exact d test k fuel (ptr v) b).run m =
            some ((endOf d (good (compare k) exact d (order v))).or b, m)) := by
      have ihl' := fun hs b => ihl (b := b) hl hs (show _ ≤ fuel by omega)
      have ihr' := fun hs b => ihr (b := b) hr hs (show _ ≤ fuel by omega)
      cases d with
      | left => exact ⟨l, r, rfl, by rw [hx]; rfl, by rw [hx]; rfl, ihl', ihr'⟩
      | right => exact ⟨r, l, rfl, by rw [hx]; rfl, by rw [hx]; rfl, ihr', ihl'⟩
    rw [ptr_node, nearestLoop, ht, good_mk]
    rw [ht] at hs
    obtain ⟨hsu, hsv, hux⟩ := hs.of_mk
    -- Where the key is not beyond the node, there is no good node on the side `d` of it.
    have hnone : toward d (compare k x.addr) ≤ 0 → endOf d (good (compare k) exact d (order u)) = none := by
      intro hle
      have : good (compare k) exact d (order u) = [] := by
        simp only [good, List.filter_eq_nil_iff, decide_eq_true_eq]
        rintro a ha (hlt | ⟨-, h₀⟩)
        · exact (hux a ha hle).not_gt hlt
        · have := hux a ha hle
          cases d <;> simp [toward, h₀] at this
      rw [this]
      cases d <;> rfl
    by_cases h₀ : exact ∧ compare k x.addr = 0
    · have hz : toward d (compare k x.addr) = 0 := by cases d <;> simp [toward, h₀.2]
      have hg : Good exact d (compare k x.addr) := .inr h₀
      rw [hnone hz.le, if_pos hg]
      simp [h₀]
    · have ht₀ := htest (compare k x.addr) fun he hz => h₀ ⟨he, hz⟩
      by_cases hlt : 0 < toward d (compare k x.addr)
      · have hrun := ihu hsu (some x.addr)
        have hg : Good exact d (compare k x.addr) := .inl hlt
        rw [if_pos hg, Option.or_assoc]
        simpa [h₀, ht₀.2 hlt, hu] using hrun
      · have hrun := ihv hsv b
        have hg : ¬Good exact d (compare k x.addr) := not_or.2 ⟨hlt, h₀⟩
        rw [hnone (not_lt.1 hlt), if_neg hg]
        simpa [h₀, mt ht₀.1 hlt, hv] using hrun

/-! ## Searches after a history -/

theorem endOf_eq_none_iff {α : Type*} {l : List α} : endOf d l = none ↔ l = [] := by
  cases d
  · exact List.head?_eq_none_iff
  · exact List.getLast?_eq_none_iff

variable [LinearOrder K] {s : State K P} {t : Tree (Cell P)} {cmp : K → K → ℤ} {k : K}

/-- The key `b` is not beyond `a` on the side `d`. -/
def NotBeyond (d : Dir) (b a : K) : Prop :=
  match d with
  | .left => a ≤ b
  | .right => b ≤ a

/-- At the ends of a list whose keys increase are the least and the greatest key. -/
theorem endOf_eq_some_iff {l : List P} {key : P → K} (h : (l.map key).Pairwise (· < ·)) {a : P} :
    endOf d l = some a ↔ a ∈ l ∧ ∀ b ∈ l, NotBeyond d (key b) (key a) := by
  rw [List.pairwise_map] at h
  cases d with
  | left =>
    cases l with
    | nil => simp [endOf]
    | cons c l =>
      obtain ⟨hc, -⟩ := List.pairwise_cons.1 h
      simp only [endOf, List.head?_cons, Option.some.injEq, NotBeyond]
      constructor
      · rintro rfl
        refine ⟨List.mem_cons_self, fun b hb => ?_⟩
        rcases List.mem_cons.1 hb with rfl | hb
        · exact le_rfl
        · exact (hc b hb).le
      · rintro ⟨ha, hle⟩
        rcases List.mem_cons.1 ha with rfl | ha
        · rfl
        · exact absurd (hle c List.mem_cons_self) (hc a ha).not_ge
  | right =>
    rcases List.eq_nil_or_concat l with rfl | ⟨l, c, rfl⟩
    · simp [endOf]
    · rw [List.concat_eq_append] at h ⊢
      obtain ⟨-, -, hc⟩ := List.pairwise_append.1 h
      simp only [endOf, List.getLast?_append, List.getLast?_singleton, Option.some_or,
        Option.some.injEq, NotBeyond]
      constructor
      · rintro rfl
        refine ⟨by simp, fun b hb => ?_⟩
        rcases List.mem_append.1 hb with hb | hb
        · exact (hc b hb c (by simp)).le
        · rw [List.mem_singleton.1 hb]
      · rintro ⟨ha, hle⟩
        rcases List.mem_append.1 ha with ha | ha
        · exact absurd (hle c (by simp)) (hc a ha c (by simp)).not_ge
        · exact (List.mem_singleton.1 ha).symm

/-- The search returns the node of the tree whose key is the extreme one, in the order `le`, among
    the keys for which `p` holds, and `NULL` exactly if there is none. It changes nothing. -/
def Selects (s : State K P) (search : ℕ → Prog P (Option P)) (p : K → Prop) (le : K → K → Prop) :
    Prop :=
  ∃ r, Returns search s.mem r s.mem ∧ (r = none ↔ ∀ a, Reach s.mem a → ¬p (s.key a)) ∧
    ∀ a, r = some a ↔ Reach s.mem a ∧ p (s.key a) ∧
      ∀ b, Reach s.mem b → p (s.key b) → le (s.key b) (s.key a)

theorem Holds.selects (hcmp : Compares cmp) (h : Holds s t) {test : ℤ → Bool} {p : K → Prop}
    (htest : ∀ r, (exact = true → r ≠ 0) → (test r = true ↔ 0 < toward d r))
    (hp : ∀ a, Good exact d (cmp k a) ↔ p a) :
    Selects s (fun fuel => do nearestLoop (s.compare cmp) exact d test k fuel (← loadRoot) none) p
      (NotBeyond d) := by
  set l := good (s.compare cmp k) exact d (order t) with hl
  have hmem : ∀ a, a ∈ l ↔ Reach s.mem a ∧ p (s.key a) := by
    intro a
    rw [hl, good, List.mem_filter, decide_eq_true_eq, h.mem.reach_iff, State.compare, hp]
  have hkeys : (l.map s.key).Pairwise (· < ·) := h.keys.sublist (List.filter_sublist.map _)
  refine ⟨endOf d l, ⟨t.height, fun fuel hf => ?_⟩, ?_, fun a => ?_⟩
  · have hrun := nearestLoop_spec (b := none) htest h.mem.tree (h.sorted hcmp k) hf
    rw [Option.or_none, ← show s.mem.root = ptr t from h.mem.ctx] at hrun
    exact hrun
  · rw [endOf_eq_none_iff, List.eq_nil_iff_forall_not_mem]
    simp only [hmem, not_and]
  · rw [endOf_eq_some_iff hkeys]
    simp only [hmem, and_imp, and_assoc]

variable [DecidableEq P]

/-- After every history and for every key, present or not, the four searches return the node with
    the greatest key not above the key, the least key not below it, the greatest key below it and
    the least key above it; and `NULL` exactly if there is no such node. -/
theorem run_nearest (hcmp : Compares cmp) {ops : List (Op K P)} (h : Run cmp ops s) (k : K) :
    Selects s (fun fuel => rbtIterLe (s.compare cmp) fuel k) (· ≤ k) (· ≤ ·) ∧
    Selects s (fun fuel => rbtIterGe (s.compare cmp) fuel k) (k ≤ ·) (· ≥ ·) ∧
    Selects s (fun fuel => rbtIterLt (s.compare cmp) fuel k) (· < k) (· ≤ ·) ∧
    Selects s (fun fuel => rbtIterGt (s.compare cmp) fuel k) (k < ·) (· ≥ ·) := by
  obtain ⟨t, ht, -⟩ := h.holds hcmp
  have hneg := hcmp.neg_iff k
  have hpos := hcmp.pos_iff k
  have hzero := hcmp.zero_iff k
  refine ⟨ht.selects hcmp ?_ fun a => ?_, ht.selects hcmp ?_ fun a => ?_,
    ht.selects hcmp ?_ fun a => ?_, ht.selects hcmp ?_ fun a => ?_⟩
  · intro r hr
    have := hr rfl
    simp only [toward, decide_eq_true_eq]
    omega
  · simp only [Good, toward, hpos, hzero, true_and]
    exact (or_congr_right eq_comm).trans le_iff_lt_or_eq.symm
  · intro r _
    simp only [toward, decide_eq_true_eq]
    omega
  · simp only [Good, toward, Int.neg_pos, hneg, hzero, true_and]
    exact le_iff_lt_or_eq.symm
  · intro r _
    simp only [toward, decide_eq_true_eq]
    omega
  · simp only [Good, toward, hpos, Bool.false_eq_true, false_and, or_false]
  · intro r _
    simp only [toward, decide_eq_true_eq]
    omega
  · simp only [Good, toward, Int.neg_pos, hneg, Bool.false_eq_true, false_and, or_false]

omit [LinearOrder K] [DecidableEq P] in
theorem run_nearest_one : ∃ s : State ℤ ℕ, Run (fun a b => a - b) [.insert 5 0] s ∧
    Selects s (fun fuel => rbtIterLe (s.compare fun a b => a - b) fuel 7) (· ≤ 7) (· ≤ ·) := by
  have hcmp : Compares fun a b : ℤ => a - b := ⟨by omega, by omega⟩
  obtain ⟨s, h, -⟩ := exists_run_insert hcmp 5 (0 : ℕ)
  exact ⟨s, h, (run_nearest hcmp h 7).1⟩

end Dlb.Rbt
