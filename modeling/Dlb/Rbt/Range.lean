import Mathlib.Algebra.BigOperators.Group.List.Basic
import Dlb.Rbt.History

/-!
# Range queries

`src/rbt_range.c` and `src/rbt_range.h`. A query walks down the tree and calls
back for single nodes and for whole subtrees that lie inside the range. The
callback is given by the user: it may change `query_data`, whose type is `Q`, and
the nodes, as `update_subtree` does, but not their links. A query makes the same
calls whatever the callback does: those of `queryCalls`, one after the other.

With every `RBT_RANGE_ADD_TREE` expanded to the nodes of the subtree, these are
the nodes inside the range, in order (`Expands`).
-/

namespace Dlb.Rbt

variable {P Q : Type}

/-! ## The code -/

/-- `rbt_range_addtype_t`. -/
inductive AddType
  | node
  | tree
  deriving DecidableEq, Repr

/-- What runs during a query: the memory, and `query_data`. -/
abbrev QueryProg (P Q : Type) := StateT (Mem P × Q) Option

/-- `*n`. -/
def deref (n : P) : QueryProg P Q (Node P) := fun s => some (s.1.node n, s)

section

variable (cmp : P → ℤ) (cb : P → AddType → QueryProg P Q Unit)

/-- `if (n) cb(query_data, n, RBT_RANGE_ADD_TREE);`. -/
def addTree : Option P → QueryProg P Q Unit
  | none => pure ()
  | some n => cb n .tree

/-- `query_low`. -/
def queryLow : ℕ → Option P → QueryProg P Q Unit
  | _, none => pure ()
  | 0, some _ => failure
  | fuel + 1, some n =>
    if cmp n < 0 then do
      queryLow fuel (← deref n).right
    else do
      queryLow fuel (← deref n).left
      cb n .node
      addTree cb (← deref n).right

/-- `query_high`. -/
def queryHigh : ℕ → Option P → QueryProg P Q Unit
  | _, none => pure ()
  | 0, some _ => failure
  | fuel + 1, some n =>
    if 0 < cmp n then do
      queryHigh fuel (← deref n).left
    else do
      addTree cb (← deref n).left
      cb n .node
      queryHigh fuel (← deref n).right

/-- `query_over`. -/
def queryOver : ℕ → Option P → QueryProg P Q Unit
  | _, none => pure ()
  | 0, some _ => failure
  | fuel + 1, some n =>
    if cmp n < 0 then do
      queryOver fuel (← deref n).right
    else if 0 < cmp n then do
      queryOver fuel (← deref n).left
    else do
      queryLow cmp cb fuel (← deref n).left
      cb n .node
      queryHigh cmp cb fuel (← deref n).right

/-- `rbt_range_query`. -/
def rbtRangeQuery (fuel : ℕ) : QueryProg P Q Unit := do
  queryOver cmp cb fuel (← get).1.root

/-- The calls of a list, one after the other. -/
def callAll (calls : List (P × AddType)) : QueryProg P Q Unit := forM calls fun c => cb c.1 c.2

end

/-! ## The calls -/

/-- The call for a whole subtree. -/
def treeCall : Option P → List (P × AddType)
  | none => []
  | some n => [(n, .tree)]

section

variable (cmp : P → ℤ)

/-- The calls of `query_low` on a tree. -/
def lowCalls : Tree (Cell P) → List (P × AddType)
  | .nil => []
  | .node l x r =>
    if cmp x.addr < 0 then lowCalls r else lowCalls l ++ (x.addr, .node) :: treeCall (ptr r)

/-- The calls of `query_high` on a tree. -/
def highCalls : Tree (Cell P) → List (P × AddType)
  | .nil => []
  | .node l x r =>
    if 0 < cmp x.addr then highCalls l else treeCall (ptr l) ++ (x.addr, .node) :: highCalls r

/-- The calls of `query_over` on a tree. -/
def queryCalls : Tree (Cell P) → List (P × AddType)
  | .nil => []
  | .node l x r =>
    if cmp x.addr < 0 then queryCalls r
    else if 0 < cmp x.addr then queryCalls l
    else lowCalls cmp l ++ (x.addr, .node) :: highCalls cmp r

end

/-- The memory links the nodes as they are in the tree. -/
def LinksAt (m : Mem P) : Tree (Cell P) → Prop
  | .nil => True
  | .node l x r => (m.node x.addr).left = ptr l ∧ (m.node x.addr).right = ptr r ∧
    LinksAt m l ∧ LinksAt m r

/-- A callback that does not change the links of the nodes. -/
def KeepsLinks (cb : P → AddType → QueryProg P Q Unit) : Prop :=
  ∀ n ty s r s', (cb n ty).run s = some (r, s') → ∀ a,
    (s'.1.node a).left = (s.1.node a).left ∧ (s'.1.node a).right = (s.1.node a).right

variable {m m' : Mem P} {t l r : Tree (Cell P)} {x : Cell P} {cmp : P → ℤ}
  {cb : P → AddType → QueryProg P Q Unit} {fuel : ℕ} {s s' : Mem P × Q}

theorem TreeAt.linksAt {p : Option P} (h : TreeAt m p t) : LinksAt m t := by
  induction t generalizing p with
  | nil => trivial
  | node l x r ihl ihr =>
    obtain ⟨hx, hl, hr⟩ := h
    exact ⟨by rw [hx], by rw [hx], ihl hl, ihr hr⟩

theorem LinksAt.congr (h : LinksAt m t) (hm : ∀ a, (m'.node a).left = (m.node a).left ∧
    (m'.node a).right = (m.node a).right) : LinksAt m' t := by
  induction t with
  | nil => trivial
  | node l x r ihl ihr =>
    obtain ⟨hl, hr, htl, htr⟩ := h
    exact ⟨(hm _).1.trans hl, (hm _).2.trans hr, ihl htl, ihr htr⟩

theorem callAll_append (a b : List (P × AddType)) :
    callAll cb (a ++ b) = callAll cb a >>= fun _ => callAll cb b := List.forM_append

theorem KeepsLinks.linksAt (hcb : KeepsLinks cb) {calls : List (P × AddType)}
    (h : (callAll cb calls).run s = some ((), s')) (ht : LinksAt s.1 t) : LinksAt s'.1 t := by
  induction calls generalizing s with
  | nil =>
    obtain rfl : s = s' := by simpa [callAll] using h
    exact ht
  | cons c calls ih =>
    rw [callAll, List.forM_cons, StateT.run_bind, Option.bind_eq_bind, Option.bind_eq_some_iff] at h
    obtain ⟨⟨_, s₁⟩, h₁, h⟩ := h
    exact ih h (ht.congr (hcb _ _ _ _ _ h₁))

/-- Where the nodes are linked as in the tree `t`, the program makes the calls. -/
def Makes (cb : P → AddType → QueryProg P Q Unit) (t : Tree (Cell P)) (y : QueryProg P Q Unit)
    (calls : List (P × AddType)) : Prop :=
  ∀ s, LinksAt s.1 t → y.run s = (callAll cb calls).run s

namespace Makes

variable {y z : QueryProg P Q Unit} {a b : List (P × AddType)}

theorem call (n : P) (ty : AddType) : Makes cb t (cb n ty) [(n, ty)] := by
  intro s _
  simp [callAll]

theorem addTree (p : Option P) : Makes cb t (addTree cb p) (treeCall p) := by
  cases p with
  | none => exact fun _ _ => rfl
  | some n => exact call n .tree

theorem bind (hcb : KeepsLinks cb) (hy : Makes cb t y a) (hz : Makes cb t z b) :
    Makes cb t (y >>= fun _ => z) (a ++ b) := by
  intro s hs
  rw [callAll_append, StateT.run_bind, StateT.run_bind, hy s hs]
  -- The links are still there when `z` runs.
  exact Option.bind_congr fun r hr => hz r.2 (hcb.linksAt hr hs)

theorem left (h : Makes cb l y a) : Makes cb (.node l x r) y a := fun s hs => h s hs.2.2.1

theorem right (h : Makes cb r y a) : Makes cb (.node l x r) y a := fun s hs => h s hs.2.2.2

theorem deref_left {f : Option P → QueryProg P Q Unit} (h : Makes cb (.node l x r) (f (ptr l)) a) :
    Makes cb (.node l x r) (do f (← deref x.addr).left) a := by
  intro s hs
  rw [← h s hs, ← hs.1]
  rfl

theorem deref_right {f : Option P → QueryProg P Q Unit} (h : Makes cb (.node l x r) (f (ptr r)) a) :
    Makes cb (.node l x r) (do f (← deref x.addr).right) a := by
  intro s hs
  rw [← h s hs, ← hs.2.1]
  rfl

end Makes

theorem queryLow_spec (hcb : KeepsLinks cb) (hf : (order t).length ≤ fuel) :
    Makes cb t (queryLow cmp cb fuel (ptr t)) (lowCalls cmp t) := by
  induction t generalizing fuel with
  | nil => cases fuel <;> exact fun _ _ => rfl
  | node l x r ihl ihr =>
    simp only [order_node, List.length_append, List.length_cons] at hf
    obtain ⟨fuel, rfl⟩ : ∃ k, fuel = k + 1 := Nat.exists_eq_succ_of_ne_zero (by omega)
    rw [ptr_node, queryLow, lowCalls]
    split
    · exact .deref_right (.right (ihr (by omega)))
    · have hl : Makes cb (.node l x r) _ _ :=
        .deref_left (f := queryLow cmp cb fuel) (.left (ihl (by omega)))
      have hr : Makes cb (.node l x r) _ _ := .deref_right (f := addTree cb) (.addTree (ptr r))
      exact hl.bind hcb (.bind hcb (.call x.addr .node) hr)

theorem queryHigh_spec (hcb : KeepsLinks cb) (hf : (order t).length ≤ fuel) :
    Makes cb t (queryHigh cmp cb fuel (ptr t)) (highCalls cmp t) := by
  induction t generalizing fuel with
  | nil => cases fuel <;> exact fun _ _ => rfl
  | node l x r ihl ihr =>
    simp only [order_node, List.length_append, List.length_cons] at hf
    obtain ⟨fuel, rfl⟩ : ∃ k, fuel = k + 1 := Nat.exists_eq_succ_of_ne_zero (by omega)
    rw [ptr_node, queryHigh, highCalls]
    split
    · exact .deref_left (.left (ihl (by omega)))
    · have hl : Makes cb (.node l x r) _ _ := .deref_left (f := addTree cb) (.addTree (ptr l))
      have hr : Makes cb (.node l x r) _ _ :=
        .deref_right (f := queryHigh cmp cb fuel) (.right (ihr (by omega)))
      exact hl.bind hcb (.bind hcb (.call x.addr .node) hr)

theorem queryOver_spec (hcb : KeepsLinks cb) (hf : (order t).length ≤ fuel) :
    Makes cb t (queryOver cmp cb fuel (ptr t)) (queryCalls cmp t) := by
  induction t generalizing fuel with
  | nil => cases fuel <;> exact fun _ _ => rfl
  | node l x r ihl ihr =>
    simp only [order_node, List.length_append, List.length_cons] at hf
    obtain ⟨fuel, rfl⟩ : ∃ k, fuel = k + 1 := Nat.exists_eq_succ_of_ne_zero (by omega)
    rw [ptr_node, queryOver, queryCalls]
    split_ifs
    · exact .deref_right (.right (ihr (by omega)))
    · exact .deref_left (.left (ihl (by omega)))
    · have hl : Makes cb (.node l x r) _ _ := .deref_left (f := queryLow cmp cb fuel)
        (.left (queryLow_spec hcb (by omega)))
      have hr : Makes cb (.node l x r) _ _ := .deref_right (f := queryHigh cmp cb fuel)
        (.right (queryHigh_spec hcb (by omega)))
      exact hl.bind hcb (.bind hcb (.call x.addr .node) hr)

/-! ## The nodes inside the range -/

/-- The list of nodes that the calls stand for. -/
inductive Expands (m : Mem P) : List (P × AddType) → List P → Prop
  | nil : Expands m [] []
  | node {n : P} {calls : List (P × AddType)} {l : List P} : Expands m calls l →
    Expands m ((n, .node) :: calls) (n :: l)
  | tree {n : P} {calls : List (P × AddType)} {u l : List P} : Inorder m (some n) u →
    Expands m calls l → Expands m ((n, .tree) :: calls) (u ++ l)

theorem Expands.append {a b : List (P × AddType)} {u v : List P} (h : Expands m a u)
    (h' : Expands m b v) : Expands m (a ++ b) (u ++ v) := by
  induction h with
  | nil => exact h'
  | node _ ih => exact .node ih
  | tree hu _ ih =>
    rw [List.append_assoc]
    exact .tree hu ih

/-- What a call is worth: `own` for a node, and `sum` for a subtree. -/
def worth {M : Type} (own sum : P → M) : P × AddType → M
  | (n, .node) => own n
  | (n, .tree) => sum n

/-- If the subtrees are worth what their nodes are, then so are the calls. -/
theorem Expands.prod_worth {M : Type} [Monoid M] {own sum : P → M} {calls : List (P × AddType)}
    {u : List P} (h : Expands m calls u)
    (hs : ∀ n ∈ u, ∀ v, Inorder m (some n) v → sum n = (v.map own).prod) :
    (calls.map (worth own sum)).prod = (u.map own).prod := by
  induction h with
  | nil => rfl
  | node _ ih => simp [worth, ih fun n hn => hs n (List.mem_cons_of_mem _ hn)]
  | @tree n calls v u hv _ ih =>
    have hmem : n ∈ v := by
      cases hv
      simp
    have hn : sum n = (v.map own).prod := hs n (List.mem_append_left _ hmem) v hv
    simp [worth, hn, ih fun n hn => hs n (List.mem_append_right _ hn)]

/-- Along the list, the nodes before the range come first, then those inside, and then those
    after. -/
def Contiguous (cmp : P → ℤ) (l : List P) : Prop :=
  l.Pairwise fun a b => (cmp b < 0 → cmp a < 0) ∧ (0 < cmp a → 0 < cmp b)

/-- The nodes of the list that are inside the range. -/
def inside (cmp : P → ℤ) (l : List P) : List P := l.filter fun a => cmp a = 0

theorem LinksAt.inorder (h : LinksAt m t) : Inorder m (ptr t) (order t) := by
  induction t with
  | nil => exact .null
  | node l x r ihl ihr =>
    obtain ⟨hl, hr, htl, htr⟩ := h
    rw [ptr_node, order_node]
    exact .node (by rw [hl]; exact ihl htl) (by rw [hr]; exact ihr htr)

theorem LinksAt.expands_treeCall (h : LinksAt m t) : Expands m (treeCall (ptr t)) (order t) := by
  cases t with
  | nil => exact .nil
  | node l x r =>
    rw [← List.append_nil (order _)]
    exact .tree h.inorder .nil

theorem inside_eq_nil {l : List P} (h : ∀ a ∈ l, cmp a ≠ 0) : inside cmp l = [] := by
  simpa [inside] using h

theorem inside_eq_self {l : List P} (h : ∀ a ∈ l, cmp a = 0) : inside cmp l = l := by
  simpa [inside] using h

theorem inside_node (l : Tree (Cell P)) (x : Cell P) (r : Tree (Cell P)) :
    inside cmp (order (.node l x r)) = inside cmp (order l) ++
      ((if cmp x.addr = 0 then [x.addr] else []) ++ inside cmp (order r)) := by
  simp only [inside, order_node, List.filter_append, List.filter_cons, decide_eq_true_eq]
  split <;> rfl

theorem Contiguous.of_node (h : Contiguous cmp (order (.node l x r))) :
    Contiguous cmp (order l) ∧ Contiguous cmp (order r) ∧
      (∀ a ∈ order l, (cmp x.addr < 0 → cmp a < 0) ∧ (0 < cmp a → 0 < cmp x.addr)) ∧
      ∀ a ∈ order r, (cmp a < 0 → cmp x.addr < 0) ∧ (0 < cmp x.addr → 0 < cmp a) := by
  rw [Contiguous, order_node, List.pairwise_append, List.pairwise_cons] at h
  obtain ⟨hl, ⟨hx, hr⟩, hlx⟩ := h
  exact ⟨hl, hr, fun a ha => hlx a ha x.addr List.mem_cons_self, hx⟩

/-- What is to the left of a node before the range is before it as well. -/
theorem Contiguous.inside_left (h : Contiguous cmp (order (.node l x r))) (hx : cmp x.addr < 0) :
    inside cmp (order l) = [] :=
  inside_eq_nil fun a ha => ((h.of_node.2.2.1 a ha).1 hx).ne

/-- What is to the right of a node after the range is after it as well. -/
theorem Contiguous.inside_right (h : Contiguous cmp (order (.node l x r))) (hx : 0 < cmp x.addr) :
    inside cmp (order r) = [] :=
  inside_eq_nil fun a ha => ((h.of_node.2.2.2 a ha).2 hx).ne'

/-- No node of the tree is after the range. -/
theorem expands_lowCalls (h : LinksAt m t) (hc : Contiguous cmp (order t))
    (hle : ∀ a ∈ order t, cmp a ≤ 0) : Expands m (lowCalls cmp t) (inside cmp (order t)) := by
  induction t with
  | nil => exact .nil
  | node l x r ihl ihr =>
    obtain ⟨-, -, htl, htr⟩ := h
    obtain ⟨hcl, hcr, hlx, hcx⟩ := hc.of_node
    simp only [order_node, List.mem_append, List.mem_cons] at hle
    rw [lowCalls, inside_node]
    by_cases hx : cmp x.addr < 0
    · rw [hc.inside_left hx, if_pos hx, if_neg hx.ne]
      exact ihr htr hcr fun a ha => hle a (.inr (.inr ha))
    · have hx₀ : cmp x.addr = 0 := le_antisymm (hle _ (.inr (.inl rfl))) (not_lt.1 hx)
      have hr : inside cmp (order r) = order r := inside_eq_self fun a ha =>
        le_antisymm (hle a (.inr (.inr ha))) (not_lt.1 fun hlt => hx ((hcx a ha).1 hlt))
      rw [hr, if_neg hx, if_pos hx₀]
      exact (ihl htl hcl fun a ha => hle a (.inl ha)).append (.node htr.expands_treeCall)

/-- No node of the tree is before the range. -/
theorem expands_highCalls (h : LinksAt m t) (hc : Contiguous cmp (order t))
    (hge : ∀ a ∈ order t, 0 ≤ cmp a) : Expands m (highCalls cmp t) (inside cmp (order t)) := by
  induction t with
  | nil => exact .nil
  | node l x r ihl ihr =>
    obtain ⟨-, -, htl, htr⟩ := h
    obtain ⟨hcl, hcr, hlx, hcx⟩ := hc.of_node
    simp only [order_node, List.mem_append, List.mem_cons] at hge
    rw [highCalls, inside_node]
    by_cases hx : 0 < cmp x.addr
    · rw [hc.inside_right hx, if_pos hx, if_neg hx.ne']
      simpa using ihl htl hcl fun a ha => hge a (.inl ha)
    · have hx₀ : cmp x.addr = 0 := le_antisymm (not_lt.1 hx) (hge _ (.inr (.inl rfl)))
      have hl : inside cmp (order l) = order l := inside_eq_self fun a ha =>
        le_antisymm (not_lt.1 fun hlt => hx ((hlx a ha).2 hlt)) (hge a (.inl ha))
      rw [hl, if_neg hx, if_pos hx₀]
      exact htl.expands_treeCall.append (.node (ihr htr hcr fun a ha => hge a (.inr (.inr ha))))

theorem expands_queryCalls (h : LinksAt m t) (hc : Contiguous cmp (order t)) :
    Expands m (queryCalls cmp t) (inside cmp (order t)) := by
  induction t with
  | nil => exact .nil
  | node l x r ihl ihr =>
    obtain ⟨-, -, htl, htr⟩ := h
    obtain ⟨hcl, hcr, hlx, hcx⟩ := hc.of_node
    rw [queryCalls, inside_node]
    rcases lt_trichotomy (cmp x.addr) 0 with hx | hx | hx
    · rw [hc.inside_left hx, if_pos hx, if_neg hx.ne]
      exact ihr htr hcr
    · -- The node is inside: nothing to its left is after the range, nothing to its right before.
      have hl := expands_lowCalls htl hcl fun a ha =>
        not_lt.1 fun hlt => absurd ((hlx a ha).2 hlt) hx.not_gt
      have hr := expands_highCalls htr hcr fun a ha =>
        not_lt.1 fun hlt => absurd ((hcx a ha).1 hlt) hx.not_lt
      rw [if_neg hx.not_lt, if_neg hx.not_gt, if_pos hx]
      exact hl.append (.node hr)
    · rw [hc.inside_right hx, if_neg hx.not_gt, if_pos hx, if_neg hx.ne']
      simpa using ihl htl hcl

/-! ## Queries after a history -/

section

variable {K : Type} [LinearOrder K] {s : State K P}

/-- The range comparison is monotone in the order of the keys of the nodes in the tree: before the
    range are the smallest keys, then come those inside, and then those after. -/
def Ranges (s : State K P) (range : P → ℤ) : Prop :=
  ∀ a b, Reach s.mem a → Reach s.mem b → s.key a < s.key b →
    (range b < 0 → range a < 0) ∧ (0 < range a → 0 < range b)

theorem Holds.contiguous (h : Holds s t) {range : P → ℤ} (hr : Ranges s range) :
    Contiguous range (order t) := by
  refine (List.pairwise_map.1 h.keys).imp_of_mem fun {a b} ha hb hab => ?_
  exact hr a b (h.mem.reach_iff.2 ha) (h.mem.reach_iff.2 hb) hab

end

/-- A callback that collects what the calls are worth, in a monoid. -/
def collect {M : Type} [Monoid M] (own sum : P → M) (n : P) (ty : AddType) : QueryProg P M Unit :=
  modify fun s => (s.1, s.2 * worth own sum (n, ty))

section

variable {M : Type} [Monoid M] {own sum : P → M}

theorem keepsLinks_collect : KeepsLinks (collect own sum) := by
  rintro n ty s r s' ⟨⟩ a
  exact ⟨rfl, rfl⟩

theorem callAll_collect (calls : List (P × AddType)) (s : Mem P × M) :
    (callAll (collect own sum) calls).run s =
      some ((), (s.1, s.2 * (calls.map (worth own sum)).prod)) := by
  induction calls generalizing s with
  | nil => simp [callAll]
  | cons c calls ih =>
    have : (callAll (collect own sum) (c :: calls)).run s =
        (callAll (collect own sum) calls).run (s.1, s.2 * worth own sum c) := by
      simp [callAll, collect]
    simp [this, ih, mul_assoc]

end

section

variable {K : Type} [LinearOrder K] [DecidableEq P] {s : State K P} {cmp : K → K → ℤ}

/-- After every history, a query whose range is contiguous calls back for the nodes inside the
    range, in order and each once, either on their own or as the nodes of a subtree. What is
    collected from the calls is what those nodes are worth. -/
theorem run_rangeQuery (hcmp : Compares cmp) {ops : List (Op K P)} (h : Run cmp ops s)
    {range : P → ℤ} (hr : Ranges s range) :
    ∃ l calls, Inorder s.mem s.mem.root l ∧ (∀ a, a ∈ l ↔ Reach s.mem a) ∧ l.Nodup ∧
      Expands s.mem calls (inside range l) ∧
      (∀ {Q : Type} (cb : P → AddType → QueryProg P Q Unit), KeepsLinks cb →
        ∃ N, ∀ fuel ≥ N, ∀ q, (rbtRangeQuery range cb fuel).run (s.mem, q) =
          (callAll cb calls).run (s.mem, q)) ∧
      ∀ {M : Type} [Monoid M] (own sum : P → M),
        (∀ n, Reach s.mem n → ∀ u, Inorder s.mem (some n) u → sum n = (u.map own).prod) →
        Returns (fun fuel => rbtRangeQuery range (collect own sum) fuel) (s.mem, 1) ()
          (s.mem, ((inside range l).map own).prod) := by
  obtain ⟨t, ht, -⟩ := h.holds hcmp
  have hroot : s.mem.root = ptr t := ht.mem.ctx
  have hlinks := ht.mem.tree.linksAt
  have hexp := expands_queryCalls hlinks (ht.contiguous hr)
  have hrun : ∀ {Q : Type} {cb : P → AddType → QueryProg P Q Unit}, KeepsLinks cb →
      ∀ fuel ≥ (order t).length, ∀ q, (rbtRangeQuery range cb fuel).run (s.mem, q) =
        (callAll cb (queryCalls range t)).run (s.mem, q) := by
    intro Q cb hcb fuel hf q
    rw [← queryOver_spec hcb hf (s.mem, q) hlinks, ← hroot]
    rfl
  refine ⟨order t, queryCalls range t, hroot ▸ hlinks.inorder, fun a => ht.mem.reach_iff.symm,
    ht.nodup, hexp, fun cb hcb => ⟨_, hrun hcb⟩, fun own sum hs => ⟨(order t).length, ?_⟩⟩
  intro fuel hf
  have hprod : ((queryCalls range t).map (worth own sum)).prod =
      ((inside range (order t)).map own).prod :=
    hexp.prod_worth fun n hn => hs n (ht.mem.reach_iff.2 (List.mem_of_mem_filter hn))
  rw [hrun keepsLinks_collect fuel hf, callAll_collect, hprod, one_mul]

end

theorem run_rangeQuery_one : ∃ (s : State ℤ ℕ) (l : List ℕ) (calls : List (ℕ × AddType)),
    Run (fun a b => a - b) [.insert 5 0] s ∧ Inorder s.mem s.mem.root l ∧
      Expands s.mem calls (inside (fun a => s.key a - 5) l) := by
  have hcmp : Compares fun a b : ℤ => a - b := ⟨by omega, by omega⟩
  obtain ⟨s, h₁, -⟩ := exists_run_insert hcmp 5 (0 : ℕ)
  have hr : Ranges s fun a => s.key a - 5 := by
    intro a b _ _ hab
    dsimp only
    omega
  obtain ⟨l, calls, hin, -, -, hexp, -⟩ := run_rangeQuery hcmp h₁ hr
  exact ⟨s, l, calls, h₁, hin, hexp⟩

end Dlb.Rbt
