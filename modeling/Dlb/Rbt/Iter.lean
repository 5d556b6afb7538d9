import Dlb.Rbt.History

/-!
# Iteration

`src/rbt_iter.c`: the first and the last node of a tree, and the nodes after and before a given
one. All are found in the order of the tree. The node before one that has just been removed is
asked for as well, where what is returned depends on the links that the removed node still has: it
is `NULL` only if the node was both the first one and the root.
-/

namespace Dlb.Rbt

variable {P : Type} {m : Mem P}

/-! ## The code -/

/-- `while (n && n->left) n = n->left;`, or the same on the right. -/
def farthest (d : Dir) : ℕ → Option P → Prog P (Option P)
  | _, none => pure none
  | 0, some _ => failure
  | fuel + 1, some n => do
    let x ← load (some n)
    if x.child d = none then return some n else farthest d fuel (x.child d)

/-- `rbt_iter_first`. -/
def rbtIterFirst (fuel : ℕ) : Prog P (Option P) := do
  farthest .left fuel (← loadRoot)

/-- `rbt_iter_last`. -/
def rbtIterLast (fuel : ℕ) : Prog P (Option P) := do
  farthest .right fuel (← loadRoot)

/-- `while (n->parent && n->parent->left == n) n = n->parent;`, or the same on the right, followed by
    `return n->parent;`. -/
def climb [DecidableEq P] (d : Dir) : ℕ → Option P → Prog P (Option P)
  | 0, _ => failure
  | fuel + 1, n => do
    let p := (← load n).parent
    if p = none then return none
    else if (← load p).child d = n then climb d fuel p
    else return p

/-- `rbt_iter_next`. -/
def rbtIterNext [DecidableEq P] (fuel : ℕ) (n : Option P) : Prog P (Option P) := do
  let x ← load n
  if x.right ≠ none then farthest .left fuel x.right else climb .right fuel n

/-- `rbt_iter_prev`. -/
def rbtIterPrev [DecidableEq P] (fuel : ℕ) (n : Option P) : Prog P (Option P) := do
  let x ← load n
  if x.left ≠ none then farthest .right fuel x.left else climb .left fuel n

/-! ## The fuel -/

section

open Approx

theorem fuelled_farthest (d : Dir) (n : Option P) : Fuelled fun fuel => farthest d fuel n := by
  intro i j h
  induction i generalizing j n with
  | zero =>
    cases n with
    | none => cases j <;> exact .refl _
    | some n => exact .failure _
  | succ i ih =>
    obtain ⟨j, rfl⟩ : ∃ k, j = k + 1 := ⟨j - 1, by omega⟩
    cases n with
    | none => exact .refl _
    | some n => exact bind_right fun x => .ite (.refl _) (ih _ (by omega))

theorem fuelled_rbtIterFirst : Fuelled fun fuel => (rbtIterFirst fuel : Prog P (Option P)) :=
  fun _ _ h => bind_right fun n => fuelled_farthest _ n h

theorem fuelled_rbtIterLast : Fuelled fun fuel => (rbtIterLast fuel : Prog P (Option P)) :=
  fun _ _ h => bind_right fun n => fuelled_farthest _ n h

variable [DecidableEq P]

theorem fuelled_climb (d : Dir) (n : Option P) : Fuelled fun fuel => climb d fuel n := by
  intro i j h
  induction i generalizing j n with
  | zero => exact .failure _
  | succ i ih =>
    obtain ⟨j, rfl⟩ : ∃ k, j = k + 1 := ⟨j - 1, by omega⟩
    refine bind_right fun x => .ite (.refl _) (bind_right fun y => .ite ?_ (.refl _))
    exact ih _ (by omega)

theorem fuelled_rbtIterPrev (n : Option P) : Fuelled fun fuel => rbtIterPrev fuel n :=
  fun _ _ h => bind_right fun x => .ite (fuelled_farthest _ x.left h) (fuelled_climb _ n h)

end

/-! ## The order -/

/-- The first or the last element. -/
def endOf {α : Type*} : Dir → List α → Option α
  | .left, l => l.head?
  | .right, l => l.getLast?

variable {t : Tree (Cell P)}

theorem farthest_spec {d : Dir} {p : Option P} {fuel : ℕ} (h : TreeAt m p t)
    (hf : t.height ≤ fuel) :
    (farthest d fuel (ptr t)).run m = some (endOf d (order t), m) := by
  induction t generalizing p fuel with
  | nil => cases d <;> cases fuel <;> rfl
  | node l x r ihl ihr =>
    obtain ⟨hx, hl, hr⟩ := h
    rw [Tree.height_node] at hf
    obtain ⟨fuel, rfl⟩ : ∃ k, fuel = k + 1 := Nat.exists_eq_succ_of_ne_zero (by omega)
    rw [ptr_node, farthest]
    cases d with
    | left =>
      cases l with
      | nil => simp [hx, Node.child, endOf]
      | node => simpa [hx, Node.child, endOf] using ihl hl (show _ ≤ fuel by omega)
    | right =>
      cases r with
      | nil => simp [hx, Node.child, endOf]
      | node rl y rr =>
        have hne : order (.node rl y rr) ≠ [] := by simp
        rw [order_node l, List.append_cons, endOf, List.getLast?_append_of_ne_nil _ hne]
        simpa only [run_load, StateT.run_bind, hx, Node.child, ptr_node, reduceCtorEq,
          if_false, Option.bind_eq_bind, Option.bind_some, endOf] using ihr hr (show _ ≤ fuel by omega)

variable [DecidableEq P]

/-- What is outside of a hole, on the side `d`, in order. -/
def outside (d : Dir) (c : Ctx (Cell P)) : List P :=
  match d with
  | .left => (Ctx.before c).map Cell.addr
  | .right => (Ctx.after c).map Cell.addr

theorem climb_spec {d : Dir} {c : Ctx (Cell P)} {a : P} {fuel : ℕ} (h : At m c t)
    (ha : ptr t = some a) (hf : c.length < fuel) :
    (climb d fuel (some a)).run m = some (endOf d.other (outside d c), m) := by
  induction c generalizing t a fuel with
  | nil =>
    obtain ⟨fuel, rfl⟩ := Nat.exists_eq_succ_of_ne_zero (Nat.ne_zero_of_lt hf)
    cases d <;> simp [climb, h.node_parent ha, outside, endOf, Ctx.before, Ctx.after]
  | cons f c ih =>
    obtain ⟨fuel, rfl⟩ := Nat.exists_eq_succ_of_ne_zero (Nat.ne_zero_of_lt hf)
    obtain ⟨e, x, s⟩ := f
    have hp := h.parent_eq
    have hup := ih (at_cons.1 h) (ptr_mk _ _ _ _) (show _ < fuel by simpa using hf)
    have hne := h.ptr_sib_ne ha
    -- The loop goes on from a node on the side `d` of its parent.
    cases d with
    | left =>
      cases e with
      | left =>
        simpa [climb, h.node_parent ha, hp, Node.mkDir, Node.child, ha, outside, Ctx.before] using hup
      | right =>
        simp [climb, h.node_parent ha, hp, Node.mkDir, Node.child, hne, outside, endOf, Ctx.before]
    | right =>
      cases e with
      | left =>
        simp [climb, h.node_parent ha, hp, Node.mkDir, Node.child, hne, outside, endOf, Ctx.after]
      | right =>
        simpa [climb, h.node_parent ha, hp, Node.mkDir, Node.child, ha, outside, Ctx.after] using hup

/-- The node before a node of the tree. -/
theorem rbtIterPrev_spec {c : Ctx (Cell P)} {l r : Tree (Cell P)} {x : Cell P} {fuel : ℕ}
    (h : At m c (.node l x r)) (hf : c.length + l.height < fuel) :
    (rbtIterPrev fuel (some x.addr)).run m =
      some (((Ctx.before c).map Cell.addr ++ order l).getLast?, m) := by
  have hx := h.tree.1
  cases l with
  | nil =>
    have := climb_spec (d := .left) h rfl (show _ < fuel by omega)
    simpa [rbtIterPrev, hx, outside, endOf] using this
  | node l y r' =>
    have hy : (farthest .right fuel (some y.addr)).run m = _ :=
      farthest_spec (t := .node l y r') h.tree.2.1 (by omega)
    have hne : order (.node l y r') ≠ [] := by simp
    rw [List.getLast?_append_of_ne_nil _ hne, ← endOf, ← hy]
    simp [rbtIterPrev, hx]

/-- The node after a node of the tree. -/
theorem rbtIterNext_spec {c : Ctx (Cell P)} {l r : Tree (Cell P)} {x : Cell P} {fuel : ℕ}
    (h : At m c (.node l x r)) (hf : c.length + r.height < fuel) :
    (rbtIterNext fuel (some x.addr)).run m =
      some ((order r ++ (Ctx.after c).map Cell.addr).head?, m) := by
  have hx := h.tree.1
  cases r with
  | nil =>
    have := climb_spec (d := .right) h rfl (show _ < fuel by omega)
    simpa [rbtIterNext, hx, outside, endOf] using this
  | node l' y r =>
    have hy : (farthest .left fuel (some y.addr)).run m = _ :=
      farthest_spec (t := .node l' y r) h.tree.2.2 (by omega)
    have hne : order (.node l' y r) ≠ [] := by simp
    rw [List.head?_append_of_ne_nil _ hne, ← endOf, ← hy]
    simp [rbtIterNext, hx]

variable {K : Type} [LinearOrder K] {s : State K P} {n : P}

omit [DecidableEq P] in
theorem Holds.first (h : Holds s t) :
    Returns (fun fuel => rbtIterFirst fuel) s.mem (order t).head? s.mem := by
  refine fuelled_rbtIterFirst.returns t.height ?_
  simp [rbtIterFirst, show s.mem.root = ptr t from h.mem.ctx,
    farthest_spec h.mem.tree (le_refl _), endOf]

omit [DecidableEq P] in
theorem Holds.last (h : Holds s t) :
    Returns (fun fuel => rbtIterLast fuel) s.mem (order t).getLast? s.mem := by
  refine fuelled_rbtIterLast.returns t.height ?_
  simp [rbtIterLast, show s.mem.root = ptr t from h.mem.ctx,
    farthest_spec h.mem.tree (le_refl _), endOf]

omit [DecidableEq P] [LinearOrder K] in
/-- What comes before a node in the order, and what comes after it. -/
theorem order_around {c : Ctx (Cell P)} {l r : Tree (Cell P)} {x : Cell P} {xs ys : List P}
    (hnd : (order (plug c (.node l x r))).Nodup)
    (ho : order (plug c (.node l x r)) = xs ++ x.addr :: ys) :
    xs = (Ctx.before c).map Cell.addr ++ order l ∧
      ys = order r ++ (Ctx.after c).map Cell.addr := by
  have ho' : order (plug c (.node l x r)) = ((Ctx.before c).map Cell.addr ++ order l) ++
      x.addr :: (order r ++ (Ctx.after c).map Cell.addr) := by
    simp [order_plug]
  rw [ho', List.nodup_append, List.nodup_cons] at hnd
  rw [ho', List.append_cons_inj_of_notMem (fun hm => hnd.2.2 _ hm x.addr (by simp) rfl)
    hnd.2.1.1] at ho
  exact ⟨ho.1.symm, ho.2.2.symm⟩

/-- `rbt_iter_prev` returns the last one of the nodes before. -/
theorem Holds.prev_run (h : Holds s t) {xs ys : List P} {fuel : ℕ} (ho : order t = xs ++ n :: ys)
    (hf : t.height ≤ fuel) :
    (rbtIterPrev fuel (some n)).run s.mem = some (xs.getLast?, s.mem) := by
  obtain ⟨c, l, x, r, rfl, rfl, hat⟩ := h.mem.exists_node (a := n) (by simp [ho])
  rw [(order_around h.nodup ho).1]
  refine rbtIterPrev_spec hat ?_
  have := (length_add_height_le c (.node l x r)).trans hf
  rw [Tree.height_node] at this
  omega

/-- `rbt_iter_next` returns the first one of the nodes after. -/
theorem Holds.next_run (h : Holds s t) {xs ys : List P} {fuel : ℕ} (ho : order t = xs ++ n :: ys)
    (hf : t.height ≤ fuel) :
    (rbtIterNext fuel (some n)).run s.mem = some (ys.head?, s.mem) := by
  obtain ⟨c, l, x, r, rfl, rfl, hat⟩ := h.mem.exists_node (a := n) (by simp [ho])
  rw [(order_around h.nodup ho).2]
  refine rbtIterNext_spec hat ?_
  have := (length_add_height_le c (.node l x r)).trans hf
  rw [Tree.height_node] at this
  omega

theorem Holds.prev (h : Holds s t) {xs ys : List P} (ho : order t = xs ++ n :: ys) :
    Returns (fun fuel => rbtIterPrev fuel (some n)) s.mem xs.getLast? s.mem :=
  ⟨_, fun _ hf => h.prev_run ho hf⟩

theorem Holds.next (h : Holds s t) {xs ys : List P} (ho : order t = xs ++ n :: ys) :
    Returns (fun fuel => rbtIterNext fuel (some n)) s.mem ys.head? s.mem :=
  ⟨_, fun _ hf => h.next_run ho hf⟩

/-! ## After a removal -/

omit [LinearOrder K] in
/-- The walk up from a node that is not in the tree ends at once. -/
theorem climb_stale (h : At m [] t) (hn : n ∉ order t) (hp : ∀ p, (m.node n).parent = some p →
    p ∈ order t) (fuel : ℕ) :
    (climb .left (fuel + 1) (some n)).run m = some ((m.node n).parent, m) := by
  cases e : (m.node n).parent with
  | none => simp [climb, e]
  | some p =>
    have hne : (m.node p).child .left ≠ some n := fun hc => hn (h.tree.child_mem (hp p e) hc)
    simp [climb, e, hne]

omit [DecidableEq P] [LinearOrder K] in
theorem mem_order_of_up {c : Ctx (Cell P)} {a : P} (h : up c = some a) : a ∈ order (plug c t) := by
  cases c with
  | nil => simp at h
  | cons f c =>
    obtain rfl : f.val.addr = a := by simpa using h
    rw [← Multiset.mem_coe, ← addrs, addrs_plug]
    simp

/-- `rbt_iter_prev` of a node that was removed. -/
theorem rbtIterPrev_stale {c : Ctx (Cell P)} {l r : Tree (Cell P)} {x : Cell P} {fuel : ℕ}
    {m' : Mem P} (hnd : (order (plug c (.node l x r))).Nodup)
    (h' : At m' [] (removeTree c l x r)) {d : Dir} {fl : Flags}
    (hd : d = .right ↔ l ≠ .nil ∧ r = .nil) (hx : m'.node x.addr =
      .mkDir d fl none (ptr (swapTree c l x r).2.2) (up (swapTree c l x r).1))
    (hf : l.height < fuel) :
    ∃ res, (rbtIterPrev fuel (some x.addr)).run m' = some (res, m') ∧
      (res = none ↔ c = [] ∧ l = .nil) := by
  cases d with
  | right =>
    -- The only child has taken the place of the node, which still points to it.
    obtain ⟨hl, rfl⟩ := hd.1 rfl
    cases l with
    | nil => exact absurd rfl hl
    | node l y r =>
      have hy := at_plug.2 (show At m' [] (plug (markCtx c) (.node l (y.setRed false) r)) from h')
      have hrun : (farthest .right fuel (some y.addr)).run m' = _ :=
        farthest_spec (t := .node l (y.setRed false) r) hy.tree (by rw [Tree.height_node] at hf ⊢; omega)
      have hprev : (rbtIterPrev fuel (some x.addr)).run m' =
          (farthest .right fuel (some y.addr)).run m' := by
        simp [rbtIterPrev, hx, swapTree, Node.mkDir]
      refine ⟨_, hprev.trans hrun, ?_⟩
      simp [endOf]
  | left =>
    have hmem : order (removeTree c l x r) =
        order (plug (swapTree c l x r).1 (swapTree c l x r).2.2) := by
      rw [removeTree, order_unlinkTree, order_plug_markCtx]
    have hx' : x.addr ∉ order (removeTree c l x r) := by
      rw [order_removeTree]
      simp only [order_plug, order_node, List.nodup_append, List.nodup_cons] at hnd
      simp only [List.mem_append] at hnd ⊢
      grind
    obtain ⟨fuel, rfl⟩ := Nat.exists_eq_succ_of_ne_zero (Nat.ne_zero_of_lt hf)
    have hrun := climb_stale h' hx' (by
      intro p hp
      rw [hx] at hp
      rw [hmem]
      exact mem_order_of_up hp) fuel
    refine ⟨up (swapTree c l x r).1, by simpa [rbtIterPrev, hx, Node.mkDir] using hrun, ?_⟩
    have hlr : ¬(l ≠ .nil ∧ r = .nil) := by
      intro h
      cases hd.2 h
    fun_cases swapTree c l x r with
    | case1 x r => cases c <;> simp
    | case2 l x hl => exact absurd ⟨by simpa using hl, rfl⟩ hlr
    | case3 l x rl y rr hl => cases hp : (leftmostOf rl y rr).1 <;> simp_all

/-- Removal, and `rbt_iter_prev` of the node after it. -/
theorem Holds.remove_prev (cmp : K → K → ℤ) (h : Holds s t) (hn : n ∈ order t) :
    ∃ s' t' xs ys res, Step cmp s (.remove n) none s' ∧ Holds s' t' ∧ s'.key = s.key ∧
      order t = xs ++ n :: ys ∧ order t' = xs ++ ys ∧
      Returns (fun fuel => rbtIterPrev fuel (some n)) s'.mem res s'.mem ∧
      (res = none ↔ s.mem.root = some n ∧ xs = []) := by
  obtain ⟨s', t', xs, ys, hstep, hh, hk, ho, ho'⟩ := h.remove cmp hn
  obtain ⟨c, l, x, r, rfl, rfl, hat⟩ := h.mem.exists_node hn
  obtain ⟨m', hrun, h', d, fl, hd, hx⟩ := rbtRemove_spec hat h.redBlack (Nat.lt_succ_self _)
  obtain ⟨-, hm⟩ := hstep.2.2.unique ((fuelled_rbtRemove _).returns _ hrun)
  obtain ⟨res, hres, hiff⟩ := rbtIterPrev_stale h.nodup h' hd hx (Nat.lt_succ_self _)
  refine ⟨s', t', xs, ys, res, hstep, hh, hk, ho, ho', ?_, ?_⟩
  · rw [hm]
    exact (fuelled_rbtIterPrev _).returns _ hres
  rw [hiff, (order_around h.nodup ho).1]
  constructor
  · rintro ⟨rfl, rfl⟩
    exact ⟨h.mem.ctx, rfl⟩
  · rintro ⟨hroot, hxs⟩
    have hl : l = .nil := by
      cases l with
      | nil => rfl
      | node => simp at hxs
    refine ⟨?_, hl⟩
    -- The root has no parent.
    have hp : up c = none := by
      rw [← hat.node_parent rfl]
      exact h.mem.node_parent (h.mem.ctx.symm.trans hroot)
    cases c with
    | nil => rfl
    | cons => simp at hp

end Dlb.Rbt
