import Dlb.Rbt.Fuelled
import Dlb.Rbt.History
import Dlb.Rbt.Tidy

/-!
# Summaries of subtrees

Trees whose nodes store a summary of their subtree, as `src/rbt_range.h` describes
them. The summaries are brought up to date by `update_subtree`, which the user
writes as the header says; they are elements of a monoid, and `own` gives the
summary of the data of a single node.

In every state that is reached by insertions, removals, changes to the data of
nodes in the tree (each followed by `rbt_mark_modified`) and calls of
`update_subtree`, the tree is tidy: the summaries of the nodes which are not
marked as modified are right.
-/

namespace Dlb.Rbt

variable {K P D S : Type}

/-! ## `update_subtree` -/

/-- The flags with `RBT_FLAG_MODIFIED` cleared. -/
def Flags.clear (fl : Flags) : Flags := { fl with modified := false }

section

variable [DecidableEq P] [Monoid S]

/-- The summary of a subtree, which is that of its root. -/
def summaryOf (sum : P → S) : Option P → S
  | none => 1
  | some a => sum a

/-- `update_subtree`: nothing is done where there is no mark; else the summaries
    of the children are updated first. -/
def updateSubtree (own : P → S) : ℕ → Option P → StateT (Mem P × (P → S)) Option Unit
  | _, none => pure ()
  | 0, some _ => failure
  | fuel + 1, some n => do
    let x := (← get).1.node n
    if x.flags.modified then
      updateSubtree own fuel x.left
      updateSubtree own fuel x.right
      modify fun s => (s.1.update n (·.mapFlags .clear), Function.update s.2 n
        (summaryOf s.2 x.left * own n * summaryOf s.2 x.right))

theorem fuelled_updateSubtree (own : P → S) (n : Option P) :
    Fuelled fun fuel => updateSubtree own fuel n := by
  intro i j h
  induction i generalizing j n with
  | zero =>
    cases n with
    | none => cases j <;> exact .refl _
    | some n => exact .failure _
  | succ i ih =>
    obtain ⟨j, rfl⟩ : ∃ k, j = k + 1 := ⟨j - 1, by omega⟩
    cases n with
    | none => exact .refl _
    | some n =>
      simp only [updateSubtree]
      refine .bind_right fun x => .ite ?_ (.refl _)
      exact .bind (ih _ (by omega)) fun _ => .bind (ih _ (by omega)) fun _ => .refl _

end

/-- `update_subtree` on trees. -/
def cleanTree : Tree (Cell P) → Tree (Cell P)
  | .nil => .nil
  | .node l x r =>
    if x.flags.modified then .node (cleanTree l) (x.mapFlags .clear) (cleanTree r)
    else .node l x r

theorem order_cleanTree (t : Tree (Cell P)) : order (cleanTree t) = order t := by
  induction t with
  | nil => rfl
  | node l x r ihl ihr =>
    rw [cleanTree]
    split <;> simp [ihl, ihr]

theorem ptr_cleanTree (t : Tree (Cell P)) : ptr (cleanTree t) = ptr t := by
  cases t with
  | nil => rfl
  | node l x r =>
    rw [cleanTree]
    split <;> rfl

theorem marked_cleanTree (t : Tree (Cell P)) : marked (cleanTree t) = false := by
  cases t with
  | nil => rfl
  | node l x r =>
    rw [cleanTree]
    split_ifs with hx
    · rfl
    · exact Bool.not_eq_true _ ▸ hx

theorem isRed_cleanTree (t : Tree (Cell P)) : (cleanTree t).isRed = t.isRed := by
  cases t with
  | nil => rfl
  | node l x r =>
    rw [cleanTree]
    split <;> rfl

theorem balanced_cleanTree {t : Tree (Cell P)} {n : ℕ} (h : t.Balanced n) :
    (cleanTree t).Balanced n := by
  induction t generalizing n with
  | nil => exact h
  | node l x r ihl ihr =>
    rw [cleanTree]
    split
    · rw [← Tree.mk_left] at h ⊢
      cases hx : Coloured.red x with
      | true =>
        obtain ⟨h₁, h₂, h₃, h₄⟩ := (Tree.balanced_red hx).1 h
        refine (Tree.balanced_red (x := x.mapFlags .clear) hx).2 ⟨by rwa [isRed_cleanTree], by rwa [isRed_cleanTree],
          ihl h₃, ihr h₄⟩
      | false =>
        obtain ⟨k, rfl, h₁, h₂⟩ := (Tree.balanced_black hx).1 h
        exact (Tree.balanced_black (x := x.mapFlags .clear) hx).2 ⟨k, rfl, ihl h₁, ihr h₂⟩
    · exact h

theorem isRedBlack_cleanTree {c : Ctx (Cell P)} {t : Tree (Cell P)}
    (h : (plug c t).IsRedBlack) : (plug c (cleanTree t)).IsRedBlack := by
  obtain ⟨n, hc, ht, hr⟩ := isRedBlack_plug.1 h
  exact isRedBlack_plug.2 ⟨n, hc, balanced_cleanTree ht, by rwa [isRed_cleanTree]⟩

section

variable [Monoid S] {own sum sum' : P → S}

theorem total_cleanTree (t : Tree (Cell P)) : total own (cleanTree t) = total own t := by
  rw [total, order_cleanTree, total]

theorem total_node (l : Tree (Cell P)) (x : Cell P) (r : Tree (Cell P)) :
    total own (.node l x r) = total own l * own x.addr * total own r := by
  simp [total, mul_assoc]

/-- The summary of a tree without a mark. -/
theorem Tidy.summaryOf {t : Tree (Cell P)} (h : Tidy own sum t) (hm : marked t = false) :
    summaryOf sum (ptr t) = total own t := by
  cases t with
  | nil => rfl
  | node l x r => exact (h.2.2 hm).2.2

/-- A subtree may be replaced by one with the same nodes and no mark. -/
theorem Tidy.replace {c : Ctx (Cell P)} {t t' : Tree (Cell P)} (h : Tidy own sum (plug c t))
    (ht' : Tidy own sum' t') (ho : order t' = order t) (hm : marked t' = true → marked t = true)
    (hs : ∀ a ∉ order t, sum' a = sum a) (hnd : (order (plug c t)).Nodup) :
    Tidy own sum' (plug c t') := by
  induction c generalizing t t' with
  | nil => exact ht'
  | cons f c ih =>
    rw [plug_cons] at h hnd ⊢
    have hmk := h.of_plug.1
    have hnd' : (f.val.addr ::ₘ (addrs t + addrs f.sib)).Nodup := by
      have : (addrs (plug c (.mk f.dir t f.val f.sib))).Nodup := hnd
      rw [addrs_plug, Multiset.nodup_add, addrs_mk] at this
      exact this.1
    rw [Multiset.nodup_cons, Multiset.mem_add, Multiset.nodup_add, Multiset.disjoint_left] at hnd'
    have hft : f.val.addr ∉ order t := fun h => hnd'.1 (.inl h)
    refine ih h ?_ (order_mk_congr ho rfl rfl) (by simp) (fun a ha => hs a fun hat => ha ?_) hnd
    · rw [tidy_mk] at hmk ⊢
      refine ⟨ht', hmk.2.1.congr (fun _ _ => rfl) fun a ha => hs a fun hat => ?_, fun hf => ?_⟩
      · exact hnd'.2.2.2 hat ha
      · obtain ⟨h₁, h₂, h₃⟩ := hmk.2.2 hf
        refine ⟨?_, h₂, ?_⟩
        · by_contra hne
          rw [Bool.not_eq_false] at hne
          simp [hm hne] at h₁
        · rw [hs _ hft, h₃, total, total, order_mk_congr ho rfl rfl]
    · have : a ∈ addrs (.mk f.dir t f.val f.sib) := by
        rw [addrs_mk]
        exact Multiset.mem_cons_of_mem (Multiset.mem_add.2 (.inl hat))
      exact this

/-- `update_subtree` clears the marks of a subtree, and only changes the summaries
    in it. -/
theorem updateSubtree_spec [DecidableEq P] {m : Mem P} {c : Ctx (Cell P)} {t : Tree (Cell P)}
    {fuel : ℕ} (h : At m c t) (ht : Tidy own sum t) (hf : (order t).length ≤ fuel) :
    ∃ m' sum', (updateSubtree own fuel (ptr t)).run (m, sum) = some ((), (m', sum')) ∧
      At m' c (cleanTree t) ∧ Tidy own sum' (cleanTree t) ∧ ∀ a ∉ order t, sum' a = sum a := by
  induction t generalizing m c sum fuel with
  | nil => exact ⟨m, sum, by cases fuel <;> rfl, h, trivial, fun _ _ => rfl⟩
  | node l x r ihl ihr =>
    simp only [order_node, List.length_append, List.length_cons] at hf
    obtain ⟨fuel, rfl⟩ : ∃ k, fuel = k + 1 := Nat.exists_eq_succ_of_ne_zero (by omega)
    have hx := h.tree.1
    cases hm : x.flags.modified with
    | false =>
      have hcl : cleanTree (.node l x r) = .node l x r := by simp [cleanTree, hm]
      rw [hcl]
      exact ⟨m, sum, by simp [updateSubtree, hx, hm], h, ht, fun _ _ => rfl⟩
    | true =>
      have hcl : cleanTree (.node l x r) =
          .node (cleanTree l) (x.mapFlags .clear) (cleanTree r) := by simp [cleanTree, hm]
      rw [hcl]
      have hnd := h.nodup
      rw [← Tree.mk_left, addrs_mk, Multiset.nodup_add, Multiset.nodup_cons, Multiset.nodup_add,
        Multiset.mem_add, Multiset.disjoint_left] at hnd
      have hlr : ∀ a ∈ order l, a ∉ order r := fun a ha hr => hnd.1.2.2.2 ha hr
      have hxl : x.addr ∉ order l := fun h => hnd.1.1 (.inl h)
      have hxr : x.addr ∉ order r := fun h => hnd.1.1 (.inr h)
      -- The left subtree, then the right one, then the node itself.
      obtain ⟨m₁, sum₁, hrun₁, h₁, ht₁, hs₁⟩ := ihl (c := ⟨.left, x, r⟩ :: c) (at_cons.2 h) ht.1
        (show _ ≤ fuel by omega)
      have htr : Tidy own sum₁ r :=
        ht.2.1.congr (fun _ _ => rfl) fun a ha => hs₁ a fun hl => hlr a hl ha
      obtain ⟨m₂, sum₂, hrun₂, h₂, ht₂, hs₂⟩ := ihr (at_sib.1 h₁) htr (show _ ≤ fuel by omega)
      have htl : Tidy own sum₂ (cleanTree l) := ht₁.congr (fun _ _ => rfl) fun a ha =>
        hs₂ a (hlr a (order_cleanTree l ▸ ha))
      have hsl := htl.summaryOf (marked_cleanTree l)
      have hsr := ht₂.summaryOf (marked_cleanTree r)
      rw [ptr_cleanTree, total_cleanTree] at hsl hsr
      refine ⟨m₂.update x.addr (·.mapFlags .clear),
        Function.update sum₂ x.addr (total own (.node l x r)), ?_, ?_, ⟨?_, ?_, fun _ => ?_⟩, ?_⟩
      · rw [ptr_node, updateSubtree]
        simp [hx, hm, hrun₁, hrun₂, hsl, hsr, total_node]
      · exact At.mapFlags (d := .left) (at_cons.1 (at_sib.1 h₂)) .clear
      · refine htl.congr (fun _ _ => rfl) fun a ha => Function.update_of_ne ?_ _ _
        rintro rfl
        exact hxl (order_cleanTree l ▸ ha)
      · refine ht₂.congr (fun _ _ => rfl) fun a ha => Function.update_of_ne ?_ _ _
        rintro rfl
        exact hxr (order_cleanTree r ▸ ha)
      · refine ⟨marked_cleanTree l, marked_cleanTree r, ?_⟩
        rw [Cell.mapFlags_addr, Function.update_self, ← total_cleanTree, hcl]
      · intro a ha
        rw [order_node, List.mem_append, List.mem_cons, not_or, not_or] at ha
        rw [Function.update_of_ne ha.2.1, hs₂ a ha.2.2, hs₁ a ha.1]

end

/-! ## Histories -/

/-- A tree whose nodes have data of their own, and a summary of their subtree. -/
structure Augmented (K P D S : Type) extends State K P where
  data : P → D
  sum : P → S

/-- An operation: inserting a node, with its data and some summary which is not to
    be relied on; removing a node; changing the data of a node, and then calling
    `rbt_mark_modified`; and `update_subtree`. -/
inductive AugOp (K P D S : Type)
  | insert (k : K) (n : P) (d : D) (v : S)
  | remove (n : P)
  | modify (n : P) (d : D)
  | update (n : P)

/-- What is inserted is not in the tree, and the other operations are on nodes
    which are in the tree. -/
def AugLegal (s : Augmented K P D S) : AugOp K P D S → Prop
  | .insert _ n _ _ => ¬Reach s.mem n
  | .remove n | .modify n _ | .update n => Reach s.mem n

section

variable [DecidableEq P] [Monoid S] (own : D → S) (cmp : K → K → ℤ)

/-- The operation returns, in the state `s'`. -/
def AugStep (s : Augmented K P D S) : AugOp K P D S → Augmented K P D S → Prop
  | .insert k n d v, s' => (∃ r, Step cmp s.toState (.insert k n) r s'.toState) ∧
    s'.data = Function.update s.data n d ∧ s'.sum = Function.update s.sum n v
  | .remove n, s' => Step cmp s.toState (.remove n) none s'.toState ∧
    s'.data = s.data ∧ s'.sum = s.sum
  | .modify n d, s' => s'.key = s.key ∧ s'.data = Function.update s.data n d ∧ s'.sum = s.sum ∧
    Returns (fun fuel => rbtMarkModified fuel (some n)) s.mem () s'.mem
  | .update n, s' => s'.key = s.key ∧ s'.data = s.data ∧
    Returns (fun fuel => updateSubtree (fun a => own (s.data a)) fuel (some n)) (s.mem, s.sum) ()
      (s'.mem, s'.sum)

/-- The states that legal operations lead to. -/
inductive AugRun : Augmented K P D S → Prop
  | init (m : Mem P) (key : P → K) (data : P → D) (sum : P → S) :
    AugRun ⟨⟨rbtInit m, key⟩, data, sum⟩
  | step {s s' : Augmented K P D S} {op : AugOp K P D S} :
    AugRun s → AugLegal s op → AugStep own cmp s op s' → AugRun s'

end

section

variable [Monoid S] {own : D → S} {cmp : K → K → ℤ} {s : Augmented K P D S} {t : Tree (Cell P)}

/-- The state holds the red-black tree `t`, which is tidy. -/
structure AugHolds (own : D → S) (s : Augmented K P D S) (t : Tree (Cell P)) : Prop where
  mem : At s.mem [] t
  redBlack : t.IsRedBlack
  tidy : Tidy (fun a => own (s.data a)) s.sum t

variable [DecidableEq P]

theorem AugHolds.insert (h : AugHolds own s t) {n : P} (hn : n ∉ order t) (k : K) (d : D) (v : S) :
    ∃ s' t', AugStep own cmp s (.insert k n d v) s' ∧ AugHolds own s' t' := by
  obtain ⟨m', hrun, h'⟩ := rbtInsert_spec ((s.setKey n k).compare cmp) k h.mem
    (by simpa [addrs] using hn) h.redBlack (Nat.lt_succ_self _)
  have hne : ∀ a ∈ order t, a ≠ n := by
    rintro a ha rfl
    exact hn ha
  refine ⟨⟨⟨m', (s.setKey n k).key⟩, Function.update s.data n d, Function.update s.sum n v⟩, _,
    ⟨⟨_, rfl, (fuelled_rbtInsert _ k n).returns _ hrun⟩, rfl, rfl⟩,
    h', isRedBlack_insertTree _ n h.redBlack, Tidy.insertTree ?_ _ n⟩
  refine h.tidy.congr (fun a ha => ?_) fun a ha => ?_
  · simp [hne a ha]
  · simp [hne a ha]

theorem AugHolds.remove (h : AugHolds own s t) {n : P} (hn : n ∈ order t) :
    ∃ s' t', AugStep own cmp s (.remove n) s' ∧ AugHolds own s' t' := by
  obtain ⟨c, l, x, r, rfl, rfl, hat⟩ := h.mem.exists_node hn
  obtain ⟨m', hrun, h', -⟩ := rbtRemove_spec hat h.redBlack (Nat.lt_succ_self _)
  exact ⟨⟨⟨m', s.key⟩, s.data, s.sum⟩, _,
    ⟨⟨rfl, rfl, (fuelled_rbtRemove _).returns _ hrun⟩, rfl, rfl⟩,
    h', isRedBlack_removeTree h.redBlack, h.tidy.removeTree⟩

theorem AugHolds.modify (h : AugHolds own s t) {n : P} (hn : n ∈ order t) (d : D) :
    ∃ s' t', AugStep own cmp s (.modify n d) s' ∧ AugHolds own s' t' := by
  obtain ⟨c, l, x, r, rfl, rfl, hat⟩ := h.mem.exists_node hn
  obtain ⟨m', hrun, h'⟩ := rbtMarkModified_spec hat rfl (Nat.lt_succ_self _)
  refine ⟨⟨⟨m', s.key⟩, Function.update s.data x.addr d, s.sum⟩, _,
    ⟨rfl, rfl, rfl, (fuelled_rbtMarkModified _).returns _ hrun⟩, at_plug.1 h', ?_, ?_⟩
  · obtain ⟨n, hc, ht, hr⟩ := isRedBlack_plug.1 h.redBlack
    exact isRedBlack_plug.2 ⟨n, balanced_markCtx hc, ht, fun h => blackParent_markCtx (hr h)⟩
  · -- The subtrees beside the way do not contain the node.
    obtain ⟨ht, hc⟩ := h.tidy.of_plug
    have hnd := hat.nodup
    rw [← Tree.mk_left, addrs_mk, Multiset.cons_add, Multiset.nodup_cons, Multiset.mem_add,
      Multiset.mem_add] at hnd
    have key : ∀ {u : Tree (Cell P)}, x.addr ∉ addrs u →
        Tidy (fun a => own (s.data a)) s.sum u →
        Tidy (fun a => own (Function.update s.data x.addr d a)) s.sum u := by
      intro u hu hut
      refine hut.congr (fun a ha => ?_) fun _ _ => rfl
      rw [Function.update_of_ne]
      rintro rfl
      exact hu ha
    have hctx : ∀ f ∈ c, x.addr ∉ addrs f.sib := by
      intro f hf hx
      exact hnd.1 (.inr (mem_addrsCtx_of_sib hf hx))
    refine (open_markCtx fun f hf => key (hctx f hf) (hc f hf)).tidy_plug ?_
    refine ⟨key (fun h => hnd.1 (.inl (.inl h))) ht.1, key (fun h => hnd.1 (.inl (.inr h))) ht.2.1, ?_⟩
    simp

theorem AugHolds.update (h : AugHolds own s t) {n : P} (hn : n ∈ order t) :
    ∃ s' t', AugStep own cmp s (.update n) s' ∧ AugHolds own s' t' := by
  obtain ⟨c, l, x, r, rfl, rfl, hat⟩ := h.mem.exists_node hn
  obtain ⟨m', sum', hrun, h', ht', hs⟩ := updateSubtree_spec hat h.tidy.of_plug.1 le_rfl
  refine ⟨⟨⟨m', s.key⟩, s.data, sum'⟩, _,
    ⟨rfl, rfl, (fuelled_updateSubtree _ _).returns _ hrun⟩, at_plug.1 h',
    isRedBlack_cleanTree h.redBlack, ?_⟩
  refine h.tidy.replace ht' (order_cleanTree _) ?_ hs ?_
  · simp [marked_cleanTree]
  · simpa [addrs] using h.mem.nodup

theorem AugStep.unique {op : AugOp K P D S} {s₁ s₂ : Augmented K P D S}
    (h₁ : AugStep own cmp s op s₁) (h₂ : AugStep own cmp s op s₂) : s₁ = s₂ := by
  obtain ⟨⟨m₁, key₁⟩, data₁, sum₁⟩ := s₁
  obtain ⟨⟨m₂, key₂⟩, data₂, sum₂⟩ := s₂
  cases op with
  | insert k n d v =>
    obtain ⟨⟨r₁, h₁⟩, rfl, rfl⟩ := h₁
    obtain ⟨⟨r₂, h₂⟩, rfl, rfl⟩ := h₂
    obtain ⟨-, ⟨⟩⟩ := h₁.unique h₂
    rfl
  | remove n =>
    obtain ⟨h₁, rfl, rfl⟩ := h₁
    obtain ⟨h₂, rfl, rfl⟩ := h₂
    obtain ⟨-, ⟨⟩⟩ := Step.unique h₁ h₂
    rfl
  | modify n d =>
    obtain ⟨rfl, rfl, rfl, h₁⟩ := h₁
    obtain ⟨rfl, rfl, rfl, h₂⟩ := h₂
    obtain ⟨-, rfl⟩ := Returns.unique h₁ h₂
    rfl
  | update n =>
    obtain ⟨rfl, rfl, h₁⟩ := h₁
    obtain ⟨rfl, rfl, h₂⟩ := h₂
    obtain ⟨-, ⟨⟩⟩ := Returns.unique h₁ h₂
    rfl

/-- Every legal operation returns, and keeps the invariant. -/
theorem AugHolds.step (h : AugHolds own s t) (cmp : K → K → ℤ) {op : AugOp K P D S}
    (hl : AugLegal s op) : ∃ s' t', AugStep own cmp s op s' ∧ AugHolds own s' t' := by
  cases op with
  | insert k n d v => exact h.insert (fun hn => hl (h.mem.reach_iff.2 hn)) k d v
  | remove n => exact h.remove (h.mem.reach_iff.1 hl)
  | modify n d => exact h.modify (h.mem.reach_iff.1 hl) d
  | update n => exact h.update (h.mem.reach_iff.1 hl)

theorem AugRun.holds (h : AugRun own cmp s) : ∃ t, AugHolds own s t := by
  induction h with
  | init m key data sum => exact ⟨.nil, ⟨rfl, trivial, by simp⟩, ⟨rfl, 0, rfl⟩, trivial⟩
  | step _ hl hs ih =>
    obtain ⟨t, ht⟩ := ih
    obtain ⟨s₂, t', hs₂, ht'⟩ := ht.step cmp hl
    obtain rfl := hs.unique hs₂
    exact ⟨t', ht'⟩

/-- In every state that is reached, a node without a mark stores the summary of
    its subtree, the parent of a marked node is marked, and every legal operation
    returns. -/
theorem augRun_summary (h : AugRun own cmp s) :
    (∀ a, Reach s.mem a → (s.mem.node a).flags.modified = false →
      ∃ l, Inorder s.mem (some a) l ∧ s.sum a = (l.map fun b => own (s.data b)).prod) ∧
    (∀ a b, Reach s.mem b → (s.mem.node b).flags.modified = true →
      (s.mem.node b).parent = some a → (s.mem.node a).flags.modified = true) ∧
    ∀ op, AugLegal s op → ∃ s', AugStep own cmp s op s' := by
  obtain ⟨t, ht⟩ := h.holds
  refine ⟨fun a ha hm => ?_, fun a b hb hm hp => ?_, fun op hl => ?_⟩
  · obtain ⟨c, l, x, r, rfl, rfl, hat⟩ := ht.mem.exists_node (ht.mem.reach_iff.1 ha)
    rw [hat.tree.1] at hm
    exact ⟨order (.node l x r), hat.tree.inorder, (ht.tidy.of_plug.1.2.2 hm).2.2⟩
  · obtain ⟨c, l, x, r, rfl, rfl, hat⟩ := ht.mem.exists_node (ht.mem.reach_iff.1 hb)
    rw [hat.tree.1] at hm hp
    cases c with
    | nil => simp at hp
    | cons f c =>
      obtain ⟨d, y, u⟩ := f
      obtain rfl : y.addr = a := by simpa using hp
      rw [hat.parent_eq, Node.mkDir_flags]
      by_contra hy
      have hty := Tidy.of_plug (c := c) (t := .mk d (.node l x r) y u) ht.tidy
      have hy' := (tidy_mk.1 hty.1).2.2 (Bool.not_eq_true _ ▸ hy)
      exact absurd hy'.1 (by simpa [marked] using hm)
  · obtain ⟨s', -, hs', -⟩ := ht.step cmp hl
    exact ⟨s', hs'⟩

theorem augRun_summary_update : ∃ s : Augmented ℤ ℕ ℕ ℕ,
    AugRun id (fun a b => a - b) s ∧
      ∃ l, Inorder s.mem (some 0) l ∧ s.sum 0 = (l.map s.data).prod := by
  -- A node is inserted, and then its summary is computed.
  let s₀ : Augmented ℤ ℕ ℕ ℕ :=
    ⟨⟨rbtInit ⟨fun _ => ⟨⟨false, false⟩, none, none, none⟩, none⟩, fun _ => 0⟩, fun _ => 0, fun _ => 1⟩
  let cmp : ℤ → ℤ → ℤ := fun a b => a - b
  obtain ⟨m₁, hrun₁, hroot₁, hnode₁⟩ : ∃ m₁,
      (rbtInsert ((s₀.setKey 0 5).compare cmp) 2 5 0).run s₀.mem = some (none, m₁) ∧
      m₁.root = some 0 ∧ m₁.node 0 = ⟨⟨false, true⟩, none, none, none⟩ := ⟨_, rfl, rfl, rfl⟩
  let s₁ : Augmented ℤ ℕ ℕ ℕ :=
    ⟨⟨m₁, (s₀.setKey 0 5).key⟩, Function.update s₀.data 0 7, Function.update s₀.sum 0 1⟩
  have h₁ : AugRun id cmp s₁ := by
    have hl : AugLegal s₀ (.insert 5 0 7 1) := legal_insert_init _ s₀.key 5 0
    exact .step (.init _ _ _ _) hl
      ⟨⟨none, rfl, (fuelled_rbtInsert _ 5 0).returns 2 hrun₁⟩, rfl, rfl⟩
  obtain ⟨m₂, sum₂, hrun₂, hroot₂, hnode₂⟩ : ∃ m₂ sum₂,
      (updateSubtree s₁.data 2 (some 0)).run (s₁.mem, s₁.sum) =
        some ((), (m₂, sum₂)) ∧ m₂.root = some 0 ∧ (m₂.node 0).flags.modified = false := by
    simp [updateSubtree, s₁, hnode₁, hroot₁, Flags.clear, Node.mapFlags]
  have h₂ : AugRun id cmp ⟨⟨m₂, s₁.key⟩, s₁.data, sum₂⟩ := by
    have hl : AugLegal s₁ (.update 0) := .root hroot₁
    exact h₁.step hl ⟨rfl, rfl, (fuelled_updateSubtree _ _).returns 2 hrun₂⟩
  exact ⟨_, h₂, (augRun_summary h₂).1 0 (.root hroot₂) hnode₂⟩

end

end Dlb.Rbt
