import Mathlib.Data.Set.Insert
import Dlb.Rbt.Fuelled
import Dlb.Rbt.Insert
import Dlb.Rbt.Remove
import Dlb.Rbt.WellFormed

/-!
# Histories of a tree

A tree as its users see it: the memory of the nodes, and the keys in the records
that the nodes are embedded in. Starting from `rbt_init`, nodes which are not in
the tree are inserted under some key, and nodes which are in the tree are
removed, in any order (`Run`).

`Holds s t` is the invariant: the memory of `s` holds the red-black tree `t`,
with increasing keys. Every legal operation returns, which includes that it does
not dereference `NULL`, and keeps the invariant. The contents of the tree are
those of a finite map (`contents`), on which the operations act as one expects.
-/

namespace Dlb.Rbt

variable {K P : Type}

/-! ## Operations -/

/-- The memory of the nodes, and the keys of the records they are part of. -/
structure State (K P : Type) where
  mem : Mem P
  key : P → K

/-- An operation on the tree: inserting a node under a key, or removing a node. -/
inductive Op (K P : Type)
  | insert (k : K) (n : P)
  | remove (n : P)

/-- `rbt_init`. -/
def rbtInit (m : Mem P) : Mem P := { m with root := none }

/-- The compare function of the tree looks at the key of the node. -/
def State.compare (cmp : K → K → ℤ) (s : State K P) (k : K) (a : P) : ℤ := cmp k (s.key a)

/-- What may be inserted is not in the tree, and what may be removed is. -/
def Legal (s : State K P) : Op K P → Prop
  | .insert _ n => ¬Reach s.mem n
  | .remove n => Reach s.mem n

section

variable [DecidableEq P] (cmp : K → K → ℤ)

/-- The record of the node at `n` gets the key `k`, before it is inserted. -/
def State.setKey (s : State K P) (n : P) (k : K) : State K P :=
  { s with key := Function.update s.key n k }

/-- The operation returns `r` in the state `s'`. -/
def Step (s : State K P) : Op K P → Option P → State K P → Prop
  | .insert k n, r, s' => s'.key = (s.setKey n k).key ∧
    Returns (fun fuel => rbtInsert ((s.setKey n k).compare cmp) fuel k n) s.mem r s'.mem
  | .remove n, r, s' => s'.key = s.key ∧ r = none ∧
    Returns (fun fuel => rbtRemove fuel n) s.mem () s'.mem

/-- A state that legal operations, in the order of the list, lead to. -/
inductive Run : List (Op K P) → State K P → Prop
  | init (m : Mem P) (key : P → K) : Run [] ⟨rbtInit m, key⟩
  | step {ops : List (Op K P)} {s s' : State K P} {op : Op K P} {r : Option P} :
    Run ops s → Legal s op → Step cmp s op r s' → Run (ops ++ [op]) s'

/-- `rbt_find` returns `r`, and changes nothing. -/
def Finds (s : State K P) (k : K) (r : Option P) : Prop :=
  Returns (fun fuel => rbtFind (s.compare cmp) fuel k) s.mem r s.mem

end

/-- The compare function is that of a total order on the keys. -/
structure Compares [LinearOrder K] (cmp : K → K → ℤ) : Prop where
  neg_iff : ∀ a b, cmp a b < 0 ↔ a < b
  zero_iff : ∀ a b, cmp a b = 0 ↔ a = b

theorem Compares.pos_iff [LinearOrder K] {cmp : K → K → ℤ} (h : Compares cmp) (a b : K) :
    0 < cmp a b ↔ b < a := by
  have h₁ := h.neg_iff a b
  have h₂ := h.zero_iff a b
  rcases lt_trichotomy a b with hab | rfl | hab
  · have := h₁.2 hab
    exact ⟨fun _ => by omega, fun hba => absurd hab hba.asymm⟩
  · have := h₂.2 rfl
    exact ⟨fun _ => by omega, fun h => absurd h (lt_irrefl a)⟩
  · have : ¬cmp a b < 0 := fun h => hab.asymm (h₁.1 h)
    have : cmp a b ≠ 0 := fun h => hab.ne' (h₂.1 h)
    exact ⟨fun _ => hab, fun _ => by omega⟩

/-! ## Lookup -/

/-- `rbt_find` finds the node with the key, if there is one. -/
theorem rbtFindLoop_spec {m : Mem P} {compare : K → P → ℤ} {k : K} {p : Option P}
    {t : Tree (Cell P)} {fuel : ℕ} (h : TreeAt m p t) (hs : Sorted (compare k) (order t))
    (hf : t.height ≤ fuel) :
    ∃ r, (rbtFindLoop compare k fuel (ptr t)).run m = some (r, m) ∧
      ∀ a, r = some a ↔ a ∈ order t ∧ compare k a = 0 := by
  induction t generalizing p fuel with
  | nil => exact ⟨none, by cases fuel <;> rfl, by simp⟩
  | node l x r ihl ihr =>
    obtain ⟨hx, hl, hr⟩ := h
    rw [Sorted, order_node, List.pairwise_append, List.pairwise_cons] at hs
    obtain ⟨hsl, ⟨hsx, hsr⟩, hslx⟩ := hs
    rw [Tree.height_node] at hf
    obtain ⟨fuel, rfl⟩ : ∃ j, fuel = j + 1 := Nat.exists_eq_succ_of_ne_zero (by omega)
    have hxl : ∀ a ∈ order l, 0 ≤ compare k x.addr → 0 < compare k a :=
      fun a ha => (hslx a ha x.addr (by simp)).2
    have hxr : ∀ a ∈ order r, compare k x.addr ≤ 0 → compare k a < 0 := fun a ha => (hsx a ha).1
    by_cases h₀ : compare k x.addr = 0
    · refine ⟨some x.addr, by simp [rbtFindLoop, h₀], fun a => ⟨?_, ?_⟩⟩
      · rintro ⟨⟩
        simp [h₀]
      · rintro ⟨ha, ha₀⟩
        rw [order_node, List.mem_append, List.mem_cons] at ha
        rcases ha with ha | rfl | ha
        · have := hxl a ha h₀.ge
          omega
        · rfl
        · have := hxr a ha h₀.le
          omega
    by_cases hlt : compare k x.addr < 0
    · obtain ⟨res, hrun, hres⟩ := ihl hl hsl (show _ ≤ fuel by omega)
      refine ⟨res, by rw [ptr_node, rbtFindLoop]; simpa [h₀, hx, hlt] using hrun, fun a => ?_⟩
      rw [hres, order_node, List.mem_append, List.mem_cons]
      refine ⟨fun ha => ⟨.inl ha.1, ha.2⟩, ?_⟩
      rintro ⟨ha | rfl | ha, ha₀⟩
      · exact ⟨ha, ha₀⟩
      · exact absurd ha₀ h₀
      · have := hxr a ha hlt.le
        omega
    · obtain ⟨res, hrun, hres⟩ := ihr hr hsr (show _ ≤ fuel by omega)
      refine ⟨res, by rw [ptr_node, rbtFindLoop]; simpa [h₀, hx, hlt] using hrun, fun a => ?_⟩
      rw [hres, order_node, List.mem_append, List.mem_cons]
      refine ⟨fun ha => ⟨.inr (.inr ha.1), ha.2⟩, ?_⟩
      rintro ⟨ha | rfl | ha, ha₀⟩
      · have := hxl a ha (by omega)
        omega
      · exact absurd ha₀ h₀
      · exact ⟨ha, ha₀⟩

/-! ## The invariant -/

section

variable [LinearOrder K]

/-- The state holds the red-black tree `t`, in which the keys increase. -/
structure Holds (s : State K P) (t : Tree (Cell P)) : Prop where
  mem : At s.mem [] t
  redBlack : t.IsRedBlack
  keys : ((order t).map s.key).Pairwise (· < ·)

variable {cmp : K → K → ℤ} {s : State K P} {t : Tree (Cell P)} {k : K} {n : P}

theorem Holds.wellFormed (h : Holds s t) : WellFormed s.mem s.key :=
  h.mem.wellFormed h.redBlack h.keys

theorem Holds.nodup (h : Holds s t) : (order t).Nodup := by
  simpa [addrs] using h.mem.nodup

theorem Holds.sorted (hcmp : Compares cmp) (h : Holds s t) (k : K) :
    Sorted (s.compare cmp k) (order t) := by
  refine (List.pairwise_map.1 h.keys).imp fun {a b} hab => ⟨fun ha => ?_, fun hb => ?_⟩
  · refine (hcmp.neg_iff _ _).2 (lt_of_le_of_lt (not_lt.1 fun hlt => ?_) hab)
    exact ha.not_gt ((hcmp.pos_iff _ _).2 hlt)
  · refine (hcmp.pos_iff _ _).2 (lt_of_lt_of_le hab (not_lt.1 fun hlt => ?_))
    exact hb.not_gt ((hcmp.neg_iff _ _).2 hlt)

theorem holds_init (m : Mem P) (key : P → K) : Holds ⟨rbtInit m, key⟩ .nil :=
  ⟨⟨rfl, trivial, by simp⟩, ⟨rfl, 0, rfl⟩, by simp⟩

/-- What is inserted first may be any node. -/
theorem legal_insert_init (m : Mem P) (key : P → K) (k : K) (n : P) :
    Legal ⟨rbtInit m, key⟩ (.insert k n) := by
  intro h
  have := (holds_init m key).mem.reach_iff.1 h
  simp at this

/-- The node that `rbt_find` returns has the key. -/
theorem Holds.finds (hcmp : Compares cmp) (h : Holds s t) (k : K) :
    ∃ r, Finds cmp s k r ∧ ∀ a, r = some a ↔ a ∈ order t ∧ s.key a = k := by
  obtain ⟨r, hrun, hr⟩ := rbtFindLoop_spec h.mem.tree (h.sorted hcmp k) le_rfl
  refine ⟨r, (fuelled_rbtFind _ k).returns t.height ?_, fun a => ?_⟩
  · rw [← show s.mem.root = ptr t from h.mem.ctx] at hrun
    simpa [rbtFind] using hrun
  · rw [hr, State.compare, hcmp.zero_iff, eq_comm (a := k)]

variable [DecidableEq P]

/-- The keys in the tree do not change when the node is not in the tree. -/
theorem Holds.setKey (h : Holds s t) (hn : n ∉ order t) (k : K) : Holds (s.setKey n k) t := by
  refine ⟨h.mem, h.redBlack, ?_⟩
  have : (order t).map (s.setKey n k).key = (order t).map s.key := by
    refine List.map_congr_left fun a ha => ?_
    exact Function.update_of_ne (by rintro rfl; exact hn ha) _ _
  rw [this]
  exact h.keys

/-- Insertion: the node takes its place in the order, which is that of the
    displaced node, if there is one. -/
theorem Holds.insert (hcmp : Compares cmp) (h : Holds s t) (hn : n ∉ order t) (k : K) :
    ∃ r s' t' xs ys, insertTree ((s.setKey n k).compare cmp k) n t = (r, t') ∧
      Step cmp s (.insert k n) r s' ∧ Holds s' t' ∧
      order t = xs ++ (r.toList ++ ys) ∧ order t' = xs ++ n :: ys ∧
      (∀ a ∈ xs, s.key a < k) ∧ (∀ a ∈ ys, k < s.key a) ∧ ∀ a ∈ r, s.key a = k := by
  have hk := h.setKey hn k
  have hsort := hk.sorted hcmp k
  obtain ⟨xs, ys, ho, ho', hxs, hys, hr⟩ := order_insertTree (n := n) hsort
  have hrb := isRedBlack_insertTree ((s.setKey n k).compare cmp k) n h.redBlack
  obtain ⟨m', hrun, h'⟩ := rbtInsert_spec ((s.setKey n k).compare cmp) k
    h.mem (by simpa [addrs] using hn) h.redBlack (Nat.lt_succ_self _)
  generalize insertTree ((s.setKey n k).compare cmp k) n t = z at ho ho' hr hrb hrun h'
  obtain ⟨r, t'⟩ := z
  -- The keys of the nodes that were in the tree are still the same.
  have hkey : ∀ a ∈ order t, (s.setKey n k).key a = s.key a :=
    fun a ha => Function.update_of_ne (by rintro rfl; exact hn ha) _ _
  have hkn : (s.setKey n k).key n = k := Function.update_self _ _ _
  have hxs' : ∀ a ∈ xs, (s.setKey n k).key a < k := fun a ha => (hcmp.pos_iff _ _).1 (hxs a ha)
  have hys' : ∀ a ∈ ys, k < (s.setKey n k).key a := fun a ha => (hcmp.neg_iff _ _).1 (hys a ha)
  refine ⟨r, ⟨m', (s.setKey n k).key⟩, t', xs, ys, rfl,
    ⟨rfl, (fuelled_rbtInsert _ k n).returns _ hrun⟩, ⟨h', hrb, ?_⟩, ho, ho', fun a ha => ?_, fun a ha => ?_,
    fun a ha => ?_⟩
  · have hpw := List.pairwise_map.1 hk.keys
    rw [ho, List.pairwise_append, List.pairwise_append] at hpw
    rw [ho', List.pairwise_map, List.pairwise_append, List.pairwise_cons]
    refine ⟨hpw.1, ⟨fun b hb => hkn.trans_lt (hys' b hb), hpw.2.1.2.1⟩, fun a ha b hb => ?_⟩
    rcases List.mem_cons.1 hb with rfl | hb
    · exact (hxs' a ha).trans_eq hkn.symm
    · exact (hxs' a ha).trans (hys' b hb)
  · rw [← hkey a (by rw [ho]; simp [ha])]
    exact hxs' a ha
  · rw [← hkey a (by rw [ho]; simp [ha])]
    exact hys' a ha
  · rw [← hkey a (by rw [ho]; simp [Option.mem_def.1 ha])]
    exact ((hcmp.zero_iff _ _).1 (hr a ha)).symm

/-- Removal: the node is taken out of the order. -/
theorem Holds.remove (cmp : K → K → ℤ) (h : Holds s t) (hn : n ∈ order t) :
    ∃ s' t' xs ys, Step cmp s (.remove n) none s' ∧ Holds s' t' ∧ s'.key = s.key ∧
      order t = xs ++ n :: ys ∧ order t' = xs ++ ys := by
  obtain ⟨c, l, x, r, rfl, rfl, hat⟩ := h.mem.exists_node hn
  obtain ⟨m', hrun, h', -⟩ := rbtRemove_spec hat h.redBlack (Nat.lt_succ_self _)
  have ho : order (plug c (.node l x r)) = ((Ctx.before c).map Cell.addr ++ order l) ++
      x.addr :: (order r ++ (Ctx.after c).map Cell.addr) := by
    simp [order_plug]
  have ho' : order (removeTree c l x r) = ((Ctx.before c).map Cell.addr ++ order l) ++
      (order r ++ (Ctx.after c).map Cell.addr) := by
    simp [order_removeTree]
  refine ⟨⟨m', s.key⟩, removeTree c l x r, _, _, ⟨rfl, rfl, (fuelled_rbtRemove _).returns _ hrun⟩,
    ⟨h', isRedBlack_removeTree h.redBlack, ?_⟩, rfl, ho, ho'⟩
  have hsub : (order (removeTree c l x r)).Sublist (order (plug c (.node l x r))) := by
    rw [ho, ho']
    exact List.Sublist.append_left (List.sublist_cons_self _ _) _
  exact h.keys.sublist (hsub.map _)

/-! ## Contents -/

/-- The pairs of a key and a node in the tree. -/
def pairs (s : State K P) : Set (K × P) := {p | Reach s.mem p.2 ∧ s.key p.2 = p.1}

omit [LinearOrder K] in
/-- The contents of a map after an operation. -/
def Op.apply [DecidableEq K] (f : K → Option P) : Op K P → K → Option P
  | .insert k n => Function.update f k (some n)
  | .remove n => fun k => if f k = some n then none else f k

/-- The contents of the tree after a history: for every key, the node that was
    inserted last under it, unless it was removed or replaced since. -/
def contents (ops : List (Op K P)) : K → Option P := ops.foldl Op.apply fun _ => none

theorem contents_concat (ops : List (Op K P)) (op : Op K P) :
    contents (ops ++ [op]) = op.apply (contents ops) := by
  simp [contents]

omit [DecidableEq P] in
theorem Holds.mem_pairs (h : Holds s t) {a : P} : (k, a) ∈ pairs s ↔ a ∈ order t ∧ s.key a = k := by
  rw [pairs, Set.mem_ofPred_eq, h.mem.reach_iff]

/-- An insertion replaces what is under the key, and nothing else. -/
theorem Holds.pairs_insert (hcmp : Compares cmp) (h : Holds s t) (hn : n ∉ order t) (k : K) :
    ∃ r s' t', insertTree ((s.setKey n k).compare cmp k) n t = (r, t') ∧
      Step cmp s (.insert k n) r s' ∧ Holds s' t' ∧ (∀ c, r = some c ↔ (k, c) ∈ pairs s) ∧
      pairs s' = {(k, n)} ∪ {p ∈ pairs s | p.1 ≠ k} := by
  obtain ⟨r, s', t', xs, ys, hins, hstep, h', ho, ho', hxs, hys, hr⟩ := h.insert hcmp hn k
  have hr' : ∀ c, r = some c ↔ (k, c) ∈ pairs s := by
    intro c
    rw [h.mem_pairs, ho]
    refine ⟨fun hc => ⟨by simp [hc], hr c hc⟩, fun ⟨hc, hk⟩ => ?_⟩
    rw [List.mem_append, List.mem_append, Option.mem_toList] at hc
    rcases hc with hc | hc | hc
    · exact absurd hk (hxs c hc).ne
    · exact hc
    · exact absurd hk (hys c hc).ne'
  refine ⟨r, s', t', hins, hstep, h', hr', ?_⟩
  ext ⟨k', a⟩
  rw [h'.mem_pairs, Set.mem_union, Set.mem_singleton_iff, Set.mem_ofPred_eq, h.mem_pairs, ho', ho, hstep.1]
  by_cases ha : a = n
  · subst ha
    have : ¬(a ∈ xs ++ (r.toList ++ ys)) := ho ▸ hn
    simp [State.setKey, this, eq_comm]
  · have hka : (s.setKey n k).key a = s.key a := Function.update_of_ne ha _ _
    rw [hka]
    simp only [List.mem_append, List.mem_cons, Prod.mk.injEq, ha, and_false, false_or,
      Option.mem_toList]
    constructor
    · rintro ⟨hx | hy, rfl⟩
      · exact ⟨⟨.inl hx, rfl⟩, (hxs a hx).ne⟩
      · exact ⟨⟨.inr (.inr hy), rfl⟩, (hys a hy).ne'⟩
    · rintro ⟨⟨hx | hx | hy, rfl⟩, hne⟩
      · exact ⟨.inl hx, rfl⟩
      · exact absurd (hr a hx) hne
      · exact ⟨.inr hy, rfl⟩

/-- A removal takes out the pair of the node, and nothing else. -/
theorem Holds.pairs_remove (cmp : K → K → ℤ) (h : Holds s t) (hn : n ∈ order t) :
    ∃ s' t', Step cmp s (.remove n) none s' ∧ Holds s' t' ∧
      pairs s' = pairs s \ {(s.key n, n)} := by
  obtain ⟨s', t', xs, ys, hstep, h', hkey, ho, ho'⟩ := h.remove cmp hn
  refine ⟨s', t', hstep, h', ?_⟩
  have hnd := h.nodup
  rw [ho, List.nodup_append, List.nodup_cons] at hnd
  ext ⟨k', a⟩
  rw [h'.mem_pairs, Set.mem_sdiff, h.mem_pairs, ho', ho, hkey, Set.mem_singleton_iff]
  simp only [List.mem_append, List.mem_cons, Prod.mk.injEq]
  constructor
  · rintro ⟨ha, rfl⟩
    refine ⟨⟨by tauto, rfl⟩, ?_⟩
    rintro ⟨-, rfl⟩
    rcases ha with ha | ha
    · exact hnd.2.2 a ha a (by simp) rfl
    · exact hnd.2.1.1 ha
  · rintro ⟨⟨ha, rfl⟩, hne⟩
    refine ⟨?_, rfl⟩
    rcases ha with ha | rfl | ha
    · exact .inl ha
    · exact absurd ⟨rfl, rfl⟩ hne
    · exact .inr ha

omit [LinearOrder K] in
/-- The node that is inserted takes the place of the node it displaces. -/
theorem map_insertTree {compare : P → ℤ} {c : P} {t' : Tree (Cell P)} (ht : (order t).Nodup)
    (hn : n ∉ order t) (h : insertTree compare n t = (some c, t')) :
    t'.map Cell.link = t.map (Cell.rename (Function.update id c n)) := by
  have hs : (plug (search compare [] t).1 (search compare [] t).2).map Cell.link =
      t.map Cell.link := by
    refine search_induction (p := fun t' => t'.map Cell.link = t.map Cell.link) ?_ (c := []) rfl
    intro c l x r h
    rw [← h]
    exact map_plug_congr c rfl
  have ho := order_search compare t
  unfold insertTree at h
  generalize search compare [] t = z at h hs ho
  obtain ⟨e, t₁⟩ := z
  cases t₁ with
  | nil => simp [insertAt] at h
  | node l x r =>
    obtain ⟨rfl, rfl⟩ : x.addr = c ∧ plug e (.node l ⟨n, x.flags⟩ r) = t' := by
      simpa [insertAt] using h
    rw [← ho, order_plug] at ht hn
    simp only [order_node, List.mem_append, List.mem_cons, not_or] at hn
    set g := Function.update id x.addr n
    have hgx : g x.addr = n := Function.update_self _ _ _
    have hg : ∀ a, a ≠ x.addr → g a = a := fun a ha => Function.update_of_ne ha _ _
    calc (plug e (.node l ⟨n, x.flags⟩ r)).map Cell.link
        = (plug e (.node l ⟨n, x.flags⟩ r)).map (Cell.rename g) := by
          refine Tree.map_congr fun y hy => ?_
          have hy' : y.addr ≠ x.addr := by
            have := List.mem_map_of_mem (f := Cell.addr) hy
            rw [← order, order_plug] at this
            simp [List.nodup_append] at this ht
            grind
          simp [Cell.link, Cell.rename, hg _ hy']
      _ = (plug e (.node l x r)).map (Cell.rename g) := by
          refine map_plug_congr e ?_
          have : Cell.rename g ⟨n, x.flags⟩ = Cell.rename g x := by
            simp [Cell.rename, hgx, hg n (by tauto), red_def]
          simp [Tree.map, this]
      _ = ((plug e (.node l x r)).map Cell.link).map fun y => (g y.1, y.2) := by
          rw [Tree.map_map]
          rfl
      _ = t.map (Cell.rename g) := by
          rw [hs, Tree.map_map]
          rfl

omit [LinearOrder K] in
theorem Step.unique {op : Op K P} {r r' : Option P} {s₁ s₂ : State K P} (h₁ : Step cmp s op r s₁)
    (h₂ : Step cmp s op r' s₂) : r = r' ∧ s₁ = s₂ := by
  obtain ⟨m₁, key₁⟩ := s₁
  obtain ⟨m₂, key₂⟩ := s₂
  cases op with
  | insert k n =>
    obtain ⟨rfl, h₁⟩ := h₁
    obtain ⟨rfl, h₂⟩ := h₂
    obtain ⟨rfl, rfl⟩ := Returns.unique h₁ h₂
    exact ⟨rfl, rfl⟩
  | remove n =>
    obtain ⟨rfl, rfl, h₁⟩ := h₁
    obtain ⟨rfl, rfl, h₂⟩ := h₂
    obtain ⟨-, rfl⟩ := Returns.unique h₁ h₂
    exact ⟨rfl, rfl⟩

/-- Every history leads to a red-black tree, whose contents are those of the map. -/
theorem Run.holds (hcmp : Compares cmp) {ops : List (Op K P)} (h : Run cmp ops s) :
    ∃ t, Holds s t ∧ ∀ k a, contents ops k = some a ↔ (k, a) ∈ pairs s := by
  induction h with
  | init m key =>
    refine ⟨.nil, holds_init m key, fun k a => ?_⟩
    rw [(holds_init m key).mem_pairs]
    simp [contents]
  | @step ops s s' op r _ hl hs ih =>
    obtain ⟨t, ht, hc⟩ := ih
    simp only [contents_concat]
    cases op with
    | insert k n =>
      have hn : n ∉ order t := fun h => hl (ht.mem.reach_iff.2 h)
      obtain ⟨r', s₂, t', -, hstep, ht', -, hp⟩ := ht.pairs_insert hcmp hn k
      obtain ⟨-, rfl⟩ := hs.unique hstep
      refine ⟨t', ht', fun k' a => ?_⟩
      rw [hp, Op.apply, Set.mem_union, Set.mem_singleton_iff, Set.mem_ofPred_eq, ← hc]
      by_cases hk : k' = k
      · simp [hk, eq_comm]
      · simp [hk]
    | remove n =>
      obtain ⟨s₂, t', hstep, ht', hp⟩ := ht.pairs_remove cmp (ht.mem.reach_iff.1 hl)
      obtain ⟨-, rfl⟩ := hs.unique hstep
      refine ⟨t', ht', fun k' a => ?_⟩
      rw [hp, Set.mem_sdiff, Set.mem_singleton_iff, ← hc, Op.apply]
      dsimp only
      have hkn : ∀ a, contents ops k' = some a → s.key a = k' := fun a ha => ((hc _ _).1 ha).2
      by_cases hk : contents ops k' = some n
      · have := hkn n hk
        simp only [hk, if_true, reduceCtorEq, Option.some.injEq, Prod.mk.injEq, false_iff]
        rintro ⟨rfl, hne⟩
        exact hne ⟨this.symm, rfl⟩
      · rw [if_neg hk]
        refine ⟨fun ha => ⟨ha, ?_⟩, fun ha => ha.1⟩
        rintro ⟨⟩
        exact hk ha

/-- Any node may be inserted first. -/
theorem exists_run_insert (hcmp : Compares cmp) (k : K) (n : P) :
    ∃ s : State K P, Run cmp [.insert k n] s ∧ (k, n) ∈ pairs s := by
  let m : Mem P := ⟨fun _ => ⟨⟨false, false⟩, none, none, none⟩, none⟩
  obtain ⟨r, s, t', -, hs, -, -, hp⟩ :=
    (holds_init m fun _ => k).pairs_insert hcmp (n := n) (by simp) k
  have h₀ : Run cmp [] ⟨rbtInit m, fun _ => k⟩ := .init _ _
  exact ⟨s, h₀.step (legal_insert_init m _ k n) hs, by simp [hp]⟩

/-- After every history the tree is well-formed, and every legal operation
    returns: it does not dereference `NULL`. -/
theorem run_wellFormed (hcmp : Compares cmp) {ops : List (Op K P)} (h : Run cmp ops s) :
    WellFormed s.mem s.key ∧ ∀ op, Legal s op → ∃ r s', Step cmp s op r s' := by
  obtain ⟨t, ht, -⟩ := h.holds hcmp
  refine ⟨ht.wellFormed, fun op hl => ?_⟩
  cases op with
  | insert k n =>
    obtain ⟨r, s', -, -, hstep, -⟩ := ht.pairs_insert hcmp (fun h => hl (ht.mem.reach_iff.2 h)) k
    exact ⟨r, s', hstep⟩
  | remove n =>
    obtain ⟨s', -, hstep, -⟩ := ht.pairs_remove cmp (ht.mem.reach_iff.1 hl)
    exact ⟨none, s', hstep⟩

theorem run_wellFormed_insert :
    ∃ s, Run (fun a b : ℤ => a - b) [.insert 5 0] s ∧ WellFormed (P := ℕ) s.mem s.key := by
  have hcmp : Compares fun a b : ℤ => a - b := ⟨by omega, by omega⟩
  obtain ⟨s, h, -⟩ := exists_run_insert hcmp 5 (0 : ℕ)
  exact ⟨s, h, (run_wellFormed hcmp h).1⟩

/-- After every history the tree acts as a finite map from keys to nodes:
    `rbt_find` returns what the map has; `rbt_insert` returns the node that was
    under the key, whose place the new node takes; and the operations do not
    touch the other pairs. -/
theorem run_contents (hcmp : Compares cmp) {ops : List (Op K P)} (h : Run cmp ops s) :
    (∀ k, Finds cmp s k (contents ops k)) ∧
    (∀ k n, Legal s (.insert k n) → ∃ r s', Step cmp s (.insert k n) r s' ∧
      (∀ c, r = some c ↔ (k, c) ∈ pairs s) ∧
      (∀ c, r = some c → Renamed (Function.update id c n) s.mem s'.mem) ∧
      pairs s' = {(k, n)} ∪ {p ∈ pairs s | p.1 ≠ k}) ∧
    (∀ n, Legal s (.remove n) → ∃ s', Step cmp s (.remove n) none s' ∧
      pairs s' = pairs s \ {(s.key n, n)}) := by
  obtain ⟨t, ht, hc⟩ := h.holds hcmp
  refine ⟨fun k => ?_, fun k n hl => ?_, fun n hl => ?_⟩
  · obtain ⟨r, hf, hr⟩ := ht.finds hcmp k
    have : contents ops k = r := by
      refine Option.ext fun a => ?_
      rw [hc, ht.mem_pairs, hr]
    rwa [this]
  · have hn : n ∉ order t := fun h => hl (ht.mem.reach_iff.2 h)
    obtain ⟨r, s', t', hins, hstep, ht', hr, hp⟩ := ht.pairs_insert hcmp hn k
    refine ⟨r, s', hstep, hr, ?_, hp⟩
    rintro c rfl
    exact ht.mem.renamed ht'.mem (map_insertTree ht.nodup hn hins)
  · obtain ⟨s', t', hstep, -, hp⟩ := ht.pairs_remove cmp (ht.mem.reach_iff.1 hl)
    exact ⟨s', hstep, hp⟩

theorem run_contents_replace :
    ∃ s s', Run (fun a b : ℤ => a - b) [.insert 5 0, .insert 5 1] s' ∧
      Step (fun a b : ℤ => a - b) s (.insert 5 1) (some 0) s' ∧
      Finds (P := ℕ) (fun a b : ℤ => a - b) s' 5 (some 1) := by
  have hcmp : Compares fun a b : ℤ => a - b := ⟨by omega, by omega⟩
  have h₀ : Run (fun a b : ℤ => a - b) []
      ⟨rbtInit ⟨fun _ : ℕ => ⟨⟨false, false⟩, none, none, none⟩, none⟩, fun _ => 0⟩ := .init _ _
  have hl₀ := legal_insert_init ⟨fun _ : ℕ => ⟨⟨false, false⟩, none, none, none⟩, none⟩
    (fun _ => (0 : ℤ)) 5 0
  obtain ⟨r, s, hs, -, -, hp⟩ := (run_contents hcmp h₀).2.1 5 0 hl₀
  have h₁ := h₀.step hl₀ hs
  have hp₀ : (5, 0) ∈ pairs s := by rw [hp]; simp
  have hl₁ : Legal s (.insert 5 1) := fun h => by
    have : (s.key 1, 1) ∈ pairs s := ⟨h, rfl⟩
    rw [hp] at this
    simp only [pairs, Set.mem_union, Set.mem_singleton_iff, Prod.mk.injEq, Set.mem_ofPred_eq] at this
    rcases this with ⟨-, h⟩ | ⟨⟨h, -⟩, -⟩
    · simp at h
    · exact legal_insert_init _ (fun _ => (0 : ℤ)) 5 1 h
  obtain ⟨r', s', hs', hr', -⟩ := (run_contents hcmp h₁).2.1 5 1 hl₁
  obtain rfl := (hr' 0).2 hp₀
  have h₂ := h₁.step hl₁ hs'
  exact ⟨s, s', h₂, hs', (run_contents hcmp h₂).1 5⟩

end

end Dlb.Rbt
