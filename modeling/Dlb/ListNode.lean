import Mathlib.Order.BooleanAlgebra.Set
import Dlb.Memory
import Dlb.Ring

/-!
# Circular lists in the memory

`src/src/list.c`. A `struct list_node` has 16 bytes on a 64-bit target, for `next` and `prev`. A
list starts and ends at a node of its own, its head.

`Rings` says that some heads start rings that have no node in common. `Rings.update` changes one ring
and keeps the others; each function has a lemma for its links and one for the rings.
-/

namespace Dlb.ListNode

variable {m m' : Mem} {N N' B B' : Set ℕ} {F : ℕ → List ℕ} {b c p q v x : ℕ}

/-! ## The functions of the list -/

def next (m : Mem) (p : ℕ) : ℕ := m.load p 8

def prev (m : Mem) (p : ℕ) : ℕ := m.load (p + 8) 8

def setNext (m : Mem) (p v : ℕ) : Mem := m.store p 8 v

def setPrev (m : Mem) (p v : ℕ) : Mem := m.store (p + 8) 8 v

def listInit (m : Mem) (head : ℕ) : Mem := setPrev (setNext m head head) head head

def listIsEmpty (m : Mem) (lst : ℕ) : Bool := next m lst = lst

/-- The node appears before `after`. -/
def listInsert (m : Mem) (item after : ℕ) : Mem :=
  let m := setNext m item after
  let m := setPrev m item (prev m after)
  let m := setNext m (prev m after) item
  setPrev m after item

def listRemove (m : Mem) (item : ℕ) : Mem :=
  let m := setPrev m (next m item) (prev m item)
  let m := setNext m (prev m item) (next m item)
  let m := setPrev m item 0
  setNext m item 0

/-- The contents of the list `src` are moved to the list `dst`. -/
def listMove (m : Mem) (dst src : ℕ) : Mem :=
  if listIsEmpty m src then
    let m := setPrev m dst dst
    setNext m dst dst
  else
    let m := setNext m dst (next m src)
    let m := setPrev m dst (prev m src)
    let m := setPrev m (next m dst) dst
    let m := setNext m (prev m dst) dst
    let m := setPrev m src src
    setNext m src src

/-! ## Nodes -/

/-- The nodes of `N` do not overlap. -/
def Apart (N : Set ℕ) : Prop :=
  ∀ p ∈ N, p + 16 ≤ 2 ^ 64 ∧ ∀ q ∈ N, p = q ∨ p + 16 ≤ q ∨ q + 16 ≤ p

/-- Only nodes of `N` are changed. -/
def Frame (N : Set ℕ) (m m' : Mem) : Prop :=
  ∀ q, (∀ p ∈ N, ¬(p ≤ q ∧ q < p + 16)) → m' q = m q

theorem Frame.trans {m'' : Mem} (h : Frame N m m') (h' : Frame N m' m'') : Frame N m m'' :=
  fun q hq => (h' q hq).trans (h q hq)

theorem frame_setNext (hp : p ∈ N) : Frame N m (setNext m p v) := by
  intro q hq
  have := hq p hp
  exact Mem.store_of_not_mem (by omega)

theorem frame_setPrev (hp : p ∈ N) : Frame N m (setPrev m p v) := by
  intro q hq
  have := hq p hp
  exact Mem.store_of_not_mem (by omega)

section Get

variable (hN : Apart N) (hp : p ∈ N) (hq : q ∈ N)

include hN hp hq

theorem next_setNext (hv : v < 2 ^ 64) :
    next (setNext m p v) q = Function.update (next m) p v q := by
  rw [Function.update_apply]
  split_ifs with h
  · subst h
    exact Mem.load_store_self.trans (Nat.mod_eq_of_lt hv)
  · have := (hN p hp).2 q hq
    exact Mem.load_store_of_disjoint (by omega)

theorem prev_setPrev (hv : v < 2 ^ 64) :
    prev (setPrev m p v) q = Function.update (prev m) p v q := by
  rw [Function.update_apply]
  split_ifs with h
  · subst h
    exact Mem.load_store_self.trans (Nat.mod_eq_of_lt hv)
  · have := (hN p hp).2 q hq
    exact Mem.load_store_of_disjoint (by omega)

theorem next_setPrev : next (setPrev m p v) q = next m q := by
  have := (hN p hp).2 q hq
  exact Mem.load_store_of_disjoint (by omega)

theorem prev_setNext : prev (setNext m p v) q = prev m q := by
  have := (hN p hp).2 q hq
  exact Mem.load_store_of_disjoint (by omega)

end Get

theorem Apart.lt (hN : Apart N) (hp : p ∈ N) : p < 2 ^ 64 := by
  have := (hN p hp).1
  omega

/-- `list_insert` reads the node before `b` as it was. -/
theorem listInsert_eq (hN : Apart N) (hx : x ∈ N) (hb : b ∈ N) (hne : x ≠ b) (ha : prev m b ∈ N) :
    listInsert m x b =
      setPrev (setNext (setPrev (setNext m x b) x (prev m b)) (prev m b) x) b x := by
  have h₁ : prev (setNext m x b) b = prev m b := prev_setNext hN hx hb
  have h₂ : prev (setPrev (setNext m x b) x (prev m b)) b = prev m b := by
    rw [prev_setPrev hN hx hb (hN.lt ha), Function.update_of_ne hne.symm, h₁]
  simp only [listInsert, h₁, h₂]

/-- The links after `list_insert`. -/
theorem listInsert_links (hN : Apart N) (hx : x ∈ N) (hb : b ∈ N) (hne : x ≠ b)
    (ha : prev m b ∈ N) (hq : q ∈ N) :
    next (listInsert m x b) q =
        Function.update (Function.update (next m) x b) (prev m b) x q ∧
      prev (listInsert m x b) q =
        Function.update (Function.update (prev m) x (prev m b)) b x q := by
  rw [listInsert_eq hN hx hb hne ha]
  constructor
  · rw [next_setPrev hN hb hq, next_setNext hN ha hq (hN.lt hx), Function.update_apply,
      next_setPrev hN hx hq, next_setNext hN hx hq (hN.lt hb), ← Function.update_apply]
  · rw [prev_setPrev hN hb hq (hN.lt hx), Function.update_apply, prev_setNext hN ha hq,
      prev_setPrev hN hx hq (hN.lt ha), Function.update_apply, prev_setNext hN hx hq,
      ← Function.update_apply, ← Function.update_apply]

/-- `list_remove` reads the links of the node as they were. -/
theorem listRemove_eq (hN : Apart N) (hx : x ∈ N) (hn : next m x ∈ N) (hv : prev m x ∈ N) :
    listRemove m x = setNext (setPrev (setNext (setPrev m (next m x) (prev m x)) (prev m x) (next m x))
      x 0) x 0 := by
  have h₁ : next (setPrev m (next m x) (prev m x)) x = next m x := next_setPrev hN hn hx
  have h₂ : prev (setPrev m (next m x) (prev m x)) x = prev m x := by
    rw [prev_setPrev hN hn hx (hN.lt hv), Function.update_apply, ite_self]
  simp only [listRemove, h₁, h₂]

/-- The links after `list_remove`, but for the node itself. -/
theorem listRemove_links (hN : Apart N) (hx : x ∈ N) (hn : next m x ∈ N) (hv : prev m x ∈ N)
    (hq : q ∈ N) (hqx : q ≠ x) :
    next (listRemove m x) q = Function.update (next m) (prev m x) (next m x) q ∧
      prev (listRemove m x) q = Function.update (prev m) (next m x) (prev m x) q := by
  rw [listRemove_eq hN hx hn hv]
  constructor
  · rw [next_setNext hN hx hq (by omega), Function.update_of_ne hqx, next_setPrev hN hx hq,
      next_setNext hN hv hq (hN.lt hn), Function.update_apply, next_setPrev hN hn hq,
      ← Function.update_apply]
  · rw [prev_setNext hN hx hq, prev_setPrev hN hx hq (by omega), Function.update_of_ne hqx,
      prev_setNext hN hv hq, prev_setPrev hN hn hq (hN.lt hv)]

/-- The links after `list_init`. -/
theorem listInit_links (hN : Apart N) (hb : b ∈ N) (hq : q ∈ N) :
    next (listInit m b) q = Function.update (next m) b b q ∧
      prev (listInit m b) q = Function.update (prev m) b b q := by
  constructor
  · rw [listInit, next_setPrev hN hb hq, next_setNext hN hb hq (hN.lt hb)]
  · rw [listInit, prev_setPrev hN hb hq (hN.lt hb), Function.update_apply, prev_setNext hN hb hq,
      ← Function.update_apply]

/-- The links after `list_move` from an empty list. -/
theorem listMove_links_of_isEmpty (hN : Apart N) (hb : b ∈ N) (hc : listIsEmpty m c = true)
    (hq : q ∈ N) :
    next (listMove m b c) q = Function.update (next m) b b q ∧
      prev (listMove m b c) q = Function.update (prev m) b b q := by
  rw [listMove, if_pos hc]
  constructor
  · rw [next_setNext hN hb hq (hN.lt hb), Function.update_apply, next_setPrev hN hb hq,
      ← Function.update_apply]
  · rw [prev_setNext hN hb hq, prev_setPrev hN hb hq (hN.lt hb)]

/-- `list_move` reads the links of the two heads as they were or are to be. -/
theorem listMove_eq (hN : Apart N) (hb : b ∈ N) (hc : c ∈ N) (hn : next m c ∈ N)
    (hv : prev m c ∈ N) (hne : b ≠ next m c) (he : listIsEmpty m c = false) :
    listMove m b c = setNext (setPrev (setNext (setPrev (setPrev (setNext m b (next m c)) b (prev m c))
      (next m c) b) (prev m c) b) c c) c c := by
  have h₁ : prev (setNext m b (next m c)) c = prev m c := prev_setNext hN hb hc
  have h₂ : next (setPrev (setNext m b (next m c)) b (prev m c)) b = next m c := by
    rw [next_setPrev hN hb hb, next_setNext hN hb hb (hN.lt hn), Function.update_self]
  have h₃ : prev (setPrev (setPrev (setNext m b (next m c)) b (prev m c)) (next m c) b) b =
      prev m c := by
    rw [prev_setPrev hN hn hb (hN.lt hb), Function.update_of_ne hne,
      prev_setPrev hN hb hb (hN.lt hv), Function.update_self]
  simp only [listMove, he, Bool.false_eq_true, if_false, h₁, h₂, h₃]

/-- The links after `list_move` from a list that is not empty. -/
theorem listMove_links (hN : Apart N) (hb : b ∈ N) (hc : c ∈ N) (hn : next m c ∈ N)
    (hv : prev m c ∈ N) (hne : b ≠ next m c) (he : listIsEmpty m c = false) (hq : q ∈ N) :
    next (listMove m b c) q = Function.update
        (Function.update (Function.update (next m) b (next m c)) (prev m c) b) c c q ∧
      prev (listMove m b c) q = Function.update
        (Function.update (Function.update (prev m) b (prev m c)) (next m c) b) c c q := by
  rw [listMove_eq hN hb hc hn hv hne he]
  constructor
  · rw [next_setNext hN hc hq (hN.lt hc), Function.update_apply, next_setPrev hN hc hq,
      next_setNext hN hv hq (hN.lt hb), Function.update_apply, next_setPrev hN hn hq,
      next_setPrev hN hb hq, next_setNext hN hb hq (hN.lt hn), ← Function.update_apply,
      ← Function.update_apply]
  · rw [prev_setNext hN hc hq, prev_setPrev hN hc hq (hN.lt hc), Function.update_apply,
      prev_setNext hN hv hq, prev_setPrev hN hn hq (hN.lt hb), Function.update_apply,
      prev_setPrev hN hb hq (hN.lt hv), Function.update_apply, prev_setNext hN hb hq,
      ← Function.update_apply, ← Function.update_apply, ← Function.update_apply]

theorem frame_listInsert (hN : Apart N) (hx : x ∈ N) (hb : b ∈ N) (hne : x ≠ b)
    (ha : prev m b ∈ N) : Frame N m (listInsert m x b) := by
  rw [listInsert_eq hN hx hb hne ha]
  exact (((frame_setNext hx).trans (frame_setPrev hx)).trans (frame_setNext ha)).trans
    (frame_setPrev hb)

theorem frame_listRemove (hN : Apart N) (hx : x ∈ N) (hn : next m x ∈ N) (hv : prev m x ∈ N) :
    Frame N m (listRemove m x) := by
  rw [listRemove_eq hN hx hn hv]
  exact (((frame_setPrev hn).trans (frame_setNext hv)).trans (frame_setPrev hx)).trans
    (frame_setNext hx)

theorem frame_listMove (hN : Apart N) (hb : b ∈ N) (hc : c ∈ N) (hn : next m c ∈ N)
    (hv : prev m c ∈ N) (hne : listIsEmpty m c = false → b ≠ next m c) :
    Frame N m (listMove m b c) := by
  cases he : listIsEmpty m c with
  | true =>
    rw [listMove, if_pos he]
    exact (frame_setPrev hb).trans (frame_setNext hb)
  | false =>
    rw [listMove_eq hN hb hc hn hv (hne he) he]
    exact (((((frame_setNext hb).trans (frame_setPrev hb)).trans (frame_setPrev hn)).trans
      (frame_setNext hv)).trans (frame_setPrev hc)).trans (frame_setNext hc)

/-! ## Rings -/

/-- The heads `B` start rings of nodes of `N`, which have no node in common. The nodes of the ring of
    `b` are `F b`. -/
structure Rings (N B : Set ℕ) (m : Mem) (F : ℕ → List ℕ) : Prop where
  ring : ∀ b ∈ B, Ring (next m) (prev m) b (F b)
  node : ∀ b ∈ B, ∀ x ∈ b :: F b, x ∈ N
  nodup : ∀ b ∈ B, (b :: F b).Nodup
  disjoint : ∀ b ∈ B, ∀ c ∈ B, ∀ x, x ∈ b :: F b → x ∈ c :: F c → b = c

theorem rings_empty : Rings N ∅ m F :=
  ⟨fun _ hb => hb.elim, fun _ hb => hb.elim, fun _ hb => hb.elim, fun _ hb => hb.elim⟩

namespace Rings

/-- A node of one ring is in no other. -/
theorem not_mem (h : Rings N B m F) (hb : b ∈ B) (hc : c ∈ B) (hcb : c ≠ b) (hx : x ∈ b :: F b) :
    x ∉ c :: F c :=
  fun hxc => hcb (h.disjoint c hc b hb x hxc hx)

theorem next_eq (h : Rings N B m F) (hb : b ∈ B) : next m b = (F b).head?.getD b :=
  (h.ring b hb).next_eq

theorem next_mem (h : Rings N B m F) (hb : b ∈ B) : next m b ∈ b :: F b := by
  rw [h.next_eq hb]
  cases F b <;> simp

theorem isEmpty_iff (h : Rings N B m F) (hb : b ∈ B) : listIsEmpty m b = true ↔ F b = [] := by
  rw [listIsEmpty, decide_eq_true_iff, h.next_eq hb]
  cases hF : F b with
  | nil => simp
  | cons x l =>
    have hd := h.nodup b hb
    rw [hF] at hd
    simp only [List.head?_cons, Option.getD_some, reduceCtorEq, iff_false]
    rintro rfl
    simp at hd

/-- Some of the rings, which are in other nodes. -/
theorem mono (h : Rings N B m F) (hB : B' ⊆ B) (hN : ∀ b ∈ B', ∀ x ∈ b :: F b, x ∈ N') :
    Rings N' B' m F :=
  ⟨fun b hb => h.ring b (hB hb), hN, fun b hb => h.nodup b (hB hb),
    fun b hb c hc => h.disjoint b (hB hb) c (hB hc)⟩

theorem congr_members {F' : ℕ → List ℕ} (h : Rings N B m F) (hF : ∀ b ∈ B, F' b = F b) :
    Rings N B m F' := by
  refine ⟨fun b hb => ?_, fun b hb => ?_, fun b hb => ?_, fun b hb c hc => ?_⟩
  · exact hF b hb ▸ h.ring b hb
  · exact hF b hb ▸ h.node b hb
  · exact hF b hb ▸ h.nodup b hb
  · rw [hF b hb, hF c hc]
    exact h.disjoint b hb c hc

/-- The rings stay if their nodes do. -/
theorem congr (h : Rings N B m F)
    (hm : ∀ b ∈ B, ∀ x ∈ b :: F b, ∀ q, x ≤ q → q < x + 16 → m' q = m q) : Rings N B m' F := by
  refine ⟨fun b hb => (h.ring b hb).congr (fun x hx => ?_) fun x hx => ?_, h.node, h.nodup,
    h.disjoint⟩
  · exact Mem.load_congr fun q h₁ h₂ => hm b hb x hx q h₁ (by omega)
  · exact Mem.load_congr fun q h₁ h₂ => hm b hb x hx q (by omega) (by omega)

/-- The links change at the nodes of one ring only, which may be a new one. -/
theorem update (h : Rings N B m F) {l : List ℕ} (hring : Ring (next m') (prev m') b l)
    (hl : ∀ x ∈ b :: l, x ∈ N ∧ ∀ c ∈ B, c ≠ b → x ∉ c :: F c) (hd : (b :: l).Nodup)
    (hother : ∀ c ∈ B, c ≠ b → ∀ x ∈ c :: F c, next m' x = next m x ∧ prev m' x = prev m x) :
    Rings N (Insert.insert b B) m' (Function.update F b l) := by
  have hB : ∀ {c}, c ∈ Insert.insert b B → c ≠ b → c ∈ B := fun hc hne => hc.resolve_left hne
  refine ⟨fun c hc => ?_, fun c hc x hx => ?_, fun c hc => ?_, fun c hc d hd' x hxc hxd => ?_⟩
  · rcases eq_or_ne c b with rfl | hne
    · rwa [Function.update_self]
    · rw [Function.update_of_ne hne]
      exact (h.ring c (hB hc hne)).congr (fun x hx => (hother c (hB hc hne) hne x hx).1)
        fun x hx => (hother c (hB hc hne) hne x hx).2
  · rcases eq_or_ne c b with rfl | hne
    · rw [Function.update_self] at hx
      exact (hl x hx).1
    · rw [Function.update_of_ne hne] at hx
      exact h.node c (hB hc hne) x hx
  · rcases eq_or_ne c b with rfl | hne
    · rwa [Function.update_self]
    · rw [Function.update_of_ne hne]
      exact h.nodup c (hB hc hne)
  · rcases eq_or_ne c b with rfl | hcb
    · rw [Function.update_self] at hxc
      by_contra hdc
      rw [Function.update_of_ne (Ne.symm hdc)] at hxd
      exact (hl x hxc).2 d (hB hd' (Ne.symm hdc)) (Ne.symm hdc) hxd
    · rw [Function.update_of_ne hcb] at hxc
      rcases eq_or_ne d b with rfl | hdb
      · rw [Function.update_self] at hxd
        exact absurd hxc ((hl x hxd).2 c (hB hc hcb) hcb)
      · rw [Function.update_of_ne hdb] at hxd
        exact h.disjoint c (hB hc hcb) d (hB hd' hdb) x hxc hxd

/-- A node is inserted before the node `p` of a list, which follows the nodes `l₁`. -/
theorem insert_before (h : Rings N B m F) (hN : Apart N) (hb : b ∈ B) (hx : x ∈ N)
    (hnew : ∀ c ∈ B, x ∉ c :: F c) {l₁ l₂ w : List ℕ} (hl : F b = l₁ ++ l₂)
    (hw : l₂ ++ [b] = p :: w) :
    Rings N B (listInsert m x p) (Function.update F b (l₁ ++ x :: l₂)) ∧
      Frame N m (listInsert m x p) := by
  have hring := h.ring b hb
  have hd := h.nodup b hb
  have hxb := hnew b hb
  rw [hl] at hring hd hxb
  have hp : p ∈ b :: F b := by
    have hmem : p ∈ l₂ ++ [b] := hw ▸ List.mem_cons_self
    rw [hl, List.mem_cons, List.mem_append]
    rw [List.mem_append, List.mem_singleton] at hmem
    tauto
  have ha : prev m p ∈ b :: F b := by
    rw [hl]
    exact List.mem_append_left l₂ (hring.prev_mem_of_eq hw)
  have hpN := h.node b hb p hp
  have hne : x ≠ p := fun e => hnew b hb (e ▸ hp)
  have hlinks := fun {q} hq => listInsert_links (q := q) hN hx hpN hne (h.node b hb _ ha) hq
  have hmem : ∀ y ∈ b :: (l₁ ++ x :: l₂), y = x ∨ y ∈ b :: F b := by
    intro y hy
    rw [hl]
    simp only [List.mem_cons, List.mem_append] at hy ⊢
    tauto
  have hnode : ∀ y ∈ b :: (l₁ ++ x :: l₂), y ∈ N := by
    intro y hy
    rcases hmem y hy with rfl | hy
    · exact hx
    · exact h.node b hb y hy
  refine ⟨Set.insert_eq_of_mem hb ▸ h.update ?_ (fun y hy => ⟨hnode y hy, fun c hc hcb => ?_⟩) ?_
    fun c hc hcb y hy => ?_, frame_listInsert hN hx hpN hne (h.node b hb _ ha)⟩
  · exact (hring.insert_before hd hxb hw).congr (fun y hy => (hlinks (hnode y hy)).1)
      fun y hy => (hlinks (hnode y hy)).2
  · rcases hmem y hy with rfl | hy
    · exact hnew c hc
    · exact h.not_mem hb hc hcb hy
  · rw [← List.cons_append, List.nodup_middle]
    exact List.nodup_cons.2 ⟨hxb, hd⟩
  · have hyb : ∀ z ∈ b :: F b, y ≠ z := fun z hz e => h.not_mem hb hc hcb hz (e ▸ hy)
    have hyx : y ≠ x := by
      rintro rfl
      exact hnew c hc hy
    obtain ⟨hn, hv⟩ := hlinks (h.node c hc y hy)
    rw [hn, hv, Function.update_of_ne (hyb _ ha), Function.update_of_ne hyx,
      Function.update_of_ne (hyb p hp), Function.update_of_ne hyx]
    exact ⟨rfl, rfl⟩

/-- A node is inserted at the back of a list. -/
theorem insert (h : Rings N B m F) (hN : Apart N) (hb : b ∈ B) (hx : x ∈ N)
    (hnew : ∀ c ∈ B, x ∉ c :: F c) :
    Rings N B (listInsert m x b) (Function.update F b (F b ++ [x])) ∧
      Frame N m (listInsert m x b) :=
  h.insert_before hN hb hx hnew (List.append_nil _).symm rfl

/-- A node is removed. -/
theorem remove (h : Rings N B m F) (hN : Apart N) (hb : b ∈ B) (hx : x ∈ F b) :
    Rings N B (listRemove m x) (Function.update F b ((F b).erase x)) ∧
      Frame N m (listRemove m x) := by
  obtain ⟨l₁, l₂, -, hl, herase⟩ := List.exists_erase_eq hx
  have hring := h.ring b hb
  have hd := h.nodup b hb
  rw [hl] at hring hd
  have hnode : ∀ y ∈ b :: (l₁ ++ x :: l₂), y ∈ N := hl ▸ h.node b hb
  obtain ⟨hv, hn⟩ := hring.neighbours
  have hv' : prev m x ∈ b :: (l₁ ++ x :: l₂) := by
    rcases List.mem_cons.1 hv with e | hv
    · simp [e]
    · simp [hv]
  have hn' : next m x ∈ b :: (l₁ ++ x :: l₂) := by
    rcases List.mem_append.1 hn with hn | e
    · simp [hn]
    · simp [List.mem_singleton.1 e]
  have hxN : x ∈ N := hnode x (by simp)
  have hlinks := fun {q} hq hqx =>
    listRemove_links (q := q) hN hxN (hnode _ hn') (hnode _ hv') hq hqx
  have hsub : (b :: (l₁ ++ l₂)).Sublist (b :: (l₁ ++ x :: l₂)) := by simp
  have hnx : ∀ y ∈ b :: (l₁ ++ l₂), y ≠ x := by
    rintro y hy rfl
    have hd' : (y :: (b :: l₁ ++ l₂)).Nodup := List.nodup_middle.1 hd
    exact (List.nodup_cons.1 hd').1 hy
  rw [herase]
  refine ⟨Set.insert_eq_of_mem hb ▸ h.update ?_ (fun y hy => ?_) (hd.sublist hsub)
    fun c hc hcb y hy => ?_, frame_listRemove hN hxN (hnode _ hn') (hnode _ hv')⟩
  · refine (hring.unlink hd).congr (fun y hy => ?_) fun y hy => ?_
    · exact (hlinks (hnode y (hsub.subset hy)) (hnx y hy)).1
    · exact (hlinks (hnode y (hsub.subset hy)) (hnx y hy)).2
  · have hyF : y ∈ b :: F b := hl ▸ hsub.subset hy
    exact ⟨h.node b hb y hyF, fun c hc hcb => h.not_mem hb hc hcb hyF⟩
  · have hyb : ∀ z ∈ b :: (l₁ ++ x :: l₂), y ≠ z :=
      fun z hz e => h.not_mem hb hc hcb (hl ▸ hz) (e ▸ hy)
    obtain ⟨hn'', hv''⟩ := hlinks (h.node c hc y hy) (hyb x (by simp))
    rw [hn'', hv'', Function.update_of_ne (hyb _ hv'), Function.update_of_ne (hyb _ hn')]
    exact ⟨rfl, rfl⟩

/-- A node is moved to the back of another list. -/
theorem move (h : Rings N B m F) (hN : Apart N) (hb : b ∈ B) (hc : c ∈ B) (hcb : c ≠ b)
    (hx : x ∈ F b) :
    Rings N B (listInsert (listRemove m x) x c)
        (Function.update (Function.update F b ((F b).erase x)) c (F c ++ [x])) ∧
      Frame N m (listInsert (listRemove m x) x c) := by
  obtain ⟨hr, hf⟩ := h.remove hN hb hx
  have hxF : x ∈ b :: F b := List.mem_cons_of_mem _ hx
  have hnew : ∀ d ∈ B, x ∉ d :: Function.update F b ((F b).erase x) d := by
    intro d hd hmem
    rcases eq_or_ne d b with rfl | hdb
    · obtain ⟨hne, hnd⟩ := List.nodup_cons.1 (h.nodup d hd)
      rw [Function.update_self] at hmem
      rcases List.mem_cons.1 hmem with rfl | hmem
      · exact hne hx
      · exact hnd.not_mem_erase hmem
    · rw [Function.update_of_ne hdb] at hmem
      exact h.not_mem hb hd hdb hxF hmem
  obtain ⟨hr', hf'⟩ := hr.insert hN hc (h.node b hb x hxF) hnew
  rw [Function.update_of_ne hcb] at hr'
  exact ⟨hr', hf.trans hf'⟩

/-- A head, which may be a new one, starts an empty list. -/
theorem update_nil (h : Rings N B m F) (hb : b ∈ N) (hnew : ∀ c ∈ B, c ≠ b → b ∉ c :: F c)
    (hlinks : ∀ q ∈ N, next m' q = Function.update (next m) b b q ∧
      prev m' q = Function.update (prev m) b b q) :
    Rings N (Insert.insert b B) m' (Function.update F b []) := by
  refine h.update (ring_nil.2 ?_) (fun x hx => ?_) (List.nodup_singleton b) fun c hc hcb x hx => ?_
  · rw [(hlinks b hb).1, (hlinks b hb).2, Function.update_self, Function.update_self]
    exact ⟨rfl, rfl⟩
  · obtain rfl := List.mem_singleton.1 hx
    exact ⟨hb, hnew⟩
  · have hxb : x ≠ b := by
      rintro rfl
      exact hnew c hc hcb hx
    obtain ⟨hn, hv⟩ := hlinks x (h.node c hc x hx)
    rw [hn, hv, Function.update_of_ne hxb, Function.update_of_ne hxb]
    exact ⟨rfl, rfl⟩

/-- A new head starts an empty list. -/
theorem init (h : Rings N B m F) (hN : Apart N) (hb : b ∈ N) (hnew : ∀ c ∈ B, b ∉ c :: F c) :
    Rings N (Insert.insert b B) (listInit m b) (Function.update F b []) ∧
      Frame N m (listInit m b) :=
  ⟨h.update_nil hb (fun c hc _ => hnew c hc) fun _ hq => listInit_links hN hb hq,
    (frame_setNext hb).trans (frame_setPrev hb)⟩

/-- The nodes of a list that is not empty are moved to a head that is in no other list. -/
theorem move_nonempty (h : Rings N B m F) (hN : Apart N) (hb : b ∈ N) (hc : c ∈ B)
    (hnew : ∀ d ∈ B, d ≠ b → b ∉ d :: F d) (hcb : c ≠ b) (hF : F c ≠ []) :
    Rings N (Insert.insert b B) (listMove m b c)
        (Function.update (Function.update F b (F c)) c []) ∧
      Frame N m (listMove m b c) := by
  have hcN := h.node c hc c List.mem_cons_self
  have hn := h.next_mem hc
  have hv := (h.ring c hc).prev_mem
  have hbc := hnew c hc hcb
  have hbn : b ≠ next m c := fun e => hbc (e ▸ hn)
  have he : listIsEmpty m c = false := by
    rw [← Bool.not_eq_true, h.isEmpty_iff hc]
    exact hF
  have hlinks := fun {q} hq =>
    listMove_links (q := q) hN hb hcN (h.node c hc _ hn) (h.node c hc _ hv) hbn he hq
  obtain ⟨hcF, hd⟩ := List.nodup_cons.1 (h.nodup c hc)
  have hmem : ∀ x ∈ b :: F c, x ∈ N ∧ x ≠ c := by
    intro x hx
    rcases List.mem_cons.1 hx with rfl | hx
    · exact ⟨hb, hcb.symm⟩
    · exact ⟨h.node c hc x (List.mem_cons_of_mem c hx), fun e => hcF (e ▸ hx)⟩
  refine ⟨?_, frame_listMove hN hb hcN (h.node c hc _ hn) (h.node c hc _ hv) fun _ => hbn⟩
  -- First the ring of `b` among the others without that of `c`, and then the empty one of `c`.
  have hr : Rings N (B \ {c}) m F := h.mono (fun d hd => hd.1) fun d hd => h.node d hd.1
  have hr' : Rings N (Insert.insert b (B \ {c})) (listMove m b c) (Function.update F b (F c)) := by
    refine hr.update ?_ (fun x hx => ⟨(hmem x hx).1, fun d hd hdb => ?_⟩) ?_
      fun d hd hdb x hx => ?_
    · refine ((h.ring c hc).move (h.nodup c hc) hbc hF).congr (fun x hx => ?_) fun x hx => ?_
      · rw [(hlinks (hmem x hx).1).1, Function.update_of_ne (hmem x hx).2]
      · rw [(hlinks (hmem x hx).1).2, Function.update_of_ne (hmem x hx).2]
    · rcases List.mem_cons.1 hx with rfl | hx
      · exact hnew d hd.1 hdb
      · exact h.not_mem hc hd.1 hd.2 (List.mem_cons_of_mem c hx)
    · exact List.nodup_cons.2 ⟨fun hbF => hbc (List.mem_cons_of_mem c hbF), hd⟩
    · have hxb : x ≠ b := by
        rintro rfl
        exact hnew d hd.1 hdb hx
      have hxc : ∀ z ∈ c :: F c, x ≠ z := fun z hz e => h.not_mem hc hd.1 hd.2 hz (e ▸ hx)
      obtain ⟨hxn, hxv⟩ := hlinks (h.node d hd.1 x hx)
      rw [hxn, hxv, Function.update_of_ne (hxc c (by simp)), Function.update_of_ne (hxc _ hv),
        Function.update_of_ne hxb, Function.update_of_ne (hxc c (by simp)),
        Function.update_of_ne (hxc _ hn), Function.update_of_ne hxb]
      exact ⟨rfl, rfl⟩
  have hB : Insert.insert c (Insert.insert b (B \ {c})) = Insert.insert b B := by
    rw [Set.insert_comm, Set.insert_sdiff_singleton, Set.insert_eq_of_mem hc]
  rw [← hB]
  refine hr'.update (ring_nil.2 ?_) (fun x hx => ?_) (List.nodup_singleton c)
    fun _ _ _ _ _ => ⟨rfl, rfl⟩
  · rw [(hlinks hcN).1, (hlinks hcN).2, Function.update_self, Function.update_self]
    exact ⟨rfl, rfl⟩
  · obtain rfl := List.mem_singleton.1 hx
    refine ⟨hcN, fun d hd hdc => ?_⟩
    rcases eq_or_ne d b with rfl | hdb
    · rw [Function.update_self]
      exact fun hmem' => (hmem x hmem').2 rfl
    · rw [Function.update_of_ne hdb]
      exact h.not_mem hc (hd.resolve_left hdb).1 hdc List.mem_cons_self

/-- The nodes of the list `c` are moved to the head `b`, which is in no other list and has no nodes. -/
theorem move_all (h : Rings N B m F) (hN : Apart N) (hb : b ∈ N) (hc : c ∈ B)
    (hnew : ∀ d ∈ B, d ≠ b → b ∉ d :: F d) (hnil : b ∈ B → F b = []) :
    Rings N (Insert.insert b B) (listMove m b c)
        (Function.update (Function.update F b (F c)) c []) ∧
      Frame N m (listMove m b c) := by
  by_cases hF : F c = []
  · have hcN := h.node c hc c List.mem_cons_self
    have he := (h.isEmpty_iff hc).2 hF
    have heq : Function.update (Function.update F b (F c)) c [] = Function.update F b [] := by
      rw [hF]
      exact Function.update_eq_self_iff.2 (by rw [Function.update_apply, hF, ite_self])
    rw [heq]
    refine ⟨h.update_nil hb hnew fun q hq => listMove_links_of_isEmpty hN hb he hq, ?_⟩
    exact frame_listMove hN hb hcN (h.node c hc _ (h.next_mem hc))
      (h.node c hc _ (h.ring c hc).prev_mem) (by simp [he])
  · refine h.move_nonempty hN hb hc hnew ?_ hF
    rintro rfl
    exact hF (hnil hc)

end Rings

end Dlb.ListNode
