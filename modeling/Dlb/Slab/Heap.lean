import Mathlib.Tactic.Ring
import Dlb.Slab.Code

/-!
# The slabs in the memory

A slab has its slots, each with a pointer to the info block behind it, and the info block. `Heap` says
what is in the memory: the lists, the pointers and the counters. The functions on lists change
one of the lists, and nothing else.
-/

namespace Dlb.Slab

open ListNode

variable {s : Layout} {live fu pa l : List ℕ} {fr : ℕ → List ℕ} {C K : ℕ → ℕ} {m m' : Mem}
  {a b d e i j k n q v x : ℕ}

/-! ## The layout -/

/-- The info block of the slab at `a`. -/
def info (s : Layout) (a : ℕ) : ℕ := a + s.infoOffset

def slot (s : Layout) (a i : ℕ) : ℕ := a + i * (s.objsize + 8)

/-- The sizes fit to each other. -/
structure Sane (s : Layout) : Prop where
  objsize : 16 ≤ s.objsize
  count : 8 ≤ s.count ∧ s.count < 2 ^ 31
  infoOffset : s.infoOffset = (s.objsize + 8) * s.count
  slabsize : s.slabsize = s.infoOffset + 40

/-- An object of the layout has the size that was requested. -/
theorem layout_sane (base : ℕ) (hn : n ≤ 2 ^ 27) :
    Sane (layout base n) ∧ n ≤ (layout base n).objsize := by
  obtain ⟨z, hz⟩ : ∃ z, (if n < 16 then 16 else n) + (8 - (if n < 16 then 16 else n) % 8) % 8 = z :=
    ⟨_, rfl⟩
  obtain ⟨c, hc⟩ : ∃ c, (if (32768 - 40) / (z + 8) < 8 then 8 else (32768 - 40) / (z + 8)) = c :=
    ⟨_, rfl⟩
  have hz₁ : 16 ≤ z ∧ n ≤ z ∧ z ≤ 2 ^ 27 := by
    rw [← hz]
    split_ifs <;> omega
  have hc₁ : 8 ≤ c ∧ c ≤ 1364 ∧ (z + 8) * c ≤ 2 ^ 30 + 64 := by
    rw [← hc]
    have hdiv : (32768 - 40) / (z + 8) ≤ (32768 - 40) / 24 := Nat.div_le_div_left (by omega) (by omega)
    have hmul := Nat.mul_div_le (32768 - 40) (z + 8)
    split_ifs <;> omega
  have hlayout : layout base n = ⟨base, z, ((z + 8) * c % 2 ^ 32 + 40) % 2 ^ 32, c,
      (z + 8) * c % 2 ^ 32⟩ := by
    simp only [layout, hz, hc]
  have hmod : (z + 8) * c % 2 ^ 32 = (z + 8) * c := Nat.mod_eq_of_lt (by omega)
  rw [hlayout, hmod, Nat.mod_eq_of_lt (by omega)]
  exact ⟨⟨hz₁.1, ⟨hc₁.1, show c < 2 ^ 31 by omega⟩, rfl, rfl⟩, hz₁.2.1⟩

/-- What is at an offset in a slab is a node of a list: the two nodes of the info block, or a slot. -/
def Offset (s : Layout) (d : ℕ) : Prop :=
  d = s.infoOffset ∨ d = s.infoOffset + 16 ∨ ∃ i < s.count, d = i * (s.objsize + 8)

namespace Sane

theorem slot_le (hs : Sane s) (hi : i < s.count) :
    i * (s.objsize + 8) + (s.objsize + 8) ≤ s.infoOffset := by
  have := Nat.mul_le_mul_right (s.objsize + 8) (Nat.succ_le_of_lt hi)
  rw [hs.infoOffset, Nat.mul_comm (s.objsize + 8) s.count]
  rwa [Nat.succ_mul] at this

/-- Two slots are apart. -/
theorem slot_apart (h : i ≠ j) :
    i * (s.objsize + 8) + (s.objsize + 8) ≤ j * (s.objsize + 8) ∨
      j * (s.objsize + 8) + (s.objsize + 8) ≤ i * (s.objsize + 8) := by
  rcases Nat.lt_or_gt_of_ne h with h | h
  · have := Nat.mul_le_mul_right (s.objsize + 8) (Nat.succ_le_of_lt h)
    rw [Nat.succ_mul] at this
    exact .inl this
  · have := Nat.mul_le_mul_right (s.objsize + 8) (Nat.succ_le_of_lt h)
    rw [Nat.succ_mul] at this
    exact .inr this

theorem offset_apart (hs : Sane s) (hd : Offset s d) (he : Offset s e) :
    d = e ∨ d + 16 ≤ e ∨ e + 16 ≤ d := by
  have hobj := hs.objsize
  rcases hd with rfl | rfl | ⟨i, hi, rfl⟩ <;> rcases he with rfl | rfl | ⟨j, hj, rfl⟩
  · omega
  · omega
  · have := hs.slot_le hj
    omega
  · omega
  · omega
  · have := hs.slot_le hj
    omega
  · have := hs.slot_le hi
    omega
  · have := hs.slot_le hi
    omega
  · rcases eq_or_ne i j with rfl | hij
    · exact .inl rfl
    · have := slot_apart (s := s) hij
      omega

theorem offset_le (hs : Sane s) (hd : Offset s d) : d + 24 ≤ s.slabsize := by
  have hobj := hs.objsize
  have hsize := hs.slabsize
  rcases hd with rfl | rfl | ⟨i, hi, rfl⟩
  · omega
  · omega
  · have := hs.slot_le hi
    omega

/-- The pointer behind a slot is not part of a node. -/
theorem offset_back (hs : Sane s) (hd : Offset s d) (hi : i < s.count) :
    d + 16 ≤ i * (s.objsize + 8) + s.objsize ∨ i * (s.objsize + 8) + s.objsize + 8 ≤ d := by
  have hobj := hs.objsize
  have hle := hs.slot_le hi
  rcases hd with rfl | rfl | ⟨j, hj, rfl⟩
  · omega
  · omega
  · rcases eq_or_ne i j with rfl | hij
    · omega
    · have := slot_apart (s := s) hij
      omega

/-- Nor is the counter. -/
theorem offset_count (hs : Sane s) (hd : Offset s d) : d + 16 ≤ s.infoOffset + 32 := by
  have hobj := hs.objsize
  rcases hd with rfl | rfl | ⟨i, hi, rfl⟩
  · omega
  · omega
  · have := hs.slot_le hi
    omega

end Sane

/-- The blocks of the slabs do not overlap each other or the `struct slab`. -/
structure Placed (s : Layout) (live : List ℕ) : Prop where
  base : s.base + 48 ≤ 2 ^ 64
  nodup : live.Nodup
  block : ∀ a ∈ live, a ≠ 0 ∧ a + s.slabsize ≤ 2 ^ 64 ∧
    (a + s.slabsize ≤ s.base ∨ s.base + 48 ≤ a)
  apart : ∀ a ∈ live, ∀ b ∈ live, a = b ∨ a + s.slabsize ≤ b ∨ b + s.slabsize ≤ a

def Nodes (s : Layout) (live : List ℕ) : Set ℕ :=
  {x | x = s.fullList ∨ x = s.partialList ∨ ∃ a ∈ live, ∃ d, Offset s d ∧ x = a + d}

/-- The heads of the lists. -/
def Heads (s : Layout) (live : List ℕ) : Set ℕ :=
  {b | b = s.fullList ∨ b = s.partialList ∨ ∃ a ∈ live, b = freeList (info s a)}

section Nodes

variable (hs : Sane s) (hp : Placed s live)

include hs hp

theorem nodes_apart : Apart (Nodes s live) := by
  have hbase := hp.base
  -- A node of a slab is not part of the `struct slab`.
  have hslab : ∀ {a d}, a ∈ live → Offset s d →
      a + d + 16 ≤ 2 ^ 64 ∧ (a + d + 16 ≤ s.base ∨ s.base + 48 ≤ a + d) := by
    intro a d ha hd
    have := hs.offset_le hd
    have := (hp.block a ha).2
    omega
  rintro x (rfl | rfl | ⟨a, ha, d, hd, rfl⟩)
  · refine ⟨by rw [Layout.fullList]; omega, ?_⟩
    rintro y (rfl | rfl | ⟨b, hb, e, he, rfl⟩)
    · exact .inl rfl
    · simp only [Layout.fullList, Layout.partialList]
      omega
    · have := hslab hb he
      simp only [Layout.fullList]
      omega
  · refine ⟨by rw [Layout.partialList]; omega, ?_⟩
    rintro y (rfl | rfl | ⟨b, hb, e, he, rfl⟩)
    · simp only [Layout.fullList, Layout.partialList]
      omega
    · exact .inl rfl
    · have := hslab hb he
      simp only [Layout.partialList]
      omega
  · have h₁ := hslab ha hd
    refine ⟨h₁.1, ?_⟩
    rintro y (rfl | rfl | ⟨b, hb, e, he, rfl⟩)
    · simp only [Layout.fullList]
      omega
    · simp only [Layout.partialList]
      omega
    · have hd' := hs.offset_le hd
      have he' := hs.offset_le he
      rcases hp.apart a ha b hb with rfl | hab
      · have := hs.offset_apart hd he
        omega
      · omega

theorem node_inj (ha : a ∈ live) (hb : b ∈ live) (hd : Offset s d) (he : Offset s e)
    (h : a + d = b + e) : a = b ∧ d = e := by
  have hd' := hs.offset_le hd
  have he' := hs.offset_le he
  have := hp.apart a ha b hb
  omega

theorem node_ne_head (ha : a ∈ live) (hd : Offset s d) :
    a + d ≠ s.fullList ∧ a + d ≠ s.partialList := by
  have hd' := hs.offset_le hd
  have := (hp.block a ha).2.2
  simp only [Layout.fullList, Layout.partialList]
  omega

/-- A node does not overlap with a pointer behind a slot. -/
theorem node_back (hx : x ∈ Nodes s live) (ha : a ∈ live) (hi : i < s.count) :
    x + 16 ≤ slot s a i + s.objsize ∨ slot s a i + s.objsize + 8 ≤ x := by
  have hle := hs.slot_le hi
  have hsize := hs.slabsize
  have hblock := (hp.block a ha).2.2
  rw [slot]
  rcases hx with rfl | rfl | ⟨b, hb, e, he, rfl⟩
  · simp only [Layout.fullList]
    omega
  · simp only [Layout.partialList]
    omega
  · have he' := hs.offset_le he
    rcases hp.apart a ha b hb with rfl | hab
    · have := hs.offset_back he hi
      omega
    · omega

/-- Nor with a counter. -/
theorem node_count (hx : x ∈ Nodes s live) (ha : a ∈ live) :
    x + 16 ≤ info s a + 32 ∨ info s a + 36 ≤ x := by
  have hsize := hs.slabsize
  have hblock := (hp.block a ha).2.2
  rw [info]
  rcases hx with rfl | rfl | ⟨b, hb, e, he, rfl⟩
  · simp only [Layout.fullList]
    omega
  · simp only [Layout.partialList]
    omega
  · have he' := hs.offset_le he
    rcases hp.apart a ha b hb with rfl | hab
    · have := hs.offset_count he
      omega
    · omega

theorem back_count (ha : a ∈ live) (hb : b ∈ live) (hi : i < s.count) :
    slot s a i + s.objsize + 8 ≤ info s b + 32 ∨ info s b + 36 ≤ slot s a i + s.objsize := by
  have hle := hs.slot_le hi
  have hsize := hs.slabsize
  have := hp.apart a ha b hb
  rw [slot, info]
  omega

/-- A change of nodes does not change the pointers behind the slots and the counters. -/
theorem frame_back (hf : Frame (Nodes s live) m m') (ha : a ∈ live) (hi : i < s.count) :
    m'.load (slot s a i + s.objsize) 8 = m.load (slot s a i + s.objsize) 8 := by
  refine Mem.load_congr fun q h₁ h₂ => hf q fun x hx => ?_
  have := node_back hs hp hx ha hi
  omega

theorem frame_count (hf : Frame (Nodes s live) m m') (ha : a ∈ live) :
    freeCount m' (info s a) = freeCount m (info s a) := by
  refine Mem.load_congr fun q h₁ h₂ => hf q fun x hx => ?_
  have := node_count hs hp hx ha
  omega

end Nodes

theorem offset_info : Offset s s.infoOffset := .inl rfl

theorem offset_freeList : Offset s (s.infoOffset + 16) := .inr (.inl rfl)

theorem offset_slot (hi : i < s.count) : Offset s (i * (s.objsize + 8)) := .inr (.inr ⟨i, hi, rfl⟩)

theorem fullList_mem_heads : s.fullList ∈ Heads s live := .inl rfl

theorem partialList_mem_heads : s.partialList ∈ Heads s live := .inr (.inl rfl)

theorem freeList_mem_heads (ha : a ∈ live) : freeList (info s a) ∈ Heads s live :=
  .inr (.inr ⟨a, ha, rfl⟩)

theorem info_mem_nodes (ha : a ∈ live) : info s a ∈ Nodes s live :=
  .inr (.inr ⟨a, ha, _, offset_info, rfl⟩)

theorem slot_mem_nodes (ha : a ∈ live) (hi : i < s.count) : slot s a i ∈ Nodes s live :=
  .inr (.inr ⟨a, ha, _, offset_slot hi, rfl⟩)

/-! ## The lists -/

/-- The lists by their heads: the two of the `struct slab`, and that of the slab at `a`. -/
def lists (s : Layout) (fu pa : List ℕ) (fr : ℕ → List ℕ) (b : ℕ) : List ℕ :=
  if b = s.fullList then fu else if b = s.partialList then pa else fr (b - 16 - s.infoOffset)

theorem fullList_ne_partialList : s.partialList ≠ s.fullList := by
  simp only [Layout.fullList, Layout.partialList]
  omega

@[simp] theorem lists_full : lists s fu pa fr s.fullList = fu := if_pos rfl

@[simp] theorem lists_partialList : lists s fu pa fr s.partialList = pa := by
  rw [lists, if_neg fullList_ne_partialList, if_pos rfl]

theorem update_lists_full : Function.update (lists s fu pa fr) s.fullList l = lists s l pa fr := by
  funext b
  rw [Function.update_apply, lists, lists]
  split_ifs <;> rfl

theorem update_lists_partialList :
    Function.update (lists s fu pa fr) s.partialList l = lists s fu l fr := by
  funext b
  have := fullList_ne_partialList (s := s)
  rw [Function.update_apply, lists, lists]
  grind

section

variable (hs : Sane s) (hp : Placed s live) (ha : a ∈ live)

include hs hp ha

theorem lists_free : lists s fu pa fr (freeList (info s a)) = fr a := by
  have hne := node_ne_head hs hp ha offset_freeList
  rw [lists, freeList, info, Nat.add_assoc, if_neg hne.1, if_neg hne.2]
  congr 1
  omega

theorem update_lists_free : Function.update (lists s fu pa fr) (freeList (info s a)) l =
    lists s fu pa (Function.update fr a l) := by
  have hne := node_ne_head hs hp ha offset_freeList
  have ha₀ := (hp.block a ha).1
  funext b
  have hiff : b = freeList (info s a) ↔ b - 16 - s.infoOffset = a := by
    rw [freeList, info]
    omega
  rw [Function.update_apply, lists, lists, Function.update_apply]
  rw [← Nat.add_assoc] at hne
  change info s a + 16 ≠ _ ∧ info s a + 16 ≠ _ at hne
  simp only [← hiff, freeList]
  grind

end

/-! ## The memory -/

/-- The lists of full slabs, of partial ones and of the free slots of each slab, and the counters. The
    pointers are there behind the first `K a` slots of a slab. -/
structure Heap (s : Layout) (live : List ℕ) (m : Mem) (fu pa : List ℕ) (fr : ℕ → List ℕ)
    (C K : ℕ → ℕ) : Prop where
  rings : Rings (Nodes s live) (Heads s live) m (lists s fu pa fr)
  back : ∀ a ∈ live, ∀ i < s.count, i < K a → m.load (slot s a i + s.objsize) 8 = info s a
  count : ∀ a ∈ live, freeCount m (info s a) = C a

/-- The nodes of the lists are those of the slabs `live`. -/
structure Within (s : Layout) (live fu pa : List ℕ) (fr : ℕ → List ℕ) : Prop where
  full : ∀ x ∈ fu, x ∈ Nodes s live
  part : ∀ x ∈ pa, x ∈ Nodes s live
  free : ∀ b ∈ live, ∀ x ∈ fr b, x ∈ Nodes s live

section Memory

variable (hs : Sane s) (hp : Placed s live)

include hs hp

theorem Heap.of_frame {fu' pa' : List ℕ} {fr' : ℕ → List ℕ} (h : Heap s live m fu pa fr C K)
    (hr : Rings (Nodes s live) (Heads s live) m' (lists s fu' pa' fr'))
    (hf : Frame (Nodes s live) m m') : Heap s live m' fu' pa' fr' C K := by
  refine ⟨hr, fun a ha i hi hK => ?_, fun a ha => ?_⟩
  · rw [frame_back hs hp hf ha hi]
    exact h.back a ha i hi hK
  · rw [frame_count hs hp hf ha]
    exact h.count a ha

theorem Heap.setCount (h : Heap s live m fu pa fr C K) (ha : a ∈ live) (hv : v < 2 ^ 32) :
    Heap s live (setFreeCount m (info s a) v) fu pa fr (Function.update C a v) K := by
  refine ⟨h.rings.congr fun b hb x hx q h₁ h₂ => ?_, fun b hb i hi hK => ?_, fun b hb => ?_⟩
  · have := node_count hs hp (h.rings.node b hb x hx) ha
    exact Mem.store_of_not_mem (by omega)
  · rw [← h.back b hb i hi hK]
    exact Mem.load_store_of_disjoint (by have := back_count hs hp hb ha hi; omega)
  · rcases eq_or_ne b a with rfl | hne
    · rw [Function.update_self]
      exact Mem.load_store_self.trans (Nat.mod_eq_of_lt hv)
    · rw [Function.update_of_ne hne, ← h.count b hb]
      refine Mem.load_store_of_disjoint ?_
      have := hp.apart a ha b hb
      have := hs.slabsize
      rw [info, info]
      omega

/-- The pointer behind the slot `i` is set. -/
theorem Heap.setBack (h : Heap s live m fu pa fr C K) (ha : a ∈ live) (hi : i < s.count)
    (hK : K a = i) : Heap s live (m.store (slot s a i + s.objsize) 8 (info s a)) fu pa fr C
      (Function.update K a (i + 1)) := by
  refine ⟨h.rings.congr fun b hb x hx q h₁ h₂ => ?_, fun b hb j hj hK' => ?_, fun b hb => ?_⟩
  · have := node_back hs hp (h.rings.node b hb x hx) ha hi
    exact Mem.store_of_not_mem (by omega)
  · by_cases he : b = a ∧ j = i
    · obtain ⟨rfl, rfl⟩ := he
      exact Mem.load_store_self.trans (Nat.mod_eq_of_lt ((nodes_apart hs hp).lt (info_mem_nodes hb)))
    · have hKb : j < K b := by
        rw [Function.update_apply] at hK'
        split_ifs at hK' with hba
        · subst hba
          have : j ≠ i := fun hji => he ⟨rfl, hji⟩
          omega
        · exact hK'
      rw [← h.back b hb j hj hKb]
      refine Mem.load_store_of_disjoint ?_
      have hobj := hs.objsize
      have hle := hs.slot_le hi
      have hle' := hs.slot_le hj
      have hsize := hs.slabsize
      rw [slot, slot]
      rcases hp.apart a ha b hb with rfl | hab
      · have := Sane.slot_apart (s := s) (show j ≠ i from fun hji => he ⟨rfl, hji⟩)
        omega
      · omega
  · rw [← h.count b hb]
    exact Mem.load_store_of_disjoint (by have := back_count hs hp ha hb hi; omega)

theorem Heap.within (h : Heap s live m fu pa fr C K) : Within s live fu pa fr := by
  refine ⟨fun x hx => ?_, fun x hx => ?_, fun b hb x hx => ?_⟩
  · exact h.rings.node _ fullList_mem_heads x (by simp [hx])
  · exact h.rings.node _ partialList_mem_heads x (by simp [hx])
  · refine h.rings.node _ (freeList_mem_heads hb) x ?_
    rw [lists_free hs hp hb]
    exact List.mem_cons_of_mem _ hx

end Memory

/-! ## A new slab -/

/-- The first `k` slots of a slab. -/
def slots (s : Layout) (a k : ℕ) : List ℕ := (List.range k).map (slot s a)

theorem mem_slots : x ∈ slots s a k ↔ ∃ i < k, x = slot s a i := by
  simp [slots, eq_comm]

theorem slots_succ : slots s a (k + 1) = slots s a k ++ [slot s a k] := by
  simp [slots, List.range_succ]

theorem heads_cons : Heads s (a :: live) = insert (freeList (info s a)) (Heads s live) := by
  ext b
  simp only [Heads, List.mem_cons, Set.mem_ofPred_eq, Set.mem_insert_iff]
  grind

theorem nodes_cons : Nodes s live ⊆ Nodes s (a :: live) := by
  rintro x (rfl | rfl | ⟨b, hb, hx⟩)
  · exact .inl rfl
  · exact .inr (.inl rfl)
  · exact .inr (.inr ⟨b, by simp [hb], hx⟩)

section NewSlab

variable (hs : Sane s) (hp : Placed s (a :: live))

include hp

theorem Placed.tail : Placed s live :=
  ⟨hp.base, (List.nodup_cons.1 hp.nodup).2, fun b hb => hp.block b (by simp [hb]),
    fun b hb c hc => hp.apart b (by simp [hb]) c (by simp [hc])⟩

include hs

/-- A node of the new slab is not one of the others. -/
theorem new_not_mem_nodes (hd : Offset s d) : a + d ∉ Nodes s live := by
  have hne := node_ne_head hs hp (List.mem_cons_self (a := a) (l := live)) hd
  rintro (h | h | ⟨b, hb, e, he, h⟩)
  · exact hne.1 h
  · exact hne.2 h
  · obtain ⟨rfl, -⟩ := node_inj hs hp (List.mem_cons_self ..) (List.mem_cons_of_mem _ hb) hd he h
    exact (List.nodup_cons.1 hp.nodup).1 hb

/-- The info block is set up. -/
theorem Heap.newInfo (h : Heap s live m fu pa fr C K) :
    Heap s (a :: live) (setFreeCount (listInit m (freeList (info s a))) (info s a) s.count) fu pa
      (Function.update fr a []) (Function.update C a s.count) (Function.update K a 0) := by
  have ha : a ∈ a :: live := List.mem_cons_self ..
  have hrings : Rings (Nodes s (a :: live)) (Heads s live) m (lists s fu pa fr) :=
    h.rings.mono subset_rfl fun b hb x hx => nodes_cons (h.rings.node b hb x hx)
  have hnode : freeList (info s a) ∈ Nodes s (a :: live) :=
    .inr (.inr ⟨a, ha, _, offset_freeList, rfl⟩)
  obtain ⟨hr, hf⟩ := hrings.init (nodes_apart hs hp) hnode fun c hc hmem =>
    new_not_mem_nodes hs hp offset_freeList (h.rings.node c hc _ hmem)
  rw [← heads_cons, update_lists_free hs hp ha] at hr
  have hcount : s.count < 2 ^ 32 := by
    have := hs.count
    omega
  have hheap : Heap s (a :: live) (listInit m (freeList (info s a))) fu pa (Function.update fr a [])
      (Function.update C a (freeCount (listInit m (freeList (info s a))) (info s a)))
      (Function.update K a 0) := by
    refine ⟨hr, fun b hb i hi hK => ?_, fun b hb => ?_⟩
    · rw [Function.update_apply] at hK
      split_ifs at hK with hba
      · omega
      · rw [frame_back hs hp hf hb hi]
        exact h.back b (List.mem_of_ne_of_mem hba hb) i hi hK
    · rw [Function.update_apply]
      split_ifs with hba
      · rw [hba]
      · rw [frame_count hs hp hf hb]
        exact h.count b (List.mem_of_ne_of_mem hba hb)
  have := hheap.setCount hs hp ha hcount
  rwa [Function.update_idem] at this

/-- The slots are set up one after the other. -/
theorem Heap.fillSlots (hw : Within s live fu pa fr)
    (h : Heap s (a :: live) m fu pa (Function.update fr a (slots s a i)) C (Function.update K a i))
    (hk : i + k = s.count) :
    Heap s (a :: live) (slotLoop s a (info s a) k i m) fu pa
      (Function.update fr a (slots s a s.count)) C (Function.update K a s.count) := by
  have ha : a ∈ a :: live := List.mem_cons_self ..
  induction k generalizing i m with
  | zero =>
    obtain rfl : i = s.count := hk
    exact h
  | succ k ih =>
    have hi : i < s.count := by omega
    have hne := node_ne_head hs hp ha (offset_slot hi)
    have hnew := new_not_mem_nodes hs hp (offset_slot hi)
    -- The slot is in no list so far.
    have hfree : ∀ c ∈ Heads s (a :: live), slot s a i ∉ c ::
        lists s fu pa (Function.update fr a (slots s a i)) c := by
      rintro c (rfl | rfl | ⟨b, hb, rfl⟩) hmem
      · rw [lists_full] at hmem
        rcases List.mem_cons.1 hmem with e | hmem
        · exact hne.1 e
        · exact hnew (hw.full _ hmem)
      · rw [lists_partialList] at hmem
        rcases List.mem_cons.1 hmem with e | hmem
        · exact hne.2 e
        · exact hnew (hw.part _ hmem)
      · rw [lists_free hs hp hb] at hmem
        rcases List.mem_cons.1 hmem with e | hmem
        · rw [slot, freeList, info, Nat.add_assoc] at e
          obtain ⟨-, e⟩ := node_inj hs hp ha hb (offset_slot hi) offset_freeList e
          have := hs.slot_le hi
          omega
        · rw [Function.update_apply] at hmem
          split_ifs at hmem with hba
          · obtain ⟨j, hj, e⟩ := mem_slots.1 hmem
            have hobj := hs.objsize
            have := Sane.slot_apart (s := s) (show i ≠ j by omega)
            rw [slot, slot] at e
            omega
          · exact hnew (hw.free b (List.mem_of_ne_of_mem hba hb) _ hmem)
    obtain ⟨hr, hf⟩ := h.rings.insert (nodes_apart hs hp) (freeList_mem_heads ha)
      (slot_mem_nodes ha hi) hfree
    rw [update_lists_free hs hp ha, lists_free hs hp ha, Function.update_self,
      Function.update_idem, ← slots_succ] at hr
    have h' := (h.of_frame hs hp hr hf).setBack hs hp ha hi (Function.update_self ..)
    rw [Function.update_idem] at h'
    exact ih h' (by omega)

end NewSlab

end Dlb.Slab
