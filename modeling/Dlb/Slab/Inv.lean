import Mathlib.Data.List.Perm.Subperm
import Mathlib.Data.Set.Basic
import Dlb.Slab.Heap

/-!
# The invariant of the slab allocator

`Shape` says which lists there are: a slab is in the full list or in the partial one, and its
free list has the slots that are not allocated. `Inv` puts this together with the memory. Each
function keeps it.
-/

namespace Dlb.Slab

open ListNode

variable {E : Set ℕ} {s : Layout} {t : State} {held : Set ℕ} {live fu pa xs ps l : List ℕ}
  {fr : ℕ → List ℕ} {C K : ℕ → ℕ} {m : Mem} {a b i p x : ℕ}

/-- The slabs are in the lists `fu` and `pa`, and their free slots are `fr`. A slab of which all slots
    are free is only possible if it is in `E`. -/
structure Shape (E : Set ℕ) (s : Layout) (live : List ℕ) (held : Set ℕ) (fu pa : List ℕ)
    (fr : ℕ → List ℕ) : Prop where
  infos : ∀ p, p ∈ fu ∨ p ∈ pa ↔ ∃ a ∈ live, p = info s a
  full : ∀ a ∈ live, info s a ∈ fu ↔ fr a = []
  free : ∀ a ∈ live, ∀ x, x ∈ fr a ↔ (∃ i < s.count, x = slot s a i) ∧ x ∉ held
  held : ∀ x ∈ held, ∃ a ∈ live, ∃ i < s.count, x = slot s a i
  retained : ∀ a ∈ live, a ∉ E → (fr a).length < s.count

structure Inv (E : Set ℕ) (t : State) (held : Set ℕ) (fu pa : List ℕ) (fr : ℕ → List ℕ) :
    Prop where
  sane : Sane t.slab
  placed : Placed t.slab t.live
  heap : Heap t.slab t.live t.mem fu pa fr (fun a => (fr a).length) fun _ => t.slab.count
  shape : Shape E t.slab t.live held fu pa fr

/-! ## Lists -/

theorem info_inj (h : info s a = info s b) : a = b := Nat.add_right_cancel h

section Lists

variable (hs : Sane s) (hp : Placed s live) (h : Heap s live m fu pa fr C K)

include h

theorem Heap.nodup_partial : pa.Nodup := by
  have := h.rings.nodup _ partialList_mem_heads
  rw [lists_partialList] at this
  exact (List.nodup_cons.1 this).2

theorem Heap.nodup_full : fu.Nodup := by
  have := h.rings.nodup _ fullList_mem_heads
  rw [lists_full] at this
  exact (List.nodup_cons.1 this).2

/-- A slab is in one of the two lists only. -/
theorem Heap.not_mem_full (hx : x ∈ pa) : x ∉ fu := by
  intro hx'
  have := h.rings.disjoint _ fullList_mem_heads _ partialList_mem_heads x (by simp [hx'])
    (by simp [hx])
  exact fullList_ne_partialList this.symm

include hs hp

/-- A slab is moved from one list to the other. -/
theorem Heap.toFull (hx : x ∈ pa) :
    Heap s live (listInsert (listRemove m x) x s.fullList) (fu ++ [x]) (pa.erase x) fr C K := by
  obtain ⟨hr, hf⟩ := h.rings.move (nodes_apart hs hp) partialList_mem_heads fullList_mem_heads
    fullList_ne_partialList.symm (x := x) (by simpa using hx)
  rw [lists_full, lists_partialList, update_lists_partialList, update_lists_full] at hr
  exact h.of_frame hs hp hr hf

theorem Heap.toPartial (hx : x ∈ fu) :
    Heap s live (listInsert (listRemove m x) x s.partialList) (fu.erase x) (pa ++ [x]) fr C K := by
  obtain ⟨hr, hf⟩ := h.rings.move (nodes_apart hs hp) fullList_mem_heads partialList_mem_heads
    fullList_ne_partialList (x := x) (by simpa using hx)
  rw [lists_full, lists_partialList, update_lists_full, update_lists_partialList] at hr
  exact h.of_frame hs hp hr hf

theorem Heap.nodup_free (ha : a ∈ live) : (fr a).Nodup := by
  have := h.rings.nodup _ (freeList_mem_heads ha)
  rw [lists_free hs hp ha] at this
  exact (List.nodup_cons.1 this).2

theorem Heap.removeFree (ha : a ∈ live) (hx : x ∈ fr a) :
    Heap s live (listRemove m x) fu pa (Function.update fr a ((fr a).erase x)) C K := by
  obtain ⟨hr, hf⟩ := h.rings.remove (nodes_apart hs hp) (freeList_mem_heads ha) (x := x)
    (by rwa [lists_free hs hp ha])
  rw [lists_free hs hp ha, update_lists_free hs hp ha] at hr
  exact h.of_frame hs hp hr hf

theorem Heap.isEmpty_free (ha : a ∈ live) :
    listIsEmpty m (freeList (info s a)) = true ↔ fr a = [] := by
  rw [h.rings.isEmpty_iff (freeList_mem_heads ha), lists_free hs hp ha]

theorem Heap.next_free (ha : a ∈ live) (hf : fr a = x :: xs) :
    next m (freeList (info s a)) = x := by
  rw [h.rings.next_eq (freeList_mem_heads ha), lists_free hs hp ha, hf]
  rfl

end Lists

/-! ## The first free slot is taken -/

/-- The counters are the lengths of the lists. -/
theorem length_update : (fun b => (Function.update fr a l b).length) =
    Function.update (fun b => (fr b).length) a l.length := by
  funext b
  simp only [Function.update_apply]
  split_ifs <;> rfl

theorem slot_inj (hs : Sane s) (hp : Placed s live) (ha : a ∈ live) (hb : b ∈ live)
    (hi : i < s.count) {j : ℕ} (hj : j < s.count) (h : slot s a i = slot s b j) : a = b :=
  (node_inj hs hp ha hb (offset_slot hi) (offset_slot hj) h).1

/-- There are not more free slots than slots. -/
theorem Shape.length_le (h : Shape E s live held fu pa fr) (ha : a ∈ live) (hd : (fr a).Nodup) :
    (fr a).length ≤ s.count := by
  have hsub : fr a ⊆ slots s a s.count := fun x hx => mem_slots.2 ((h.free a ha x).1 hx).1
  have := (List.subperm_of_subset hd hsub).length_le
  simpa [slots] using this

theorem Shape.take (hs : Sane s) (hp : Placed s live) (h : Shape E s live held fu (info s a :: ps) fr)
    (ha : a ∈ live) (hE : E ⊆ {a}) (hfr : fr a = x :: xs) (hd : (x :: xs).Nodup)
    (hfu : info s a ∉ fu) :
    Shape ∅ s live (insert x held) (if xs = [] then fu ++ [info s a] else fu)
      (if xs = [] then ps else info s a :: ps) (Function.update fr a xs) := by
  obtain ⟨⟨i, hi, hxi⟩, hx⟩ := (h.free a ha x).1 (by simp [hfr])
  refine ⟨fun p => ?_, fun b hb => ?_, fun b hb y => ?_, fun y hy => ?_, fun b hb _ => ?_⟩
  · rw [← h.infos]
    split_ifs
    · simp only [List.mem_append, List.mem_cons, List.not_mem_nil, or_false]
      tauto
    · rfl
  · have hinj : info s b = info s a → b = a := info_inj
    have hfull := h.full b hb
    rw [Function.update_apply]
    split_ifs with hxs hba hba
    · simp [hba, hxs]
    · rw [List.mem_append, List.mem_singleton, ← hfull]
      exact ⟨fun h => h.resolve_right fun e => hba (hinj e), .inl⟩
    · simpa [hba, hxs] using hfu
    · exact hfull
  · have hfree := h.free b hb y
    rw [Function.update_apply, Set.mem_insert_iff]
    split_ifs with hba
    · subst hba
      rw [hfr] at hfree
      grind
    · rw [hfree]
      refine and_congr_right ?_
      rintro ⟨j, hj, rfl⟩
      have hne : slot s b j ≠ x := fun e => hba (slot_inj hs hp hb ha hj hi (e.trans hxi))
      simp [hne]
  · rcases hy with rfl | hy
    · exact ⟨a, ha, i, hi, hxi⟩
    · exact h.held y hy
  · rw [Function.update_apply]
    split_ifs with hba
    · have := h.length_le ha (by rwa [hfr])
      rw [hfr, List.length_cons] at this
      omega
    · exact h.retained b hb fun hE' => hba (hE hE')

theorem Inv.take (h : Inv E t held fu pa fr) (hpa : pa = info t.slab a :: ps) (ha : a ∈ t.live)
    (hE : E ⊆ {a}) :
    (takeFirst t).1 ∉ held ∧ (takeFirst t).1 ≠ 0 ∧ (takeFirst t).2.slab = t.slab ∧
      ∃ fu' pa' fr', Inv ∅ (takeFirst t).2 (insert (takeFirst t).1 held) fu' pa' fr' := by
  obtain ⟨hs, hp, hh, hsh⟩ := h
  subst hpa
  have hfu := hh.not_mem_full (x := info t.slab a) (by simp)
  obtain ⟨x, xs, hfr⟩ := List.exists_cons_of_ne_nil fun e => hfu ((hsh.full a ha).2 e)
  have hd : (x :: xs).Nodup := hfr ▸ hh.nodup_free hs hp ha
  obtain ⟨⟨i, hi, hxi⟩, hx⟩ := (hsh.free a ha x).1 (by simp [hfr])
  have hshape := hsh.take hs hp ha hE hfr hd hfu
  have hinf : next t.mem t.slab.partialList = info t.slab a := by
    rw [hh.rings.next_eq partialList_mem_heads, lists_partialList]
    rfl
  have h₁ := hh.removeFree hs hp ha (x := x) (by simp [hfr])
  rw [hfr, List.erase_cons_head] at h₁
  have hcount : freeCount (listRemove t.mem x) (info t.slab a) - 1 = xs.length := by
    rw [h₁.count a ha, hfr]
    rfl
  have hlt : xs.length < 2 ^ 32 := by
    have := hsh.length_le ha (by rwa [hfr])
    rw [hfr, List.length_cons] at this
    have := hs.count
    omega
  have h₂ := h₁.setCount hs hp ha hlt
  rw [← length_update] at h₂
  have hempty := h₂.isEmpty_free hs hp ha
  rw [Function.update_self] at hempty
  have htake : takeFirst t = (x, { t with
      mem := if xs = [] then listInsert (listRemove (setFreeCount (listRemove t.mem x)
          (info t.slab a) xs.length) (info t.slab a)) (info t.slab a) t.slab.fullList
        else setFreeCount (listRemove t.mem x) (info t.slab a) xs.length }) := by
    simp only [takeFirst, hinf, hh.next_free hs hp ha hfr, hcount, hempty]
  rw [htake]
  refine ⟨hx, ?_, rfl, _, _, _, hs, hp, ?_, hshape⟩
  · have := (hp.block a ha).1
    rw [hxi, slot]
    omega
  · dsimp only
    split_ifs with hxs
    · have h₃ := h₂.toFull hs hp (x := info t.slab a) (by simp)
      rwa [List.erase_cons_head] at h₃
    · exact h₂

/-! ## A new slab -/

theorem Heap.newSlab (hs : Sane s) (hp : Placed s (a :: live))
    (h : Heap s live m fu [] fr C fun _ => s.count) :
    Heap s (a :: live) (listInsert (slotLoop s a (info s a) s.count 0
        (setFreeCount (listInit m (freeList (info s a))) (info s a) s.count)) (info s a)
        s.partialList) fu [info s a] (Function.update fr a (slots s a s.count))
      (Function.update C a s.count) fun _ => s.count := by
  have ha : a ∈ a :: live := List.mem_cons_self ..
  have hw := h.within hs hp.tail
  have h₁ := (h.newInfo hs hp).fillSlots hs hp hw (i := 0) (k := s.count) (by omega)
  rw [show Function.update (fun _ => s.count) a s.count = fun _ => s.count from
    Function.update_eq_self a (fun _ => s.count)] at h₁
  -- The info block is in no list so far.
  have hnew := new_not_mem_nodes hs hp offset_info
  have hfree : ∀ c ∈ Heads s (a :: live), info s a ∉ c ::
      lists s fu [] (Function.update fr a (slots s a s.count)) c := by
    have hne := node_ne_head hs hp ha offset_info
    rintro c (rfl | rfl | ⟨b, hb, rfl⟩) hmem
    · rw [lists_full] at hmem
      rcases List.mem_cons.1 hmem with e | hmem
      · exact hne.1 e
      · exact hnew (hw.full _ hmem)
    · rw [lists_partialList, List.mem_singleton] at hmem
      exact hne.2 hmem
    · rw [lists_free hs hp hb] at hmem
      rcases List.mem_cons.1 hmem with e | hmem
      · rw [freeList, info, info, Nat.add_assoc] at e
        obtain ⟨-, e⟩ := node_inj hs hp ha hb offset_info offset_freeList e
        omega
      · rw [Function.update_apply] at hmem
        split_ifs at hmem with hba
        · obtain ⟨j, hj, e⟩ := mem_slots.1 hmem
          have := hs.slot_le hj
          rw [info, slot] at e
          omega
        · exact hnew (hw.free b (List.mem_of_ne_of_mem hba hb) _ hmem)
  obtain ⟨hr, hf⟩ := h₁.rings.insert (nodes_apart hs hp) partialList_mem_heads (info_mem_nodes ha)
    hfree
  rw [lists_partialList, update_lists_partialList] at hr
  exact h₁.of_frame hs hp hr hf

theorem Shape.newSlab (hs : Sane s) (hp : Placed s (a :: live)) (h : Shape ∅ s live held fu [] fr) :
    Shape {a} s (a :: live) held fu [info s a] (Function.update fr a (slots s a s.count)) := by
  have hlive := (List.nodup_cons.1 hp.nodup).1
  have hcount := hs.count.1
  refine ⟨fun p => ?_, fun b hb => ?_, fun b hb x => ?_, fun x hx => ?_, fun b hb hbE => ?_⟩
  · have := h.infos p
    simp only [List.not_mem_nil, or_false] at this
    simp [this, or_comm]
  · rw [Function.update_apply]
    split_ifs with hba
    · subst hba
      have hfu : info s b ∉ fu := by
        intro hmem
        obtain ⟨c, hc, e⟩ := (h.infos _).1 (.inl hmem)
        exact hlive (info_inj e ▸ hc)
      have hne : slots s b s.count ≠ [] := by
        simp only [slots, ne_eq, List.map_eq_nil_iff, List.range_eq_nil]
        omega
      simp [hfu, hne]
    · exact h.full b (List.mem_of_ne_of_mem hba hb)
  · rw [Function.update_apply]
    split_ifs with hba
    · subst hba
      rw [mem_slots]
      refine ⟨fun hx => ⟨hx, ?_⟩, And.left⟩
      rintro hheld
      obtain ⟨c, hc, j, hj, e⟩ := h.held x hheld
      obtain ⟨i, hi, rfl⟩ := hx
      obtain rfl := slot_inj hs hp (List.mem_cons_self ..) (List.mem_cons_of_mem _ hc) hi hj e
      exact hlive hc
    · exact h.free b (List.mem_of_ne_of_mem hba hb) x
  · obtain ⟨c, hc, hx⟩ := h.held x hx
    exact ⟨c, List.mem_cons_of_mem _ hc, hx⟩
  · rw [Function.update_of_ne hbE]
    exact h.retained b (List.mem_of_ne_of_mem hbE hb) (Set.notMem_empty b)

theorem Inv.newSlab (h : Inv ∅ t held fu [] fr) (hp : Placed t.slab (a :: t.live)) :
    Inv {a} (allocNewSlab t a) held fu [info t.slab a]
      (Function.update fr a (slots t.slab a t.slab.count)) := by
  refine ⟨h.sane, hp, ?_, h.shape.newSlab h.sane hp⟩
  have := h.heap.newSlab h.sane hp
  rw [length_update, slots, List.length_map, List.length_range]
  exact this

/-! ## `slab_alloc` -/

theorem Inv.zero_not_mem (h : Inv E t held fu pa fr) : 0 ∉ held := by
  intro h₀
  obtain ⟨a, ha, i, -, e⟩ := h.shape.held 0 h₀
  have := (h.placed.block a ha).1
  rw [slot] at e
  omega

/-- The object is a new one, or there is none and nothing has changed. -/
theorem Inv.alloc (h : Inv ∅ t held fu pa fr) (hp : p = 0 ∨ Placed t.slab (p :: t.live)) :
    (slabAlloc t p).1 ∉ held ∧ (slabAlloc t p).2.slab = t.slab ∧
      ((slabAlloc t p).1 = 0 ∧ (slabAlloc t p).2 = t ∨ (slabAlloc t p).1 ≠ 0 ∧
        ∃ fu' pa' fr', Inv ∅ (slabAlloc t p).2 (insert (slabAlloc t p).1 held) fu' pa' fr') := by
  have hempty := h.heap.rings.isEmpty_iff partialList_mem_heads
  rw [lists_partialList] at hempty
  rw [slabAlloc]
  simp only [hempty]
  split_ifs with hpa hp₀
  · exact ⟨h.zero_not_mem, rfl, .inl ⟨rfl, rfl⟩⟩
  · subst hpa
    have h' := h.newSlab (hp.resolve_left hp₀)
    obtain ⟨hx, h₀, hslab, hinv⟩ := h'.take rfl (List.mem_cons_self ..) subset_rfl
    exact ⟨hx, hslab, .inr ⟨h₀, hinv⟩⟩
  · obtain ⟨q, ps, rfl⟩ := List.exists_cons_of_ne_nil hpa
    obtain ⟨a, ha, rfl⟩ := (h.shape.infos q).1 (.inr (by simp))
    obtain ⟨hx, h₀, hslab, hinv⟩ := h.take rfl ha (Set.empty_subset _)
    exact ⟨hx, hslab, .inr ⟨h₀, hinv⟩⟩

/-! ## `slab_free` -/

/-- A slot is not a node of an info block. -/
theorem slot_ne_info (hs : Sane s) (hp : Placed s live) (ha : a ∈ live) (hb : b ∈ live)
    (hi : i < s.count) : slot s a i ≠ info s b ∧ slot s a i ≠ freeList (info s b) := by
  have hle := hs.slot_le hi
  constructor
  · intro e
    obtain ⟨-, e⟩ := node_inj hs hp ha hb (offset_slot hi) offset_info e
    omega
  · intro e
    rw [slot, freeList, info, Nat.add_assoc] at e
    obtain ⟨-, e⟩ := node_inj hs hp ha hb (offset_slot hi) offset_freeList e
    omega

/-- A slot that is in no list is put into the free list of its slab. -/
theorem Heap.insertFree (hs : Sane s) (hp : Placed s live) (h : Heap s live m fu pa fr C K)
    (ha : a ∈ live) (hi : i < s.count) (hfu : slot s a i ∉ fu) (hpa : slot s a i ∉ pa)
    (hfr : ∀ b ∈ live, slot s a i ∉ fr b) :
    Heap s live (listInsert m (slot s a i) (freeList (info s a))) fu pa
      (Function.update fr a (fr a ++ [slot s a i])) C K := by
  have hnew : ∀ c ∈ Heads s live, slot s a i ∉ c :: lists s fu pa fr c := by
    have hne := node_ne_head hs hp ha (offset_slot hi)
    rintro c (rfl | rfl | ⟨b, hb, rfl⟩)
    · rw [lists_full]
      exact List.not_mem_cons_of_ne_of_not_mem hne.1 hfu
    · rw [lists_partialList]
      exact List.not_mem_cons_of_ne_of_not_mem hne.2 hpa
    · rw [lists_free hs hp hb]
      exact List.not_mem_cons_of_ne_of_not_mem (slot_ne_info hs hp ha hb hi).2 (hfr b hb)
  obtain ⟨hr, hf⟩ := h.rings.insert (nodes_apart hs hp) (freeList_mem_heads ha)
    (slot_mem_nodes ha hi) hnew
  rw [lists_free hs hp ha, update_lists_free hs hp ha] at hr
  exact h.of_frame hs hp hr hf

/-- A slab that is full becomes a partial one. -/
theorem Heap.makePartial (hs : Sane s) (hp : Placed s live) (h : Heap s live m fu pa fr C K)
    (ha : a ∈ live) (hfull : info s a ∈ fu ↔ fr a = []) :
    Heap s live (if listIsEmpty m (freeList (info s a)) then
        listInsert (listRemove m (info s a)) (info s a) s.partialList else m)
      (if fr a = [] then fu.erase (info s a) else fu)
      (if fr a = [] then pa ++ [info s a] else pa) fr C K := by
  simp only [h.isEmpty_free hs hp ha]
  split_ifs with hfr
  · exact h.toPartial hs hp (hfull.2 hfr)
  · exact h

theorem Shape.give (hs : Sane s) (hp : Placed s live) (h : Shape ∅ s live held fu pa fr)
    (hd : fu.Nodup) (ha : a ∈ live) (hi : i < s.count) (hx : slot s a i ∈ held) :
    Shape {a} s live (held \ {slot s a i}) (if fr a = [] then fu.erase (info s a) else fu)
      (if fr a = [] then pa ++ [info s a] else pa)
      (Function.update fr a (fr a ++ [slot s a i])) := by
  have hfull := h.full a ha
  refine ⟨fun p => ?_, fun b hb => ?_, fun b hb y => ?_, fun y hy => h.held y hy.1,
    fun b hb hbE => ?_⟩
  · rw [← h.infos]
    split_ifs with hfr
    · have := hd.mem_erase_iff (a := p) (b := info s a)
      simp only [List.mem_append, List.mem_singleton]
      grind
    · rfl
  · rw [Function.update_apply]
    split_ifs with hfr hba hba
    · simp [hba, hd.mem_erase_iff]
    · rw [hd.mem_erase_iff, ← h.full b hb]
      exact and_iff_right fun e => hba (info_inj e)
    · simp [hba, hfull, hfr]
    · exact h.full b hb
  · have hfree := h.free b hb y
    rw [Function.update_apply]
    split_ifs with hba
    · subst hba
      rw [List.mem_append, List.mem_singleton, hfree]
      simp only [Set.mem_sdiff, Set.mem_singleton_iff, not_and, not_not]
      grind
    · rw [hfree]
      refine and_congr_right ?_
      rintro ⟨j, hj, rfl⟩
      have hne : slot s b j ≠ slot s a i := fun e => hba (slot_inj hs hp hb ha hj hi e)
      simp [hne]
  · rw [Function.update_of_ne hbE]
    exact h.retained b hb (Set.notMem_empty b)

theorem Placed.erase (hp : Placed s live) (a : ℕ) : Placed s (live.erase a) :=
  ⟨hp.base, hp.nodup.erase a, fun b hb => hp.block b (List.mem_of_mem_erase hb),
    fun b hb c hc => hp.apart b (List.mem_of_mem_erase hb) c (List.mem_of_mem_erase hc)⟩

/-- All slots of a slab are free, and the slab is released. -/
theorem Shape.release (h : Shape {a} s live held fu pa fr) (hn : live.Nodup) (hd : pa.Nodup)
    (hdf : (fr a).Nodup) (ha : a ∈ live) (hfu : info s a ∉ fu) (hlen : s.count ≤ (fr a).length) :
    Shape ∅ s (live.erase a) held fu (pa.erase (info s a)) fr := by
  have hall : ∀ i < s.count, slot s a i ∉ held := by
    intro i hi
    have hsub : fr a ⊆ slots s a s.count := fun x hx => mem_slots.2 ((h.free a ha x).1 hx).1
    have hperm := (List.subperm_of_subset hdf hsub).perm_of_length_le (by simpa [slots] using hlen)
    exact ((h.free a ha _).1 (hperm.mem_iff.2 (mem_slots.2 ⟨i, hi, rfl⟩))).2
  have hmem : ∀ b, b ∈ live.erase a ↔ b ≠ a ∧ b ∈ live := fun b => hn.mem_erase_iff
  refine ⟨fun p => ?_, fun b hb => ?_, fun b hb => ?_, fun y hy => ?_, fun b hb _ => ?_⟩
  · have hp := h.infos p
    have hinj : ∀ b, info s b = info s a → b = a := fun _ => info_inj
    rw [hd.mem_erase_iff]
    simp only [hmem]
    grind
  · exact h.full b ((hmem b).1 hb).2
  · exact h.free b ((hmem b).1 hb).2
  · obtain ⟨b, hb, i, hi, rfl⟩ := h.held y hy
    refine ⟨b, (hmem b).2 ⟨?_, hb⟩, i, hi, rfl⟩
    rintro rfl
    exact hall i hi hy
  · exact h.retained b ((hmem b).1 hb).2 ((hmem b).1 hb).1

/-- The lists have no node in the slab. -/
theorem Heap.erase (hs : Sane s) (hp : Placed s live) (h : Heap s live m fu pa fr C K)
    (hsh : Shape E s (live.erase a) held fu pa fr) : Heap s (live.erase a) m fu pa fr C K := by
  have hsub : ∀ b ∈ live.erase a, b ∈ live := fun b => List.mem_of_mem_erase
  have hheads : Heads s (live.erase a) ⊆ Heads s live := by
    rintro b (rfl | rfl | ⟨c, hc, rfl⟩)
    · exact fullList_mem_heads
    · exact partialList_mem_heads
    · exact freeList_mem_heads (hsub c hc)
  have hinfo : ∀ p, p ∈ fu ∨ p ∈ pa → p ∈ Nodes s (live.erase a) := by
    intro p hp
    obtain ⟨b, hb, rfl⟩ := (hsh.infos p).1 hp
    exact info_mem_nodes hb
  refine ⟨h.rings.mono hheads ?_, fun b hb => h.back b (hsub b hb), fun b hb => h.count b (hsub b hb)⟩
  rintro b (rfl | rfl | ⟨c, hc, rfl⟩) x hx
  · rw [lists_full] at hx
    rcases List.mem_cons.1 hx with rfl | hx
    · exact .inl rfl
    · exact hinfo x (.inl hx)
  · rw [lists_partialList] at hx
    rcases List.mem_cons.1 hx with rfl | hx
    · exact .inr (.inl rfl)
    · exact hinfo x (.inr hx)
  · rw [lists_free hs hp (hsub c hc)] at hx
    rcases List.mem_cons.1 hx with rfl | hx
    · exact .inr (.inr ⟨c, hc, _, offset_freeList, rfl⟩)
    · obtain ⟨⟨i, hi, rfl⟩, -⟩ := (hsh.free c hc x).1 hx
      exact slot_mem_nodes hc hi

theorem Heap.release (hs : Sane s) (hp : Placed s live) (h : Heap s live m fu pa fr C K)
    (hsh : Shape ∅ s (live.erase a) held fu (pa.erase (info s a)) fr) (hpa : info s a ∈ pa) :
    Heap s (live.erase a) (listRemove m (info s a)) fu (pa.erase (info s a)) fr C K := by
  obtain ⟨hr, hf⟩ := h.rings.remove (nodes_apart hs hp) partialList_mem_heads (x := info s a)
    (by simpa using hpa)
  rw [lists_partialList, update_lists_partialList] at hr
  exact (h.of_frame hs hp hr hf).erase hs hp hsh

/-- The slot is put back, and it is in the free list of its slab. -/
theorem Inv.give (h : Inv ∅ t held fu pa fr) (ha : a ∈ t.live) (hi : i < t.slab.count)
    (hx : slot t.slab a i ∈ held) :
    ∃ m fu' pa' fr', Inv {a} { t with mem := m } (held \ {slot t.slab a i}) fu' pa' fr' ∧
      info t.slab a ∉ fu' ∧ slabFree t (slot t.slab a i) =
        if (fr' a).length ≥ t.slab.count then freeSlab { t with mem := m } (info t.slab a)
        else { t with mem := m } := by
  obtain ⟨hs, hp, hh, hsh⟩ := h
  have hinf := hh.back a ha i hi hi
  have hshape := hsh.give hs hp hh.nodup_full ha hi hx
  have h₁ := hh.makePartial hs hp ha (hsh.full a ha)
  obtain ⟨fu₁, hfu₁⟩ : ∃ l, (if fr a = [] then fu.erase (info t.slab a) else fu) = l := ⟨_, rfl⟩
  obtain ⟨pa₁, hpa₁⟩ : ∃ l, (if fr a = [] then pa ++ [info t.slab a] else pa) = l := ⟨_, rfl⟩
  rw [hfu₁, hpa₁] at hshape h₁
  -- The lists have info blocks and free slots, and the slot is neither.
  have hnot : ∀ p, p ∈ fu₁ ∨ p ∈ pa₁ → slot t.slab a i ≠ p := by
    intro p hpm
    obtain ⟨b, hb, rfl⟩ := (hshape.infos p).1 hpm
    exact (slot_ne_info hs hp ha hb hi).1
  have h₂ := h₁.insertFree hs hp ha hi (fun hm => hnot _ (.inl hm) rfl)
    (fun hm => hnot _ (.inr hm) rfl) fun b hb hm => ((hsh.free b hb _).1 hm).2 hx
  have hcount := h₂.count a ha
  have hle : (fr a).length + 1 < 2 ^ 32 := by
    have := hsh.length_le ha (hh.nodup_free hs hp ha)
    have := hs.count
    omega
  have h₃ := h₂.setCount hs hp ha hle
  have hlen : (fr a).length + 1 = (fr a ++ [slot t.slab a i]).length := by simp
  rw [hlen, ← length_update] at h₃
  obtain ⟨m, hm⟩ : ∃ m, setFreeCount (listInsert (if listIsEmpty t.mem (freeList (info t.slab a))
    then listInsert (listRemove t.mem (info t.slab a)) (info t.slab a) t.slab.partialList
    else t.mem) (slot t.slab a i) (freeList (info t.slab a))) (info t.slab a)
    (fr a ++ [slot t.slab a i]).length = m := ⟨_, rfl⟩
  rw [hm] at h₃
  refine ⟨m, fu₁, pa₁, _, ⟨hs, hp, h₃, hshape⟩, ?_, ?_⟩
  · rw [hshape.full a ha, Function.update_self]
    simp
  · simp only [slabFree, hinf, hcount, hlen, hm, h₃.count a ha]

theorem Inv.free (h : Inv ∅ t held fu pa fr) (hx : x ∈ held) :
    (slabFree t x).slab = t.slab ∧
      ∃ fu' pa' fr', Inv ∅ (slabFree t x) (held \ {x}) fu' pa' fr' := by
  obtain ⟨a, ha, i, hi, rfl⟩ := h.shape.held x hx
  obtain ⟨m, fu', pa', fr', ⟨hs, hp, hh, hsh⟩, hfu, he⟩ := h.give ha hi hx
  rw [he]
  split_ifs with hge
  · have hpa : info t.slab a ∈ pa' := ((hsh.infos _).2 ⟨a, ha, rfl⟩).resolve_left hfu
    have hrel := hsh.release hp.nodup hh.nodup_partial (hh.nodup_free hs hp ha) ha hfu hge
    have hstart : info t.slab a - t.slab.infoOffset = a := Nat.add_sub_cancel ..
    simp only [freeSlab, hstart]
    exact ⟨trivial, _, _, _, hs, hp.erase a, hh.release hs hp hrel hpa, hrel⟩
  · refine ⟨rfl, _, _, _, hs, hp, hh, hsh.infos, hsh.full, hsh.free, hsh.held, fun b hb _ => ?_⟩
    rcases eq_or_ne b a with rfl | hba
    · exact Nat.lt_of_not_le hge
    · exact hsh.retained b hb hba

end Dlb.Slab
