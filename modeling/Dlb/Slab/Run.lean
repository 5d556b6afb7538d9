import Mathlib.Logic.Relation
import Dlb.Slab.Inv

/-!
# Every run of the slab allocator

A user allocates and frees objects, and writes to those it has; everybody else writes to the memory
that is not the allocator's. In every run, what has been allocated does not overlap, and the
lists are what they should be (`run_sound`).
-/

namespace Dlb.Slab

open ListNode

/-! ## Runs -/

/-- The allocator, and the objects that have been allocated. -/
structure Sys where
  state : State
  held : Set ℕ

/-- `malloc` fails, or it returns a block which does not overlap with another one. -/
def Mallocs (t : State) (p : ℕ) : Prop :=
  p = 0 ∨ p + t.slab.slabsize ≤ 2 ^ 64 ∧
    (p + t.slab.slabsize ≤ t.slab.base ∨ t.slab.base + 48 ≤ p) ∧
    ∀ a ∈ t.live, p + t.slab.slabsize ≤ a ∨ a + t.slab.slabsize ≤ p

/-- The allocator's memory: the `struct slab`, and the slabs except for the objects that have been
    allocated. -/
def Reserved (t : Sys) (q : ℕ) : Prop :=
  t.state.slab.base ≤ q ∧ q < t.state.slab.base + 48 ∨
    (∃ a ∈ t.state.live, a ≤ q ∧ q < a + t.state.slab.slabsize) ∧
      ∀ x ∈ t.held, ¬(x ≤ q ∧ q < x + t.state.slab.objsize)

inductive Step : Sys → Sys → Prop
  | alloc (t : Sys) (p : ℕ) (h : Mallocs t.state p) :
      Step t ⟨(slabAlloc t.state p).2, if (slabAlloc t.state p).1 = 0 then t.held
        else insert (slabAlloc t.state p).1 t.held⟩
  | free (t : Sys) (x : ℕ) (h : x ∈ t.held) : Step t ⟨slabFree t.state x, t.held \ {x}⟩
  | write (t : Sys) (q : ℕ) (v : UInt8) (h : ¬Reserved t q) :
      Step t { t with state := { t.state with mem := Function.update t.state.mem q v } }

/-- The allocator has just been set up, for objects of `n` bytes. -/
def Sys.init (m : Mem) (base n : ℕ) : Sys := ⟨slabInit m base n, ∅⟩

def Run (m : Mem) (base n : ℕ) (t : Sys) : Prop := Relation.ReflTransGen Step (.init m base n) t

/-! ## The invariant -/

variable {m : Mem} {base n : ℕ} {t t' : Sys} {fu pa : List ℕ} {fr : ℕ → List ℕ} {p q : ℕ}

theorem Inv.mallocs {E held : Set ℕ} {t : State} (h : Inv E t held fu pa fr) (hp : Mallocs t p) :
    p = 0 ∨ Placed t.slab (p :: t.live) := by
  have hsize : 0 < t.slab.slabsize := by
    rw [h.sane.slabsize]
    omega
  refine Classical.or_iff_not_imp_left.2 fun hp₀ => ?_
  obtain ⟨h₁, h₂, h₃⟩ := hp.resolve_left hp₀
  have hp := h.placed
  refine ⟨hp.base, List.nodup_cons.2 ⟨fun hmem => ?_, hp.nodup⟩, ?_, ?_⟩
  · have := h₃ p hmem
    omega
  · intro a ha
    rcases List.mem_cons.1 ha with rfl | ha
    · exact ⟨hp₀, h₁, h₂⟩
    · exact hp.block a ha
  · intro a ha b hb
    rcases List.mem_cons.1 ha with rfl | ha' <;> rcases List.mem_cons.1 hb with rfl | hb'
    · exact .inl rfl
    · exact .inr (h₃ b hb')
    · exact .inr (h₃ a ha').symm
    · exact hp.apart a ha' b hb'

theorem heads_nil {s : Layout} : Heads s [] = insert s.partialList (insert s.fullList ∅) := by
  ext b
  simp [Heads, or_comm]

theorem inv_init (hn : n ≤ 2 ^ 27) (hb : base + 48 ≤ 2 ^ 64) :
    Inv ∅ (slabInit m base n) ∅ [] [] fun _ => [] := by
  obtain ⟨hs, -⟩ := layout_sane base hn
  have hp : Placed (layout base n) [] := ⟨hb, List.nodup_nil, by simp, by simp⟩
  obtain ⟨s, hl⟩ : ∃ s, layout base n = s := ⟨_, rfl⟩
  have hinit : slabInit m base n =
      ⟨s, listInit (listInit m s.fullList) s.partialList, []⟩ := by
    rw [slabInit, hl]
  rw [hl] at hs hp
  rw [hinit]
  have hN := nodes_apart hs hp
  obtain ⟨h₁, -⟩ := (rings_empty (F := lists s [] [] fun _ => [])).init hN (b := s.fullList) (.inl rfl) (by simp)
  rw [update_lists_full] at h₁
  obtain ⟨h₂, -⟩ := h₁.init hN (b := s.partialList) (.inr (.inl rfl)) (by
    rintro c (rfl | hc)
    · rw [lists_full, List.mem_singleton]
      exact fullList_ne_partialList
    · exact absurd hc (Set.notMem_empty c))
  rw [update_lists_partialList, ← heads_nil] at h₂
  refine ⟨hs, hp, ⟨h₂, by simp, by simp⟩, ?_⟩
  constructor <;> simp

/-- Two slots do not overlap. -/
theorem slots_apart {s : Layout} {live : List ℕ} {a b i j : ℕ} (hs : Sane s) (hp : Placed s live)
    (ha : a ∈ live) (hb : b ∈ live) (hi : i < s.count) (hj : j < s.count)
    (hne : slot s a i ≠ slot s b j) :
    slot s a i + s.objsize + 8 ≤ slot s b j ∨ slot s b j + s.objsize + 8 ≤ slot s a i := by
  have hle := hs.slot_le hi
  have hle' := hs.slot_le hj
  have hsize := hs.slabsize
  rcases hp.apart a ha b hb with rfl | hab
  · have hij : i ≠ j := by
      rintro rfl
      exact hne rfl
    have := Sane.slot_apart (s := s) hij
    simp only [slot]
    omega
  · simp only [slot]
    omega

/-- What is not the allocator's is not in the `struct slab` or in an info block, and if it is in a slot
    then it is in an object. -/
theorem Inv.not_reserved (h : Inv ∅ t.state t.held fu pa fr) (hq : ¬Reserved t q) :
    ¬(t.state.slab.base ≤ q ∧ q < t.state.slab.base + 48) ∧ ∀ a ∈ t.state.live,
      ¬(info t.state.slab a ≤ q ∧ q < info t.state.slab a + 40) ∧
      ∀ i < t.state.slab.count, slot t.state.slab a i ≤ q →
        q < slot t.state.slab a i + t.state.slab.objsize + 8 →
        slot t.state.slab a i ∈ t.held ∧ q < slot t.state.slab a i + t.state.slab.objsize := by
  obtain ⟨hs, hp, -, hsh⟩ := h
  have hsize := hs.slabsize
  refine ⟨fun h => hq (.inl h), fun a ha => ?_⟩
  have hslab : a ≤ q → q < a + t.state.slab.slabsize → ∃ b ∈ t.state.live,
      ∃ j < t.state.slab.count, slot t.state.slab b j ∈ t.held ∧ slot t.state.slab b j ≤ q ∧
        q < slot t.state.slab b j + t.state.slab.objsize := by
    intro h₁ h₂
    by_contra hno
    refine hq (.inr ⟨⟨a, ha, h₁, h₂⟩, fun x hx hxq => hno ?_⟩)
    obtain ⟨b, hb, j, hj, rfl⟩ := hsh.held x hx
    exact ⟨b, hb, j, hj, hx, hxq⟩
  constructor
  · rintro ⟨h₁, h₂⟩
    rw [info] at h₁ h₂
    obtain ⟨b, hb, j, hj, -, h₃, h₄⟩ := hslab (by omega) (by omega)
    have hle := hs.slot_le hj
    have := hp.apart a ha b hb
    rw [slot] at h₃ h₄
    omega
  · intro i hi h₁ h₂
    have hle := hs.slot_le hi
    obtain ⟨b, hb, j, hj, hheld, h₃, h₄⟩ := hslab (by rw [slot] at h₁; omega)
      (by rw [slot] at h₂; omega)
    by_cases he : slot t.state.slab a i = slot t.state.slab b j
    · rw [he]
      exact ⟨hheld, h₄⟩
    · have := slots_apart hs hp ha hb hi hj he
      omega

/-- The nodes of the lists are heads, info blocks and free slots. -/
theorem Shape.node_cases {E held : Set ℕ} {s : Layout} {live : List ℕ} {b x : ℕ}
    (h : Shape E s live held fu pa fr) (hs : Sane s) (hp : Placed s live) (hb : b ∈ Heads s live)
    (hx : x ∈ b :: lists s fu pa fr b) :
    x = s.fullList ∨ x = s.partialList ∨ ∃ a ∈ live, x = info s a ∨ x = freeList (info s a) ∨
      ∃ i < s.count, x = slot s a i ∧ x ∉ held := by
  have hinfos : x ∈ fu ∨ x ∈ pa → ∃ a ∈ live, x = info s a ∨ x = freeList (info s a) ∨
      ∃ i < s.count, x = slot s a i ∧ x ∉ held := by
    intro hmem
    obtain ⟨a, ha, e⟩ := (h.infos x).1 hmem
    exact ⟨a, ha, .inl e⟩
  rcases hb with rfl | rfl | ⟨a, ha, rfl⟩
  · rw [lists_full] at hx
    rcases List.mem_cons.1 hx with rfl | hx
    · exact .inl rfl
    · exact .inr (.inr (hinfos (.inl hx)))
  · rw [lists_partialList] at hx
    rcases List.mem_cons.1 hx with rfl | hx
    · exact .inr (.inl rfl)
    · exact .inr (.inr (hinfos (.inr hx)))
  · rw [lists_free hs hp ha] at hx
    rcases List.mem_cons.1 hx with rfl | hx
    · exact .inr (.inr ⟨a, ha, .inr (.inl rfl)⟩)
    · obtain ⟨⟨i, hi, e⟩, hfree⟩ := (h.free a ha x).1 hx
      exact .inr (.inr ⟨a, ha, .inr (.inr ⟨i, hi, e, hfree⟩)⟩)

/-- The memory is changed that is not the allocator's. -/
theorem Inv.write (h : Inv ∅ t.state t.held fu pa fr) (hq : ¬Reserved t q) (v : UInt8) :
    Inv ∅ { t.state with mem := Function.update t.state.mem q v } t.held fu pa fr := by
  obtain ⟨hbase, hslab⟩ := h.not_reserved hq
  obtain ⟨hs, hp, hh, hsh⟩ := h
  have hne : ∀ {p}, p ≠ q → Function.update t.state.mem q v p = t.state.mem p :=
    fun hp => Function.update_of_ne hp _ _
  have hheap : Heap t.state.slab t.state.live (Function.update t.state.mem q v) fu pa fr
      (fun a => (fr a).length) fun _ => t.state.slab.count := by
    refine ⟨hh.rings.congr fun b hb x hx p h₁ h₂ => hne ?_, fun a ha i hi hK => ?_, fun a ha => ?_⟩
    · rintro rfl
      rcases hsh.node_cases hs hp hb hx with rfl | rfl | ⟨a, ha, rfl | rfl | ⟨i, hi, rfl, hfree⟩⟩
      · rw [Layout.fullList] at h₁ h₂
        omega
      · rw [Layout.partialList] at h₁ h₂
        omega
      · exact (hslab a ha).1 ⟨h₁, by omega⟩
      · rw [freeList] at h₁ h₂
        exact (hslab a ha).1 ⟨by omega, by omega⟩
      · have hobj := hs.objsize
        exact hfree ((hslab a ha).2 i hi h₁ (by omega)).1
    · rw [← hh.back a ha i hi hK]
      refine Mem.load_congr fun p h₁ h₂ => hne ?_
      rintro rfl
      have := ((hslab a ha).2 i hi (by omega) h₂).2
      omega
    · rw [← hh.count a ha]
      refine Mem.load_congr fun p h₁ h₂ => hne ?_
      rintro rfl
      exact (hslab a ha).1 ⟨by omega, by omega⟩
  exact ⟨hs, hp, hheap, hsh⟩

theorem Inv.step (h : Inv ∅ t.state t.held fu pa fr) (hs : Step t t') :
    t'.state.slab = t.state.slab ∧ ∃ fu pa fr, Inv ∅ t'.state t'.held fu pa fr := by
  cases hs with
  | alloc p hp =>
    obtain ⟨-, hslab, ⟨h₀, he⟩ | ⟨h₀, hinv⟩⟩ := h.alloc (h.mallocs hp)
    · refine ⟨hslab, fu, pa, fr, ?_⟩
      simp only [h₀, he, if_true]
      exact h
    · refine ⟨hslab, ?_⟩
      simp only [h₀, if_false]
      exact hinv
  | free x hx => exact h.free hx
  | write q v hq => exact ⟨rfl, fu, pa, fr, h.write hq v⟩

theorem Run.inv (hrun : Run m base n t) (hn : n ≤ 2 ^ 27) (hb : base + 48 ≤ 2 ^ 64) :
    t.state.slab = layout base n ∧ ∃ fu pa fr, Inv ∅ t.state t.held fu pa fr := by
  induction hrun with
  | refl => exact ⟨rfl, _, _, _, inv_init hn hb⟩
  | tail _ hs ih =>
    obtain ⟨hslab, fu, pa, fr, h⟩ := ih
    obtain ⟨hslab', hinv⟩ := h.step hs
    exact ⟨hslab'.trans hslab, hinv⟩

/-! ## Objects and lists -/

/-- The objects do not overlap, and have the size `n` that was requested; each one is in a slab, before
    the info block, with a pointer to that info block behind it. The lists of full and partial
    slabs and of their free slots are `fu`, `pa` and `fr`. -/
structure Sound (n : ℕ) (t : Sys) (fu pa : List ℕ) (fr : ℕ → List ℕ) : Prop where
  inside : ∀ x ∈ t.held, ∃ a ∈ t.state.live, ∃ i < t.state.slab.count,
    x = slot t.state.slab a i ∧ x + n ≤ info t.state.slab a ∧
      t.state.mem.load (x + t.state.slab.objsize) 8 = info t.state.slab a
  disjoint : ∀ x ∈ t.held, ∀ y ∈ t.held, x ≠ y → x + n ≤ y ∨ y + n ≤ x
  full : Ring (next t.state.mem) (prev t.state.mem) t.state.slab.fullList fu
  part : Ring (next t.state.mem) (prev t.state.mem) t.state.slab.partialList pa
  free : ∀ a ∈ t.state.live,
    Ring (next t.state.mem) (prev t.state.mem) (freeList (info t.state.slab a)) (fr a)
  slabs : (fu ++ pa).Nodup ∧ ∀ p, p ∈ fu ++ pa ↔ ∃ a ∈ t.state.live, p = info t.state.slab a
  mem_full : ∀ a ∈ t.state.live, info t.state.slab a ∈ fu ↔ fr a = []
  mem_part : ∀ a ∈ t.state.live, info t.state.slab a ∈ pa ↔ fr a ≠ []
  mem_free : ∀ a ∈ t.state.live, (fr a).Nodup ∧
    ∀ x, x ∈ fr a ↔ (∃ i < t.state.slab.count, x = slot t.state.slab a i) ∧ x ∉ t.held
  freeCount : ∀ a ∈ t.state.live,
    freeCount t.state.mem (info t.state.slab a) = (fr a).length
  retained : ∀ a ∈ t.state.live, (fr a).length < t.state.slab.count

theorem Inv.sound (h : Inv ∅ t.state t.held fu pa fr) (hn : n ≤ t.state.slab.objsize) :
    Sound n t fu pa fr := by
  obtain ⟨hs, hp, hh, hsh⟩ := h
  have hmem : ∀ a ∈ t.state.live, info t.state.slab a ∈ pa ↔ fr a ≠ [] := by
    intro a ha
    rw [ne_eq, ← hsh.full a ha]
    exact ⟨hh.not_mem_full, ((hsh.infos _).2 ⟨a, ha, rfl⟩).resolve_left⟩
  refine ⟨fun x hx => ?_, fun x hx y hy hne => ?_, ?_, ?_, fun a ha => ?_, ⟨?_, fun p => ?_⟩, hsh.full,
    hmem, fun a ha => ⟨hh.nodup_free hs hp ha, hsh.free a ha⟩, hh.count,
    fun a ha => hsh.retained a ha (Set.notMem_empty a)⟩
  · obtain ⟨a, ha, i, hi, rfl⟩ := hsh.held x hx
    refine ⟨a, ha, i, hi, rfl, ?_, hh.back a ha i hi hi⟩
    have := hs.slot_le hi
    rw [slot, info]
    omega
  · obtain ⟨a, ha, i, hi, rfl⟩ := hsh.held x hx
    obtain ⟨b, hb, j, hj, rfl⟩ := hsh.held y hy
    have := slots_apart hs hp ha hb hi hj hne
    omega
  · simpa using hh.rings.ring _ fullList_mem_heads
  · simpa using hh.rings.ring _ partialList_mem_heads
  · have := hh.rings.ring _ (freeList_mem_heads ha)
    rwa [lists_free hs hp ha] at this
  · exact List.Nodup.append hh.nodup_full hh.nodup_partial fun x hx hx' => hh.not_mem_full hx' hx
  · rw [List.mem_append]
    exact hsh.infos p

/-- In every run, the objects and the lists are what they should be, and the next object that is
    allocated is a new one. -/
theorem run_sound (hn : n ≤ 2 ^ 27) (hb : base + 48 ≤ 2 ^ 64) (hrun : Run m base n t) :
    (∃ fu pa fr, Sound n t fu pa fr) ∧
      ∀ p, Mallocs t.state p → (slabAlloc t.state p).1 ∉ t.held := by
  obtain ⟨hslab, fu, pa, fr, h⟩ := hrun.inv hn hb
  refine ⟨⟨fu, pa, fr, h.sound ?_⟩, fun p hp => (h.alloc (h.mallocs hp)).1⟩
  rw [hslab]
  exact (layout_sane base hn).2

/-- An object of 8192 bytes is allocated from the slab at 65536. -/
theorem run_sound_alloc : ∃ t fu pa fr, Run (fun _ => 0) 4096 8192 t ∧ t.held = {65536} ∧
    Sound 8192 t fu pa fr := by
  have hrun : Run (fun _ => 0) 4096 8192 _ := .single (.alloc _ 65536 (.inr
    ⟨by decide, .inr (by decide), by simp [Sys.init, slabInit]⟩))
  have hptr : (slabAlloc (slabInit (fun _ => 0) 4096 8192) 65536).1 = 65536 := by decide +kernel
  obtain ⟨⟨fu, pa, fr, h⟩, -⟩ := run_sound (by decide) (by decide) hrun
  refine ⟨_, fu, pa, fr, hrun, ?_, h⟩
  simp [Sys.init, hptr]

end Dlb.Slab
