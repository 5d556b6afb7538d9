import Dlb.Slab.Run

/-!
# All slabs are freed

`slab_free_all` may be called at any time, whatever is allocated. It frees each slab once, and the
allocator is as good as a new one.
-/

namespace Dlb.Slab

open ListNode

variable {s : Layout} {t t' : State} {held : Set ℕ} {live fu pa l : List ℕ} {fr : ℕ → List ℕ}
  {a b k p : ℕ}

/-! ## One slab -/

/-- The objects of the slab at `a`. -/
def objects (s : Layout) (a : ℕ) : Set ℕ := {x | ∃ i < s.count, x = slot s a i}

/-- A slab is forgotten with its objects. -/
theorem Shape.drop (hs : Sane s) (hp : Placed s live) (h : Shape ∅ s live held fu pa fr)
    (hdf : fu.Nodup) (hdp : pa.Nodup) (ha : a ∈ live) :
    Shape ∅ s (live.erase a) (held \ objects s a) (fu.erase (info s a)) (pa.erase (info s a)) fr := by
  have hmem : ∀ b, b ∈ live.erase a ↔ b ≠ a ∧ b ∈ live := fun b => hp.nodup.mem_erase_iff
  have hne : ∀ {b}, b ∈ live.erase a → info s b ≠ info s a := fun hb e =>
    ((hmem _).1 hb).1 (info_inj e)
  refine ⟨fun p => ?_, fun b hb => ?_, fun b hb x => ?_, fun x hx => ?_, fun b hb _ => ?_⟩
  · have hinfos := h.infos p
    have hinj : ∀ b, info s b = info s a → b = a := fun _ => info_inj
    rw [hdf.mem_erase_iff, hdp.mem_erase_iff]
    simp only [hmem]
    grind
  · rw [hdf.mem_erase_iff, ← h.full b ((hmem b).1 hb).2]
    exact and_iff_right (hne hb)
  · rw [h.free b ((hmem b).1 hb).2]
    refine and_congr_right ?_
    rintro ⟨i, hi, rfl⟩
    have hout : slot s b i ∉ objects s a := by
      rintro ⟨j, hj, e⟩
      exact ((hmem b).1 hb).1 (slot_inj hs hp ((hmem b).1 hb).2 ha hi hj e)
    simp [hout]
  · obtain ⟨b, hb, i, hi, rfl⟩ := h.held x hx.1
    refine ⟨b, (hmem b).2 ⟨?_, hb⟩, i, hi, rfl⟩
    rintro rfl
    exact hx.2 ⟨i, hi, rfl⟩
  · exact h.retained b ((hmem b).1 hb).2 (Set.notMem_empty b)

/-- A slab is freed, which is in one of the two lists. -/
theorem Inv.freeSlab (h : Inv ∅ t held fu pa fr)
    (hb : b = t.slab.fullList ∨ b = t.slab.partialList) (ha : a ∈ t.live)
    (hx : info t.slab a ∈ lists t.slab fu pa fr b) :
    Inv ∅ (freeSlab t (info t.slab a)) (held \ objects t.slab a) (fu.erase (info t.slab a))
      (pa.erase (info t.slab a)) fr := by
  obtain ⟨hs, hp, hh, hsh⟩ := h
  have hdrop := hsh.drop hs hp hh.nodup_full hh.nodup_partial ha
  have hheap : Heap t.slab t.live (listRemove t.mem (info t.slab a)) (fu.erase (info t.slab a))
      (pa.erase (info t.slab a)) fr (fun a => (fr a).length) fun _ => t.slab.count := by
    rcases hb with rfl | rfl
    · obtain ⟨hr, hf⟩ := hh.rings.remove (nodes_apart hs hp) fullList_mem_heads hx
      rw [lists_full] at hr hx
      rw [update_lists_full] at hr
      have hpa : info t.slab a ∉ pa := fun hpa => hh.not_mem_full hpa hx
      rw [List.erase_of_not_mem hpa]
      exact hh.of_frame hs hp hr hf
    · obtain ⟨hr, hf⟩ := hh.rings.remove (nodes_apart hs hp) partialList_mem_heads hx
      rw [lists_partialList] at hr hx
      rw [update_lists_partialList] at hr
      rw [List.erase_of_not_mem (hh.not_mem_full hx)]
      exact hh.of_frame hs hp hr hf
  have hstart : info t.slab a - t.slab.infoOffset = a := Nat.add_sub_cancel ..
  simp only [Slab.freeSlab, hstart]
  exact ⟨hs, hp.erase a, hheap.erase hs hp hdrop, hdrop⟩

/-! ## All slabs -/

/-- One list is emptied: each of its slabs is freed. -/
theorem Inv.freeAllSlabs (h : Inv ∅ t held fu pa fr)
    (hb : b = t.slab.fullList ∨ b = t.slab.partialList)
    (hk : (lists t.slab fu pa fr b).length < k) :
    ∃ freed t' held' fu' pa', Slab.freeAllSlabs b k t = some (freed, t') ∧ t'.slab = t.slab ∧
      Inv ∅ t' held' fu' pa' fr ∧ (freed ++ t'.live).Perm t.live ∧ fu'.Sublist fu ∧
      lists t.slab fu' pa' fr b = [] := by
  induction k generalizing t held fu pa with
  | zero => cases hk
  | succ k ih =>
    have hheads : b ∈ Heads t.slab t.live := by
      rcases hb with rfl | rfl
      · exact fullList_mem_heads
      · exact partialList_mem_heads
    rw [Slab.freeAllSlabs]
    split_ifs with hemp
    · rw [h.heap.rings.isEmpty_iff hheads] at hemp
      exact ⟨[], t, held, fu, pa, rfl, rfl, h, .refl _, .refl _, hemp⟩
    · rw [h.heap.rings.isEmpty_iff hheads] at hemp
      obtain ⟨x, xs, hxs⟩ := List.exists_cons_of_ne_nil hemp
      have hnext : next t.mem b = x := by
        rw [h.heap.rings.next_eq hheads, hxs]
        rfl
      have hx : x ∈ lists t.slab fu pa fr b := by simp [hxs]
      obtain ⟨a, ha, rfl⟩ : ∃ a ∈ t.live, x = info t.slab a := by
        refine (h.shape.infos x).1 ?_
        rcases hb with rfl | rfl
        · exact .inl (by simpa using hx)
        · exact .inr (by simpa using hx)
      have h' := h.freeSlab hb ha hx
      have hlen : (lists t.slab (fu.erase (info t.slab a)) (pa.erase (info t.slab a)) fr b).length < k := by
        have hlt : ((lists t.slab fu pa fr b).erase (info t.slab a)).length < k := by
          rw [List.length_erase_of_mem hx]
          have := List.length_pos_of_mem hx
          omega
        rcases hb with rfl | rfl <;> simpa using hlt
      obtain ⟨freed, t', held', fu', pa', e, hslab, hinv, hperm, hsub, hnil⟩ := ih h' hb hlen
      have hstart : info t.slab a - t.slab.infoOffset = a := Nat.add_sub_cancel ..
      refine ⟨a :: freed, t', held', fu', pa', ?_, hslab, hinv, ?_, hsub.trans (List.erase_sublist ..),
        hnil⟩
      · simp only [hnext, e, Option.map_some, hstart]
      · have hlive : (Slab.freeSlab t (info t.slab a)).live = t.live.erase a := by
          rw [Slab.freeSlab, hstart]
        rw [hlive] at hperm
        exact (hperm.cons a).trans (List.perm_cons_erase ha).symm

/-- There are no more slabs in a list than there are. -/
theorem Inv.length_le (h : Inv ∅ t held fu pa fr)
    (hb : b = t.slab.fullList ∨ b = t.slab.partialList) :
    (lists t.slab fu pa fr b).length ≤ t.live.length := by
  have hsub : ∀ l : List ℕ, l.Nodup → (∀ x ∈ l, x ∈ fu ∨ x ∈ pa) → l.length ≤ t.live.length := by
    intro l hd hl
    have hsub : l ⊆ t.live.map (info t.slab) := by
      intro x hx
      obtain ⟨a, ha, rfl⟩ := (h.shape.infos x).1 (hl x hx)
      exact List.mem_map_of_mem ha
    simpa using (List.subperm_of_subset hd hsub).length_le
  rcases hb with rfl | rfl
  · exact hsub _ (by simpa using h.heap.nodup_full) (by simp +contextual)
  · exact hsub _ (by simpa using h.heap.nodup_partial) (by simp +contextual)

/-- Both lists are emptied. -/
theorem Inv.slabFreeAll (h : Inv ∅ t held fu pa fr) (hk : t.live.length < k) :
    ∃ freed t', Slab.slabFreeAll k t = some (freed, t') ∧ t'.slab = t.slab ∧
      Inv ∅ t' ∅ [] [] fr ∧ freed.Perm t.live ∧ t'.live = [] := by
  obtain ⟨freed₁, t₁, held₁, fu₁, pa₁, e₁, hslab₁, h₁, hperm₁, -, hnil₁⟩ :=
    h.freeAllSlabs (.inl rfl) ((h.length_le (.inl rfl)).trans_lt hk)
  rw [lists_full] at hnil₁
  subst hnil₁
  have hlen₁ : t₁.live.length ≤ t.live.length := by
    rw [← hperm₁.length_eq, List.length_append]
    omega
  obtain ⟨freed₂, t₂, held₂, fu₂, pa₂, e₂, hslab₂, h₂, hperm₂, hsub₂, hnil₂⟩ :=
    h₁.freeAllSlabs (.inr rfl) ((h₁.length_le (.inr rfl)).trans_lt (hlen₁.trans_lt hk))
  obtain rfl := List.sublist_nil.1 hsub₂
  rw [lists_partialList] at hnil₂
  subst hnil₂
  have hlive : t₂.live = [] := by
    refine List.eq_nil_iff_forall_not_mem.2 fun a ha => ?_
    simpa using (h₂.shape.infos _).2 ⟨a, ha, rfl⟩
  have hheld : held₂ = ∅ := by
    refine Set.eq_empty_iff_forall_notMem.2 fun x hx => ?_
    obtain ⟨a, ha, -⟩ := h₂.shape.held x hx
    simp [hlive] at ha
  subst hheld
  refine ⟨freed₁ ++ freed₂, t₂, ?_, hslab₂.trans hslab₁, h₂, ?_, hlive⟩
  · rw [hslab₁] at e₂
    simp [Slab.slabFreeAll, e₁, hslab₁, e₂]
  · rw [hlive, List.append_nil] at hperm₂
    exact (hperm₂.append_left freed₁).trans hperm₁

/-! ## Runs -/

theorem freeAllSlabs_mono {freed : List ℕ} {k' : ℕ} (e : freeAllSlabs b k t = some (freed, t'))
    (hk : k ≤ k') : freeAllSlabs b k' t = some (freed, t') := by
  induction k generalizing t t' freed k' with
  | zero => cases e
  | succ k ih =>
    obtain ⟨k', rfl⟩ := Nat.exists_eq_succ_of_ne_zero (show k' ≠ 0 by omega)
    rw [freeAllSlabs] at e ⊢
    split_ifs at e ⊢
    · exact e
    · obtain ⟨⟨freed', t''⟩, e₁, e₂⟩ := Option.map_eq_some_iff.1 e
      have e₃ : freeAllSlabs b k' (freeSlab t (next t.mem b)) = some (freed', t'') :=
        ih e₁ (Nat.le_of_succ_le_succ hk)
      simp only [e₃, Option.map_some]
      exact congrArg some e₂

/-- More fuel does not matter. -/
theorem slabFreeAll_mono {freed : List ℕ} {k' : ℕ} (e : slabFreeAll k t = some (freed, t'))
    (hk : k ≤ k') : slabFreeAll k' t = some (freed, t') := by
  obtain ⟨⟨freed₁, t₁⟩, e₁, e⟩ := Option.bind_eq_some_iff.1 e
  obtain ⟨⟨freed₂, t₂⟩, e₂, e⟩ := Option.map_eq_some_iff.1 e
  simp only [slabFreeAll, freeAllSlabs_mono e₁ hk, freeAllSlabs_mono e₂ hk, Option.bind_some,
    Option.map_some]
  exact congrArg some e

variable {m : Mem} {base n : ℕ} {u u' : Sys}

/-- A step, or a call of `slab_free_all`. -/
inductive ResetStep : Sys → Sys → Prop
  | step {u u' : Sys} : Step u u' → ResetStep u u'
  | freeAll {u : Sys} {freed : List ℕ} {t : State} (fuel : ℕ) :
    slabFreeAll fuel u.state = some (freed, t) → ResetStep u ⟨t, ∅⟩

def ResetRun (m : Mem) (base n : ℕ) : Sys → Prop := Relation.ReflTransGen ResetStep (.init m base n)

theorem ResetRun.inv (hrun : ResetRun m base n u) (hn : n ≤ 2 ^ 27) (hb : base + 48 ≤ 2 ^ 64) :
    u.state.slab = layout base n ∧ ∃ fu pa fr, Inv ∅ u.state u.held fu pa fr := by
  induction hrun with
  | refl => exact ⟨rfl, _, _, _, inv_init hn hb⟩
  | tail _ hs ih =>
    obtain ⟨hslab, fu, pa, fr, h⟩ := ih
    cases hs with
    | step hs =>
      obtain ⟨hslab', hinv⟩ := h.step hs
      exact ⟨hslab'.trans hslab, hinv⟩
    | freeAll fuel e =>
      obtain ⟨freed', t', e', hslab', hinv, -⟩ :=
        h.slabFreeAll (Nat.lt_of_lt_of_le (Nat.lt_succ_self _) (le_max_right fuel _))
      have heq := (slabFreeAll_mono e (le_max_left ..)).symm.trans e'
      obtain ⟨-, rfl⟩ := Prod.mk.inj (Option.some.inj heq)
      exact ⟨hslab'.trans hslab, _, _, _, hinv⟩

/-- In every run, with calls of `slab_free_all` at any time, the objects and the lists are what they
should be. Such a call returns; it has freed each slab once, and there is none left. -/
theorem run_freeAll (hn : n ≤ 2 ^ 27) (hb : base + 48 ≤ 2 ^ 64) (hrun : ResetRun m base n u) :
    (∃ fu pa fr, Sound n u fu pa fr) ∧ ∃ freed t, freed.Perm u.state.live ∧ t.live = [] ∧
      (listIsEmpty t.mem t.slab.fullList = true ∧ listIsEmpty t.mem t.slab.partialList = true) ∧
      ∀ fuel > u.state.live.length, slabFreeAll fuel u.state = some (freed, t) := by
  obtain ⟨hslab, fu, pa, fr, h⟩ := hrun.inv hn hb
  refine ⟨⟨fu, pa, fr, h.sound ?_⟩, ?_⟩
  · rw [hslab]
    exact (layout_sane base hn).2
  · obtain ⟨freed, t, e, -, hinv, hperm, hlive⟩ := h.slabFreeAll (Nat.lt_succ_self _)
    refine ⟨freed, t, hperm, hlive, ⟨?_, ?_⟩, fun fuel hf => slabFreeAll_mono e hf⟩
    · exact (hinv.heap.rings.isEmpty_iff fullList_mem_heads).2 lists_full
    · exact (hinv.heap.rings.isEmpty_iff partialList_mem_heads).2 lists_partialList

/-- An object is allocated, and its slab is freed. -/
theorem run_freeAll_alloc : ∃ t, ResetRun (fun _ => 0) 4096 8192 t ∧ t.state.live = [65536] ∧
    ∃ freed t', freed.Perm t.state.live ∧ t'.live = [] ∧ slabFreeAll 2 t.state = some (freed, t') := by
  have hrun : ResetRun (fun _ => 0) 4096 8192 _ := .single (.step (.alloc _ 65536 (.inr
    ⟨by decide, .inr (by decide), by simp [Sys.init, slabInit]⟩)))
  have hlive : (slabAlloc (slabInit (fun _ => 0) 4096 8192) 65536).2.live = [65536] := by
    decide +kernel
  obtain ⟨-, freed, t, hperm, hnil, -, e⟩ := run_freeAll (by decide) (by decide) hrun
  exact ⟨_, hrun, hlive, freed, t, hperm, hnil, e 2 (by simp [Sys.init, hlive])⟩

end Dlb.Slab
