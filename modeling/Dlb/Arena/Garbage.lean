import Dlb.Arena.Coalesce

/-!
# What the region contains at the start

`arena_free` looks for a header at the address of the buddy if the 24 bytes of a header are inside
of the region. The buddy of the last block is behind the last block, where the arena never has
written a header. If there are 24 bytes left, and they look like the header of a free block of the same
order, then the last block is merged with them when it is freed.

So what the arena does depends on what the region contains at the start, unless the region is too
small for a block or less than 24 bytes are left (`independent_iff`).
-/

namespace Dlb.Arena

open Blocks

/-! ## Sequences of calls -/

inductive Op
  | init
  | call (c : Call)

namespace Sys

/-- What a call returns, and the state after it. `arena_init` starts again with the memory as it is. -/
def op (r : Region) (t : Sys) : Op → ℕ × Sys
  | .init => (0, .init r t.arena.mem)
  | .call c => t.call c

def ops (r : Region) : Sys → List Op → List ℕ × Sys
  | t, [] => ([], t)
  | t, c :: cs =>
    let (ptr, t) := t.op r c
    let (ptrs, t) := t.ops r cs
    (ptr :: ptrs, t)

/-- The calls are given pointers that the client has. -/
def ValidOps (r : Region) : Sys → List Op → Prop
  | _, [] => True
  | t, .init :: cs => (t.op r .init).2.ValidOps r cs
  | t, .call c :: cs => c.Valid t.held ∧ (t.op r (.call c)).2.ValidOps r cs

end Sys

/-- The same calls return the same pointers and end with the same free blocks, whatever the memory
    is at the start. -/
def Independent (r : Region) : Prop :=
  ∀ m₁ m₂ cs, (Sys.init r m₁).ValidOps r cs → (Sys.init r m₂).ValidOps r cs →
    ((Sys.init r m₁).ops r cs).1 = ((Sys.init r m₂).ops r cs).1 ∧
      ∀ o p, p ∈ freeBlocks ((Sys.init r m₁).ops r cs).2.arena o ↔
        p ∈ freeBlocks ((Sys.init r m₂).ops r cs).2.arena o

variable {r : Region} {T : Field → ℕ} {s : State} {a : Blocks} {t t' : Sys} {x o k p fuel : ℕ}

/-! ## Two runs in step -/

/-- The two states represent the same blocks. -/
def Agree (r : Region) (t t' : Sys) : Prop :=
  t.held = t'.held ∧ ∃ T T' a, Sim r T t a ∧ Sim r T' t' a

theorem agree_init (hr : r.size < 2 ^ 31) (m m' : Mem) : Agree r (.init r m) (.init r m') :=
  ⟨rfl, _, _, _, Sim.init hr, Sim.init hr⟩

namespace Agree

theorem op (h : Agree r t t') (hr : r.size < 2 ^ 31) (hq : ∀ T, Quiet r T) {c : Op} {cs : List Op}
    (hv : t.ValidOps r (c :: cs)) :
    (t.op r c).1 = (t'.op r c).1 ∧ Agree r (t.op r c).2 (t'.op r c).2 := by
  cases c with
  | init => exact ⟨rfl, agree_init hr _ _⟩
  | call c =>
    obtain ⟨hheld, T, T', a, hs, hs'⟩ := h
    obtain ⟨hret, hsim⟩ := hs.call (hq T) hr hv.1
    obtain ⟨hret', hsim'⟩ := hs'.call (hq T') hr (hheld ▸ hv.1)
    have heq : (t.call c).1 = (t'.call c).1 := hret.trans hret'.symm
    refine ⟨heq, ?_, T, T', _, hsim, hsim'⟩
    change c.held t.held (t.call c).1 = c.held t'.held (t'.call c).1
    rw [hheld, heq]

theorem ops (h : Agree r t t') (hr : r.size < 2 ^ 31) (hq : ∀ T, Quiet r T) {cs : List Op}
    (hv : t.ValidOps r cs) :
    (t.ops r cs).1 = (t'.ops r cs).1 ∧ Agree r (t.ops r cs).2 (t'.ops r cs).2 := by
  induction cs generalizing t t' with
  | nil => exact ⟨rfl, h⟩
  | cons c cs ih =>
    have hv' : (t.op r c).2.ValidOps r cs := by
      cases c with
      | init => exact hv
      | call c => exact hv.2
    obtain ⟨hret, h'⟩ := h.op hr hq hv
    obtain ⟨hrets, h''⟩ := ih h' hv'
    refine ⟨?_, h''⟩
    simp only [Sys.ops, hret, hrets]

theorem freeBlocks_eq (h : Agree r t t') (o : ℕ) :
    freeBlocks t.arena o = freeBlocks t'.arena o := by
  obtain ⟨-, T, T', a, hs, hs'⟩ := h
  rw [hs.rep.lists.freeBlocks_eq, hs'.rep.lists.freeBlocks_eq]

end Agree

/-! ## The last block is merged with what is behind it -/

/-- The calls that show the difference: the last block is allocated and freed. -/
def lastOps (r : Region) (x o : ℕ) : List Op :=
  [.call (.alloc (2 ^ o - 24)), .call (.free (r.base + x + 24))]

theorem requiredOrder_pow (h₅ : 5 ≤ o) (h₃₁ : o < 31) : requiredOrder (2 ^ o - 24) = o := by
  have h₁ : 2 ^ 5 ≤ 2 ^ o := Nat.pow_le_pow_right (by omega) h₅
  have h₂ : 2 ^ o < 2 ^ 31 := Nat.pow_lt_pow_right (by omega) h₃₁
  obtain ⟨h₃, h₄, h₅⟩ := orderLoop_spec (show 2 ^ o - 24 < 2 ^ 31 by omega)
    (show 1 + 32 = 33 from rfl) le_rfl (by omega) (by omega)
  change requiredOrder (2 ^ o - 24) ≤ 31 at h₃
  change 2 ^ (requiredOrder (2 ^ o - 24) - 1) < 2 ^ o - 24 + 24 at h₄
  change requiredOrder (2 ^ o - 24) < 31 → 2 ^ o - 24 + 24 ≤ 2 ^ requiredOrder (2 ^ o - 24) at h₅
  rw [Nat.sub_add_cancel (by omega)] at h₄ h₅
  have hle := (Nat.pow_lt_pow_iff_right (by omega)).1 h₄
  have hge := (Nat.pow_le_pow_iff_right (by omega)).1 (h₅ (by omega))
  omega

/-- The only free block of an order is allocated. -/
theorem Blocks.alloc_only (h₅ : 5 ≤ o) (h₃₁ : o < 31) (hf : a.free o = [x]) :
    a.alloc (2 ^ o - 24) = (some x, {
      hdr := Function.update a.hdr x (some (o, false))
      free := Function.update a.free o [] }) := by
  have hlt : 2 ^ o < 2 ^ 31 := Nat.pow_lt_pow_right (by omega) h₃₁
  have hshift : (2 ^ o - 24) >>> 31 = 0 := by
    rw [Nat.shiftRight_eq_div_pow]
    omega
  have hfind : Blocks.findLoop a.free 32 o = o := by
    rw [Blocks.findLoop, if_neg (by simp [hf])]
  have hsplit : Blocks.splitLoop o o a = a := by
    cases o with
    | zero => rfl
    | succ o => exact if_neg (Nat.lt_irrefl _)
  simp only [Blocks.alloc, hshift, requiredOrder_pow h₅ h₃₁, hfind, hsplit, Blocks.take, hf]
  rw [if_neg (by omega), if_neg (by omega), if_neg (by omega)]

theorem blockUnlink_blocks (hk : k ≠ o) : (blockUnlink s o p).blocks k = s.blocks k := by
  simp only [blockUnlink]
  split_ifs <;> simp [hk]

/-- The loop of `arena_free` does not change the lists of smaller orders. -/
theorem freeLoop_blocks (hk : k < o) : (freeLoop fuel s p o).blocks k = s.blocks k := by
  induction fuel generalizing s p o with
  | zero => rfl
  | succ fuel ih =>
    rw [freeLoop]
    dsimp only
    split_ifs
    · rfl
    · rfl
    · rw [ih (by omega), blockLink_blocks, Function.update_of_ne (by omega), set_blocks,
        blockUnlink_blocks (by omega), blockUnlink_blocks (by omega)]
    · rw [ih (by omega), blockLink_blocks, Function.update_of_ne (by omega), set_blocks,
        blockUnlink_blocks (by omega), blockUnlink_blocks (by omega)]
    · rfl

/-- The bytes behind the last block look like the header of a free block of order `o`. -/
structure Fake (T : Field → ℕ) (o : ℕ) : Prop where
  next : T .next = 0
  prev : T .prev = 0
  order : T .order = o
  isFree : T .isFree = 1

theorem Fake.free (hT : Fake T o) (h : Rep r T s a) (hi : Inv r.managed ∅ a)
    (hx : a.hdr x = some (o, false)) (hf : a.free o = []) (hb : buddy x o = r.managed) (h₃₁ : o < 31)
    (hr : ¬r.size % 32 < 24) : (arenaFree s (r.base + x + 24)).blocks o = 0 := by
  have hrel := (h.release hi hx (U := fun _ _ => False) fun _ _ hno => hno.elim).1
  have hslot : Slot r r.tail :=
    ⟨_, rfl, Nat.dvd_mul_right _ _, by rw [Region.managed]; omega⟩
  have htail := (hi.isBlock hx).2
  obtain ⟨s', hs'⟩ : ∃ s', blockLink (s.set .isFree (r.base + x) 1) o (r.base + x) = s' := ⟨_, rfl⟩
  rw [hs'] at hrel
  have hc : buddyOf s'.base (r.base + x) o = r.tail := by
    rw [buddyOf, hrel.lists.base, Nat.add_sub_cancel_left, Region.tail, ← hb, buddy]
  have hle : ¬r.tail + 24 > s'.base + s'.size := by
    rw [hrel.lists.base, hrel.lists.size, Region.tail, Region.managed]
    omega
  -- The block is the only one of its list.
  have v := hrel.view.unlink (show x ∈ (a.release x o).free o by simp [Blocks.release])
  have hblk : (blockUnlink s' o (r.base + x)).blocks o = 0 := by
    rw [v.lists.blocks_eq_zero_iff]
    simp [Blocks.release, hf]
  have hunlink : (blockUnlink (blockUnlink s' o (r.base + x)) o r.tail).blocks o = 0 := by
    obtain ⟨s'', hs''⟩ : ∃ s'', blockUnlink s' o (r.base + x) = s'' := ⟨_, rfl⟩
    rw [hs''] at v hblk ⊢
    simp [blockUnlink, v.tail_eq hslot, hT.next, hT.prev]
  rw [arenaFree, if_neg (by omega)]
  simp only [Nat.add_sub_cancel, (h.hdr x o false hx).1]
  rw [hs', freeLoop, if_pos (by omega)]
  simp only [hc]
  rw [if_neg hle, if_neg, if_neg (by rw [Region.tail]; omega), freeLoop_blocks (by omega),
    blockLink_blocks, Function.update_of_ne (by omega), set_blocks]
  · exact hunlink
  · rw [hrel.tail hslot, hrel.tail hslot, hT.isFree, hT.order]
    simp

theorem freeBlocks_eq_nil (h : s.blocks o = 0) : freeBlocks s o = [] := by
  rw [freeBlocks, h]
  cases s.size <;> simp [listBlocks]

/-- The last block of the start is the only one of its order. -/
structure Last (r : Region) (x o : ℕ) : Prop where
  hdr : (Blocks.init r.size).hdr x = some (o, true)
  free : (Blocks.init r.size).free o = [x]
  buddy : Dlb.buddy x o = r.managed
  le : 5 ≤ o
  lt : o < 31

theorem exists_last (hr : r.size < 2 ^ 31) (h₃₂ : 32 ≤ r.size) : ∃ x o, Last r x o := by
  have hinit := init_spec hr
  have hall : (Blocks.init r.size).AllFree := fun x o b hx => (hinit.free x o b hx).1
  obtain ⟨x, o, hx, -, hb⟩ := hinit.inv.tiling.exists_last (hinit.inv.isMerged hall) (by omega)
  obtain ⟨⟨k, b⟩, hk, rfl⟩ := Option.map_eq_some_iff.1 hx
  obtain rfl := hall x k b hk
  have hfree : (Blocks.init r.size).free k = [x] := by
    rw [← List.perm_singleton,
      List.perm_ext_iff_of_nodup (hinit.inv.nodup k) (List.nodup_singleton x)]
    intro y
    rw [hinit.inv.mem, List.mem_singleton]
    constructor
    · exact fun hy => hinit.inj y x k hy hk
    · rintro rfl
      exact hk
  exact ⟨x, k, hk, hfree, hb, (hinit.inv.block hk).1, hinit.inv.order_lt (managed_lt hr) hk⟩

namespace Last

/-- The blocks when the last one is allocated. -/
def allocated (r : Region) (x o : ℕ) : Blocks where
  hdr := Function.update (Blocks.init r.size).hdr x (some (o, false))
  free := Function.update (Blocks.init r.size).free o []

/-- The last block is allocated, whatever the memory is. -/
theorem alloc (h : Last r x o) (hr : r.size < 2 ^ 31) (m : Mem) :
    ∃ s, Rep r (Rep.tailOf r m) s (allocated r x o) ∧ Inv r.managed ∅ (allocated r x o) ∧
      (Sys.init r m).ValidOps r (lastOps r x o) ∧
      ((Sys.init r m).ops r (lastOps r x o)).2.arena = arenaFree s (r.base + x + 24) := by
  have hsim := Sim.init (m := m) hr
  have hall := Blocks.alloc_only h.le h.lt h.free
  obtain ⟨hptr, hrep⟩ := hsim.rep.alloc hsim.inv (2 ^ o - 24)
  rw [hall] at hptr hrep
  have hinv : Inv r.managed ∅ (allocated r x o) := by
    rcases alloc_spec (2 ^ o - 24) hsim.inv (managed_lt hr) with e | ⟨y, k, a', e, hi', -⟩
    · rw [hall] at e
      simp at e
    · rw [hall] at e
      rw [← (Prod.mk.inj e).2] at hi'
      exact hi'
  refine ⟨_, hrep, hinv, ⟨trivial, .inr ?_, trivial⟩, rfl⟩
  change (Call.alloc (2 ^ o - 24)).held (fun _ => none)
    (arenaAlloc (Sys.init r m).arena (2 ^ o - 24)).1 (r.base + x + 24) ≠ none
  rw [hptr, Call.held, if_neg Region.ptr_some_ne_zero, Region.ptr, Function.update_self]
  simp

/-- The last block is in its list again if nothing is marked as free behind it. -/
theorem mem_freeBlocks (h : Last r x o) (hr : r.size < 2 ^ 31) {m : Mem}
    (hq : Quiet r (Rep.tailOf r m)) :
    r.base + x ∈ freeBlocks ((Sys.init r m).ops r (lastOps r x o)).2.arena o := by
  obtain ⟨s, hrep, hinv, -, he⟩ := h.alloc hr m
  have hx : (allocated r x o).hdr x = some (o, false) := Function.update_self ..
  have hrep' := hrep.free hq hinv hx
  have hdealloc : (allocated r x o).dealloc x = (allocated r x o).release x o := by
    rw [Blocks.dealloc, hx]
    refine if_neg fun hb => ?_
    have := ((hinv.release hx).isBlock hb.2).2
    rw [h.buddy] at this
    omega
  rw [he, hrep'.lists.freeBlocks_eq, hdealloc]
  simp [Blocks.release]

theorem freeBlocks_eq_nil_of_fake (h : Last r x o) (hr : r.size < 2 ^ 31) (hr' : ¬r.size % 32 < 24)
    {m : Mem} (hT : Fake (Rep.tailOf r m) o) :
    freeBlocks ((Sys.init r m).ops r (lastOps r x o)).2.arena o = [] := by
  obtain ⟨s, hrep, hinv, -, he⟩ := h.alloc hr m
  rw [he]
  exact freeBlocks_eq_nil (hT.free hrep hinv (Function.update_self ..) (Function.update_self ..)
    h.buddy h.lt hr')

end Last

/-- A memory with a fake header behind the last block. -/
def fakeMem (r : Region) (o : ℕ) : Mem := fun p =>
  if p = r.tail + 16 then UInt8.ofNat o else if p = r.tail + 17 then 1 else 0

theorem fake_fakeMem (ho : o < 31) : Fake (Rep.tailOf r (fakeMem r o)) o := by
  have hzero : ∀ p, p < r.tail + 16 → fakeMem r o p = 0 := by
    intro p hp
    rw [fakeMem, if_neg (by omega), if_neg (by omega)]
  refine ⟨?_, ?_, ?_, ?_⟩
  · exact Mem.load_eq_zero fun q _ hq => hzero q (by simp only [Field.offset, Field.bytes] at hq; omega)
  · exact Mem.load_eq_zero fun q _ hq => hzero q (by simp only [Field.offset, Field.bytes] at hq; omega)
  · rw [Rep.tailOf, Field.offset, Field.bytes, Mem.load_one, fakeMem, if_pos rfl, UInt8.toNat_ofNat']
    omega
  · rw [Rep.tailOf, Field.offset, Field.bytes, Mem.load_one, fakeMem, if_neg (by omega), if_pos rfl]
    rfl

/-- What the arena does is independent of what the region contains at the start if and only if there
    is no block, or no room for a header behind the last one. -/
theorem independent_iff (hr : r.size < 2 ^ 31) :
    Independent r ↔ r.size < 32 ∨ r.size % 32 < 24 := by
  constructor
  · intro h
    by_contra hsize
    obtain ⟨h₃₂, h₂₄⟩ := not_or.1 hsize
    obtain ⟨x, o, hlast⟩ := exists_last hr (Nat.le_of_not_lt h₃₂)
    obtain ⟨-, -, -, hv, -⟩ := hlast.alloc hr fun _ => 0
    obtain ⟨-, -, -, hv', -⟩ := hlast.alloc hr (fakeMem r o)
    have hmem := ((h _ _ _ hv hv').2 o (r.base + x)).1
      (hlast.mem_freeBlocks hr (quiet_zero fun _ _ => rfl))
    rw [hlast.freeBlocks_eq_nil_of_fake hr h₂₄ (fake_fakeMem hlast.lt)] at hmem
    exact absurd hmem List.not_mem_nil
  · intro h m₁ m₂ cs hv _
    obtain ⟨hret, hagree⟩ := (agree_init hr m₁ m₂).ops hr (fun T => h.imp_right .inl) hv
    exact ⟨hret, fun o p => by rw [hagree.freeBlocks_eq]⟩

/-- A region of 64 bytes is tiled by its blocks. -/
theorem independent_iff_tiled : Independent ⟨4096, 64, by decide, by decide⟩ :=
  (independent_iff (by decide)).2 (.inr (by decide))

/-- The last block of a region of 56 bytes is merged with what is behind it. -/
theorem not_independent_fake : ¬Independent ⟨4096, 56, by decide, by decide⟩ := by
  intro h
  have hmem := (h (fun _ => 0) (fun p => if p = 4144 then 5 else if p = 4145 then 1 else 0)
    [.call (.alloc 8), .call (.free 4120)] ⟨trivial, .inr (by decide +kernel), trivial⟩
    ⟨trivial, .inr (by decide +kernel), trivial⟩).2 5 4096
  revert hmem
  decide +kernel

end Dlb.Arena
