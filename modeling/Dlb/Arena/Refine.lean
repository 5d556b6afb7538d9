import Dlb.Arena.Lists
import Dlb.Arena.Model

/-!
# The memory represents the blocks

`Rep` says that the headers in the memory are those of the blocks, and that the lists in the memory
are those of the free blocks. Each function of `Dlb.Arena.Code` keeps it, and does what the
one of `Dlb.Arena.Model` does.

The only bytes that are read and are not part of the header of a block are those behind the last
block. `arena_free` takes them for a header if there are 24 of them. No function changes them, and
they do no harm if `Quiet` holds.
-/

namespace Dlb.Arena

open Blocks

variable {r : Region} {T : Field → ℕ} {s : State} {a : Blocks} {o i k p q x y n : ℕ} {E : Set ℕ}
  {b : Bool} {f : Field} {U : ℕ → ℕ → Prop}

/-- The fields behind the last block are `T`. -/
structure Rep (r : Region) (T : Field → ℕ) (s : State) (a : Blocks) : Prop where
  lists : Lists r s a.free
  hdr : ∀ x o b, a.hdr x = some (o, b) →
    s.get .order (r.base + x) = o ∧ s.get .isFree (r.base + x) = b.toNat
  tail : Slot r r.tail → ∀ f, s.get f r.tail = T f

/-- There is no block, or there is no room for a header behind the last one, or what is there is not
    marked as free. -/
def Quiet (r : Region) (T : Field → ℕ) : Prop :=
  r.size < 32 ∨ r.size % 32 < 24 ∨ T .isFree = 0

theorem Blocks.Inv.isBlock (h : Inv r.managed E a) (hx : a.hdr x = some (o, b)) : Block r x := by
  obtain ⟨ho, hd, hle⟩ := h.block hx
  have hpow : 2 ^ 5 ∣ 2 ^ o := Nat.pow_dvd_pow 2 ho
  have := Nat.le_of_dvd (Nat.two_pow_pos o) hpow
  exact ⟨hpow.trans hd, by omega⟩

/-- Blocks are clear of what is allocated. -/
theorem Blocks.Inv.clear (h : Inv r.managed E a) (hU : ∀ y k, U y k → a.hdr y = some (k, false))
    (hx : a.hdr x = some (o, b)) : Clear U x := by
  intro y k hy
  have := h.tiling.apart y x k o (Inv.ord_eq (hU y k hy)) (Inv.ord_eq hx)
  omega

namespace Rep

/-- The view of the memory. -/
theorem view (h : Rep r T s a) : View r T s a.free (s.get .order) (s.get .isFree) :=
  ⟨h.lists, fun _ _ => rfl, fun _ _ => rfl, h.tail⟩

/-- The view of the memory, with some blocks that are allocated. -/
theorem tracked (h : Rep r T s a) (hi : Inv r.managed E a)
    (hU : ∀ y k, U y k → a.hdr y = some (k, false)) :
    Tracked r T U s.mem s a.free (s.get .order) (s.get .isFree) :=
  ⟨h.view, fun o x hx => hi.clear hU ((hi.mem o x).1 hx), fun _ _ _ _ _ _ => rfl⟩

theorem of_view {order isFree : ℕ → ℕ} (hv : View r T s a.free order isFree)
    (hs : ∀ x o b, a.hdr x = some (o, b) → Block r x)
    (hh : ∀ x o b, a.hdr x = some (o, b) →
      order (r.base + x) = o ∧ isFree (r.base + x) = b.toNat) : Rep r T s a := by
  refine ⟨hv.lists, fun x o b hx => ?_, hv.tail_eq⟩
  have hslot := (hs x o b hx).slot
  rw [hv.order_eq _ hslot, hv.isFree_eq _ hslot]
  exact hh x o b hx

theorem split (h : Rep r T s a) (hi : Inv r.managed {x | x ∈ (a.free (i + 1)).head?} a)
    (hf : a.free (i + 1) ≠ []) (h₅ : 5 ≤ i) (h₃₁ : i < 31)
    (hU : ∀ y k, U y k → a.hdr y = some (k, false)) :
    Rep r T (splitBlock s i) (a.split i) ∧ Kept r U s.mem (splitBlock s i) := by
  obtain ⟨x, xs, hxs⟩ := List.exists_cons_of_ne_nil hf
  have hx := hi.head hxs
  have hpos := Nat.two_pow_pos i
  have hpow : 2 ^ (i + 1) = 2 * 2 ^ i := by ring
  have hnone : a.hdr (x + 2 ^ i) = none := hi.hdr_eq_none hx (by omega) (by omega)
  have hi' := (hi.split hf h₅).1
  have hsplit := split_eq hxs
  have hx' : (a.split i).hdr x = some (i, true) := by simp [hsplit]
  have hy' : (a.split i).hdr (x + 2 ^ i) = some (i, true) := by simp [hsplit]
  have hb := hi'.isBlock hx'
  have hc := hi'.isBlock hy'
  have hbc : Clear U x := hi.clear hU hx
  have hcc : Clear U (x + 2 ^ i) := hi'.clear (fun y k hy => (split_used hi hf).2 (hU y k hy)) hy'
  -- The steps of the code, one after the other.
  have v₁ := (h.tracked hi hU).unlink (show x ∈ a.free (i + 1) by simp [hxs])
  rw [hxs, List.erase_cons_head] at v₁
  have v₂ := ((v₁.setIsFree hc hcc (show 1 < 256 by omega)).setOrder hc hcc
    (show i < 256 by omega)).setOrder hb hbc (show i < 256 by omega)
  have v₃ := v₂.link i hb hbc fun o hmem => by
    have := hi.mem o x
    have := hi.nodup (i + 1)
    rw [Function.update_apply] at hmem
    grind
  have v₄ := v₃.link i hc hcc fun o hmem => by
    have := hi.mem o (x + 2 ^ i)
    have := hi.mem (i + 1) (x + 2 ^ i)
    simp only [Function.update_apply] at hmem
    grind
  have hfree : (a.split i).free = Function.update (Function.update (Function.update a.free (i + 1) xs) i
      (x :: Function.update a.free (i + 1) xs i)) i ((x + 2 ^ i) ::
        Function.update (Function.update a.free (i + 1) xs) i
          (x :: Function.update a.free (i + 1) xs i) i) := by
    simp [hsplit]
  rw [← hfree] at v₄
  simp only [splitBlock, h.lists.blocks_eq hxs, Nat.add_assoc]
  refine ⟨of_view v₄.toView (fun _ _ _ => hi'.isBlock) fun y k b hy => ?_, v₄.kept⟩
  have hfree₁ := (h.hdr x _ _ hx).2
  simp only [hsplit, Function.update_apply] at hy
  simp only [Function.update_apply, Nat.add_right_inj]
  split_ifs at hy with h₁ h₂
  · obtain ⟨rfl, rfl⟩ := Prod.mk.inj (Option.some.inj hy)
    simp [h₁]
  · obtain ⟨rfl, rfl⟩ := Prod.mk.inj (Option.some.inj hy)
    simp [h₂, hfree₁]
  · rw [if_neg h₂, if_neg h₁, if_neg h₁]
    exact h.hdr y k b hy

theorem findLoop_eq (h : Rep r T s a) {fuel : ℕ} :
    Arena.findLoop s.blocks fuel i = Blocks.findLoop a.free fuel i := by
  induction fuel generalizing i with
  | zero => rfl
  | succ fuel ih => simp only [Arena.findLoop, Blocks.findLoop, ih, h.lists.blocks_eq_zero_iff]

theorem splitLoop (h : Rep r T s a) (hi : Inv r.managed {x | x ∈ (a.free i).head?} a)
    (hf : a.free i ≠ []) (h₅ : 5 ≤ o) (hoi : o ≤ i) (h₃₁ : i ≤ 31)
    (hU : ∀ y k, U y k → a.hdr y = some (k, false)) :
    Rep r T (Arena.splitLoop o i s) (Blocks.splitLoop o i a) ∧
      Kept r U s.mem (Arena.splitLoop o i s) := by
  induction i generalizing s a with
  | zero => exact ⟨h, fun _ _ _ _ _ _ => rfl⟩
  | succ i ih =>
    rw [Arena.splitLoop, Blocks.splitLoop]
    split_ifs with hlt
    · obtain ⟨hi', hf'⟩ := hi.split hf (by omega)
      obtain ⟨hs, hk⟩ := h.split hi hf (by omega) (by omega) hU
      obtain ⟨hs', hk'⟩ := ih hs hi' hf' (by omega) (by omega) fun y k hy =>
        (split_used hi hf).2 (hU y k hy)
      exact ⟨hs', hk.trans hk'⟩
    · exact ⟨h, fun _ _ _ _ _ _ => rfl⟩

theorem take (h : Rep r T s a) (hi : Inv r.managed {x | x ∈ (a.free o).head?} a) {xs : List ℕ}
    (hf : a.free o = x :: xs) (hU : ∀ y k, U y k → a.hdr y = some (k, false)) :
    s.blocks o = r.base + x ∧
      Rep r T ((blockUnlink s o (r.base + x)).set .isFree (r.base + x) 0) (a.take o).2 ∧
      Kept r U s.mem ((blockUnlink s o (r.base + x)).set .isFree (r.base + x) 0) := by
  have hx := hi.head hf
  obtain ⟨-, -, -, -, hi'⟩ := hi.take (by simp [hf])
  have htake : (a.take o).2 = {
      hdr := Function.update a.hdr x (some (o, false))
      free := Function.update a.free o xs } := by
    rw [Blocks.take, hf]
  refine ⟨h.lists.blocks_eq hf, ?_⟩
  have v := ((h.tracked hi hU).unlink (show x ∈ a.free o by simp [hf])).setIsFree (hi.isBlock hx)
    (hi.clear hU hx) (show 0 < 256 by omega)
  rw [hf, List.erase_cons_head] at v
  rw [htake] at hi' ⊢
  refine ⟨of_view v.toView (fun _ _ _ => hi'.isBlock) fun y k b hy => ?_, v.kept⟩
  simp only [Function.update_apply, Nat.add_right_inj] at hy ⊢
  split_ifs at hy with hyx
  · obtain ⟨rfl, rfl⟩ := Prod.mk.inj (Option.some.inj hy)
    simp [hyx, (h.hdr x _ _ hx).1]
  · rw [if_neg hyx]
    exact h.hdr y k b hy

end Rep

/-- The pointer to the block at an offset. -/
def Region.ptr (r : Region) : Option ℕ → ℕ
  | none => 0
  | some x => r.base + x + 24

/-- What is allocated is kept. -/
theorem Rep.alloc_kept (h : Rep r T s a) (hi : Inv r.managed ∅ a)
    (hU : ∀ y k, U y k → a.hdr y = some (k, false)) (n : ℕ) :
    (arenaAlloc s n).1 = r.ptr (a.alloc n).1 ∧ Rep r T (arenaAlloc s n).2 (a.alloc n).2 ∧
      Kept r U s.mem (arenaAlloc s n).2 := by
  have hrefl : Kept r U s.mem s := fun _ _ _ _ _ _ => rfl
  rw [arenaAlloc, Blocks.alloc]
  split_ifs with h₁
  · exact ⟨rfl, h, hrefl⟩
  have hn : n < 2 ^ 31 := by
    rw [not_not, Nat.shiftRight_eq_div_pow] at h₁
    omega
  obtain ⟨h₅, h₃₁, -⟩ := requiredOrder_spec hn
  dsimp only
  rw [h.findLoop_eq]
  split_ifs with h₂ h₃
  · exact ⟨rfl, h, hrefl⟩
  · exact ⟨rfl, h, hrefl⟩
  obtain ⟨hle, hne⟩ := findLoop_spec a.free (show 32 ≤ requiredOrder n + 32 by omega)
  have hf := hne (by omega)
  have hi₀ := hi.mono (Set.empty_subset {x | x ∈ (a.free (Blocks.findLoop a.free 32 (requiredOrder n))).head?})
  obtain ⟨hrep, hk⟩ := h.splitLoop hi₀ hf h₅ hle (by omega) hU
  obtain ⟨hi', hf', hused⟩ := splitLoop_spec hi₀ hf h₅ hle
  obtain ⟨x, xs, hxs⟩ := List.exists_cons_of_ne_nil hf'
  obtain ⟨hblk, hrep', hk'⟩ := hrep.take hi' hxs fun y k hy => (hused y k).2 (hU y k hy)
  rw [hblk]
  refine ⟨?_, hrep', hk.trans hk'⟩
  rw [Blocks.take, hxs]
  rfl

theorem Rep.alloc (h : Rep r T s a) (hi : Inv r.managed ∅ a) (n : ℕ) :
    (arenaAlloc s n).1 = r.ptr (a.alloc n).1 ∧ Rep r T (arenaAlloc s n).2 (a.alloc n).2 := by
  obtain ⟨hptr, hrep, -⟩ := h.alloc_kept hi (U := fun _ _ => False) (fun _ _ hno => hno.elim) n
  exact ⟨hptr, hrep⟩

namespace Rep

/-- Two buddies are merged. -/
theorem merge (h : Rep r T s a) (hi : Inv r.managed E a) (hx : a.hdr x = some (o, true))
    (hy : a.hdr (x + 2 ^ o) = some (o, true)) (hi' : Inv r.managed {x} (a.merge x o)) (h₃₁ : o < 31)
    (hU : ∀ y k, U y k → a.hdr y = some (k, false)) {s' : State}
    (hs : s' = blockLink ((blockUnlink (blockUnlink s o (r.base + x)) o (r.base + (x + 2 ^ o))).set .order
      (r.base + x) (o + 1)) (o + 1) (r.base + x)) : Rep r T s' (a.merge x o) ∧ Kept r U s.mem s' := by
  subst hs
  have hpos := Nat.two_pow_pos o
  have hb := hi.isBlock hx
  have hxo := (hi.mem o x).2 hx
  have v₁ := (h.tracked hi hU).unlink hxo
  have v₂ := v₁.unlink (x := x + 2 ^ o) (o := o) (by
    rw [Function.update_self, (hi.nodup o).mem_erase_iff]
    exact ⟨by omega, (hi.mem o _).2 hy⟩)
  rw [Function.update_self, Function.update_idem] at v₂
  have hbc : Clear U x := hi.clear hU hx
  have v₃ := (v₂.setOrder hb hbc (show o + 1 < 256 by omega)).link (o + 1) hb hbc fun k hk => by
    have hmem := hi.mem k x
    have herase := (hi.nodup o).not_mem_erase (a := x)
    have hsub := List.mem_of_mem_erase (a := x) (b := x + 2 ^ o) (l := (a.free o).erase x)
    simp only [Function.update_apply] at hk
    grind
  rw [Function.update_of_ne (by omega)] at v₃
  refine ⟨of_view v₃.toView (fun _ _ _ => hi'.isBlock) fun z k b hz => ?_, v₃.kept⟩
  simp only [Blocks.merge, Function.update_apply, Nat.add_right_inj] at hz ⊢
  split_ifs at hz with h₁ h₂
  · obtain ⟨rfl, rfl⟩ := Prod.mk.inj (Option.some.inj hz)
    simp [h₁, (h.hdr x _ _ hx).2]
  · rw [if_neg h₁]
    exact h.hdr z k b hz

/-- The loop of `arena_free` merges a block if its buddy is a free block of the same order. -/
theorem isFree_buddy_iff (h : Rep r T s a) (hq : Quiet r T) (hi : Inv r.managed E a)
    (hx : a.hdr x = some (o, b)) :
    (¬r.base + buddy x o + 24 > r.base + r.size ∧
      ¬(s.get .isFree (r.base + buddy x o) = 0 ∨ s.get .order (r.base + buddy x o) ≠ o)) ↔
        a.hdr (buddy x o) = some (o, true) := by
  constructor
  · rintro ⟨hle, hh⟩
    by_cases hlt : buddy x o < r.managed
    · obtain ⟨k, -, hk⟩ := hi.tiling.buddy_start (Inv.ord_eq hx) hlt
      obtain ⟨⟨k', b'⟩, hy, hk'⟩ := Option.map_eq_some_iff.1 hk
      obtain rfl : k' = k := hk'
      have hyh := h.hdr _ _ _ hy
      rw [hyh.1, hyh.2, not_or, not_not] at hh
      obtain ⟨hb', rfl⟩ := hh
      rw [hy, Bool.toNat_eq_zero.not.1 hb' |> Bool.eq_true_of_not_eq_false]
    · -- The buddy is behind the last block.
      obtain ⟨h₅, hd, -⟩ := hi.block hx
      have hdy : 32 ∣ buddy x o := (Nat.pow_dvd_pow 2 h₅).trans (dvd_buddy hd)
      have he : buddy x o = r.managed := by
        rw [Region.managed] at hlt ⊢
        omega
      have hM := (hi.isBlock hx).2
      rw [he] at hle hh
      rw [Region.managed] at hle hM
      have hslot : Slot r r.tail := ⟨_, rfl, Nat.dvd_mul_right _ _, by rw [Region.managed]; omega⟩
      have hfree : T .isFree = 0 := (hq.resolve_left (by omega)).resolve_left (by omega)
      exact absurd (.inl ((h.tail hslot .isFree).trans hfree)) hh
  · intro hy
    have hyh := h.hdr _ _ _ hy
    have hle := (hi.isBlock hy).2
    rw [Region.managed] at hle
    rw [hyh.1, hyh.2]
    exact ⟨by omega, by simp⟩

theorem freeLoop (h : Rep r T s a) (hq : Quiet r T) (hi : Inv r.managed {x} a) (hx : a.hdr x = some (o, true))
    (hU : ∀ y k, U y k → a.hdr y = some (k, false)) {fuel : ℕ} :
    Rep r T (Arena.freeLoop fuel s (r.base + x) o) (Blocks.mergeLoop fuel a x o) ∧
      Kept r U s.mem (Arena.freeLoop fuel s (r.base + x) o) := by
  have hrefl : ∀ s : State, Kept r U s.mem s := fun _ _ _ _ _ _ _ => rfl
  induction fuel generalizing s a x o with
  | zero => exact ⟨h, hrefl s⟩
  | succ fuel ih =>
    have hiff := h.isFree_buddy_iff hq hi hx
    have hbuddy : buddyOf r.base (r.base + x) o = r.base + buddy x o := by
      rw [buddyOf, Nat.add_sub_cancel_left, buddy]
    by_cases hy : o + 1 < 32 ∧ a.hdr (buddy x o) = some (o, true)
    · rw [Blocks.mergeLoop, if_pos hy, Arena.freeLoop, if_pos hy.1]
      simp only [h.lists.base, h.lists.size, hbuddy]
      obtain ⟨ho, hy⟩ := hy
      obtain ⟨h₁, h₂⟩ := hiff.2 hy
      rw [if_neg h₁, if_neg h₂]
      obtain ⟨hi', hx'⟩ := hi.merge hx hy
      have hpos := Nat.two_pow_pos o
      -- The loop goes on with the lower one of the two.
      rcases buddy_cases (hi.block hx).2.1 with ⟨-, e⟩ | ⟨-, e⟩
      · rw [min_eq_left (Nat.le.intro e.symm)] at hi' hx' ⊢
        rw [if_neg (by omega)]
        rw [e] at hy ⊢
        obtain ⟨hrep, hk⟩ := h.merge hi hx hy hi' (by omega) hU rfl
        obtain ⟨hrep', hk'⟩ := ih hrep hi' hx' fun y k hz => (merge_used hx hy).2 (hU y k hz)
        exact ⟨hrep', hk.trans hk'⟩
      · rw [min_eq_right (Nat.le.intro e.symm)] at hi' hx' ⊢
        rw [if_pos (by omega)]
        have hx₂ : a.hdr (buddy x o + 2 ^ o) = some (o, true) := e ▸ hx
        obtain ⟨hrep, hk⟩ := h.merge hi hy hx₂ hi' (by omega) hU rfl
        rw [← e] at hrep hk
        obtain ⟨hrep', hk'⟩ := ih hrep hi' hx' fun y k hz => (merge_used hy hx₂).2 (hU y k hz)
        exact ⟨hrep', hk.trans hk'⟩
    · rw [Blocks.mergeLoop, if_neg hy, Arena.freeLoop]
      simp only [h.lists.base, h.lists.size, hbuddy]
      split
      · rename_i ho
        split
        · exact ⟨h, hrefl s⟩
        · rename_i h₁
          split
          · exact ⟨h, hrefl s⟩
          · rename_i h₂
            exact absurd ⟨ho, hiff.1 ⟨h₁, h₂⟩⟩ hy
      · exact ⟨h, hrefl s⟩

/-- The first half of `arena_free`. -/
theorem release (h : Rep r T s a) (hi : Inv r.managed ∅ a) (hx : a.hdr x = some (o, false))
    (hU : ∀ y k, U y k → a.hdr y = some (k, false)) :
    Rep r T (blockLink (s.set .isFree (r.base + x) 1) o (r.base + x)) (a.release x o) ∧
      Kept r U s.mem (blockLink (s.set .isFree (r.base + x) 1) o (r.base + x)) := by
  have hb := hi.isBlock hx
  have hbc : Clear U x := hi.clear hU hx
  have v := ((h.tracked hi hU).setIsFree hb hbc (show 1 < 256 by omega)).link o hb hbc fun k hk => by
    have := (hi.mem k x).1 hk
    simp [hx] at this
  refine ⟨of_view v.toView (fun _ _ _ => (hi.release hx).isBlock) fun y k b hy => ?_, v.kept⟩
  simp only [Blocks.release, Function.update_apply, Nat.add_right_inj] at hy ⊢
  split_ifs at hy with hyx
  · obtain ⟨rfl, rfl⟩ := Prod.mk.inj (Option.some.inj hy)
    simp [hyx, (h.hdr x o false hx).1]
  · rw [if_neg hyx]
    exact h.hdr y k b hy

/-- What else is allocated is kept. -/
theorem free_kept (h : Rep r T s a) (hq : Quiet r T) (hi : Inv r.managed ∅ a)
    (hx : a.hdr x = some (o, false)) (hU : ∀ y k, U y k → y ≠ x ∧ a.hdr y = some (k, false)) :
    Rep r T (arenaFree s (r.base + x + 24)) (a.dealloc x) ∧
      Kept r U s.mem (arenaFree s (r.base + x + 24)) := by
  rw [arenaFree, if_neg (by omega), Blocks.dealloc, hx]
  simp only [Nat.add_sub_cancel, (h.hdr x o false hx).1]
  obtain ⟨hrep, hk⟩ := h.release hi hx fun y k hy => (hU y k hy).2
  obtain ⟨hrep', hk'⟩ := freeLoop hrep hq (hi.release hx) (Function.update_self ..) fun y k hy => by
    obtain ⟨hne, hused⟩ := hU y k hy
    exact (Function.update_of_ne hne ..).trans hused
  exact ⟨hrep', hk.trans hk'⟩

theorem free (h : Rep r T s a) (hq : Quiet r T) (hi : Inv r.managed ∅ a)
    (hx : a.hdr x = some (o, false)) : Rep r T (arenaFree s (r.base + x + 24)) (a.dealloc x) :=
  (h.free_kept hq hi hx (U := fun _ _ => False) fun _ _ hno => hno.elim).1

/-- The memory changes inside of a block that is allocated, behind its header. -/
theorem write (h : Rep r T s a) (hi : Inv r.managed ∅ a) (hx : a.hdr x = some (o, false)) {m : Mem}
    (hm : ∀ q, ¬(r.base + x + 24 ≤ q ∧ q < r.base + x + 2 ^ o) → m q = s.mem q) :
    Rep r T { s with mem := m } a := by
  -- The header of a block does not overlap with what is behind the header of another one.
  have hlive : ∀ {y k b}, a.hdr y = some (k, b) →
      ∀ f, State.get { s with mem := m } f (r.base + y) = s.get f (r.base + y) := by
    intro y k b hy f
    have hk : 2 ^ 5 ≤ 2 ^ k := Nat.pow_le_pow_right (by omega) (hi.block hy).1
    have h₁ := hi.tiling.apart y x k o (Inv.ord_eq hy) (Inv.ord_eq hx)
    have h₂ := hi.tiling.apart x y o k (Inv.ord_eq hx) (Inv.ord_eq hy)
    refine get_congr fun p hp₁ hp₂ => hm p ?_
    rcases lt_trichotomy x y with hlt | rfl | hlt <;> omega
  have htail : ∀ f, State.get { s with mem := m } f r.tail = s.get f r.tail := by
    intro f
    have := (hi.block hx).2.2
    exact get_congr fun p hp₁ hp₂ => hm p (by rw [Region.tail] at hp₁; omega)
  refine ⟨h.lists.congr rfl rfl rfl fun k y hy => hlive ((hi.mem k y).1 hy), fun y k b hy => ?_,
    fun hs f => ?_⟩
  · rw [hlive hy, hlive hy]
    exact h.hdr y k b hy
  · rw [htail]
    exact h.tail hs f

theorem realloc (h : Rep r T s a) (hq : Quiet r T) (hi : Inv r.managed ∅ a) (hr : r.size < 2 ^ 31)
    (hx : a.hdr x = some (o, false)) (n : ℕ) :
    (arenaRealloc s (r.base + x + 24) n).1 = r.ptr (a.realloc x n).1 ∧
      Rep r T (arenaRealloc s (r.base + x + 24) n).2 (a.realloc x n).2 := by
  have hM : r.managed < 2 ^ 31 := by rw [Region.managed]; omega
  have hord := (h.hdr x o false hx).1
  rw [arenaRealloc, if_neg (by omega), Blocks.realloc]
  simp only [Nat.add_sub_cancel, hord, Inv.ord_eq hx, Option.some.injEq,
    eq_comm (a := requiredOrder n + 1)]
  by_cases h₁ : n >>> 31 ≠ 0
  · rw [if_pos h₁, if_pos h₁]
    exact ⟨rfl, h⟩
  rw [if_neg h₁, if_neg h₁]
  by_cases h₂ : requiredOrder n ≥ 32
  · rw [if_pos h₂, if_pos h₂]
    exact ⟨rfl, h⟩
  rw [if_neg h₂, if_neg h₂]
  by_cases h₃ : o = requiredOrder n ∨ o = requiredOrder n + 1
  · rw [if_pos h₃, if_pos h₃]
    exact ⟨rfl, h⟩
  rw [if_neg h₃, if_neg h₃]
  obtain ⟨hptr, hrep⟩ := h.alloc hi n
  rcases alloc_spec n hi hM with e | ⟨y, k, a', e, hi', hk, hy, hused⟩
  · rw [e] at hptr hrep ⊢
    rw [hptr]
    exact ⟨rfl, hrep⟩
  · rw [e] at hptr hrep ⊢
    rw [hptr]
    have hx' := (hused x o).2 (.inr hx)
    have hy' := (hused y k).2 (.inl ⟨rfl, rfl⟩)
    have hne : r.ptr (some y) ≠ 0 := by simp [Region.ptr]
    rw [if_neg hne]
    refine ⟨rfl, Rep.free (hrep.write hi' hy' fun q hq => Mem.copy_of_not_mem ?_) hq hi' hx'⟩
    rw [Region.ptr]
    have := Nat.min_le_right (2 ^ (arenaAlloc s n).2.get .order (r.base + x) - 24) n
    omega

theorem dvd_shl1 (h : ¬shl1 o < 24) : 32 ∣ shl1 o ∧ 32 ≤ shl1 o := by
  rw [shl1] at h ⊢
  split_ifs at h ⊢
  · omega
  · have h₅ : 5 ≤ o := by
      by_contra ho
      have : 2 ^ o ≤ 2 ^ 4 := Nat.pow_le_pow_right (by omega) (by omega)
      omega
    have hd : 2 ^ 5 ∣ 2 ^ o := Nat.pow_dvd_pow 2 h₅
    exact ⟨hd, Nat.le_of_dvd (Nat.two_pow_pos o) hd⟩

/-- The loop of `arena_init`. The blocks are before `x`. -/
theorem initLoop (h : Rep r T s a) {fuel size : ℕ} (ho : o ≤ 31) (hx : 32 ∣ x) (hxs : x + size = r.size)
    (hh : ∀ y o b, a.hdr y = some (o, b) → 32 ∣ y ∧ y + 32 ≤ x)
    (hf : ∀ o, ∀ y ∈ a.free o, y + 32 ≤ x) :
    Rep r T (arenaInitLoop fuel o (r.base + x) size s) (Blocks.initLoop fuel o x size a) := by
  induction fuel generalizing o x size s a with
  | zero => exact h
  | succ fuel ih =>
    rw [arenaInitLoop, Blocks.initLoop]
    dsimp only
    split_ifs with h₁ h₂
    · exact h
    · exact ih h (by omega) hx hxs hh hf
    · obtain ⟨hd, hle⟩ := dvd_shl1 h₁
      have hb : Block r x := ⟨hx, by rw [Region.managed]; omega⟩
      have v := (((h.view).setIsFree hb (show 1 < 256 by omega)).setOrder hb
        (show o < 256 by omega)).link o hb fun k hk => by
          have := hf k x hk
          omega
      have hcases : ∀ {y k b}, (a.release x o).hdr y = some (k, b) →
          y = x ∧ k = o ∧ b = true ∨ y ≠ x ∧ a.hdr y = some (k, b) := by
        intro y k b hy
        simp only [Blocks.release, Function.update_apply] at hy
        split_ifs at hy with hyx
        · obtain ⟨rfl, rfl⟩ := Prod.mk.inj (Option.some.inj hy)
          exact .inl ⟨hyx, rfl, rfl⟩
        · exact .inr ⟨hyx, hy⟩
      have hrep : Rep r T (blockLink ((s.set .isFree (r.base + x) 1).set .order (r.base + x) o) o
          (r.base + x)) (a.release x o) := by
        refine of_view v (fun y k b hy => ?_) fun y k b hy => ?_
        · rcases hcases hy with ⟨rfl, -, -⟩ | ⟨-, hy⟩
          · exact hb
          · have := hh y k b hy
            exact ⟨this.1, by rw [Region.managed]; omega⟩
        · rcases hcases hy with ⟨rfl, rfl, rfl⟩ | ⟨hne, hy⟩
          · simp
          · simp only [Function.update_apply, Nat.add_right_inj, if_neg hne]
            exact h.hdr y k b hy
      rw [Nat.add_assoc]
      refine ih hrep ho ((Nat.dvd_add_right hx).2 hd) (by omega) (fun y k b hy => ?_) fun k y hy => ?_
      · rcases hcases hy with ⟨rfl, -, -⟩ | ⟨-, hy⟩
        · exact ⟨hx, by omega⟩
        · have := hh y k b hy
          exact ⟨this.1, by omega⟩
      · simp only [Blocks.release, Function.update_apply] at hy
        have := hf k y
        grind

/-- The field `f` behind the last block. -/
def tailOf (r : Region) (m : Mem) (f : Field) : ℕ := m.load (r.tail + f.offset) f.bytes

/-- The arena after `arena_init`. -/
theorem init (r : Region) (m : Mem) :
    Rep r (tailOf r m) (arenaInit m r.base r.size) (Blocks.init r.size) := by
  have hrep : Rep r (tailOf r m) ⟨r.base, r.size, fun _ => 0, m⟩ Blocks.empty := by
    refine ⟨⟨rfl, rfl, fun o => ⟨0, ring_nil.2 ⟨by simp, by simp⟩⟩, ?_, ?_, ?_⟩, ?_, fun _ _ => rfl⟩
    · simp [Blocks.empty]
    · simp [Blocks.empty]
    · simp [Blocks.empty]
    · simp [Blocks.empty]
  exact hrep.initLoop le_rfl (Nat.dvd_zero _) (Nat.zero_add _) (by simp [Blocks.empty])
    (by simp [Blocks.empty])

end Rep

/-- A region that is zero is not marked as free. -/
theorem quiet_zero {m : Mem} (h : ∀ i < r.size, m (r.base + i) = 0) : Quiet r (Rep.tailOf r m) := by
  by_cases hr : r.size % 32 < 24
  · exact .inr (.inl hr)
  · have hzero := h (r.managed + 17) (by rw [Region.managed]; omega)
    refine .inr (.inr ?_)
    rw [Rep.tailOf, Field.offset, Field.bytes, Mem.load_one, Region.tail, Nat.add_assoc]
    exact congrArg UInt8.toNat hzero

end Dlb.Arena
