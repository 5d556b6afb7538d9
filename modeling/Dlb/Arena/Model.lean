import Dlb.Arena.Code
import Dlb.Buddy

/-!
# The arena without its memory

The blocks of the arena, given by the headers at their starts, and the lists of the free ones. The
functions below do what those of `Dlb.Arena.Code` do, but they look at the headers of blocks only;
nothing they do depends on what else is in the memory. Offsets from the base stand for pointers.

`Blocks.Inv` is the invariant: the blocks tile the interval up to `M`, the lists are those of
the free blocks, and no two buddies of the same order are free, except for a block that is just
being split or merged.
-/

namespace Dlb.Arena

structure Blocks where
  /-- The order of the block at an offset, and whether it is free. -/
  hdr : ℕ → Option (ℕ × Bool)
  free : ℕ → List ℕ

namespace Blocks

/-! ## Operations -/

/-- The order of the block at `x`. -/
def ord (a : Blocks) : ℕ → Option ℕ := Option.map Prod.fst ∘ a.hdr

def empty : Blocks := ⟨fun _ => none, fun _ => []⟩

/-- The block of order `o` at `x` is free, and in its list. -/
def release (a : Blocks) (x o : ℕ) : Blocks where
  hdr := Function.update a.hdr x (some (o, true))
  free := Function.update a.free o (x :: a.free o)

def initLoop : ℕ → ℕ → ℕ → ℕ → Blocks → Blocks
  | 0, _, _, _, a => a
  | fuel + 1, o, x, size, a =>
    let bs := shl1 o
    if bs < 24 then a
    else if size < bs then initLoop fuel (o - 1) x size a
    else initLoop fuel o (x + bs) (size - bs) (a.release x o)

def init (size : ℕ) : Blocks := initLoop (size + 32) 31 0 size empty

def findLoop (free : ℕ → List ℕ) : ℕ → ℕ → ℕ
  | 0, i => i
  | fuel + 1, i => if i < 32 ∧ free i = [] then findLoop free fuel (i + 1) else i

/-- The first free block of order `i + 1` is split. -/
def split (a : Blocks) (i : ℕ) : Blocks :=
  match a.free (i + 1) with
  | [] => a
  | x :: xs => {
      hdr := Function.update (Function.update a.hdr x (some (i, true))) (x + 2 ^ i) (some (i, true))
      free := Function.update (Function.update a.free (i + 1) xs) i
        ((x + 2 ^ i) :: x :: a.free i) }

theorem split_eq {a : Blocks} {i x : ℕ} {xs : List ℕ} (h : a.free (i + 1) = x :: xs) : a.split i = {
    hdr := Function.update (Function.update a.hdr x (some (i, true))) (x + 2 ^ i) (some (i, true))
    free := Function.update (Function.update a.free (i + 1) xs) i ((x + 2 ^ i) :: x :: a.free i) } := by
  rw [split, h]

def splitLoop (o : ℕ) : ℕ → Blocks → Blocks
  | 0, a => a
  | i + 1, a => if i + 1 > o then splitLoop o i (a.split i) else a

/-- The first free block of order `o` is allocated. -/
def take (a : Blocks) (o : ℕ) : Option ℕ × Blocks :=
  match a.free o with
  | [] => (none, a)
  | x :: xs => (some x, {
      hdr := Function.update a.hdr x (some (o, false))
      free := Function.update a.free o xs })

def alloc (a : Blocks) (size : ℕ) : Option ℕ × Blocks :=
  if size >>> 31 ≠ 0 then (none, a)
  else
    let o := requiredOrder size
    if o ≥ 32 then (none, a)
    else
      let i := findLoop a.free 32 o
      if i ≥ 32 then (none, a) else (splitLoop o i a).take o

/-- The free blocks of order `o` at `x` and `x + 2 ^ o` are merged. -/
def merge (a : Blocks) (x o : ℕ) : Blocks where
  hdr := Function.update (Function.update a.hdr (x + 2 ^ o) none) x (some (o + 1, true))
  free := Function.update (Function.update a.free o (((a.free o).erase x).erase (x + 2 ^ o))) (o + 1)
    (x :: a.free (o + 1))

def mergeLoop : ℕ → Blocks → ℕ → ℕ → Blocks
  | 0, a, _, _ => a
  | fuel + 1, a, x, o =>
    if o + 1 < 32 ∧ a.hdr (buddy x o) = some (o, true) then
      let x := min x (buddy x o)
      mergeLoop fuel (a.merge x o) x (o + 1)
    else a

def dealloc (a : Blocks) (x : ℕ) : Blocks :=
  match a.hdr x with
  | none => a
  | some (o, _) => mergeLoop 32 (a.release x o) x o

def realloc (a : Blocks) (x size : ℕ) : Option ℕ × Blocks :=
  if size >>> 31 ≠ 0 then (none, a)
  else
    let o := requiredOrder size
    if o ≥ 32 then (none, a)
    else if a.ord x = some o ∨ a.ord x = some (o + 1) then (some x, a)
    else
      match a.alloc size with
      | (none, a) => (none, a)
      | (some y, a) => (some y, a.dealloc x)

/-! ## The invariant -/

/-- The blocks of `a` tile the interval up to `M`. Two free buddies of the same order are only
    possible if one of them is in `E`. -/
structure Inv (M : ℕ) (E : Set ℕ) (a : Blocks) : Prop where
  tiling : Tiling 5 M a.ord
  mem : ∀ o x, x ∈ a.free o ↔ a.hdr x = some (o, true)
  nodup : ∀ o, (a.free o).Nodup
  merged : ∀ x o, a.hdr x = some (o, true) → a.hdr (buddy x o) = some (o, true) →
    x ∈ E ∨ buddy x o ∈ E

namespace Inv

variable {M o i x y k : ℕ} {E E' : Set ℕ} {a : Blocks} {f : Bool}

theorem ord_eq (h : a.hdr x = some (o, f)) : a.ord x = some o := by
  simp [ord, h]

theorem ord_update (h : a.hdr x = some (o, f)) {f' : Bool} :
    Option.map Prod.fst ∘ Function.update a.hdr x (some (o, f')) = a.ord := by
  rw [Function.comp_update]
  exact Function.update_eq_self_iff.2 (ord_eq h).symm

theorem mono (h : Inv M E a) (hE : E ⊆ E') : Inv M E' a :=
  ⟨h.tiling, h.mem, h.nodup, fun x o h₁ h₂ => (h.merged x o h₁ h₂).imp (@hE x) (@hE _)⟩

theorem block (h : Inv M E a) (hx : a.hdr x = some (o, f)) : 5 ≤ o ∧ 2 ^ o ∣ x ∧ x + 2 ^ o ≤ M :=
  h.tiling.block x o (ord_eq hx)

/-- A block of order 31 does not fit. -/
theorem order_lt (h : Inv M E a) (hM : M < 2 ^ 31) (hx : a.hdr x = some (o, f)) : o < 31 := by
  have hb := (h.block hx).2.2
  by_contra ho
  have : 2 ^ 31 ≤ 2 ^ o := Nat.pow_le_pow_right (by omega) (by omega)
  omega

theorem head (h : Inv M E a) {xs : List ℕ} (hf : a.free o = x :: xs) : a.hdr x = some (o, true) :=
  (h.mem o x).1 (by simp [hf])

/-- No block starts inside of another one. -/
theorem hdr_eq_none (h : Inv M E a) (hx : a.hdr x = some (o, f)) (h₁ : x < y) (h₂ : y < x + 2 ^ o) :
    a.hdr y = none := by
  cases hy : a.hdr y with
  | none => rfl
  | some q =>
    have := h.tiling.apart x y o q.1 (ord_eq hx) (ord_eq hy) h₁
    omega

theorem split (h : Inv M {x | x ∈ (a.free (i + 1)).head?} a) (hf : a.free (i + 1) ≠ [])
    (hi : 5 ≤ i) : Inv M {x | x ∈ ((a.split i).free i).head?} (a.split i) ∧
      (a.split i).free i ≠ [] := by
  obtain ⟨x, xs, hxs⟩ := List.exists_cons_of_ne_nil hf
  have hx := h.head hxs
  obtain ⟨-, hd, -⟩ := h.block hx
  have hpos := Nat.two_pow_pos i
  have hpow : 2 ^ (i + 1) = 2 * 2 ^ i := by ring
  have hnone : a.hdr (x + 2 ^ i) = none := h.hdr_eq_none hx (by omega) (by omega)
  rw [split_eq hxs]
  refine ⟨⟨?_, fun o y => ?_, fun o => ?_, fun y o hy hb => ?_⟩, by simp⟩
  · simpa only [ord, Function.comp_update, Option.map_some] using h.tiling.split (ord_eq hx) hi
  · have hmem := h.mem o y
    have hxs' := h.nodup (i + 1)
    simp only [Function.update_apply]
    grind
  · have hmem := h.mem i
    have hxs' := h.nodup (i + 1)
    have hi' := h.nodup i
    have ho' := h.nodup o
    simp only [Function.update_apply]
    grind
  · have hold := h.merged y o
    have hbx : buddy x i = x + 2 ^ i := buddy_of_dvd hd
    have hbb := buddy_buddy y o
    simp only [Function.update_apply] at *
    grind

theorem take (h : Inv M {x | x ∈ (a.free o).head?} a) (hf : a.free o ≠ []) :
    ∃ x, (a.take o).1 = some x ∧ a.hdr x = some (o, true) ∧
      (a.take o).2.hdr = Function.update a.hdr x (some (o, false)) ∧ Inv M ∅ (a.take o).2 := by
  obtain ⟨x, xs, hxs⟩ := List.exists_cons_of_ne_nil hf
  have hx := h.head hxs
  have htake : a.take o = (some x, {
      hdr := Function.update a.hdr x (some (o, false))
      free := Function.update a.free o xs }) := by
    rw [Blocks.take, hxs]
  rw [htake]
  refine ⟨x, rfl, hx, rfl, ?_, fun k y => ?_, fun k => ?_, fun y k hy hb => ?_⟩
  · rw [ord, ord_update hx]
    exact h.tiling
  · have hmem := h.mem k y
    have hxs' := h.nodup o
    simp only [Function.update_apply]
    grind
  · have hk := h.nodup k
    simp only [Function.update_apply]
    grind
  · have hold := h.merged y k
    simp only [Function.update_apply] at *
    grind

theorem release (h : Inv M ∅ a) (hx : a.hdr x = some (o, false)) : Inv M {x} (a.release x o) := by
  refine ⟨?_, fun k y => ?_, fun k => ?_, fun y k hy hb => ?_⟩
  · rw [ord, Blocks.release, ord_update hx]
    exact h.tiling
  · have hmem := h.mem k y
    simp only [Blocks.release, Function.update_apply]
    grind
  · have hk := h.nodup k
    have hmem := h.mem k x
    simp only [Blocks.release, Function.update_apply]
    grind
  · have hold := h.merged y k
    simp only [Blocks.release, Function.update_apply] at *
    grind

/-- A free block and its free buddy are merged. -/
theorem merge (h : Inv M {x} a) (hx : a.hdr x = some (o, true))
    (hy : a.hdr (buddy x o) = some (o, true)) :
    Inv M {min x (buddy x o)} (a.merge (min x (buddy x o)) o) ∧
      (a.merge (min x (buddy x o)) o).hdr (min x (buddy x o)) = some (o + 1, true) := by
  have hpos := Nat.two_pow_pos o
  -- The lower one of the two is `z`.
  obtain ⟨z, hz, hzx, hzd⟩ : ∃ z, min x (buddy x o) = z ∧
      (x = z ∧ buddy x o = z + 2 ^ o ∨ buddy x o = z ∧ x = z + 2 ^ o) ∧ 2 ^ (o + 1) ∣ z := by
    rcases buddy_cases (h.block hx).2.1 with ⟨hd, e⟩ | ⟨hd, e⟩
    · exact ⟨x, by omega, .inl ⟨rfl, e⟩, hd⟩
    · exact ⟨buddy x o, by omega, .inr ⟨rfl, e⟩, hd⟩
  have hz₁ : a.hdr z = some (o, true) := by
    rcases hzx with ⟨rfl, -⟩ | ⟨rfl, -⟩
    · exact hx
    · exact hy
  have hz₂ : a.hdr (z + 2 ^ o) = some (o, true) := by
    rcases hzx with ⟨-, e⟩ | ⟨-, e⟩
    · exact e ▸ hy
    · exact e ▸ hx
  rw [hz]
  refine ⟨⟨?_, fun k y => ?_, fun k => ?_, fun y k hy' hb => ?_⟩, by simp [Blocks.merge]⟩
  · simpa only [ord, Blocks.merge, Function.comp_update, Option.map_some, Option.map_none] using
      h.tiling.merge (ord_eq hz₁) (ord_eq hz₂) hzd
  · have hmem := h.mem k y
    have herase : y ∈ ((a.free o).erase z).erase (z + 2 ^ o) ↔ y ≠ z + 2 ^ o ∧ y ≠ z ∧ y ∈ a.free o := by
      rw [((h.nodup o).erase z).mem_erase_iff, (h.nodup o).mem_erase_iff]
    simp only [Blocks.merge, Function.update_apply]
    grind
  · have hk := h.nodup k
    have herase := ((h.nodup o).erase z).erase (z + 2 ^ o)
    have hmem := h.mem (o + 1) z
    simp only [Blocks.merge, Function.update_apply]
    grind
  · have hold := h.merged y k
    simp only [Blocks.merge, Function.update_apply] at *
    grind

/-- No buddy is left to merge with. -/
theorem settle (h : Inv M {x} a) (hx : a.hdr x = some (o, true))
    (hb : a.hdr (buddy x o) ≠ some (o, true)) : Inv M ∅ a := by
  refine ⟨h.tiling, h.mem, h.nodup, fun y k hy hyb => ?_⟩
  rcases h.merged y k hy hyb with rfl | e
  · obtain ⟨rfl, -⟩ := Prod.mk.inj (Option.some.inj (hx.symm.trans hy))
    exact absurd hyb hb
  · obtain rfl : buddy y k = x := e
    obtain ⟨rfl, -⟩ := Prod.mk.inj (Option.some.inj (hx.symm.trans hyb))
    rw [buddy_buddy] at hb
    exact absurd hy hb

end Inv

/-! ## Loops -/

section Loops

variable {M o i x y k size fuel : ℕ} {a : Blocks}

theorem orderLoop_spec (hs : size < 2 ^ 31) (ho : o + fuel = 33) (h₁ : 1 ≤ o)
    (hlt : 2 ^ (o - 1) < size + 24) (h₂ : o ≤ 31) :
    orderLoop fuel o size ≤ 31 ∧ 2 ^ (orderLoop fuel o size - 1) < size + 24 ∧
      (orderLoop fuel o size < 31 → size + 24 ≤ 2 ^ orderLoop fuel o size) := by
  induction fuel generalizing o with
  | zero => omega
  | succ fuel ih =>
    rw [orderLoop]
    split_ifs with h
    · have h₃ : o ≠ 31 := by
        rintro rfl
        simp [shl1] at h
        omega
      refine ih (by omega) (by omega) ?_ (by omega)
      rw [shl1, if_neg h₃] at h
      simpa using h.2
    · refine ⟨h₂, hlt, fun h₃ => ?_⟩
      rw [shl1, if_neg (by omega)] at h
      omega

/-- The required order is the least one of a block with `size` bytes after the header. -/
theorem requiredOrder_spec (hs : size < 2 ^ 31) :
    5 ≤ requiredOrder size ∧ requiredOrder size ≤ 31 ∧
      (requiredOrder size < 31 → size + 24 ≤ 2 ^ requiredOrder size) := by
  obtain ⟨h₁, -, h₃⟩ := orderLoop_spec hs (show 1 + 32 = 33 from rfl) le_rfl (by omega) (by omega)
  refine ⟨?_, h₁, h₃⟩
  by_contra h
  have h₄ := h₃ (by rw [requiredOrder] at h; omega)
  have h₅ : 2 ^ requiredOrder size ≤ 2 ^ 4 := Nat.pow_le_pow_right (by omega) (by omega)
  rw [requiredOrder] at h₅
  omega

theorem findLoop_spec (free : ℕ → List ℕ) (hi : 32 ≤ i + fuel) :
    i ≤ findLoop free fuel i ∧ (findLoop free fuel i < 32 → free (findLoop free fuel i) ≠ []) := by
  induction fuel generalizing i with
  | zero => exact ⟨le_rfl, fun h => by rw [findLoop] at h; omega⟩
  | succ fuel ih =>
    rw [findLoop]
    split_ifs with h
    · obtain ⟨h₁, h₂⟩ := ih (i := i + 1) (by omega)
      exact ⟨by omega, h₂⟩
    · exact ⟨le_rfl, fun hlt hf => h ⟨hlt, hf⟩⟩

/-- What is allocated stays as it is when a block is split. -/
theorem split_used (h : Inv M {x | x ∈ (a.free (i + 1)).head?} a) (hf : a.free (i + 1) ≠ []) :
    (a.split i).hdr y = some (k, false) ↔ a.hdr y = some (k, false) := by
  obtain ⟨x, xs, hxs⟩ := List.exists_cons_of_ne_nil hf
  have hx := h.head hxs
  have hpos := Nat.two_pow_pos i
  have hpow : 2 ^ (i + 1) = 2 * 2 ^ i := by ring
  have hnone : a.hdr (x + 2 ^ i) = none := h.hdr_eq_none hx (by omega) (by omega)
  rw [split, hxs]
  simp only [Function.update_apply]
  split_ifs with h₁ h₂
  · simp [h₁, hnone]
  · simp [h₂, hx]
  · rfl

theorem splitLoop_spec (h : Inv M {x | x ∈ (a.free i).head?} a) (hf : a.free i ≠ []) (ho : 5 ≤ o)
    (hi : o ≤ i) :
    Inv M {x | x ∈ ((splitLoop o i a).free o).head?} (splitLoop o i a) ∧
      (splitLoop o i a).free o ≠ [] ∧
      ∀ y k, (splitLoop o i a).hdr y = some (k, false) ↔ a.hdr y = some (k, false) := by
  induction i generalizing a with
  | zero => omega
  | succ i ih =>
    rw [splitLoop]
    split_ifs with hlt
    · obtain ⟨h', hf'⟩ := h.split hf (by omega)
      obtain ⟨h₁, h₂, h₃⟩ := ih h' hf' (by omega)
      exact ⟨h₁, h₂, fun y k => (h₃ y k).trans (split_used h hf)⟩
    · obtain rfl : o = i + 1 := by omega
      exact ⟨h, hf, fun _ _ => Iff.rfl⟩

/-- The state after `alloc` is the same if there is no block, and there is one more block that is
    allocated otherwise. -/
theorem alloc_spec (size : ℕ) (h : Inv M ∅ a) (hM : M < 2 ^ 31) :
    (a.alloc size = (none, a)) ∨
      ∃ x o a', a.alloc size = (some x, a') ∧ Inv M ∅ a' ∧ size + 24 ≤ 2 ^ o ∧
        (∀ k, a.hdr x ≠ some (k, false)) ∧
        ∀ y k, a'.hdr y = some (k, false) ↔ y = x ∧ k = o ∨ a.hdr y = some (k, false) := by
  rw [alloc]
  split_ifs with h₁
  · exact .inl rfl
  have hs : size < 2 ^ 31 := by
    rw [not_not, Nat.shiftRight_eq_div_pow] at h₁
    omega
  obtain ⟨ho₅, ho₃₁, hsize⟩ := requiredOrder_spec hs
  dsimp only
  split_ifs with h₂ h₃
  · exact .inl rfl
  · exact .inl rfl
  obtain ⟨hle, hne⟩ := findLoop_spec a.free (show 32 ≤ requiredOrder size + 32 by omega)
  have hf := hne (by omega)
  obtain ⟨h', hf', hused⟩ := splitLoop_spec (h.mono (Set.empty_subset _)) hf ho₅ hle
  obtain ⟨x, hx, hxf, hhdr, hinv⟩ := h'.take hf'
  refine .inr ⟨x, requiredOrder size, _, ?_, hinv, hsize (h'.order_lt hM hxf), fun k hk => ?_,
    fun y k => ?_⟩
  · rw [← hx]
  · have := (hused x k).2 hk
    simp [hxf] at this
  · rw [hhdr, Function.update_apply]
    split_ifs with hyx
    · subst hyx
      have hno : a.hdr y ≠ some (k, false) := fun hk => by
        have := (hused y k).2 hk
        simp [hxf] at this
      simp [hno, eq_comm]
    · simp [hyx, hused]

theorem merge_used (hx : a.hdr x = some (o, true)) (hy : a.hdr (x + 2 ^ o) = some (o, true)) :
    (a.merge x o).hdr y = some (k, false) ↔ a.hdr y = some (k, false) := by
  simp only [merge, Function.update_apply]
  split_ifs with h₁ h₂
  · simp [h₁, hx]
  · simp [h₂, hy]
  · rfl

theorem mergeLoop_spec (h : Inv M {x} a) (hM : M < 2 ^ 31) (hx : a.hdr x = some (o, true))
    (ho : 31 ≤ o + fuel) :
    Inv M ∅ (mergeLoop fuel a x o) ∧
      ∀ y k, (mergeLoop fuel a x o).hdr y = some (k, false) ↔ a.hdr y = some (k, false) := by
  induction fuel generalizing a x o with
  | zero =>
    have := h.order_lt hM hx
    omega
  | succ fuel ih =>
    rw [mergeLoop]
    split_ifs with hb
    · obtain ⟨h', hx'⟩ := h.merge hx hb.2
      obtain ⟨h₁, h₂⟩ := ih h' hx' (by omega)
      refine ⟨h₁, fun y k => (h₂ y k).trans ?_⟩
      rcases buddy_cases (h.block hx).2.1 with ⟨-, e⟩ | ⟨-, e⟩
      · rw [min_eq_left (Nat.le.intro e.symm)]
        exact merge_used hx (e ▸ hb.2)
      · rw [min_eq_right (Nat.le.intro e.symm)]
        exact merge_used hb.2 (e ▸ hx)
    · have ho := h.order_lt hM hx
      exact ⟨h.settle hx fun hb' => hb ⟨by omega, hb'⟩, fun _ _ => Iff.rfl⟩

theorem dealloc_spec (h : Inv M ∅ a) (hM : M < 2 ^ 31) (hx : a.hdr x = some (o, false)) :
    Inv M ∅ (a.dealloc x) ∧
      ∀ y k, (a.dealloc x).hdr y = some (k, false) ↔ y ≠ x ∧ a.hdr y = some (k, false) := by
  rw [dealloc, hx]
  obtain ⟨h₁, h₂⟩ := mergeLoop_spec (h.release hx) hM (Function.update_self ..)
    (show 31 ≤ o + 32 by omega)
  refine ⟨h₁, fun y k => (h₂ y k).trans ?_⟩
  simp only [release, Function.update_apply]
  split_ifs with hyx
  · simp [hyx]
  · simp [hyx]

/-- The state after `realloc` is the same if there is no block or if the block stays, and the block
    is moved otherwise. -/
theorem realloc_spec (size : ℕ) (h : Inv M ∅ a) (hM : M < 2 ^ 31) (hx : a.hdr x = some (o, false)) :
    (a.realloc x size = (none, a)) ∨ (a.realloc x size = (some x, a) ∧ size + 24 ≤ 2 ^ o) ∨
      ∃ y k a', a.realloc x size = (some y, a') ∧ Inv M ∅ a' ∧ size + 24 ≤ 2 ^ k ∧
        (∀ j, a.hdr y ≠ some (j, false)) ∧
        ∀ z j, a'.hdr z = some (j, false) ↔ z = y ∧ j = k ∨ z ≠ x ∧ a.hdr z = some (j, false) := by
  rw [realloc]
  split_ifs with h₁
  · exact .inl rfl
  have hs : size < 2 ^ 31 := by
    rw [not_not, Nat.shiftRight_eq_div_pow] at h₁
    omega
  obtain ⟨ho₅, ho₃₁, hsize⟩ := requiredOrder_spec hs
  dsimp only
  split_ifs with h₂ h₃
  · exact .inl rfl
  · refine .inr (.inl ⟨rfl, ?_⟩)
    have ho := h.order_lt hM hx
    have hle : requiredOrder size ≤ o := by
      rw [Inv.ord_eq hx, Option.some.injEq, Option.some.injEq] at h₃
      omega
    exact (hsize (by omega)).trans (Nat.pow_le_pow_right (by omega) hle)
  · rcases alloc_spec size h hM with e | ⟨y, k, a', e, h', hk, hy, hused⟩
    · rw [e]
      exact .inl rfl
    · rw [e]
      have hx' := (hused x o).2 (.inr hx)
      obtain ⟨h'', hused'⟩ := dealloc_spec h' hM hx'
      refine .inr (.inr ⟨y, k, _, rfl, h'', hk, hy, fun z j => ?_⟩)
      rw [hused', hused]
      have hyx : y ≠ x := by
        rintro rfl
        exact hy o hx
      grind

end Loops

/-! ## The start -/

/-- The blocks that `arena_init` has added so far, up to `x`: they are free, and their orders are
    different ones. -/
structure Staircase (x o : ℕ) (a : Blocks) : Prop where
  inv : Inv x ∅ a
  free : ∀ y k f, a.hdr y = some (k, f) → f = true ∧ o ≤ k
  inj : ∀ y z k, a.hdr y = some (k, true) → a.hdr z = some (k, true) → y = z

theorem staircase_empty (o : ℕ) : Staircase 0 o empty := by
  refine ⟨⟨Tiling.empty 5, ?_, ?_, ?_⟩, ?_, ?_⟩ <;> simp [empty]

variable {x o size fuel : ℕ} {a : Blocks}

theorem Staircase.release (h : Staircase x (o + 1) a) (ho : 5 ≤ o) (hd : 2 ^ o ∣ x) :
    Staircase (x + 2 ^ o) o (a.release x o) := by
  have hnone : a.hdr x = none := by
    cases hx : a.hdr x with
    | none => rfl
    | some q =>
      have hpos := Nat.two_pow_pos q.1
      have := (h.inv.block hx).2.2
      omega
  have hne : ∀ y f, a.hdr y ≠ some (o, f) := fun y f hy => by
    have := (h.free y o f hy).2
    omega
  have htiling : Tiling 5 (x + 2 ^ o) (a.release x o).ord := by
    simpa only [ord, Blocks.release, Function.comp_update, Option.map_some] using
      h.inv.tiling.extend ho hd
  have hinj : ∀ y z k, (a.release x o).hdr y = some (k, true) →
      (a.release x o).hdr z = some (k, true) → y = z := by
    intro y z k hy hz
    have := h.inj y z k
    simp only [Blocks.release, Function.update_apply] at hy hz
    grind
  refine ⟨⟨htiling, fun k y => ?_, fun k => ?_, fun y k hy hb => ?_⟩, fun y k f hy => ?_, hinj⟩
  · have hmem := h.inv.mem k y
    simp only [Blocks.release, Function.update_apply]
    grind
  · have hk := h.inv.nodup k
    have hmem := h.inv.mem k x
    simp only [Blocks.release, Function.update_apply]
    grind
  · -- Blocks of the same order are equal.
    exact absurd (hinj _ _ k hb hy) (buddy_ne (htiling.block y k (Inv.ord_eq hy)).2.1)
  · have := h.free y k f
    simp only [Blocks.release, Function.update_apply] at hy
    grind

theorem Staircase.mono (h : Staircase x (o + 1) a) : Staircase x o a :=
  ⟨h.inv, fun y k f hy => ⟨(h.free y k f hy).1, (Nat.le_succ o).trans (h.free y k f hy).2⟩, h.inj⟩

theorem initLoop_spec (h₄ : 4 ≤ o) (h₃₁ : o ≤ 31) (hs : size < 2 ^ 31) (hf : o + size < fuel + 4)
    (h : 2 ^ (o + 1) ∣ x ∧ size < 2 ^ (o + 1) ∧ Staircase x (o + 1) a ∨
      5 ≤ o ∧ 2 ^ o ∣ x ∧ size < 2 ^ o ∧ Staircase x o a) :
    Staircase (32 * ((x + size) / 32)) 5 (initLoop fuel o x size a) := by
  induction fuel generalizing o x size a with
  | zero => omega
  | succ fuel ih =>
    rw [initLoop]
    split_ifs with hlt hsize
    · obtain rfl : o = 4 := by
        by_contra hne
        have : 2 ^ 5 ≤ shl1 o := by
          rw [shl1]
          split_ifs
          · omega
          · exact Nat.pow_le_pow_right (by omega) (by omega)
        omega
      obtain ⟨hd, hr, h⟩ := h.resolve_right (by omega)
      have hx : 32 * ((x + size) / 32) = x := by omega
      rw [hx]
      exact h
    · have h₅ : 5 ≤ o := by
        by_contra hne
        obtain rfl : o = 4 := by omega
        simp [shl1] at hlt
      have hr : size < 2 ^ o := by
        rw [shl1] at hsize
        split_ifs at hsize with e
        · exact e ▸ hs
        · exact hsize
      obtain ⟨o, rfl⟩ : ∃ k, o = k + 1 := ⟨o - 1, by omega⟩
      refine ih (by omega) (by omega) hs (by omega) (.inl ?_)
      rcases h with ⟨hd, -, h⟩ | ⟨-, hd, -, h⟩
      · exact ⟨(Nat.pow_dvd_pow 2 (Nat.le_succ _)).trans hd, hr, h.mono⟩
      · exact ⟨hd, hr, h⟩
    · have hne : o ≠ 31 := by
        rintro rfl
        simp [shl1] at hsize
        omega
      have hbs : shl1 o = 2 ^ o := if_neg hne
      rw [hbs] at hlt hsize ⊢
      have hpos := Nat.two_pow_pos o
      have hpow : 2 ^ (o + 1) = 2 * 2 ^ o := by ring
      have h₅ : 5 ≤ o := by
        by_contra hlt'
        obtain rfl : o = 4 := by omega
        simp at hlt
      obtain ⟨hd, hr, h⟩ := h.resolve_right (by omega)
      have hd' : 2 ^ o ∣ x := (Nat.pow_dvd_pow 2 (Nat.le_succ o)).trans hd
      have := ih h₄ h₃₁ (show size - 2 ^ o < 2 ^ 31 by omega) (by omega)
        (.inr ⟨h₅, (Nat.dvd_add_right hd').2 (Nat.dvd_refl _), by omega, h.release h₅ hd'⟩)
      rwa [show x + 2 ^ o + (size - 2 ^ o) = x + size by omega] at this

theorem init_spec (hs : size < 2 ^ 31) : Staircase (32 * (size / 32)) 5 (init size) := by
  have h := initLoop_spec (show 4 ≤ 31 by omega) le_rfl hs (show 31 + size < size + 32 + 4 by omega)
    (.inl ⟨Nat.dvd_zero _, by omega, staircase_empty 32⟩)
  rwa [Nat.zero_add] at h

end Blocks

end Dlb.Arena
