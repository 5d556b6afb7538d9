import Mathlib.Data.Finset.Card
import Mathlib.Data.Finset.Range
import Dlb.Arena.Code
import Dlb.Ring

/-!
# The lists of free blocks in the memory

The headers of blocks are at multiples of 32 bytes from the base, so that they do not overlap. With
the null pointer as its start, a list of blocks is a ring: `blocks[o]` is the next block of the
null pointer, and its previous one is never read. `Lists` says that the lists of all orders are
there, for `block_link` and `block_unlink`.
-/

namespace Dlb.Arena

/-- A region of the address space. -/
structure Region where
  base : ℕ
  size : ℕ
  base_pos : 0 < base
  le : base + size ≤ 2 ^ 64

variable {r : Region} {s : State} {o o' p q v x : ℕ} {f g : Field} {l l' : List ℕ}

/-! ## Headers -/

/-- There is room for a header at `p`. -/
def Slot (r : Region) (p : ℕ) : Prop := ∃ x, p = r.base + x ∧ 32 ∣ x ∧ x + 24 ≤ r.size

theorem Slot.apart (hp : Slot r p) (hq : Slot r q) : p = q ∨ p + 24 ≤ q ∨ q + 24 ≤ p := by
  obtain ⟨x, rfl, hx, -⟩ := hp
  obtain ⟨y, rfl, hy, -⟩ := hq
  omega

theorem Slot.ne_zero (hp : Slot r p) : p ≠ 0 := by
  obtain ⟨x, rfl, -, -⟩ := hp
  have := r.base_pos
  omega

theorem Slot.lt (hp : Slot r p) : p < 2 ^ 64 := by
  obtain ⟨x, rfl, -, hx⟩ := hp
  have := r.le
  omega

/-- The end of the part of the region that the blocks tile. -/
def Region.managed (r : Region) : ℕ := 32 * (r.size / 32)

/-- What a header would be that is behind the last block. -/
def Region.tail (r : Region) : ℕ := r.base + r.managed

/-- A block may be at the offset `x`. -/
def Block (r : Region) (x : ℕ) : Prop := 32 ∣ x ∧ x + 32 ≤ r.managed

theorem Block.slot (hx : Block r x) : Slot r (r.base + x) := by
  obtain ⟨hd, hle⟩ := hx
  rw [Region.managed] at hle
  exact ⟨x, rfl, hd, by omega⟩

theorem Block.ne_tail (hx : Block r x) : r.tail ≠ r.base + x := by
  have := hx.2
  rw [Region.tail]
  omega

theorem get_set (hp : Slot r p) (hq : Slot r q) :
    (s.set f p v).get g q = if g = f ∧ q = p then v % 256 ^ f.bytes else s.get g q := by
  split_ifs with h
  · obtain ⟨rfl, rfl⟩ := h
    exact Mem.load_store_self
  · refine Mem.load_store_of_disjoint ?_
    have := hp.apart hq
    cases f <;> cases g <;> simp only [Field.offset, Field.bytes] <;> grind

/-- A field is part of the header. -/
theorem get_congr {s' : State} (h : ∀ p, q ≤ p → p < q + 24 → s'.mem p = s.mem p) :
    s'.get f q = s.get f q := by
  have hf : f.offset + f.bytes ≤ 24 := by
    cases f <;> simp [Field.offset, Field.bytes]
  exact Mem.load_congr fun p h₁ h₂ => h p (by omega) (by omega)

/-- A field is set in the header only. -/
theorem set_mem (h : ¬(p ≤ q ∧ q < p + 24)) : (s.set f p v).mem q = s.mem q := by
  refine Mem.store_of_not_mem ?_
  cases f <;> simp only [Field.offset, Field.bytes] <;> omega

theorem get_setBlocks : (s.setBlocks o p).get = s.get := rfl

@[simp] theorem set_base : (s.set f p v).base = s.base := rfl

@[simp] theorem set_size : (s.set f p v).size = s.size := rfl

@[simp] theorem set_blocks : (s.set f p v).blocks = s.blocks := rfl

@[simp] theorem setBlocks_base : (s.setBlocks o p).base = s.base := rfl

@[simp] theorem setBlocks_size : (s.setBlocks o p).size = s.size := rfl

@[simp] theorem setBlocks_mem : (s.setBlocks o p).mem = s.mem := rfl

@[simp] theorem setBlocks_blocks : (s.setBlocks o p).blocks = Function.update s.blocks o p := rfl

@[simp] theorem blockLink_base : (blockLink s o p).base = s.base := by
  simp [blockLink, apply_ite State.base]

@[simp] theorem blockLink_size : (blockLink s o p).size = s.size := by
  simp [blockLink, apply_ite State.size]

@[simp] theorem blockLink_blocks : (blockLink s o p).blocks = Function.update s.blocks o p := by
  simp [blockLink, apply_ite State.blocks]

@[simp] theorem blockUnlink_base : (blockUnlink s o p).base = s.base := by
  simp [blockUnlink, apply_ite State.base]

@[simp] theorem blockUnlink_size : (blockUnlink s o p).size = s.size := by
  simp [blockUnlink, apply_ite State.size]

theorem lt_of_slot (h : q = 0 ∨ Slot r q) : q < 2 ^ 64 := by
  rcases h with h | h
  · omega
  · exact h.lt

/-- The fields that `block_link` reads again are what it has written. -/
theorem blockLink_eq (hp : Slot r p) (hn : s.blocks o = 0 ∨ Slot r (s.blocks o)) :
    blockLink s o p = if s.blocks o = 0 then
        ((s.set .next p (s.blocks o)).set .prev p 0).setBlocks o p
      else (((s.set .next p (s.blocks o)).set .prev p 0).set .prev (s.blocks o) p).setBlocks o p := by
  have hnext : ((s.set .next p (s.blocks o)).set .prev p 0).get .next p = s.blocks o := by
    rw [get_set hp hp, get_set hp hp]
    simpa [Field.bytes] using Nat.mod_eq_of_lt (lt_of_slot hn)
  simp only [blockLink, hnext]
  split_ifs
  · rfl
  · rfl

/-- The fields after `block_link`. -/
theorem blockLink_get (hp : Slot r p) (hn : s.blocks o = 0 ∨ Slot r (s.blocks o))
    (hne : s.blocks o ≠ p) (hq : Slot r q) :
    (blockLink s o p).get .next q = Function.update (s.get .next) p (s.blocks o) q ∧
      (blockLink s o p).get .prev q =
        Function.update (Function.update (s.get .prev) p 0) (s.blocks o) p q ∧
      ∀ f, f ≠ .next → f ≠ .prev → (blockLink s o p).get f q = s.get f q := by
  have hlt := lt_of_slot hn
  rw [blockLink_eq hp hn]
  split_ifs with h
  · simp only [get_setBlocks, get_set hp hq, Function.update_apply]
    have := hq.ne_zero
    grind [Field.bytes]
  · have hn' := hn.resolve_left h
    have := hp.lt
    simp only [get_setBlocks, get_set hn' hq, get_set hp hq, Function.update_apply]
    grind [Field.bytes]

/-- Only the headers of the block and of the first one of the list are written. -/
theorem blockLink_mem (hp : Slot r p) (hn : s.blocks o = 0 ∨ Slot r (s.blocks o))
    (hqp : ¬(p ≤ q ∧ q < p + 24)) (hqn : s.blocks o ≠ 0 → ¬(s.blocks o ≤ q ∧ q < s.blocks o + 24)) :
    (blockLink s o p).mem q = s.mem q := by
  rw [blockLink_eq hp hn]
  split_ifs with h
  · rw [setBlocks_mem, set_mem hqp, set_mem hqp]
  · rw [setBlocks_mem, set_mem (hqn h), set_mem hqp, set_mem hqp]

/-- The first half of `block_unlink`. -/
def unlinkNext (s : State) (p : ℕ) : State :=
  if s.get .next p = 0 then s else s.set .prev (s.get .next p) (s.get .prev p)

theorem unlinkNext_blocks : (unlinkNext s p).blocks = s.blocks := by
  rw [unlinkNext, apply_ite State.blocks, set_blocks, ite_self]

theorem unlinkNext_get (hn : s.get .next p = 0 ∨ Slot r (s.get .next p))
    (hv : s.get .prev p = 0 ∨ Slot r (s.get .prev p)) (hq : Slot r q) :
    (unlinkNext s p).get g q =
      if g = .prev ∧ q = s.get .next p then s.get .prev p else s.get g q := by
  rw [unlinkNext]
  split_ifs with h₁ h₂ h₂
  · exact absurd (h₂.2.trans h₁) hq.ne_zero
  · rfl
  · rw [get_set (hn.resolve_left h₁) hq, if_pos h₂]
    exact Nat.mod_eq_of_lt (lt_of_slot hv)
  · rw [get_set (hn.resolve_left h₁) hq, if_neg h₂]

/-- The first half leaves the fields of the block that the second half reads. -/
theorem blockUnlink_eq (hp : Slot r p) (hn : s.get .next p = 0 ∨ Slot r (s.get .next p))
    (hv : s.get .prev p = 0 ∨ Slot r (s.get .prev p)) :
    blockUnlink s o p = if s.get .prev p = 0 then (unlinkNext s p).setBlocks o (s.get .next p)
      else (unlinkNext s p).set .next (s.get .prev p) (s.get .next p) := by
  have hprev : (unlinkNext s p).get .prev p = s.get .prev p := by simp [unlinkNext_get hn hv hp]
  have hnext : (unlinkNext s p).get .next p = s.get .next p := by simp [unlinkNext_get hn hv hp]
  change (if (unlinkNext s p).get .prev p = 0 then
      (unlinkNext s p).setBlocks o ((unlinkNext s p).get .next p)
    else (unlinkNext s p).set .next ((unlinkNext s p).get .prev p) ((unlinkNext s p).get .next p)) = _
  rw [hprev, hnext]

/-- The fields and the lists after `block_unlink`. -/
theorem blockUnlink_get (hp : Slot r p) (hn : s.get .next p = 0 ∨ Slot r (s.get .next p))
    (hv : s.get .prev p = 0 ∨ Slot r (s.get .prev p)) (hq : Slot r q) :
    (blockUnlink s o p).get .next q =
        Function.update (s.get .next) (s.get .prev p) (s.get .next p) q ∧
      (blockUnlink s o p).get .prev q =
        Function.update (s.get .prev) (s.get .next p) (s.get .prev p) q ∧
      (∀ f, f ≠ .next → f ≠ .prev → (blockUnlink s o p).get f q = s.get f q) ∧
      (blockUnlink s o p).blocks =
        if s.get .prev p = 0 then Function.update s.blocks o (s.get .next p) else s.blocks := by
  have hlt := lt_of_slot hn
  rw [blockUnlink_eq hp hn hv]
  split_ifs with h
  · have := hq.ne_zero
    simp only [get_setBlocks, unlinkNext_get hn hv hq, setBlocks_blocks, unlinkNext_blocks,
      Function.update_apply]
    grind
  · simp only [get_set (hv.resolve_left h) hq, unlinkNext_get hn hv hq, set_blocks,
      unlinkNext_blocks, Function.update_apply]
    grind [Field.bytes]

/-- Only the headers of the blocks before and after it are written. -/
theorem blockUnlink_mem (hp : Slot r p) (hn : s.get .next p = 0 ∨ Slot r (s.get .next p))
    (hv : s.get .prev p = 0 ∨ Slot r (s.get .prev p))
    (hqn : s.get .next p ≠ 0 → ¬(s.get .next p ≤ q ∧ q < s.get .next p + 24))
    (hqv : s.get .prev p ≠ 0 → ¬(s.get .prev p ≤ q ∧ q < s.get .prev p + 24)) :
    (blockUnlink s o p).mem q = s.mem q := by
  have hmem : (unlinkNext s p).mem q = s.mem q := by
    rw [unlinkNext]
    split_ifs with h
    · rfl
    · exact set_mem (hqn h)
  rw [blockUnlink_eq hp hn hv]
  split_ifs with h
  · rw [setBlocks_mem, hmem]
  · rw [set_mem (hqv h), hmem]

/-! ## One list -/

/-- The list of order `o` has the blocks `l`. -/
def Listed (s : State) (o : ℕ) (l : List ℕ) : Prop :=
  ∃ e, Ring (Function.update (s.get .next) 0 (s.blocks o)) (Function.update (s.get .prev) 0 e) 0 l

theorem Listed.blocks_eq (h : Listed s o l) : s.blocks o = l.head?.getD 0 := by
  obtain ⟨e, h⟩ := h
  simpa using h.next_eq

/-- The first block of a list is a slot, or there is none. -/
theorem Listed.slot (h : Listed s o l) (hl : ∀ q ∈ l, Slot r q) :
    s.blocks o = 0 ∨ Slot r (s.blocks o) ∧ s.blocks o ∈ l := by
  rw [h.blocks_eq]
  cases l with
  | nil => exact .inl rfl
  | cons x l => exact .inr ⟨hl x (by simp), by simp⟩

theorem nodup_null (hl : ∀ q ∈ l, Slot r q) (hd : l.Nodup) : (0 :: l).Nodup :=
  List.nodup_cons.2 ⟨fun h => (hl 0 h).ne_zero rfl, hd⟩

/-- A block is linked at the front of its list. -/
theorem Listed.link (h : Listed s o l) (hl : ∀ q ∈ l, Slot r q) (hp : Slot r p)
    (hd : (p :: l).Nodup) : Listed (blockLink s o p) o (p :: l) := by
  obtain ⟨hpl, hd⟩ := List.nodup_cons.1 hd
  have hblk := h.slot hl
  have hne : s.blocks o ≠ p := by
    rintro rfl
    rcases hblk with h₀ | ⟨-, hmem⟩
    · exact hp.ne_zero h₀
    · exact hpl hmem
  have hget := fun {q} hq => blockLink_get (q := q) hp (hblk.imp_right And.left) hne hq
  obtain ⟨e, h⟩ := h
  have hring := h.insert_front (nodup_null hl hd) (x := p) (by simp [hpl, hp.ne_zero])
  refine ⟨if s.blocks o = 0 then p else e, hring.congr (fun q hq => ?_) fun q hq => ?_⟩
  · rcases List.mem_cons.1 hq with rfl | hq
    · simp
    · have hqs : Slot r q := by
        rcases List.mem_cons.1 hq with rfl | hq
        · exact hp
        · exact hl q hq
      simp [hqs.ne_zero, (hget hqs).1, Function.update_apply]
  · rcases List.mem_cons.1 hq with rfl | hq
    · have := hp.ne_zero
      simp [Function.update_apply]
      grind
    · have hqs : Slot r q := by
        rcases List.mem_cons.1 hq with rfl | hq
        · exact hp
        · exact hl q hq
      simp [hqs.ne_zero, (hget hqs).2.1, Function.update_apply]

/-- A list stays if the fields of its blocks and its start do. -/
theorem Listed.congr {s' : State} (h : Listed s o l) (hl : ∀ q ∈ l, Slot r q)
    (hb : s'.blocks o = s.blocks o) (hn : ∀ q ∈ l, s'.get .next q = s.get .next q)
    (hv : ∀ q ∈ l, s'.get .prev q = s.get .prev q) : Listed s' o l := by
  obtain ⟨e, h⟩ := h
  refine ⟨e, h.congr (fun q hq => ?_) fun q hq => ?_⟩
  · rcases List.mem_cons.1 hq with rfl | hq
    · simp [hb]
    · simp [(hl q hq).ne_zero, hn q hq]
  · rcases List.mem_cons.1 hq with rfl | hq
    · simp
    · simp [(hl q hq).ne_zero, hv q hq]

/-- The blocks before and after one of a list. -/
theorem Listed.neighbours {l₁ l₂ : List ℕ} (h : Listed s o (l₁ ++ p :: l₂))
    (hl : ∀ q ∈ l₁ ++ p :: l₂, Slot r q) :
    (s.get .next p = 0 ∨ Slot r (s.get .next p) ∧ s.get .next p ∈ l₂) ∧
      (s.get .prev p = 0 ∨ Slot r (s.get .prev p) ∧ s.get .prev p ∈ l₁) := by
  have hp : Slot r p := hl p (by simp)
  obtain ⟨e, h⟩ := h
  have hnb := h.neighbours
  rw [Function.update_of_ne hp.ne_zero, Function.update_of_ne hp.ne_zero] at hnb
  constructor
  · rcases List.mem_append.1 hnb.2 with hmem | hmem
    · exact .inr ⟨hl _ (by simp [hmem]), hmem⟩
    · exact .inl (by simpa using hmem)
  · rcases List.mem_cons.1 hnb.1 with hmem | hmem
    · exact .inl hmem
    · exact .inr ⟨hl _ (by simp [hmem]), hmem⟩

theorem Listed.unlink {l₁ l₂ : List ℕ} (h : Listed s o (l₁ ++ p :: l₂))
    (hl : ∀ q ∈ l₁ ++ p :: l₂, Slot r q) (hd : (l₁ ++ p :: l₂).Nodup) :
    Listed (blockUnlink s o p) o (l₁ ++ l₂) := by
  have hp : Slot r p := hl p (by simp)
  obtain ⟨hn, hv⟩ := h.neighbours hl
  have hget := fun {q} hq =>
    blockUnlink_get (o := o) (q := q) hp (hn.imp_right And.left) (hv.imp_right And.left) hq
  obtain ⟨e, h⟩ := h
  have hring := h.unlink (nodup_null hl hd)
  rw [Function.update_of_ne hp.ne_zero, Function.update_of_ne hp.ne_zero] at hring
  have hslot : ∀ {q}, q ∈ l₁ ++ l₂ → Slot r q := by
    intro q hq
    rcases List.mem_append.1 hq with hq | hq
    · exact hl q (by simp [hq])
    · exact hl q (by simp [hq])
  refine ⟨if s.get .next p = 0 then s.get .prev p else e, hring.congr (fun q hq => ?_) fun q hq => ?_⟩
  · rcases List.mem_cons.1 hq with rfl | hq
    · simp only [Function.update_apply, (hget hp).2.2.2]
      grind
    · have hqs := hslot hq
      simp [hqs.ne_zero, (hget hqs).1, Function.update_apply]
  · rcases List.mem_cons.1 hq with rfl | hq
    · simp only [Function.update_apply]
      grind
    · have hqs := hslot hq
      simp [hqs.ne_zero, (hget hqs).2.1, Function.update_apply]

theorem listBlocks_eq {nx pv : ℕ → ℕ} {fuel : ℕ} (h : (l ++ [0]).IsChain (Link nx pv))
    (hn : ∀ q ∈ l, nx q = s.get .next q) (hl : ∀ q ∈ l, q ≠ 0) (hf : l.length ≤ fuel) :
    listBlocks s fuel (l.head?.getD 0) = l := by
  induction l generalizing fuel with
  | nil => cases fuel <;> simp [listBlocks]
  | cons x l ih =>
    cases fuel with
    | zero => simp at hf
    | succ fuel =>
      have hx : s.get .next x = l.head?.getD 0 := by
        rw [← hn x (by simp)]
        cases l with
        | nil => exact (List.isChain_cons_cons.1 h).1.1
        | cons y l => exact (List.isChain_cons_cons.1 h).1.1
      rw [List.head?_cons, Option.getD_some, listBlocks, if_neg (hl x (by simp)), hx,
        ih h.tail (fun q hq => hn q (by simp [hq])) (fun q hq => hl q (by simp [hq]))
          (by simpa using hf)]

/-! ## All lists -/

/-- The lists of all orders, as offsets from the base. -/
structure Lists (r : Region) (s : State) (F : ℕ → List ℕ) : Prop where
  base : s.base = r.base
  size : s.size = r.size
  listed : ∀ o, Listed s o ((F o).map (r.base + ·))
  block : ∀ o, ∀ x ∈ F o, Block r x
  nodup : ∀ o, (F o).Nodup
  disjoint : ∀ o o' x, x ∈ F o → x ∈ F o' → o = o'

namespace Lists

variable {F : ℕ → List ℕ}

theorem slots (h : Lists r s F) (o : ℕ) : ∀ q ∈ (F o).map (r.base + ·), Slot r q := by
  intro q hq
  obtain ⟨x, hx, rfl⟩ := List.mem_map.1 hq
  exact (h.block o x hx).slot

theorem tail_not_mem (h : Lists r s F) (o : ℕ) : r.tail ∉ (F o).map (r.base + ·) := by
  intro hq
  obtain ⟨x, hx, e⟩ := List.mem_map.1 hq
  exact (h.block o x hx).ne_tail e.symm

theorem mem_map_base {l : List ℕ} : r.base + x ∈ l.map (r.base + ·) ↔ x ∈ l := by
  simp

theorem blocks_eq (h : Lists r s F) {xs : List ℕ} (hF : F o = x :: xs) : s.blocks o = r.base + x := by
  simp [(h.listed o).blocks_eq, hF]

theorem blocks_eq_zero_iff (h : Lists r s F) : s.blocks o = 0 ↔ F o = [] := by
  rw [(h.listed o).blocks_eq]
  cases hF : F o with
  | nil => simp
  | cons x xs =>
    have := r.base_pos
    simp
    omega

/-- The list that is found when it is followed from its start. -/
theorem freeBlocks_eq (h : Lists r s F) (o : ℕ) : freeBlocks s o = (F o).map (r.base + ·) := by
  have hlt : ∀ x ∈ F o, x < r.size := by
    intro x hx
    have := (h.block o x hx).2
    rw [Region.managed] at this
    omega
  have hlen : (F o).length ≤ r.size := by
    rw [← List.toFinset_card_of_nodup (h.nodup o), ← Finset.card_range r.size]
    exact Finset.card_le_card fun x hx => Finset.mem_range.2 (hlt x (List.mem_toFinset.1 hx))
  have hne : ∀ q ∈ (F o).map (r.base + ·), q ≠ 0 := fun q hq => (h.slots o q hq).ne_zero
  rw [freeBlocks, (h.listed o).blocks_eq, h.size]
  obtain ⟨e, hring⟩ := h.listed o
  refine listBlocks_eq (List.IsChain.tail hring) (fun q hq => ?_) hne (by simpa using hlen)
  rw [Function.update_of_ne (hne q hq)]

/-- A block is in one list only. -/
theorem not_mem_map (h : Lists r s F) (ho : o' ≠ o) (hq : q ∈ (F o').map (r.base + ·)) :
    q ∉ (F o).map (r.base + ·) := by
  obtain ⟨x, hx, rfl⟩ := List.mem_map.1 hq
  rw [mem_map_base]
  exact fun hx' => ho (h.disjoint o' o x hx hx')

theorem link (h : Lists r s F) (hb : Block r x) (hF : ∀ o', x ∉ F o') :
    Lists r (blockLink s o (r.base + x)) (Function.update F o (x :: F o)) ∧
      ∀ f q, Slot r q → f ≠ .next ∧ f ≠ .prev ∨ q = r.tail →
        (blockLink s o (r.base + x)).get f q = s.get f q := by
  have hx := hb.slot
  have hblk := (h.listed o).slot (h.slots o)
  have hne : s.blocks o ≠ r.base + x := by
    intro e
    rcases hblk with h₀ | ⟨-, hmem⟩
    · exact hx.ne_zero (e ▸ h₀)
    · exact hF o (mem_map_base.1 (e ▸ hmem))
  have hget := fun {q} hq => blockLink_get (q := q) hx (hblk.imp_right And.left) hne hq
  refine ⟨⟨by simp [h.base], by simp [h.size], fun o' => ?_, fun o' y hy => ?_, fun o' => ?_,
    fun o₁ o₂ y h₁ h₂ => ?_⟩, fun f q hq hf => ?_⟩
  · rcases eq_or_ne o' o with rfl | ho
    · rw [Function.update_self, List.map_cons]
      refine (h.listed o').link (h.slots o') hx (List.nodup_cons.2 ⟨?_, ?_⟩)
      · rw [mem_map_base]
        exact hF o'
      · exact (h.nodup o').map fun _ _ => Nat.add_left_cancel
    · rw [Function.update_of_ne ho]
      have hother : ∀ q ∈ (F o').map (r.base + ·), q ≠ r.base + x ∧ q ≠ s.blocks o := by
        intro q hq
        constructor
        · rintro rfl
          exact hF o' (mem_map_base.1 hq)
        · rintro rfl
          rcases hblk with h₀ | ⟨-, hmem⟩
          · exact (h.slots o' _ hq).ne_zero h₀
          · exact h.not_mem_map ho hq hmem
      refine (h.listed o').congr (h.slots o') (by simp [ho]) (fun q hq => ?_) fun q hq => ?_
      · rw [(hget (h.slots o' q hq)).1, Function.update_of_ne (hother q hq).1]
      · rw [(hget (h.slots o' q hq)).2.1, Function.update_of_ne (hother q hq).2,
          Function.update_of_ne (hother q hq).1]
  · rw [Function.update_apply] at hy
    split_ifs at hy with ho
    · rcases List.mem_cons.1 hy with rfl | hy
      · exact hb
      · exact h.block o y hy
    · exact h.block o' y hy
  · rw [Function.update_apply]
    split_ifs with ho
    · exact List.nodup_cons.2 ⟨hF o, h.nodup o⟩
    · exact h.nodup o'
  · have hd := h.disjoint
    simp only [Function.update_apply] at h₁ h₂
    grind
  · obtain ⟨hn, hv, hother⟩ := hget hq
    rcases hf with hf | rfl
    · exact hother f hf.1 hf.2
    have hblk' : r.tail ≠ s.blocks o := by
      intro e
      rcases hblk with h₀ | ⟨-, hmem⟩
      · exact hq.ne_zero (e.trans h₀)
      · exact h.tail_not_mem o (e ▸ hmem)
    cases f with
    | next => rw [hn, Function.update_of_ne hb.ne_tail]
    | prev => rw [hv, Function.update_of_ne hblk', Function.update_of_ne hb.ne_tail]
    | order => exact hother _ (by simp) (by simp)
    | isFree => exact hother _ (by simp) (by simp)

theorem unlink (h : Lists r s F) (hF : x ∈ F o) :
    Lists r (blockUnlink s o (r.base + x)) (Function.update F o ((F o).erase x)) ∧
      ∀ f q, Slot r q → f ≠ .next ∧ f ≠ .prev ∨ q = r.tail →
        (blockUnlink s o (r.base + x)).get f q = s.get f q := by
  have hx : Slot r (r.base + x) := (h.block o x hF).slot
  obtain ⟨l₁, l₂, -, hl, herase⟩ := List.exists_erase_eq hF
  have hmap : (F o).map (r.base + ·) =
      l₁.map (r.base + ·) ++ (r.base + x) :: l₂.map (r.base + ·) := by
    rw [hl, List.map_append, List.map_cons]
  have hlisted := h.listed o
  have hslots := h.slots o
  rw [hmap] at hlisted hslots
  obtain ⟨hn, hv⟩ := hlisted.neighbours hslots
  have hget := fun {q} hq =>
    blockUnlink_get (o := o) (q := q) hx (hn.imp_right And.left) (hv.imp_right And.left) hq
  have hsub : ∀ y ∈ (F o).erase x, y ∈ F o := fun y hy => List.mem_of_mem_erase hy
  refine ⟨⟨by simp [h.base], by simp [h.size], fun o' => ?_, fun o' y hy => ?_, fun o' => ?_,
    fun o₁ o₂ y h₁ h₂ => ?_⟩, fun f q hq hf => ?_⟩
  · rcases eq_or_ne o' o with rfl | ho
    · rw [Function.update_self, herase, List.map_append]
      refine hlisted.unlink hslots ?_
      rw [← hmap]
      exact (h.nodup o').map fun _ _ => Nat.add_left_cancel
    · rw [Function.update_of_ne ho]
      -- The neighbours are in the other list.
      have hother : ∀ q ∈ (F o').map (r.base + ·),
          q ≠ s.get .next (r.base + x) ∧ q ≠ s.get .prev (r.base + x) := by
        intro q hq
        have hq' := h.not_mem_map ho hq
        rw [hmap] at hq'
        constructor
        · rintro rfl
          rcases hn with h₀ | ⟨-, hmem⟩
          · exact (h.slots o' _ hq).ne_zero h₀
          · exact hq' (List.mem_append_right _ (List.mem_cons_of_mem _ hmem))
        · rintro rfl
          rcases hv with h₀ | ⟨-, hmem⟩
          · exact (h.slots o' _ hq).ne_zero h₀
          · exact hq' (List.mem_append_left _ hmem)
      refine (h.listed o').congr (h.slots o') ?_ (fun q hq => ?_) fun q hq => ?_
      · rw [(hget hx).2.2.2]
        split_ifs
        · rw [Function.update_of_ne ho]
        · rfl
      · rw [(hget (h.slots o' q hq)).1, Function.update_of_ne (hother q hq).2]
      · rw [(hget (h.slots o' q hq)).2.1, Function.update_of_ne (hother q hq).1]
  · rw [Function.update_apply] at hy
    split_ifs at hy with ho
    · exact h.block o y (hsub y hy)
    · exact h.block o' y hy
  · rw [Function.update_apply]
    split_ifs with ho
    · exact (h.nodup o).erase x
    · exact h.nodup o'
  · have hd := h.disjoint
    simp only [Function.update_apply] at h₁ h₂
    grind
  · obtain ⟨hn', hv', hother, -⟩ := hget hq
    rcases hf with hf | rfl
    · exact hother f hf.1 hf.2
    have htail := h.tail_not_mem o
    rw [hmap] at htail
    cases f with
    | next =>
      rw [hn', Function.update_of_ne]
      intro e
      rcases hv with h₀ | ⟨-, hmem⟩
      · exact hq.ne_zero (e.trans h₀)
      · exact htail (List.mem_append_left _ (e ▸ hmem))
    | prev =>
      rw [hv', Function.update_of_ne]
      intro e
      rcases hn with h₀ | ⟨-, hmem⟩
      · exact hq.ne_zero (e.trans h₀)
      · exact htail (List.mem_append_right _ (List.mem_cons_of_mem _ (e ▸ hmem)))
    | order => exact hother _ (by simp) (by simp)
    | isFree => exact hother _ (by simp) (by simp)

theorem congr {s' : State} (h : Lists r s F) (hb : s'.base = s.base) (hz : s'.size = s.size)
    (hl : s'.blocks = s.blocks)
    (hg : ∀ o, ∀ x ∈ F o, ∀ f, s'.get f (r.base + x) = s.get f (r.base + x)) : Lists r s' F := by
  refine ⟨hb.trans h.base, hz.trans h.size, fun o => ?_, h.block, h.nodup, h.disjoint⟩
  refine (h.listed o).congr (h.slots o) (by rw [hl]) (fun q hq => ?_) fun q hq => ?_
  · obtain ⟨x, hx, rfl⟩ := List.mem_map.1 hq
    exact hg o x hx _
  · obtain ⟨x, hx, rfl⟩ := List.mem_map.1 hq
    exact hg o x hx _

/-- The other fields of a header are set. -/
theorem set (h : Lists r s F) (hp : Slot r p) (hn : f ≠ .next) (hv : f ≠ .prev) :
    Lists r (s.set f p v) F := by
  refine ⟨h.base, h.size, fun o => ?_, h.block, h.nodup, h.disjoint⟩
  refine (h.listed o).congr (h.slots o) rfl (fun q hq => ?_) fun q hq => ?_
  · rw [get_set hp (h.slots o q hq), if_neg (by simp [hn.symm])]
  · rw [get_set hp (h.slots o q hq), if_neg (by simp [hv.symm])]

end Lists

/-! ## The view of the memory -/

/-- The lists, the other fields of the headers, and the fields `T` behind the last block. -/
structure View (r : Region) (T : Field → ℕ) (s : State) (F : ℕ → List ℕ) (order isFree : ℕ → ℕ) :
    Prop where
  lists : Lists r s F
  order_eq : ∀ q, Slot r q → s.get .order q = order q
  isFree_eq : ∀ q, Slot r q → s.get .isFree q = isFree q
  tail_eq : Slot r r.tail → ∀ f, s.get f r.tail = T f

namespace View

variable {F : ℕ → List ℕ} {order isFree : ℕ → ℕ} {T : Field → ℕ}

/-- Only the lists have changed. -/
theorem relist {s' : State} {F' : ℕ → List ℕ} (h : View r T s F order isFree)
    (hs : Lists r s' F' ∧ ∀ f q, Slot r q → f ≠ .next ∧ f ≠ .prev ∨ q = r.tail →
      s'.get f q = s.get f q) : View r T s' F' order isFree := by
  obtain ⟨hl, hg⟩ := hs
  refine ⟨hl, fun q hq => ?_, fun q hq => ?_, fun hq f => ?_⟩
  · rw [hg _ _ hq (.inl (by simp)), h.order_eq q hq]
  · rw [hg _ _ hq (.inl (by simp)), h.isFree_eq q hq]
  · rw [hg _ _ hq (.inr rfl), h.tail_eq hq]

theorem link (h : View r T s F order isFree) (o : ℕ) (hx : Block r x) (hF : ∀ o', x ∉ F o') :
    View r T (blockLink s o (r.base + x)) (Function.update F o (x :: F o)) order isFree :=
  h.relist (h.lists.link hx hF)

theorem unlink (h : View r T s F order isFree) (hF : x ∈ F o) :
    View r T (blockUnlink s o (r.base + x)) (Function.update F o ((F o).erase x)) order isFree :=
  h.relist (h.lists.unlink hF)

theorem setOrder (h : View r T s F order isFree) (hx : Block r x) (hv : v < 256) :
    View r T (s.set .order (r.base + x) v) F (Function.update order (r.base + x) v) isFree := by
  refine ⟨h.lists.set hx.slot (by simp) (by simp), fun q hq => ?_, fun q hq => ?_, fun hq f => ?_⟩
  · rw [get_set hx.slot hq, Function.update_apply, h.order_eq q hq]
    simp [Field.bytes, Nat.mod_eq_of_lt hv]
  · rw [get_set hx.slot hq, if_neg (by simp), h.isFree_eq q hq]
  · rw [get_set hx.slot hq, if_neg (by simp [hx.ne_tail]), h.tail_eq hq]

theorem setIsFree (h : View r T s F order isFree) (hx : Block r x) (hv : v < 256) :
    View r T (s.set .isFree (r.base + x) v) F order (Function.update isFree (r.base + x) v) := by
  refine ⟨h.lists.set hx.slot (by simp) (by simp), fun q hq => ?_, fun q hq => ?_, fun hq f => ?_⟩
  · rw [get_set hx.slot hq, if_neg (by simp), h.order_eq q hq]
  · rw [get_set hx.slot hq, Function.update_apply, h.isFree_eq q hq]
    simp [Field.bytes, Nat.mod_eq_of_lt hv]
  · rw [get_set hx.slot hq, if_neg (by simp [hx.ne_tail]), h.tail_eq hq]

end View

/-! ## What is behind the headers -/

/-- The offset `x` is not in one of the blocks `U`, behind its start. -/
def Clear (U : ℕ → ℕ → Prop) (x : ℕ) : Prop := ∀ y k, U y k → x ≤ y ∨ y + 2 ^ k ≤ x

/-- The bytes of the blocks `U` behind their headers are those of `m`. -/
def Kept (r : Region) (U : ℕ → ℕ → Prop) (m : Mem) (s : State) : Prop :=
  ∀ y k, U y k → ∀ q, r.base + y + 24 ≤ q → q < r.base + y + 2 ^ k → s.mem q = m q

/-- A view, with blocks that are not written to. -/
structure Tracked (r : Region) (T : Field → ℕ) (U : ℕ → ℕ → Prop) (m : Mem) (s : State)
    (F : ℕ → List ℕ) (order isFree : ℕ → ℕ) : Prop extends View r T s F order isFree where
  clear : ∀ o, ∀ x ∈ F o, Clear U x
  kept : Kept r U m s

variable {U : ℕ → ℕ → Prop} {m : Mem}

theorem Kept.trans {s' : State} (h : Kept r U m s) (h' : Kept r U s.mem s') : Kept r U m s' :=
  fun y k hy q hq hq' => (h' y k hy q hq hq').trans (h y k hy q hq hq')

/-- A header is not behind the one of a block of `U`. -/
theorem Clear.not_mem {y k : ℕ} (h : Clear U x) (hy : U y k) (hq : r.base + y + 24 ≤ q)
    (hq' : q < r.base + y + 2 ^ k) : ¬(r.base + x ≤ q ∧ q < r.base + x + 24) := by
  have := h y k hy
  omega

namespace Tracked

variable {F : ℕ → List ℕ} {order isFree : ℕ → ℕ} {T : Field → ℕ}

/-- The start of a list, if there is one, is not behind the header of a block of `U`. -/
theorem not_mem {y k : ℕ} (h : Tracked r T U m s F order isFree) (hp : p ∈ (F o).map (r.base + ·))
    (hy : U y k) (hq : r.base + y + 24 ≤ q) (hq' : q < r.base + y + 2 ^ k) :
    ¬(p ≤ q ∧ q < p + 24) := by
  obtain ⟨x, hx, rfl⟩ := List.mem_map.1 hp
  exact (h.clear o x hx).not_mem hy hq hq'

theorem link (h : Tracked r T U m s F order isFree) (o : ℕ) (hx : Block r x) (hc : Clear U x)
    (hF : ∀ o', x ∉ F o') :
    Tracked r T U m (blockLink s o (r.base + x)) (Function.update F o (x :: F o)) order isFree := by
  refine ⟨h.toView.link o hx hF, fun o' y hy => ?_, fun y k hy q hq hq' => ?_⟩
  · rw [Function.update_apply] at hy
    split_ifs at hy with ho
    · rcases List.mem_cons.1 hy with rfl | hy
      · exact hc
      · exact h.clear o y hy
    · exact h.clear o' y hy
  · have hblk := (h.lists.listed o).slot (h.lists.slots o)
    rw [blockLink_mem hx.slot (hblk.imp_right And.left) (hc.not_mem hy hq hq') fun hne => ?_]
    · exact h.kept y k hy q hq hq'
    · exact h.not_mem (hblk.resolve_left hne).2 hy hq hq'

theorem unlink (h : Tracked r T U m s F order isFree) (hF : x ∈ F o) :
    Tracked r T U m (blockUnlink s o (r.base + x)) (Function.update F o ((F o).erase x)) order isFree := by
  refine ⟨h.toView.unlink hF, fun o' y hy => ?_, fun y k hy q hq hq' => ?_⟩
  · rw [Function.update_apply] at hy
    split_ifs at hy with ho
    · exact h.clear o y (List.mem_of_mem_erase hy)
    · exact h.clear o' y hy
  · obtain ⟨l₁, l₂, hl⟩ := List.append_of_mem (List.mem_map_of_mem (f := (r.base + ·)) hF)
    have hlisted := h.lists.listed o
    have hslots := h.lists.slots o
    rw [hl] at hlisted hslots
    obtain ⟨hn, hv⟩ := hlisted.neighbours hslots
    rw [blockUnlink_mem (h.lists.block o x hF).slot (hn.imp_right And.left) (hv.imp_right And.left)
      (fun hne => ?_) fun hne => ?_]
    · exact h.kept y k hy q hq hq'
    · refine h.not_mem (o := o) ?_ hy hq hq'
      rw [hl]
      exact List.mem_append_right _ (List.mem_cons_of_mem _ (hn.resolve_left hne).2)
    · refine h.not_mem (o := o) ?_ hy hq hq'
      rw [hl]
      exact List.mem_append_left _ (hv.resolve_left hne).2

theorem set_kept (h : Tracked r T U m s F order isFree) (hc : Clear U x) :
    Kept r U m (s.set f (r.base + x) v) := by
  intro y k hy q hq hq'
  rw [set_mem (hc.not_mem hy hq hq')]
  exact h.kept y k hy q hq hq'

theorem setOrder (h : Tracked r T U m s F order isFree) (hx : Block r x) (hc : Clear U x) (hv : v < 256) :
    Tracked r T U m (s.set .order (r.base + x) v) F (Function.update order (r.base + x) v) isFree :=
  ⟨h.toView.setOrder hx hv, h.clear, h.set_kept hc⟩

theorem setIsFree (h : Tracked r T U m s F order isFree) (hx : Block r x) (hc : Clear U x) (hv : v < 256) :
    Tracked r T U m (s.set .isFree (r.base + x) v) F order (Function.update isFree (r.base + x) v) :=
  ⟨h.toView.setIsFree hx hv, h.clear, h.set_kept hc⟩

end Tracked

end Dlb.Arena
