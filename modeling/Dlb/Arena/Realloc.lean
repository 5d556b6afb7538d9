import Dlb.Arena.Run

/-!
# What `arena_realloc` does to the data

A null pointer means that nothing has changed. Otherwise the block is kept, or the data are copied to a new
one: `arena_alloc` and `arena_free` write to headers only, which are not in the data of a block that is
allocated.
-/

namespace Dlb.Arena

open Blocks

variable {r : Region} {T : Field → ℕ} {m : Mem} {s s' : State} {t : Sys} {a a' : Blocks}
  {x y o k n ptr : ℕ}

/-- The number of bytes for the data of the block with the pointer `ptr`. -/
def payload (s : State) (ptr : ℕ) : ℕ := 2 ^ s.get .order (ptr - 24) - 24

/-- The data of the block with the pointer `ptr`. -/
def data (s : State) (ptr : ℕ) : List UInt8 := (List.range (payload s ptr)).map fun i => s.mem (ptr + i)

/-! ## Null pointers -/

theorem arenaAlloc_null (h : (arenaAlloc s n).1 = 0) : (arenaAlloc s n).2 = s := by
  rw [arenaAlloc] at h ⊢
  split_ifs at h ⊢
  · rfl
  · dsimp only at h ⊢
    split_ifs at h ⊢
    · rfl
    · rfl

/-- Nothing is done, or the block is moved. -/
theorem arenaRealloc_cases (hp : ptr ≠ 0) :
    arenaRealloc s ptr n = (0, s) ∨ arenaRealloc s ptr n = (ptr, s) ∨
      (arenaAlloc s n).1 ≠ 0 ∧ arenaRealloc s ptr n = ((arenaAlloc s n).1,
        arenaFree { (arenaAlloc s n).2 with
          mem := (arenaAlloc s n).2.mem.copy (arenaAlloc s n).1 ptr
            (min (2 ^ (arenaAlloc s n).2.get .order (ptr - 24) - 24) n) } ptr) := by
  rw [arenaRealloc, if_neg hp]
  split_ifs
  · exact .inl rfl
  · dsimp only
    split_ifs with h₂ h₃ h₄
    · exact .inl rfl
    · exact .inr (.inl rfl)
    · exact .inl (Prod.ext rfl (arenaAlloc_null h₄))
    · exact .inr (.inr ⟨h₄, rfl⟩)

/-- A null pointer means that nothing has changed. -/
theorem arenaRealloc_null (hp : ptr ≠ 0) (h : (arenaRealloc s ptr n).1 = 0) :
    (arenaRealloc s ptr n).2 = s := by
  rcases arenaRealloc_cases (s := s) (n := n) hp with e | e | ⟨hne, e⟩
  · rw [e]
  · rw [e]
  · rw [e] at h
    exact absurd h hne

/-! ## Data -/

theorem Rep.payload_eq (h : Rep r T s a) (hx : a.hdr x = some (o, false)) :
    payload s (r.base + x + 24) = 2 ^ o - 24 := by
  rw [payload, Nat.add_sub_cancel, (h.hdr x o false hx).1]

/-- The data of a block are the same if its bytes and its order are. -/
theorem Rep.data_eq (h : Rep r T s a) (h' : Rep r T s' a') (hx : a.hdr x = some (o, false))
    (hx' : a'.hdr x = some (o, false))
    (hk : ∀ q, r.base + x + 24 ≤ q → q < r.base + x + 2 ^ o → s'.mem q = s.mem q) :
    data s' (r.base + x + 24) = data s (r.base + x + 24) := by
  rw [data, data, h.payload_eq hx, h'.payload_eq hx']
  refine List.map_congr_left fun i hi => hk _ (by omega) ?_
  have := List.mem_range.1 hi
  omega

/-- The first bytes of a block are the data of another one. -/
theorem take_data (h : ∀ i < min (payload s ptr) n, s'.mem (y + i) = s.mem (ptr + i))
    (hn : n ≤ payload s' y) : (data s ptr).take n <+: data s' y := by
  have hlen : (data s ptr).length = payload s ptr := by rw [data, List.length_map, List.length_range]
  have hlen' : (data s' y).length = payload s' y := by rw [data, List.length_map, List.length_range]
  have heq : (data s ptr).take n = (data s' y).take (min (payload s ptr) n) := by
    refine List.ext_getElem ?_ fun i hi hi' => ?_
    · rw [List.length_take, List.length_take, hlen, hlen']
      omega
    · rw [List.length_take, hlen] at hi
      simp only [List.getElem_take, data, List.getElem_map, List.getElem_range]
      exact (h i (by omega)).symm
  rw [heq]
  exact List.take_prefix ..

/-! ## The move -/

/-- The blocks that a call of `arena_realloc` leaves alone. -/
def Others (a : Blocks) (x y k : ℕ) : Prop := y ≠ x ∧ a.hdr y = some (k, false)

/-- The block is not moved to where it is. -/
theorem Rep.realloc_same (h : Rep r T s a) (hi : Inv r.managed ∅ a) (hr : r.size < 2 ^ 31)
    (hx : a.hdr x = some (o, false)) (e : (arenaRealloc s (r.base + x + 24) n).1 = r.base + x + 24) :
    (arenaRealloc s (r.base + x + 24) n).2 = s := by
  obtain ⟨hptr, -⟩ := h.alloc hi n
  rcases arenaRealloc_cases (s := s) (n := n) (show r.base + x + 24 ≠ 0 by omega) with e₁ | e₁ | ⟨-, e₁⟩
  · rw [e₁]
  · rw [e₁]
  · rw [e₁, hptr] at e
    rcases alloc_spec n hi (managed_lt hr) with e₂ | ⟨z, k, a₁, e₂, -, -, hz, -⟩
    · rw [e₂] at e
      change 0 = _ at e
      omega
    · rw [e₂] at e
      change r.base + z + 24 = r.base + x + 24 at e
      obtain rfl : z = x := by omega
      exact absurd hx (hz o)

/-- The data of the block `x` are copied to the block `y`, and then `x` is freed. -/
theorem Rep.move_kept (h : Rep r T s a) (hq : Quiet r T) (hi : Inv r.managed ∅ a)
    (hx : a.hdr x = some (o, false)) (hy : a.hdr y = some (k, false)) (hyx : y ≠ x)
    (hn : n + 24 ≤ 2 ^ k) {s' : State} (hs' : s' = arenaFree { s with
      mem := s.mem.copy (r.base + y + 24) (r.base + x + 24) n } (r.base + x + 24)) :
    Kept r (fun z j => z ≠ y ∧ Others a x z j) s.mem s' ∧
      ∀ i < n, s'.mem (r.base + y + 24 + i) = s.mem (r.base + x + 24 + i) := by
  obtain ⟨m, hm⟩ : ∃ m, m = s.mem.copy (r.base + y + 24) (r.base + x + 24) n := ⟨_, rfl⟩
  have hmem : ∀ q, ¬(r.base + y + 24 ≤ q ∧ q < r.base + y + 2 ^ k) → m q = s.mem q := by
    intro q hq
    rw [hm]
    exact Mem.copy_of_not_mem (by omega)
  obtain ⟨-, hk⟩ := (h.write hi hy hmem).free_kept hq hi hx (U := Others a x) fun _ _ hz => hz
  replace hk : Kept r (Others a x) m s' := by rwa [hs', ← hm]
  constructor
  · -- The copy is in the block `y`, and so is not in another one.
    rintro z j ⟨hzy, hz⟩ q hq₁ hq₂
    have hlt := hi.tiling.apart z y j k (Inv.ord_eq hz.2) (Inv.ord_eq hy)
    have hgt := hi.tiling.apart y z k j (Inv.ord_eq hy) (Inv.ord_eq hz.2)
    rw [hk z j hz q hq₁ hq₂, hmem q (by omega)]
  · intro i hlt
    rw [hk y k ⟨hyx, hy⟩ _ (by omega) (by omega), hm, Mem.copy, if_pos (by omega),
      Nat.add_sub_cancel_left, Nat.add_comm i]

/-- The data are copied to the new block, and those of the other blocks are kept. -/
theorem Rep.realloc_kept (h : Rep r T s a) (hq : Quiet r T) (hi : Inv r.managed ∅ a)
    (hr : r.size < 2 ^ 31) (hx : a.hdr x = some (o, false))
    (e : (arenaRealloc s (r.base + x + 24) n).1 = r.base + y + 24) (hyx : y ≠ x) :
    Kept r (Others a x) s.mem (arenaRealloc s (r.base + x + 24) n).2 ∧
      ∀ i < min (2 ^ o - 24) n,
        (arenaRealloc s (r.base + x + 24) n).2.mem (r.base + y + 24 + i) = s.mem (r.base + x + 24 + i) := by
  obtain ⟨hptr, hrep, hk⟩ := h.alloc_kept hi (U := fun y k => a.hdr y = some (k, false)) (fun _ _ hy => hy) n
  rcases arenaRealloc_cases (s := s) (n := n) (show r.base + x + 24 ≠ 0 by omega) with e₀ | e₀ | ⟨-, e₀⟩
  · rw [e₀] at e
    omega
  · rw [e₀] at e
    omega
  rcases alloc_spec n hi (managed_lt hr) with e₁ | ⟨z, k, a₁, e₁, hi₁, hkn, hz, hused⟩
  · rw [e₀, hptr, e₁] at e
    change 0 = _ at e
    omega
  rw [e₁] at hptr hrep
  obtain rfl : z = y := by
    rw [e₀, hptr] at e
    change r.base + z + 24 = r.base + y + 24 at e
    omega
  have hx₁ := (hused x o).2 (.inr hx)
  have hz₁ := (hused z k).2 (.inl ⟨rfl, rfl⟩)
  have hcopy : (arenaAlloc s n).2.get .order (r.base + x + 24 - 24) = o := (hrep.hdr x o false hx₁).1
  rw [e₀, hptr, hcopy]
  obtain ⟨hk₂, hdata⟩ := hrep.move_kept hq hi₁ hx₁ hz₁ hyx (n := min (2 ^ o - 24) n) (by omega) rfl
  constructor
  · rintro w j ⟨hwx, hw⟩ q hq₁ hq₂
    have hwz : w ≠ z := by
      rintro rfl
      exact hz j hw
    rw [← hk w j hw q hq₁ hq₂]
    exact hk₂ w j ⟨hwz, hwx, (hused w j).2 (.inr hw)⟩ q hq₁ hq₂
  · intro i hlt
    rw [← hk x o hx _ (by omega) (by omega)]
    exact hdata i hlt

/-! ## Runs -/

/-- The data of the block `ptr` are in the block `ptr'`, which has room for `n` bytes, and the other blocks
    are where they were, with their data. -/
structure Reallocated (t : Sys) (ptr n ptr' : ℕ) (t' : Sys) : Prop where
  held : t'.held ptr' = some n
  room : n ≤ payload t'.arena ptr'
  data : (data t.arena ptr).take n <+: data t'.arena ptr'
  others : ∀ p, p ≠ ptr → t.held p ≠ none →
    p ≠ ptr' ∧ t'.held p = t.held p ∧ Arena.data t'.arena p = Arena.data t.arena p

theorem call_null (hp : ptr ≠ 0) (h : (t.call (.realloc ptr n)).1 = 0) : (t.call (.realloc ptr n)).2 = t := by
  have hs : (arenaRealloc t.arena ptr n).2 = t.arena := arenaRealloc_null hp h
  have hheld : Call.held t.held (arenaRealloc t.arena ptr n).1 (.realloc ptr n) = t.held := if_pos h
  exact congrArg₂ Sys.mk hs hheld

theorem held_realloc {c : ℕ × Sys} (hc : c = t.call (.realloc ptr n)) (h : c.1 ≠ 0) :
    c.2.held = Function.update (Function.update t.held ptr none) c.1 (some n) := by
  subst hc
  exact if_neg h

/-- The block stays where it is. -/
theorem Sim.realloc_same (h : Sim r T t a) (hr : r.size < 2 ^ 31) (hx : a.hdr x = some (o, false))
    (hn : n + 24 ≤ 2 ^ o) {c : ℕ × Sys} (hc : c = t.call (.realloc (r.base + x + 24) n))
    (e : c.1 = r.base + x + 24) : Reallocated t (r.base + x + 24) n c.1 c.2 := by
  have hs : c.2.arena = t.arena := by
    subst hc
    exact h.rep.realloc_same h.inv hr hx e
  have hheld : c.2.held = Function.update (Function.update t.held (r.base + x + 24) none) c.1 (some n) :=
    held_realloc hc (by omega)
  refine ⟨by rw [hheld, Function.update_self], ?_, ?_, fun p hp _ => ⟨e ▸ hp, ?_, by rw [hs]⟩⟩
  · rw [hs, e, h.rep.payload_eq hx]
    omega
  · rw [hs, e]
    exact List.take_prefix ..
  · rw [hheld, e, Function.update_of_ne hp, Function.update_of_ne hp]

/-- The block is moved. -/
theorem Sim.realloc_moved (h : Sim r T t a) (hq : Quiet r T) (hr : r.size < 2 ^ 31)
    (hx : a.hdr x = some (o, false)) {c : ℕ × Sys} (hc : c = t.call (.realloc (r.base + x + 24) n))
    (e : c.1 = r.base + y + 24) (hyx : y ≠ x) (h' : Sim r T c.2 a')
    (hkeep : ∀ z j, z ≠ x → a.hdr z = some (j, false) → z ≠ y ∧ a'.hdr z = some (j, false)) :
    Reallocated t (r.base + x + 24) n c.1 c.2 := by
  obtain ⟨hk, hcopy⟩ : Kept r (Others a x) t.arena.mem c.2.arena ∧ ∀ i < min (2 ^ o - 24) n,
      c.2.arena.mem (r.base + y + 24 + i) = t.arena.mem (r.base + x + 24 + i) := by
    subst hc
    exact h.rep.realloc_kept hq h.inv hr hx e hyx
  have hheld : c.2.held = Function.update (Function.update t.held (r.base + x + 24) none) c.1 (some n) :=
    held_realloc hc (by omega)
  have hself : c.2.held c.1 = some n := by rw [hheld, Function.update_self]
  obtain ⟨w, k, hw, hwk, hn⟩ := h'.held.block c.1 n hself
  have hroom : n ≤ payload c.2.arena c.1 := by
    rw [hw, h'.rep.payload_eq hwk]
    omega
  refine ⟨hself, hroom, take_data (fun i hi => ?_) hroom, fun p hp hheldp => ?_⟩
  · rw [h.rep.payload_eq hx] at hi
    rw [e]
    exact hcopy i hi
  · obtain ⟨z, j, rfl, hz⟩ := h.block hheldp
    have hzx : z ≠ x := by
      rintro rfl
      exact hp rfl
    obtain ⟨hzy, hz'⟩ := hkeep z j hzx hz
    have hne : r.base + z + 24 ≠ c.1 := by omega
    refine ⟨hne, ?_, h.rep.data_eq h'.rep hz hz' fun q hq₁ hq₂ => hk z j ⟨hzx, hz⟩ q hq₁ hq₂⟩
    rw [hheld, Function.update_of_ne hne, Function.update_of_ne hp]

/-- A call of `arena_realloc` changes nothing if it returns a null pointer, and keeps the data otherwise. -/
theorem run_realloc (hr : r.size < 2 ^ 31) (hm : ∀ i < r.size, m (r.base + i) = 0)
    (hrun : Run r m t) (hp : t.held ptr ≠ none) (n : ℕ) :
    ((t.call (.realloc ptr n)).1 = 0 → (t.call (.realloc ptr n)).2 = t) ∧
      ((t.call (.realloc ptr n)).1 ≠ 0 →
        Reallocated t ptr n (t.call (.realloc ptr n)).1 (t.call (.realloc ptr n)).2) := by
  obtain ⟨a, h⟩ := hrun.sim hr hm
  obtain ⟨x, o, rfl, hx⟩ := h.block hp
  have h₀ : r.base + x + 24 ≠ 0 := by omega
  obtain ⟨hptr, hsim⟩ := h.realloc (quiet_zero hm) hr hx n
  constructor
  · exact call_null h₀
  · intro hne
    rcases realloc_spec n h.inv (managed_lt hr) hx with e | ⟨e, ho⟩ | ⟨y, k, a', e, -, -, hy, hused⟩
    · rw [e] at hptr
      exact absurd hptr hne
    · rw [e] at hptr
      exact h.realloc_same hr hx ho rfl hptr
    · rw [e] at hptr hsim
      have hyx : y ≠ x := by
        rintro rfl
        exact hy o hx
      refine h.realloc_moved (quiet_zero hm) hr hx rfl hptr hyx hsim fun z j hzx hz => ⟨?_, ?_⟩
      · rintro rfl
        exact hy j hz
      · exact (hused z j).2 (.inr ⟨hzx, hz⟩)

/-- A block of 32 bytes is moved to one of 64. -/
theorem run_realloc_moved : ∃ t, Run ⟨4096, 256, by decide, by decide⟩ (fun _ => 0) t ∧
    t.held 4344 = some 8 ∧ (t.call (.realloc 4344 40)).1 = 4248 ∧
    Reallocated t 4344 40 (t.call (.realloc 4344 40)).1 (t.call (.realloc 4344 40)).2 := by
  have hrun : Run ⟨4096, 256, by decide, by decide⟩ (fun _ => 0) _ :=
    .single (.call _ (.alloc 8) trivial)
  exact ⟨_, hrun, by decide +kernel, by decide +kernel,
    (run_realloc (by decide) (fun _ _ => rfl) hrun (by decide +kernel) 40).2 (by decide +kernel)⟩

end Dlb.Arena
