import Mathlib.Logic.Relation
import Dlb.Arena.Refine

/-!
# Every run of the arena

A client calls the functions of the arena with pointers it has, and writes to the memory it has been
given. `Sim` says that the state of the arena represents blocks, and that those which are
allocated are what the client has; every call keeps it. From it follow that the blocks tile the
memory (`run_tiled`), and that they are the ones of the start when the client has nothing
(`run_coalesces`).
-/

namespace Dlb.Arena

open Blocks

/-! ## Runs -/

/-- The arena, and what the client has: the sizes it asked for, by the pointers. -/
structure Sys where
  arena : State
  held : ℕ → Option ℕ

inductive Call
  | alloc (size : ℕ)
  | realloc (ptr size : ℕ)
  | free (ptr : ℕ)

/-- The pointer is null, or one of those the client has. -/
def Call.Valid (held : ℕ → Option ℕ) : Call → Prop
  | .alloc _ => True
  | .realloc ptr _ => ptr = 0 ∨ held ptr ≠ none
  | .free ptr => ptr = 0 ∨ held ptr ≠ none

/-- What the client has after a call that has returned `ptr'`. -/
def Call.held (held : ℕ → Option ℕ) (ptr' : ℕ) : Call → ℕ → Option ℕ
  | .alloc size => if ptr' = 0 then held else Function.update held ptr' (some size)
  | .realloc ptr size =>
    if ptr' = 0 then held
    else Function.update (Function.update held ptr none) ptr' (some size)
  | .free ptr => Function.update held ptr none

/-- What a call returns, and the state of the arena after it. -/
def Call.exec (s : State) : Call → ℕ × State
  | .alloc size => arenaAlloc s size
  | .realloc ptr size => arenaRealloc s ptr size
  | .free ptr => (0, arenaFree s ptr)

def Sys.call (t : Sys) (c : Call) : ℕ × Sys :=
  let (ptr', s) := c.exec t.arena
  (ptr', ⟨s, c.held t.held ptr'⟩)

/-- A call, or a byte that is written somewhere in a block of the client, behind its header. -/
inductive Step : Sys → Sys → Prop
  | call (t : Sys) (c : Call) (h : c.Valid t.held) : Step t (t.call c).2
  | write (t : Sys) (ptr q : ℕ) (v : UInt8) (h : t.held ptr ≠ none) (h₁ : ptr ≤ q)
      (h₂ : q < ptr - 24 + 2 ^ t.arena.get .order (ptr - 24)) :
      Step t { t with arena := { t.arena with mem := Function.update t.arena.mem q v } }

/-- After `arena_init`. -/
def Sys.init (r : Region) (m : Mem) : Sys := ⟨arenaInit m r.base r.size, fun _ => none⟩

def Run (r : Region) (m : Mem) (t : Sys) : Prop := Relation.ReflTransGen Step (.init r m) t

/-! ## Simulation -/

variable {r : Region} {T : Field → ℕ} {m : Mem} {t t' : Sys} {a : Blocks} {c : Call} {x o n ptr : ℕ}

/-- The call without the memory. -/
def Call.model (r : Region) (a : Blocks) : Call → Option ℕ × Blocks
  | .alloc size => a.alloc size
  | .realloc ptr size => if ptr = 0 then a.alloc size else a.realloc (ptr - 24 - r.base) size
  | .free ptr => (none, if ptr = 0 then a else a.dealloc (ptr - 24 - r.base))

/-- What the client has are the blocks `U`, given by their offsets and orders. -/
structure Held (r : Region) (held : ℕ → Option ℕ) (U : ℕ → ℕ → Prop) : Prop where
  block : ∀ ptr n, held ptr = some n → ∃ x o, ptr = r.base + x + 24 ∧ U x o ∧ n + 24 ≤ 2 ^ o
  ptr : ∀ x o, U x o → held (r.base + x + 24) ≠ none

section Held

variable {held : ℕ → Option ℕ} {U U' : ℕ → ℕ → Prop}

theorem Held.add (h : Held r held U) (hn : n + 24 ≤ 2 ^ o)
    (hU : ∀ y k, U' y k ↔ y = x ∧ k = o ∨ U y k) :
    Held r (Function.update held (r.base + x + 24) (some n)) U' := by
  refine ⟨fun p k hp => ?_, fun y k hy => ?_⟩
  · rw [Function.update_apply] at hp
    split_ifs at hp with hpx
    · obtain rfl := Option.some.inj hp
      exact ⟨x, o, hpx, (hU x o).2 (.inl ⟨rfl, rfl⟩), hn⟩
    · obtain ⟨y, j, hy, hj, hk⟩ := h.block p k hp
      exact ⟨y, j, hy, (hU y j).2 (.inr hj), hk⟩
  · rw [Function.update_apply]
    split_ifs with hyx
    · simp
    · rcases (hU y k).1 hy with ⟨rfl, -⟩ | hy
      · exact absurd rfl hyx
      · exact h.ptr y k hy

theorem Held.remove (h : Held r held U) (hU : ∀ y k, U' y k ↔ y ≠ x ∧ U y k) :
    Held r (Function.update held (r.base + x + 24) none) U' := by
  refine ⟨fun p k hp => ?_, fun y k hy => ?_⟩
  · rw [Function.update_apply] at hp
    split_ifs at hp with hpx
    obtain ⟨y, j, rfl, hj, hk⟩ := h.block p k hp
    refine ⟨y, j, rfl, (hU y j).2 ⟨?_, hj⟩, hk⟩
    rintro rfl
    exact hpx rfl
  · obtain ⟨hne, hy⟩ := (hU y k).1 hy
    rw [Function.update_of_ne (by omega)]
    exact h.ptr y k hy

end Held

structure Sim (r : Region) (T : Field → ℕ) (t : Sys) (a : Blocks) : Prop where
  rep : Rep r T t.arena a
  inv : Inv r.managed ∅ a
  held : Held r t.held fun x o => a.hdr x = some (o, false)

theorem managed_lt (hr : r.size < 2 ^ 31) : r.managed < 2 ^ 31 := by
  rw [Region.managed]
  omega

theorem Sim.init (hr : r.size < 2 ^ 31) :
    Sim r (Rep.tailOf r m) (.init r m) (Blocks.init r.size) := by
  have h := init_spec hr
  refine ⟨Rep.init r m, h.inv, by simp [Sys.init], fun x o hx => ?_⟩
  have := (h.free x o false hx).1
  simp at this

/-- A block is allocated for a pointer that the client has. -/
theorem Sim.block (h : Sim r T t a) (hp : t.held ptr ≠ none) :
    ∃ x o, ptr = r.base + x + 24 ∧ a.hdr x = some (o, false) := by
  obtain ⟨n, hn⟩ := Option.ne_none_iff_exists'.1 hp
  obtain ⟨x, o, hx, ho, -⟩ := h.held.block ptr n hn
  exact ⟨x, o, hx, ho⟩

theorem Region.ptr_some_ne_zero : r.ptr (some x) ≠ 0 := by
  simp [Region.ptr]

theorem Region.ptr_ne_zero_iff {q : Option ℕ} : r.ptr q ≠ 0 ↔ q.isSome := by
  cases q <;> simp [Region.ptr]

theorem Sim.alloc (h : Sim r T t a) (hr : r.size < 2 ^ 31) (size : ℕ) :
    (arenaAlloc t.arena size).1 = r.ptr (a.alloc size).1 ∧
      Sim r T ⟨(arenaAlloc t.arena size).2, if (arenaAlloc t.arena size).1 = 0 then t.held
        else Function.update t.held (arenaAlloc t.arena size).1 (some size)⟩ (a.alloc size).2 := by
  obtain ⟨hptr, hrep⟩ := h.rep.alloc h.inv size
  refine ⟨hptr, ?_⟩
  rw [hptr]
  rcases alloc_spec size h.inv (managed_lt hr) with e | ⟨x, o, a', e, hi', ho, hx, hused⟩
  · rw [e] at hrep ⊢
    exact ⟨hrep, h.inv, h.held⟩
  · rw [e] at hrep ⊢
    rw [if_neg Region.ptr_some_ne_zero]
    exact ⟨hrep, hi', h.held.add ho hused⟩

theorem Sim.realloc (h : Sim r T t a) (hq : Quiet r T) (hr : r.size < 2 ^ 31) (hx : a.hdr x = some (o, false))
    (size : ℕ) :
    (arenaRealloc t.arena (r.base + x + 24) size).1 = r.ptr (a.realloc x size).1 ∧
      Sim r T ⟨(arenaRealloc t.arena (r.base + x + 24) size).2,
        if (arenaRealloc t.arena (r.base + x + 24) size).1 = 0 then t.held
        else Function.update (Function.update t.held (r.base + x + 24) none)
          (arenaRealloc t.arena (r.base + x + 24) size).1 (some size)⟩ (a.realloc x size).2 := by
  obtain ⟨hptr, hrep⟩ := h.rep.realloc hq h.inv hr hx size
  refine ⟨hptr, ?_⟩
  rw [hptr]
  have hremove : Held r (Function.update t.held (r.base + x + 24) none)
      fun y k => y ≠ x ∧ a.hdr y = some (k, false) := h.held.remove fun _ _ => Iff.rfl
  rcases realloc_spec size h.inv (managed_lt hr) hx with e | ⟨e, ho⟩ | ⟨y, k, a', e, hi', hk, hy, hused⟩
  · rw [e] at hrep ⊢
    exact ⟨hrep, h.inv, h.held⟩
  · rw [e] at hrep ⊢
    rw [if_neg Region.ptr_some_ne_zero]
    refine ⟨hrep, h.inv, hremove.add ho fun y k => ?_⟩
    by_cases hyx : y = x
    · subst hyx
      simp [hx, eq_comm]
    · simp [hyx]
  · rw [e] at hrep ⊢
    rw [if_neg Region.ptr_some_ne_zero]
    exact ⟨hrep, hi', hremove.add hk hused⟩

theorem Sim.free (h : Sim r T t a) (hq : Quiet r T) (hr : r.size < 2 ^ 31) (hx : a.hdr x = some (o, false)) :
    Sim r T ⟨arenaFree t.arena (r.base + x + 24), Function.update t.held (r.base + x + 24) none⟩
      (a.dealloc x) := by
  obtain ⟨hi', hused⟩ := dealloc_spec h.inv (managed_lt hr) hx
  exact ⟨h.rep.free hq h.inv hx, hi', h.held.remove hused⟩

/-- The null pointer is not one the client has. -/
theorem Sim.held_zero (h : Sim r T t a) : t.held 0 = none := by
  by_contra h₀
  obtain ⟨x, o, e, -⟩ := h.block h₀
  omega

/-- A call returns what the model says, and it keeps the simulation. -/
theorem Sim.call (h : Sim r T t a) (hq : Quiet r T) (hr : r.size < 2 ^ 31) (hc : c.Valid t.held) :
    (t.call c).1 = r.ptr (c.model r a).1 ∧ Sim r T (t.call c).2 (c.model r a).2 := by
  have hupd : Function.update t.held 0 none = t.held :=
    Function.update_eq_self_iff.2 h.held_zero.symm
  have hoff : ∀ x, r.base + x + 24 - 24 - r.base = x := fun x => by omega
  cases c with
  | alloc size => exact h.alloc hr size
  | realloc ptr size =>
    by_cases h₀ : ptr = 0
    · subst h₀
      have := h.alloc hr size
      simpa [Sys.call, Call.exec, Call.model, Call.held, arenaRealloc, hupd] using this
    · obtain ⟨x, o, rfl, hx⟩ := h.block (hc.resolve_left h₀)
      rw [Call.model, if_neg h₀, hoff]
      exact h.realloc hq hr hx size
  | free ptr =>
    by_cases h₀ : ptr = 0
    · subst h₀
      simpa [Sys.call, Call.exec, Call.model, Call.held, arenaFree, hupd] using ⟨rfl, h⟩
    · obtain ⟨x, o, rfl, hx⟩ := h.block (hc.resolve_left h₀)
      rw [Call.model, if_neg h₀, hoff]
      exact ⟨rfl, h.free hq hr hx⟩

theorem Sim.step (h : Sim r T t a) (hq : Quiet r T) (hr : r.size < 2 ^ 31) (hs : Step t t') : ∃ a', Sim r T t' a' := by
  cases hs with
  | call c hc => exact ⟨_, (h.call hq hr hc).2⟩
  | write ptr q v hp h₁ h₂ =>
    obtain ⟨x, o, rfl, hx⟩ := h.block hp
    rw [Nat.add_sub_cancel, (h.rep.hdr x o _ hx).1] at h₂
    refine ⟨a, h.rep.write h.inv hx fun p hpq => ?_, h.inv, h.held⟩
    rw [Function.update_of_ne]
    rintro rfl
    exact hpq ⟨h₁, h₂⟩

theorem Run.sim (hrun : Run r m t) (hr : r.size < 2 ^ 31)
    (hm : ∀ i < r.size, m (r.base + i) = 0) : ∃ a, Sim r (Rep.tailOf r m) t a := by
  induction hrun with
  | refl => exact ⟨_, .init hr⟩
  | tail _ hs ih =>
    obtain ⟨a, h⟩ := ih
    exact h.step (quiet_zero hm) hr hs

/-! ## The blocks tile the memory -/

/-- The blocks that are given by `hdr`, with their orders and whether they are free, tile the part of
    the region that the arena manages. Their headers are in the memory, the lists are those of the
    free blocks, and what the client has are the others, which do not overlap. -/
structure TiledBy (r : Region) (t : Sys) (hdr : ℕ → Option (ℕ × Bool)) : Prop where
  tiling : Tiling 5 r.managed (Option.map Prod.fst ∘ hdr)
  lists : ∀ o, ∃ l, Listed t.arena o l ∧ l.Nodup ∧
    ∀ p, p ∈ l ↔ ∃ x, p = r.base + x ∧ hdr x = some (o, true)
  headers : ∀ x o b, hdr x = some (o, b) →
    t.arena.get .order (r.base + x) = o ∧ t.arena.get .isFree (r.base + x) = b.toNat
  held : Held r t.held fun x o => hdr x = some (o, false)
  disjoint : ∀ p q n k, t.held p = some n → t.held q = some k → p ≠ q → p + n ≤ q ∨ q + k ≤ p

theorem Sim.tiledBy (h : Sim r T t a) : TiledBy r t a.hdr := by
  refine ⟨h.inv.tiling, fun o => ⟨_, h.rep.lists.listed o, ?_, fun p => ?_⟩, h.rep.hdr, h.held, ?_⟩
  · exact (h.inv.nodup o).map fun _ _ => Nat.add_left_cancel
  · simp only [List.mem_map, h.inv.mem, eq_comm, and_comm]
  · intro p q n k hp hq hne
    obtain ⟨x, o, rfl, hx, hn⟩ := h.held.block p n hp
    obtain ⟨y, j, rfl, hy, hk⟩ := h.held.block q k hq
    have h₁ := h.inv.tiling.apart x y o j (Inv.ord_eq hx) (Inv.ord_eq hy)
    have h₂ := h.inv.tiling.apart y x j o (Inv.ord_eq hy) (Inv.ord_eq hx)
    omega

/-- In every run on a region that is zero at the start, the blocks tile the memory. -/
theorem run_tiled (hr : r.size < 2 ^ 31) (hm : ∀ i < r.size, m (r.base + i) = 0)
    (hrun : Run r m t) : ∃ hdr, TiledBy r t hdr := by
  obtain ⟨a, h⟩ := hrun.sim hr hm
  exact ⟨a.hdr, h.tiledBy⟩

/-- A block of 64 bytes is split for 8 bytes. -/
theorem run_tiled_alloc : ∃ t hdr, Run ⟨4096, 64, by decide, by decide⟩ (fun _ => 0) t ∧
    t.held 4152 = some 8 ∧ TiledBy ⟨4096, 64, by decide, by decide⟩ t hdr := by
  have hrun : Run ⟨4096, 64, by decide, by decide⟩ (fun _ => 0) _ :=
    .single (.call _ (.alloc 8) trivial)
  obtain ⟨hdr, h⟩ := run_tiled (by decide) (fun _ _ => rfl) hrun
  exact ⟨_, hdr, hrun, by decide +kernel, h⟩

end Dlb.Arena
