import Dlb.Waitq.Code

/-!
# What the sections do

The waiting set is a red-black tree in the order of the deadlines, and that of the addresses among
timers with the same one. A section takes a timer into it or out of it; each of them returns.
-/

namespace Dlb.Waitq

open Rbt

variable {T Θ Φ : Type} [LinearOrder T] {s : State T Θ Φ} {t : T} {tr : Tree (Cell T)}

theorem compares_cmpByDeadline : Compares (cmpByDeadline : Key T → Key T → ℤ) where
  neg_iff a b := by
    rw [Prod.Lex.lt_iff, cmpByDeadline]
    split_ifs <;> grind
  zero_iff a b := by
    have hext : a = b ↔ (ofLex a).1 = (ofLex b).1 ∧ (ofLex a).2 = (ofLex b).2 :=
      ⟨by rintro rfl; simp, fun h => ofLex.injective (Prod.ext h.1 h.2)⟩
    rw [hext, cmpByDeadline]
    split_ifs <;> grind

omit [LinearOrder T] in
/-- The key of a timer tells its address. -/
theorem key_injective (s : State T Θ Φ) : Function.Injective s.tree.key :=
  fun _ _ h => (Prod.mk.inj (toLex.injective h)).2

theorem setKey_key (s : State T Θ Φ) (t : T) : s.tree.setKey t (s.tree.key t) = s.tree := by
  rw [Rbt.State.setKey, Function.update_eq_self]

theorem reach_iff (h : Holds s.tree tr) : Reach s.mem t ↔ t ∈ order tr := h.mem.reach_iff

theorem key_lt_iff {t t' : T} : s.tree.key t < s.tree.key t' ↔
    s.deadline t < s.deadline t' ∨ s.deadline t = s.deadline t' ∧ t < t' := by
  rw [State.tree, Prod.Lex.lt_iff, UInt64.lt_iff_toNat_lt, ← UInt64.toNat_inj]
  rfl

theorem deadline_le_of_key_lt {t t' : T} (h : s.tree.key t < s.tree.key t') :
    s.deadline t ≤ s.deadline t' := by
  rcases key_lt_iff.1 h with h | ⟨h, -⟩
  · exact UInt64.le_of_lt h
  · exact UInt64.le_of_eq h

/-- The deadline of a timer that is not in the set may change. -/
theorem holds_setDeadline (h : Holds s.tree tr) (ht : t ∉ order tr) (deadline : UInt64) :
    Holds (s.setDeadline t deadline).tree tr := by
  have hkey : (s.setDeadline t deadline).tree =
      s.tree.setKey t (toLex (deadline.toNat, t)) := by
    refine congrArg (Rbt.State.mk s.mem) (funext fun t' => ?_)
    rcases eq_or_ne t' t with rfl | hne
    · simp [State.setDeadline]
    · simp [State.setDeadline, State.tree, hne]
  rw [hkey]
  exact h.setKey ht _

/-! ## The fuel -/

section

open Approx

theorem fuelled_addSection (s : State T Θ Φ) (t : T) : Fuelled fun fuel => addSection s fuel t :=
  fun _ _ h => .bind (fuelled_rbtInsert _ _ _ h) fun _ =>
    .bind (fuelled_rbtIterPrev _ h) fun _ => .refl _

theorem fuelled_removeSection (s : State T Θ Φ) (t : T) :
    Fuelled fun fuel => removeSection s fuel t := by
  refine fun _ _ h => .bind (fuelled_rbtFind _ _ h) fun n => ?_
  cases n with
  | none => exact .refl _
  | some n =>
    exact .bind (fuelled_rbtRemove n h) fun _ => .bind (fuelled_rbtIterPrev _ h) fun _ => .refl _

theorem fuelled_expireSection (s : State T Θ Φ) (now : UInt64) :
    Fuelled fun fuel => expireSection s fuel now := by
  refine fun _ _ h => .bind (fuelled_rbtIterFirst h) fun n => ?_
  cases n with
  | none => exact .refl _
  | some n => exact .ite (.refl _) (.bind (fuelled_rbtRemove n h) fun _ => .refl _)

end

/-! ## The waiting set -/

/-- A timer that is not in the set is inserted. -/
theorem addSection_spec (h : Holds s.tree tr) (ht : t ∉ order tr) :
    ∃ m' tr' xs ys, Returns (fun fuel => addSection s fuel t) s.mem xs.isEmpty m' ∧
      Holds { s with mem := m' }.tree tr' ∧ order tr = xs ++ ys ∧ order tr' = xs ++ t :: ys := by
  obtain ⟨r, s', tr', xs, ys, -, hstep, h', ho, ho', -, -, hr⟩ :=
    h.insert compares_cmpByDeadline ht (s.tree.key t)
  obtain ⟨hkey, hins⟩ := hstep
  rw [setKey_key] at hkey hins
  obtain ⟨m', key⟩ := s'
  obtain rfl : key = s.tree.key := hkey
  -- No timer is displaced.
  have hnone : r = none := by
    rcases r with _ | a
    · rfl
    · obtain rfl := key_injective s (hr a rfl)
      exact absurd (by simp [ho]) ht
  subst hnone
  refine ⟨m', tr', xs, ys, hins.bind ((h'.prev ho').bind ?_), h', by simpa using ho, ho'⟩
  have : xs.getLast?.isNone = xs.isEmpty := by cases xs <;> simp
  rw [this]
  exact .pure _ _

/-- A timer that is in the set is removed. -/
theorem removeSection_mem (h : Holds s.tree tr) (ht : t ∈ order tr) :
    ∃ m' tr' xs ys, Returns (fun fuel => removeSection s fuel t) s.mem
        (some t, decide (s.mem.root = some t ∧ xs = [])) m' ∧
      Holds { s with mem := m' }.tree tr' ∧ order tr = xs ++ t :: ys ∧ order tr' = xs ++ ys := by
  obtain ⟨r, hfind, hr⟩ := h.finds compares_cmpByDeadline (s.tree.key t)
  obtain rfl := (hr t).2 ⟨ht, rfl⟩
  obtain ⟨s', tr', xs, ys, res, hstep, h', hkey, ho, ho', hprev, hres⟩ :=
    h.remove_prev cmpByDeadline ht
  obtain ⟨m', key⟩ := s'
  obtain rfl : key = s.tree.key := hkey
  refine ⟨m', tr', xs, ys, hfind.bind (hstep.2.2.bind (hprev.bind ?_)), h', ho, ho'⟩
  have : res.isNone = decide (s.mem.root = some t ∧ xs = []) := by
    rw [Bool.eq_iff_iff, Option.isNone_iff_eq_none, decide_eq_true_iff]
    exact hres
  rw [this]
  exact .pure _ _

/-- A timer that is not in the set is not found. -/
theorem removeSection_not_mem (h : Holds s.tree tr) (ht : t ∉ order tr) :
    Returns (fun fuel => removeSection s fuel t) s.mem (none, false) s.mem := by
  obtain ⟨r, hfind, hr⟩ := h.finds compares_cmpByDeadline (s.tree.key t)
  have hnone : r = none := by
    rcases r with _ | a
    · rfl
    · obtain ⟨ha, hk⟩ := (hr a).1 rfl
      obtain rfl := key_injective s hk
      exact absurd ha ht
  subst hnone
  exact hfind.bind (.pure _ _)

/-- The first timer is removed if it has expired. -/
theorem expireSection_spec (h : Holds s.tree tr) (now : UInt64) :
    (Returns (fun fuel => expireSection s fuel now) s.mem none s.mem ∧
        ∀ t ∈ (order tr).head?, now < s.deadline t) ∨
      ∃ t m' tr' ys, Returns (fun fuel => expireSection s fuel now) s.mem (some t) m' ∧
        ¬now < s.deadline t ∧ Holds { s with mem := m' }.tree tr' ∧ order tr = t :: ys ∧
        order tr' = ys := by
  have hfirst := h.first
  cases ho : order tr with
  | nil =>
    rw [ho] at hfirst
    exact .inl ⟨hfirst.bind (.pure _ _), by simp⟩
  | cons t ys =>
    rw [ho] at hfirst
    by_cases hd : now < s.deadline t
    · refine .inl ⟨hfirst.bind ?_, by simpa using hd⟩
      simp only [List.head?_cons, hd, if_true]
      exact .pure _ _
    · have ht : t ∈ order tr := by simp [ho]
      obtain ⟨s', tr', xs, ys', hstep, h', hkey, ho₁, ho'⟩ := h.remove cmpByDeadline ht
      obtain ⟨m', key⟩ := s'
      obtain rfl : key = s.tree.key := hkey
      -- The first timer is nowhere else in the order.
      have hxs : xs = [] := by
        cases xs with
        | nil => rfl
        | cons a xs =>
          have hnd := h.nodup
          obtain ⟨rfl, -⟩ := List.cons.inj (ho.symm.trans ho₁)
          simp [ho₁] at hnd
      subst hxs
      obtain rfl : ys = ys' := (List.cons.inj (ho.symm.trans ho₁)).2
      refine .inr ⟨t, m', tr', ys, hfirst.bind ?_, hd, h', rfl, ho'⟩
      simp only [List.head?_cons, hd, if_false]
      exact hstep.2.2.bind (.pure _ _)

end Dlb.Waitq
