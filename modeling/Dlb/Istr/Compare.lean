import Mathlib.Data.List.Infix
import Dlb.Istr.Run

/-!
# Comparisons

`istr_equal` and `istr_compare`. The texts are compared with `memcmp` up to the shorter length, and
then by their lengths; this is the lexicographic order of the strings (`memcmp_spec`). No two strings
begin at the same place (`Run.inv_offsets`), even if they were moved by a collection, so that equal
pointers are those of one string.
-/

namespace Dlb.Istr

open Strbuf

/-- The sign of `r` says how two strings compare. -/
structure Orders (r : ℤ) (xs ys : List UInt8) : Prop where
  lt : r < 0 ↔ xs < ys
  eq : r = 0 ↔ xs = ys
  gt : 0 < r ↔ ys < xs

variable {P : Type} [DecidableEq P] {xs ys s s' : List UInt8} {r : ℤ} {t : Sys P} {l : List P}
  {p : Pool P} {born : P → List UInt8} {a b : P}

theorem orders_of (hlt : r < 0 → xs < ys) (heq : r = 0 → xs = ys) (hgt : 0 < r → ys < xs) :
    Orders r xs ys := by
  have hirrefl : ∀ zs : List UInt8, ¬zs < zs := fun zs => List.lt_irrefl zs
  have hasymm : xs < ys → ¬ys < xs := List.lt_asymm
  rcases lt_trichotomy r 0 with hr | rfl | hr
  · have h := hlt hr
    exact ⟨iff_of_true hr h, iff_of_false hr.ne fun e => hirrefl _ (e ▸ h),
      iff_of_false hr.asymm (hasymm h)⟩
  · obtain rfl := heq rfl
    exact ⟨iff_of_false (lt_irrefl 0) (hirrefl _), iff_of_true rfl rfl,
      iff_of_false (lt_irrefl 0) (hirrefl _)⟩
  · have h := hgt hr
    exact ⟨iff_of_false hr.asymm fun h' => hasymm h' h, iff_of_false hr.ne' fun e => hirrefl _ (e ▸ h),
      iff_of_true hr h⟩

/-- The bytes that two strings have at the same places are compared. -/
theorem memcmp_spec (hx : xs <+: s) (hy : ys <+: s') :
    ∃ r, memcmp s s' (min xs.length ys.length) = some r ∧ (r < 0 → xs < ys) ∧ (0 < r → ys < xs) ∧
      (r = 0 → xs <+: ys ∨ ys <+: xs) := by
  induction xs generalizing ys s s' with
  | nil =>
    rw [List.length_nil, Nat.zero_min]
    exact ⟨0, by cases s <;> rfl, by simp, by simp, fun _ => .inl (List.nil_prefix)⟩
  | cons x xs ih =>
    cases ys with
    | nil =>
      rw [List.length_nil, Nat.min_zero]
      exact ⟨0, by cases s <;> rfl, by simp, by simp, fun _ => .inr (List.nil_prefix)⟩
    | cons y ys =>
      obtain ⟨u, rfl⟩ := hx
      obtain ⟨v, rfl⟩ := hy
      rw [List.length_cons, List.length_cons, Nat.succ_min_succ]
      by_cases hxy : x = y
      · subst hxy
        obtain ⟨r, e, hlt, hgt, heq⟩ := ih (List.prefix_append xs u) (List.prefix_append ys v)
        refine ⟨r, by simpa [memcmp] using e, fun hr => ?_, fun hr => ?_, fun hr => ?_⟩
        · exact List.cons_lt_cons_iff.2 (.inr ⟨rfl, hlt hr⟩)
        · exact List.cons_lt_cons_iff.2 (.inr ⟨rfl, hgt hr⟩)
        · exact (heq hr).imp (List.prefix_cons_inj x).2 (List.prefix_cons_inj x).2
      · refine ⟨x.toNat - y.toNat, by simp [memcmp, hxy], fun hr => ?_, fun hr => ?_, fun hr => ?_⟩
        · exact List.cons_lt_cons_iff.2 (.inl (UInt8.lt_iff_toNat_lt.2 (by omega)))
        · exact List.cons_lt_cons_iff.2 (.inl (UInt8.lt_iff_toNat_lt.2 (by omega)))
        · exact absurd (UInt8.toNat_inj.1 (by omega)) hxy

/-- A string is less than those that are continuations of it. -/
theorem lt_of_prefix (h : xs <+: ys) (hlen : xs.length < ys.length) : xs < ys := by
  obtain ⟨zs, rfl⟩ := h
  induction xs with
  | nil =>
    cases zs with
    | nil => simp at hlen
    | cons z zs => exact List.nil_lt_cons z zs
  | cons x xs ih =>
    rw [List.cons_append, List.length_cons, List.length_cons] at hlen
    exact List.cons_lt_cons_iff.2 (.inr ⟨rfl, ih (Nat.lt_of_succ_lt_succ hlen)⟩)

theorem eq_of_prefix (h : xs <+: ys ∨ ys <+: xs) (hlen : xs.length = ys.length) : xs = ys :=
  h.elim (fun h => h.eq_of_length hlen) fun h => (h.eq_of_length hlen.symm).symm

omit [DecidableEq P] in
theorem istrEqual_spec (ha : Reads p a (born a)) (hb : Reads p b (born b))
    (hla : (p.desc a).length = (born a).length) (hlb : (p.desc b).length = (born b).length) :
    istrEqual p a b = some (decide (born a = born b)) := by
  rw [istrEqual, hla, hlb]
  split_ifs with hlen
  · have hne : born a ≠ born b := fun e => hlen (congrArg List.length e)
    simp [hne]
  · rw [not_not] at hlen
    obtain ⟨r, e, hlt, hgt, heq⟩ := memcmp_spec ((List.prefix_append ..).trans ha.2)
      ((List.prefix_append ..).trans hb.2)
    rw [← hlen, Nat.min_self] at e
    have ho : Orders r (born a) (born b) := orders_of hlt (fun hr => eq_of_prefix (heq hr) hlen) hgt
    rw [e, Option.map_some, Option.some.injEq, Bool.eq_iff_iff, beq_iff_eq, decide_eq_true_iff]
    exact ho.eq

omit [DecidableEq P] in
theorem istrCompare_spec (ha : Reads p a (born a)) (hb : Reads p b (born b))
    (hla : (born a).length < 2 ^ 31) (hlb : (born b).length < 2 ^ 31)
    (hoff : (p.desc a).offset = (p.desc b).offset → a = b) :
    ∃ r, istrCompare p a b = some r ∧ Orders r (born a) (born b) := by
  rw [istrCompare, ha.1, hb.1, toInt_eq hla, toInt_eq hlb, toSize_natCast (by omega),
    toSize_natCast (by omega)]
  obtain ⟨r, e, hlt, hgt, heq⟩ := memcmp_spec ((List.prefix_append ..).trans ha.2)
    ((List.prefix_append ..).trans hb.2)
  split_ifs with h₁ h₂ h₃
  · obtain rfl := hoff h₁
    exact ⟨0, rfl, orders_of (by simp) (fun _ => rfl) (by simp)⟩
  · have hlen : (born a).length < (born b).length := by omega
    rw [Nat.min_eq_left hlen.le] at e
    refine ⟨if r = 0 then -1 else r, by rw [e, Option.map_some], ?_⟩
    split_ifs with hr
    · have h := lt_of_prefix ((heq hr).resolve_right fun h => hlen.not_ge h.length_le) hlen
      exact orders_of (fun _ => h) (by simp) (by simp)
    · exact orders_of hlt (fun h => absurd h hr) hgt
  · have hlen : (born b).length < (born a).length := by omega
    rw [Nat.min_eq_right hlen.le] at e
    refine ⟨if r = 0 then 1 else r, by rw [e, Option.map_some], ?_⟩
    split_ifs with hr
    · have h := lt_of_prefix ((heq hr).resolve_left fun h => hlen.not_ge h.length_le) hlen
      exact orders_of (by simp) (by simp) (fun _ => h)
    · exact orders_of hlt (fun h => absurd h hr) hgt
  · have hlen : (born a).length = (born b).length := by omega
    rw [← hlen, Nat.min_self] at e
    exact ⟨r, e, orders_of hlt (fun hr => eq_of_prefix (heq hr) hlen) hgt⟩

theorem Run.inv_offsets (hrun : Run Call.Safe t) :
    ∃ l, Inv t.pool t.born l ∧ (offsets t.pool.desc l).Nodup := by
  obtain ⟨desc, born, hrun⟩ := hrun
  induction hrun with
  | refl => exact ⟨[], inv_init desc born, List.nodup_nil⟩
  | tail _ hs ih =>
    obtain ⟨l, h, ha⟩ := ih
    cases hs with
    | call c r n p' hv hs hy =>
      obtain ⟨l', h', ha', -⟩ := h.exec hv hs hy
      exact ⟨l', h', ha' ha⟩

/-- In every run whose collections are safe, any two strings of the pool compare as the bytes they
    were created with do, in lexicographic order. -/
theorem run_compare (hrun : Run Call.Safe t) : ∀ a ∈ t.pool.descs, ∀ b ∈ t.pool.descs,
    istrEqual t.pool a b = some (decide (t.born a = t.born b)) ∧
      ∃ r, istrCompare t.pool a b = some r ∧ Orders r (t.born a) (t.born b) := by
  obtain ⟨l, h, hapart⟩ := hrun.inv_offsets
  intro a ha b hb
  rw [← h.mem] at ha hb
  refine ⟨istrEqual_spec (h.reads ha) (h.reads hb) (h.holds a ha).1 (h.holds b hb).1, ?_⟩
  exact istrCompare_spec (h.reads ha) (h.reads hb) (h.small a ha) (h.small b hb) fun e =>
    List.inj_on_of_nodup_map hapart ha hb e

/-- Two strings that have been created. -/
theorem run_compare_two : ∃ (t : Sys ℕ) (r : ℤ), Run Call.Safe t ∧
    istrCompare t.pool 0 1 = some r ∧ r < 0 ∧ istrEqual t.pool 0 1 = some false := by
  have heval : (((create noMemory 0 65).exec 0 (istrPoolInit fun _ => ⟨none, 0, 0, 0⟩)).bind fun q =>
      ((create noMemory 1 66).exec 0 q.2).map fun q' => (q, q')).any fun q =>
        decide (q.1.1 = (0, some 0) ∧ q.2.1 = (0, some 1) ∧ 1 ∉ q.1.2.descs ∧
          0 ∈ q.2.2.descs ∧ 1 ∈ q.2.2.descs) := by
    decide +kernel
  obtain ⟨⟨⟨s₁, p₁⟩, s₂, p₂⟩, e, hobs⟩ := (Option.any_eq_true ..).1 heval
  simp only [decide_eq_true_iff] at hobs
  obtain ⟨rfl, rfl, hnew, h₀, h₁⟩ := hobs
  obtain ⟨⟨s₁, p₁'⟩, e₁, e⟩ := Option.bind_eq_some_iff.1 e
  obtain ⟨⟨s₂, p₂'⟩, e₂, e⟩ := Option.map_eq_some_iff.1 e
  cases e
  have step₁ := Step.call (C := Call.Safe) (.init (fun _ => ⟨none, 0, 0, 0⟩) fun _ => [])
    (create noMemory 0 65) 0 (some 0) p₁ ⟨by simp [Sys.init, istrPoolInit], by decide⟩
    (fun _ _ _ _ => .inl rfl) (Call.yields e₁)
  have step₂ := Step.call (C := Call.Safe)
    ⟨p₁, Call.born (.init (fun _ => ⟨none, 0, 0, 0⟩) fun _ => []) (some 0) (create noMemory 0 65)⟩
    (create noMemory 1 66) 0 (some 1) p₂ ⟨by simpa using hnew, by decide⟩
    (fun _ _ _ _ => .inl rfl) (Call.yields e₂)
  have hrun : Run Call.Safe _ := ⟨_, _, .tail (.single step₁) step₂⟩
  obtain ⟨heq, r, e, ho⟩ := run_compare hrun 0 h₀ 1 h₁
  have hlt : List.replicate 20 (65 : UInt8) < List.replicate 20 66 := by decide
  exact ⟨_, r, hrun, e, ho.lt.2 hlt, heq⟩

end Dlb.Istr
