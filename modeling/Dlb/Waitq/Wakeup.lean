import Mathlib.Order.Bounds.Defs
import Dlb.Waitq.Cancel

/-!
# The hook

The hook is invoked if `rbt_iter_prev` finds nothing before the timer, to report that the earliest
deadline has changed. After an insertion this is right. On removal the question is asked after the
timer was taken out of the tree: its links are the old ones then, and there is nothing before it only
if it was the root as well as the first one (`Rbt.Holds.remove_prev`). So the removal of the first
timer is not reported if it is not the root.
-/

namespace Dlb.Waitq

open Machine Rbt

variable {T Θ Φ : Type} {s s' : State T Θ Φ} {t : T}

/-- The smallest deadline in the waiting set, if there is one. -/
def earliest (s : State T Θ Φ) : Set UInt64 := {d | IsLeast (s.deadline '' {t | Reach s.mem t}) d}

/-- If the smallest deadline has changed and the hook is set, it was invoked. -/
def Reported (s s' : State T Θ Φ) : Prop :=
  earliest s' ≠ earliest s → s.wakeup = true → s.wakeups < s'.wakeups

/-- The hook is set, and the timer is the only one in the set with the smallest deadline, but not the
root of the tree. -/
def Missed (s : State T Θ Φ) (t : T) : Prop :=
  s.wakeup = true ∧ Reach s.mem t ∧ s.mem.root ≠ some t ∧
    ∀ t', Reach s.mem t' → t' ≠ t → s.deadline t < s.deadline t'

variable [LinearOrder T] {tr tr' : Tree (Cell T)}

/-- With the deadline `d`, the timer comes after another one in the set. -/
def Overtaken (s : State T Θ Φ) (t : T) (d : UInt64) : Prop :=
  ∃ t', Reach s.mem t' ∧ t' ≠ t ∧ (s.deadline t' < d ∨ s.deadline t' = d ∧ t' < t)

/-! ## The first timer -/

theorem earliest_nil (h : Holds s.tree tr) (ho : order tr = []) : earliest s = ∅ := by
  ext d
  refine ⟨?_, nofun⟩
  rintro ⟨⟨t, ht, -⟩, -⟩
  have := (reach_iff h).1 ht
  simp [ho] at this

theorem earliest_cons (h : Holds s.tree tr) {ys : List T} (ho : order tr = t :: ys) :
    earliest s = {s.deadline t} := by
  have ht : IsLeast (s.deadline '' {t | Reach s.mem t}) (s.deadline t) := by
    refine ⟨⟨t, (reach_iff h).2 (by simp [ho]), rfl⟩, ?_⟩
    rintro _ ⟨t', ht', rfl⟩
    have ht' := (reach_iff h).1 ht'
    have hk := h.keys
    rw [ho, List.mem_cons] at ht'
    rw [ho, List.map_cons, List.pairwise_cons] at hk
    rcases ht' with rfl | ht'
    · exact UInt64.le_refl _
    · exact deadline_le_of_key_lt (hk.1 _ (List.mem_map_of_mem ht'))
  ext d
  refine ⟨fun hd => ?_, fun hd => hd ▸ ht⟩
  exact UInt64.le_antisymm (hd.2 ht.1) (ht.2 hd.1)

/-- The earliest deadline is the same if the first timer is. -/
theorem earliest_congr (h : Holds s.tree tr) (h' : Holds s'.tree tr')
    (ho : (order tr').head? = (order tr).head?)
    (hd : ∀ t ∈ (order tr).head?, s'.deadline t = s.deadline t) : earliest s' = earliest s := by
  cases e : order tr with
  | nil =>
    rw [e, List.head?_nil, List.head?_eq_none_iff] at ho
    rw [earliest_nil h e, earliest_nil h' ho]
  | cons t ys =>
    rw [e, List.head?_cons] at ho hd
    obtain ⟨ys', e'⟩ := List.head?_eq_some_iff.1 ho
    rw [earliest_cons h e, earliest_cons h' e', hd t rfl]

/-! ## Insertion -/

/-- `wset_add` of a timer that is not in the set. Either it comes first and the hook is invoked, or
another timer is still the first one. -/
theorem wsetAdd_spec (h : Holds s.tree tr) (ht : t ∉ order tr) :
    ∃ s', Yields (fun fuel => wsetAdd fuel s t) s' ∧ s.wakeups ≤ s'.wakeups ∧
      ((∀ t', Reach s.mem t' → s.tree.key t < s.tree.key t') ∧
          (s.wakeup = true → s.wakeups < s'.wakeups) ∨
        (∃ t', Reach s.mem t' ∧ s.tree.key t' < s.tree.key t) ∧ s'.wakeups = s.wakeups ∧
          earliest s' = earliest s) := by
  obtain ⟨m, tr', xs, ys, hret, h', ho, ho'⟩ := addSection_spec h ht
  have hy : Yields (fun fuel => wsetAdd fuel s t) ({ s with mem := m }.wake xs.isEmpty) :=
    hret.yields _
  have hk := h'.keys
  rw [ho', List.pairwise_map, List.pairwise_append] at hk
  -- The hook is invoked if nothing comes before the timer.
  cases xs with
  | nil =>
    refine ⟨_, hy, ?_, .inl ⟨fun t' ht' => ?_, fun hw => ?_⟩⟩
    · rw [State.wake]
      split_ifs <;> simp
    · rw [reach_iff h, ho] at ht'
      exact (List.pairwise_cons.1 hk.2.1).1 t' ht'
    · simp [State.wake, hw]
  | cons a xs =>
    have ha : a ∈ order tr := by simp [ho]
    refine ⟨_, hy, Nat.le_refl _, .inr ⟨⟨a, (reach_iff h).2 ha, ?_⟩, rfl, ?_⟩⟩
    · exact hk.2.2 a (by simp) t (by simp)
    · exact earliest_congr h h' (by simp [ho, ho']) fun _ _ => rfl

/-! ## Removal -/

/-- The only timer in the set is the root. -/
theorem root_of_singleton (h : Holds s.tree tr) (ho : order tr = [t]) : s.mem.root = some t := by
  rw [show s.mem.root = ptr tr from h.mem.ctx]
  cases tr with
  | nil => simp at ho
  | node l x r =>
    rw [order_node, List.append_eq_singleton_iff] at ho
    rcases ho with ⟨-, ho⟩ | ⟨-, ho⟩
    · rw [ptr_node, (List.cons.inj ho).1]
    · cases ho

/-- The removal of a timer is reported, unless it is the only earliest one and not the root. -/
theorem reported_remove (h : Holds s.tree tr) (h' : Holds s'.tree tr') {xs ys : List T}
    (ho : order tr = xs ++ t :: ys) (ho' : order tr' = xs ++ ys) (hd : s'.deadline = s.deadline)
    (hw : s'.wakeups = s.wakeups +
      if (s.mem.root = some t ∧ xs = []) ∧ s.wakeup = true then 1 else 0) :
    Reported s s' ↔ ¬Missed s t := by
  have hk := List.pairwise_map.1 h.keys
  rw [ho, List.pairwise_append, List.pairwise_cons] at hk
  have ht : Reach s.mem t := (reach_iff h).2 (by simp [ho])
  cases xs with
  | cons a xs =>
    -- Another timer is the first one, before and after.
    have he : earliest s' = earliest s :=
      earliest_congr h h' (by simp [ho, ho']) fun _ _ => by rw [hd]
    refine iff_of_true (fun hne => absurd he hne) ?_
    rintro ⟨-, -, -, hlt⟩
    have hat : s.tree.key a < s.tree.key t := hk.2.2 a (by simp) t (by simp)
    have hlt := hlt a ((reach_iff h).2 (by simp [ho])) fun e => lt_irrefl _ (e ▸ hat)
    exact UInt64.not_lt.2 (deadline_le_of_key_lt hat) hlt
  | nil =>
    by_cases hroot : s.mem.root = some t
    · refine iff_of_true (fun _ hw' => ?_) fun hm => hm.2.2.1 hroot
      rw [hw, if_pos ⟨⟨hroot, rfl⟩, hw'⟩]
      exact Nat.lt_succ_self _
    -- The timer comes first and is not the root: the hook is not invoked, so it depends on the
    -- next timer whether the earliest deadline has changed.
    rw [if_neg (by simp [hroot]), Nat.add_zero] at hw
    cases ys with
    | nil => exact absurd (root_of_singleton h ho) hroot
    | cons b ys =>
      have hb : s.tree.key t < s.tree.key b := hk.2.1.1 b (by simp)
      have he : earliest s' ≠ earliest s ↔ s.deadline t < s.deadline b := by
        rw [earliest_cons h ho, earliest_cons h' ho', hd, ne_eq, Set.singleton_eq_singleton_iff]
        have := deadline_le_of_key_lt hb
        rw [UInt64.le_iff_toNat_le] at this
        rw [UInt64.lt_iff_toNat_lt, ← UInt64.toNat_inj]
        omega
      rw [Reported, he, hw]
      constructor
      · rintro hrep ⟨hw', -, -, hlt⟩
        have hbt : b ≠ t := fun e => lt_irrefl _ (e ▸ hb)
        exact Nat.lt_irrefl _ (hrep (hlt b ((reach_iff h).2 (by simp [ho])) hbt) hw')
      · refine fun hm hlt hw' => absurd ⟨hw', ht, hroot, fun t' ht' hne => ?_⟩ hm
        have hmem := (reach_iff h).1 ht'
        simp only [ho, List.nil_append, List.mem_cons, hne, false_or] at hmem
        rcases hmem with rfl | hmem
        · exact hlt
        · have hle := deadline_le_of_key_lt ((List.pairwise_cons.1 hk.2.1.2).1 t' hmem)
          exact UInt64.lt_of_lt_of_le hlt hle

/-- `wset_remove` of a timer in the set. -/
theorem wsetRemove_spec (h : Holds s.tree tr) (ht : t ∈ order tr) :
    ∃ s' tr', Yields (fun fuel => wsetRemove fuel s t) (true, s') ∧ Holds s'.tree tr' ∧
      (∀ t', t' ∈ order tr' ↔ t' ∈ order tr ∧ t' ≠ t) ∧ s'.wakeup = s.wakeup ∧
      s'.deadline = s.deadline ∧ s.wakeups ≤ s'.wakeups ∧ (Reported s s' ↔ ¬Missed s t) := by
  obtain ⟨m, tr', xs, ys, hret, h', ho, ho'⟩ := removeSection_mem h ht
  have hy : Yields (fun fuel => wsetRemove fuel s t)
      (true, { s with mem := m }.wake (decide (s.mem.root = some t ∧ xs = []))) :=
    hret.yields _
  have hnd := h.nodup
  rw [ho, List.nodup_append, List.nodup_cons] at hnd
  have hmem : ∀ t', t' ∈ order tr' ↔ t' ∈ order tr ∧ t' ≠ t := by
    intro t'
    simp only [ho, ho', List.mem_append, List.mem_cons]
    grind
  obtain ⟨n, hn⟩ := wake_frame { s with mem := m } (decide (s.mem.root = some t ∧ xs = []))
  have hw : n = s.wakeups +
      if (s.mem.root = some t ∧ xs = []) ∧ s.wakeup = true then 1 else 0 := by
    have := congrArg State.wakeups hn
    simp only [State.wake] at this
    split_ifs at this ⊢ <;> simp_all
  rw [hn] at hy
  refine ⟨_, tr', hy, h', hmem, rfl, rfl, ?_, reported_remove h h' ho ho' rfl hw⟩
  rw [hw]
  exact Nat.le_add_right _ _

/-! ## The calls -/

theorem earliest_setDeadline (h : Holds s.tree tr) (ht : t ∉ order tr) (deadline : UInt64) :
    earliest (s.setDeadline t deadline) = earliest s := by
  refine earliest_congr h (holds_setDeadline h ht deadline) rfl fun t' ht' => ?_
  have hne : t' ≠ t := by
    rintro rfl
    exact ht (List.mem_of_mem_head? ht')
  exact Function.update_of_ne hne _ _

omit [LinearOrder T] in
theorem reported_congr {s₁ : State T Θ Φ} (he : earliest s' = earliest s₁)
    (hw : s'.wakeups = s₁.wakeups) : Reported s s' ↔ Reported s s₁ := by
  rw [Reported, he, hw, Reported]

/-- An insertion is always reported. -/
theorem wait_reported (h : Holds s.tree tr) (ht : t ∉ order tr) (now : UInt64) (interval : Int32)
    (func : Φ) : ∃ s', Yields (fun fuel => waitqTimerWait fuel s t now interval func) s' ∧
      Reported s s' := by
  have h₁ : Holds { s with func := Function.update s.func t func }.tree tr := h
  obtain ⟨s', hy, -, hs'⟩ := wsetAdd_spec (holds_setDeadline h₁ ht (deadlineOf now interval)) ht
  refine ⟨s', hy, ?_⟩
  rcases hs' with ⟨-, hw⟩ | ⟨-, -, he⟩
  · exact fun _ => hw
  · exact fun hne => absurd (he.trans (earliest_setDeadline h₁ ht _)) hne

theorem cancel_reported (h : Holds s.tree tr) (t : T) :
    ∃ s', Yields (fun fuel => waitqTimerCancel fuel s t) s' ∧ (Reported s s' ↔ ¬Missed s t) := by
  by_cases ht : t ∈ order tr
  · obtain ⟨s₁, tr', hy, h₁, hmem, -, -, -, hrep⟩ := wsetRemove_spec h ht
    have ht' : t ∉ order tr' := fun hm => ((hmem t).1 hm).2 rfl
    refine ⟨_, hy.map _, ?_⟩
    rw [← hrep]
    exact reported_congr (earliest_setDeadline h₁ ht' 0) rfl
  · have hy : Yields (fun fuel => wsetRemove fuel s t) (false, s) :=
      (removeSection_not_mem h ht).yields _
    refine ⟨_, hy.map _, iff_of_true (fun hne => absurd rfl hne) ?_⟩
    exact fun hm => ht ((reach_iff h).1 hm.2.1)

theorem reschedule_reported (h : Holds s.tree tr) (t : T) (now : UInt64) (interval : Int32) :
    ∃ s', Yields (fun fuel => waitqTimerReschedule fuel s t now interval) s' ∧
      (Reported s s' ↔ ¬(Missed s t ∧ Overtaken s t (deadlineOf now interval))) := by
  by_cases ht : t ∈ order tr
  · obtain ⟨s₁, tr', hy, h₁, hmem, hw₁, hd₁, hle₁, hrep⟩ := wsetRemove_spec h ht
    have ht' : t ∉ order tr' := fun hm => ((hmem t).1 hm).2 rfl
    have h₂ := holds_setDeadline h₁ ht' (deadlineOf now interval)
    obtain ⟨s', hy', -, hs'⟩ := wsetAdd_spec h₂ ht'
    have hreach : ∀ t', Reach s₁.mem t' ↔ Reach s.mem t' ∧ t' ≠ t := by
      intro t'
      rw [reach_iff h₁, hmem, reach_iff h]
    -- The order of the timer and another one, after its deadline was set.
    have hkey : ∀ t', t' ≠ t → ((s₁.setDeadline t (deadlineOf now interval)).tree.key t' <
        (s₁.setDeadline t (deadlineOf now interval)).tree.key t ↔
        s.deadline t' < deadlineOf now interval ∨
          s.deadline t' = deadlineOf now interval ∧ t' < t) := by
      intro t' hne
      rw [key_lt_iff, State.setDeadline, hd₁]
      simp [hne]
    refine ⟨s', hy.bind hy', ?_⟩
    -- If the timer comes first again, the insertion invokes the hook; otherwise the removal decides.
    rcases hs' with ⟨hfirst, hw⟩ | ⟨⟨t', ht₁, hlt⟩, hw, he⟩
    · refine iff_of_true (fun _ hws => ?_) ?_
      · exact Nat.lt_of_le_of_lt hle₁ (hw (hw₁.trans hws))
      · rintro ⟨-, t', ht₁, hne, hlt⟩
        exact lt_asymm (hfirst t' ((hreach t').2 ⟨ht₁, hne⟩)) ((hkey t' hne).2 hlt)
    · obtain ⟨ht₂, hne⟩ := (hreach t').1 ht₁
      have hover : Overtaken s t (deadlineOf now interval) := ⟨t', ht₂, hne, (hkey t' hne).1 hlt⟩
      rw [and_iff_left hover, ← hrep]
      exact reported_congr (he.trans (earliest_setDeadline h₁ ht' _)) hw
  · have hy : Yields (fun fuel => wsetRemove fuel s t) (false, s) :=
      (removeSection_not_mem h ht).yields _
    refine ⟨s, hy.bind (.of_forall fun _ => rfl), iff_of_true (fun hne => absurd rfl hne) ?_⟩
    exact fun hm => ht ((reach_iff h).1 hm.1.2.1)

/-! ## Runs -/

/-- In every state that is reached, the calls return. A change of the earliest deadline by
`waitq_timer_wait` is always reported. One by `waitq_timer_cancel` is reported unless the hook is
set and the timer is the only one with the smallest deadline and not the root, and one by
`waitq_timer_reschedule` unless this holds and the timer then comes after another one. -/
theorem run_reports [DecidableEq Θ] {mem : Rbt.Mem T} {wakeup : Bool} {deadline : T → UInt64}
    {func : T → Φ} (hr : Reached step Legal (State.init mem wakeup deadline func : State T Θ Φ) s)
    (t : T) (now : UInt64) (interval : Int32) :
    (∀ f, s.outstanding t = false →
      ∃ s', Yields (fun fuel => waitqTimerWait fuel s t now interval f) s' ∧ Reported s s') ∧
    (∃ s', Yields (fun fuel => waitqTimerCancel fuel s t) s' ∧ (Reported s s' ↔ ¬Missed s t)) ∧
    ∃ s', Yields (fun fuel => waitqTimerReschedule fuel s t now interval) s' ∧
      (Reported s s' ↔ ¬(Missed s t ∧ Overtaken s t (deadlineOf now interval))) := by
  obtain ⟨tr, h⟩ := exists_inv id hr
  refine ⟨fun f ho => ?_, cancel_reported h.tree t, reschedule_reported h.tree t now interval⟩
  have ht : t ∉ order tr := by
    intro ht
    have := h.custody.subset .set ht
    simp [ho] at this
  exact wait_reported h.tree ht now interval f

/-- Two timers are in the set, the later one is the root, and the hook is set. -/
theorem exists_two : ∃ s : State Bool Unit Unit,
    Reached step Legal (State.init ⟨fun _ => ⟨⟨false, false⟩, none, none, none⟩, none⟩ true
      (fun _ => 0) fun _ => ()) s ∧
    s.wakeup = true ∧ s.mem.root = some true ∧ (∀ t, s.outstanding t = true ∧ s.queued t = 0) ∧
      s.call () = .idle ∧ s.deadline false = 5 ∧ s.deadline true = 6 := by
  obtain ⟨s, hr, hb⟩ := exists_reached step Legal
    (State.init ⟨fun _ => ⟨⟨false, false⟩, none, none, none⟩, none⟩ true (fun _ => 0)
      fun _ => () : State Bool Unit Unit)
    [(0, .wait () true ()), (0, .setDeadline () 0 6), (2, .add ()), (0, .wait () false ()),
      (0, .setDeadline () 0 5), (3, .add ())]
    (fun s => decide (s.wakeup = true ∧ s.mem.root = some true ∧
      (∀ t, s.outstanding t = true ∧ s.queued t = 0) ∧ s.call () = .idle ∧ s.deadline false = 5 ∧
      s.deadline true = 6)) (by decide +kernel)
  exact ⟨s, hr, of_decide_eq_true hb⟩

/-- The removal of the root is reported. -/
theorem run_reports_root : ∃ s s' : State Bool Unit Unit,
    Reached step Legal (State.init ⟨fun _ => ⟨⟨false, false⟩, none, none, none⟩, none⟩ true
      (fun _ => 0) fun _ => ()) s ∧ s.mem.root = some true ∧
    Yields (fun fuel => waitqTimerCancel fuel s true) s' ∧ Reported s s' := by
  obtain ⟨s, hr, -, hroot, -⟩ := exists_two
  obtain ⟨s', hy, hrep⟩ := (run_reports hr true 0 0).2.1
  exact ⟨s, s', hr, hroot, hy, hrep.2 fun hm => hm.2.2.1 hroot⟩

/-- The removal of the first timer is not reported. -/
theorem cancel_unreported : ∃ s s' : State Bool Unit Unit,
    Reached step Legal (State.init ⟨fun _ => ⟨⟨false, false⟩, none, none, none⟩, none⟩ true
      (fun _ => 0) fun _ => ()) s ∧
    Yields (fun fuel => waitqTimerCancel fuel s false) s' ∧ ¬Reported s s' := by
  obtain ⟨s, hr, hw, hroot, ho, hidle, hd₀, hd₁⟩ := exists_two
  obtain ⟨tr, h⟩ := exists_inv id hr
  obtain ⟨s', hy, hrep⟩ := cancel_reported h.tree false
  have ht : false ∈ order tr :=
    h.mem_of_free (ho false).1 (ho false).2 fun θ => by simp [hidle]
  refine ⟨s, s', hr, hy, fun hr' => hrep.1 hr' ⟨hw, (reach_iff h.tree).2 ht, by simp [hroot], ?_⟩⟩
  intro t' _ hne
  obtain rfl : t' = true := by simpa using hne
  rw [hd₀, hd₁]
  decide

end Dlb.Waitq
