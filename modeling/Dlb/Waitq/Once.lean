import Mathlib.Tactic.Common
import Dlb.Custody
import Dlb.Machine
import Dlb.Waitq.Section

/-!
# A wait is called back once

A timer whose wait is outstanding is in one place: in the waiting set, in the hands of a thread, or
in the run queue. A thread gets a timer into its hands by the call of `waitq_timer_wait`, or by
taking it out of the set, which only one can do; it changes the deadline of the timer in its hands
only. So the tree stays in order.

* `held`: what is in which place.
-/

namespace Dlb.Waitq

open Machine Rbt

variable {T Θ Φ : Type} {s s' : State T Θ Φ} {t : T} {θ : Θ} {tr tr' : Tree (Cell T)}

/-! ## Where the timers are -/

/-- The timer that the thread has in its hands. -/
def Call.timer : Call T → Option T
  | .wait t | .add t | .reschedule t | .cancel t | .cancelled t | .expired _ _ _ t => some t
  | .idle | .dispatch .. => none

@[simp] theorem Call.timer_idle : (idle : Call T).timer = none := rfl
@[simp] theorem Call.timer_wait : (wait t).timer = some t := rfl

inductive Place (Θ : Type)
  | set
  | thread (θ : Θ)
  | queue

/-- What is in which place, if `tr` is the waiting set. -/
def held (s : State T Θ Φ) (tr : Tree (Cell T)) : Place Θ → Set T
  | .set => {t | t ∈ order tr}
  | .thread θ => {t | (s.call θ).timer = some t}
  | .queue => {t | s.queued t ≠ 0}

/-- Every wait was submitted once, except for one that is outstanding and not in the run queue. -/
def Counted (s : State T Θ Φ) (t : T) : Prop :=
  s.waits t = s.submissions t + if s.outstanding t = true ∧ s.queued t = 0 then 1 else 0

variable [LinearOrder T]

/-- The invariant. -/
structure Inv (s : State T Θ Φ) (tr : Tree (Cell T)) : Prop where
  tree : Holds s.tree tr
  custody : Custody (held s tr) {t | s.outstanding t = true}
  queued : ∀ t, s.queued t ≤ 1
  count : ∀ t, Counted s t

theorem inv_init (mem : Rbt.Mem T) (wakeup : Bool) (deadline : T → UInt64) (func : T → Φ) :
    Inv (State.init mem wakeup deadline func : State T Θ Φ) .nil where
  tree := holds_init mem _
  custody := by
    have ho : {t | (State.init mem wakeup deadline func : State T Θ Φ).outstanding t = true} = ∅ := by
      ext t
      simp [State.init]
    rw [ho]
    refine Custody.empty fun p => ?_
    ext t
    cases p <;> simp [held, State.init, Call.timer]
  queued := by simp [State.init]
  count := by simp [Counted, State.init]

/-- A timer is in one place only. -/
theorem Inv.only (h : Inv s tr) {p q : Place Θ} (hp : t ∈ held s tr p) (hne : q ≠ p) :
    t ∉ held s tr q :=
  fun hq => hne (h.custody.unique hq hp)

theorem Inv.wake (h : Inv s tr) (b : Bool) : Inv (s.wake b) tr := by
  rw [State.wake]
  split_ifs
  · exact ⟨h.tree, h.custody, h.queued, h.count⟩
  · exact h

theorem Inv.lose (h : Inv s tr) (lost : T → Bool) : Inv { s with lost := lost } tr :=
  ⟨h.tree, h.custody, h.queued, h.count⟩

/-- A timer in the hands of a thread is not in the set. -/
theorem Inv.not_mem (h : Inv s tr) (hθ : (s.call θ).timer = some t) : t ∉ order tr :=
  h.only (p := .thread θ) (q := .set) hθ nofun

theorem Inv.queued_of_hand (h : Inv s tr) (hθ : (s.call θ).timer = some t) : s.queued t = 0 := by
  by_contra hne
  exact h.only (p := .thread θ) (q := .queue) hθ nofun hne

theorem Inv.outstanding_of_hand (h : Inv s tr) (hθ : (s.call θ).timer = some t) :
    s.outstanding t = true :=
  h.custody.subset (.thread θ) hθ

theorem Inv.setDeadline (h : Inv s tr) (ht : t ∉ order tr) (deadline : UInt64) :
    Inv (s.setDeadline t deadline) tr :=
  ⟨holds_setDeadline h.tree ht deadline, h.custody, h.queued, h.count⟩

variable [DecidableEq Θ]

/-- The thread goes on with what it has in its hands. -/
theorem Inv.goto (h : Inv s tr) {c : Call T} (hc : c.timer = (s.call θ).timer) :
    Inv (s.goto θ c) tr := by
  refine ⟨h.tree, h.custody.congr fun p => ?_, h.queued, h.count⟩
  cases p with
  | thread θ' =>
    rcases eq_or_ne θ' θ with rfl | hne
    · simp [held, State.goto, hc]
    · simp [held, State.goto, hne]
  | set | queue => rfl

/-- The thread takes the timer out of the set. -/
theorem Inv.take (h : Inv s tr) (hθ : (s.call θ).timer = none) {m : Rbt.Mem T}
    (h' : Holds { s with mem := m }.tree tr') {xs ys : List T} (ho : order tr = xs ++ t :: ys)
    (ho' : order tr' = xs ++ ys) {c : Call T} (hc : c.timer = some t) :
    Inv ({ s with mem := m }.goto θ c) tr' := by
  have hnd := h.tree.nodup
  rw [ho, List.nodup_append, List.nodup_cons] at hnd
  have hmem : t ∈ held s tr .set := by simp [held, ho]
  refine ⟨h', ?_, h.queued, h.count⟩
  refine h.custody.pass (p := .set) (q := .thread θ) nofun hmem (fun x => ?_) (fun x => ?_)
    fun p hp hp' => ?_
  · simp only [held, ho, ho', Set.mem_ofPred_eq, List.mem_append, List.mem_cons]
    grind
  · simp [held, State.goto, hc, hθ, eq_comm]
  · cases p with
    | set => exact absurd rfl hp
    | queue => rfl
    | thread θ' =>
      have hne : θ' ≠ θ := fun e => hp' (e ▸ rfl)
      simp [held, State.goto, hne]

/-- The thread puts the timer into the set. -/
theorem Inv.put (h : Inv s tr) (hθ : (s.call θ).timer = some t) {m : Rbt.Mem T}
    (h' : Holds { s with mem := m }.tree tr') {xs ys : List T} (ho : order tr = xs ++ ys)
    (ho' : order tr' = xs ++ t :: ys) : Inv ({ s with mem := m }.goto θ .idle) tr' := by
  refine ⟨h', ?_, h.queued, h.count⟩
  refine h.custody.pass (p := .thread θ) (q := .set) nofun hθ (fun x => ?_) (fun x => ?_)
    fun p hp hp' => ?_
  · simp [held, State.goto, hθ, eq_comm]
  · simp only [held, ho, ho', Set.mem_ofPred_eq, List.mem_append, List.mem_cons]
    tauto
  · cases p with
    | set => exact absurd rfl hp'
    | queue => rfl
    | thread θ' =>
      have hne : θ' ≠ θ := fun e => hp (e ▸ rfl)
      simp [held, State.goto, hne]

/-- The thread submits the task of the timer. -/
theorem Inv.exec (h : Inv s tr) (hθ : (s.call θ).timer = some t) {c : Call T}
    (hc : c.timer = none) : Inv (taskExec (s.goto θ c) t) tr := by
  have hq := h.queued_of_hand hθ
  refine ⟨h.tree, ?_, fun t' => ?_, fun t' => ?_⟩
  · refine h.custody.pass (p := .thread θ) (q := .queue) nofun hθ (fun x => ?_) (fun x => ?_)
      fun p hp hp' => ?_
    · simp [held, taskExec, State.goto, hθ, hc, eq_comm]
    · rcases eq_or_ne x t with rfl | hne
      · simp [held, taskExec]
      · simp [held, taskExec, State.goto, hne]
    · cases p with
      | set => rfl
      | queue => exact absurd rfl hp'
      | thread θ' =>
        have hne : θ' ≠ θ := fun e => hp (e ▸ rfl)
        simp [held, taskExec, State.goto, hne]
  · rcases eq_or_ne t' t with rfl | hne
    · simp [taskExec, State.goto, hq]
    · simpa [taskExec, State.goto, hne] using h.queued t'
  · rcases eq_or_ne t' t with rfl | hne
    · have ho := h.outstanding_of_hand hθ
      simpa [Counted, taskExec, State.goto, ho, hq] using h.count t'
    · simpa [Counted, taskExec, State.goto, hne] using h.count t'

theorem Inv.wait (h : Inv s tr) (hθ : (s.call θ).timer = none) (ht : s.outstanding t = false)
    {func : T → Φ} :
    Inv ({ s with
      func := func
      outstanding := Function.update s.outstanding t true
      waits := Function.update s.waits t (s.waits t + 1) }.goto θ (.wait t)) tr := by
  have hq : s.queued t = 0 := by
    by_contra hne
    have := h.custody.subset .queue hne
    simp [ht] at this
  refine ⟨h.tree, ?_, h.queued, fun t' => ?_⟩
  · change Custody _ {x | Function.update s.outstanding t true x = true}
    rw [setOf_update_true]
    refine h.custody.add (p := .thread θ) (by simp [ht]) ?_ fun p hp => ?_
    · ext x
      simp [held, State.goto, hθ, eq_comm]
    · cases p with
      | set | queue => rfl
      | thread θ' =>
        have hne : θ' ≠ θ := fun e => hp (e ▸ rfl)
        simp [held, State.goto, hne]
  · rcases eq_or_ne t' t with rfl | hne
    · simpa [Counted, State.goto, hq, ht] using h.count t'
    · simpa [Counted, State.goto, hne] using h.count t'

omit [DecidableEq Θ] in
theorem Inv.run (h : Inv s tr) (hq : s.queued t ≠ 0) :
    Inv { s with
      queued := Function.update s.queued t (s.queued t - 1)
      outstanding := Function.update s.outstanding t false } tr := by
  have hq₁ : s.queued t - 1 = 0 := Nat.sub_eq_zero_of_le (h.queued t)
  refine ⟨h.tree, ?_, fun t' => ?_, fun t' => ?_⟩
  · rw [setOf_update_false]
    refine h.custody.drop (p := .queue) ?_ ?_ fun p hp => ?_
    · rintro _ rfl
      exact hq
    · ext x
      rcases eq_or_ne x t with rfl | hne
      · simp [held, hq₁]
      · simp [held, hne]
    · cases p with
      | queue => exact absurd rfl hp
      | set | thread => rfl
  · rcases eq_or_ne t' t with rfl | hne
    · simp [hq₁]
    · simpa [hne] using h.queued t'
  · rcases eq_or_ne t' t with rfl | hne
    · simpa [Counted, hq] using h.count t'
    · simpa [Counted, hne] using h.count t'

/-! ## The steps -/

omit [LinearOrder T] in
theorem goto_wake (s : State T Θ Φ) (b : Bool) (θ : Θ) (c : Call T) :
    (s.wake b).goto θ c = (s.goto θ c).wake b := by
  simp only [State.wake]
  split_ifs <;> simp_all [State.goto]

/-- `wset_add` of a timer in the hands of a thread. -/
theorem Inv.wsetAdd (h : Inv s tr) (hθ : (s.call θ).timer = some t) {fuel : ℕ}
    (e : wsetAdd fuel s t = some s') : ∃ tr', Inv (s'.goto θ .idle) tr' := by
  obtain ⟨m, tr', xs, ys, hret, h', ho, ho'⟩ := addSection_spec h.tree (h.not_mem hθ)
  obtain rfl := hret.map_eq (fuelled_addSection s t) e
  rw [goto_wake]
  exact ⟨tr', (h.put hθ h' ho ho').wake _⟩

/-- `wset_remove` of a timer in the set, for a thread that goes on with it in its hands. -/
theorem Inv.wsetRemove (h : Inv s tr) (ht : t ∈ order tr) (hθ : (s.call θ).timer = none)
    {c : Call T} (hc : c.timer = some t) {fuel : ℕ} {r : Bool × State T Θ Φ}
    (e : wsetRemove fuel s t = some r) : r.1 = true ∧ ∃ tr', Inv (r.2.goto θ c) tr' := by
  obtain ⟨m, tr', xs, ys, hret, h', ho, ho'⟩ := removeSection_mem h.tree ht
  obtain rfl := hret.map_eq (fuelled_removeSection s t) e
  rw [goto_wake]
  exact ⟨rfl, tr', (h.take hθ h' ho ho' hc).wake _⟩

omit [DecidableEq Θ] in
/-- `wset_remove` of a timer that is not in the set. -/
theorem Inv.wsetRemove_not_mem (h : Inv s tr) (ht : t ∉ order tr) {fuel : ℕ}
    {r : Bool × State T Θ Φ} (e : Waitq.wsetRemove fuel s t = some r) : r = (false, s) :=
  (removeSection_not_mem h.tree ht).map_eq (fuelled_removeSection s t) e

theorem Inv.timerStep (h : Inv s tr) {fuel : ℕ} {a : Act T Θ Φ} (hl : Legal s (fuel, a))
    (e : timerStep fuel s a = some s') : ∃ tr', Inv s' tr' := by
  cases a with
  | wait θ t func =>
    simp only [Waitq.timerStep, Option.ite_none_right_eq_some, Option.some.injEq] at e
    obtain ⟨hθ, rfl⟩ := e
    exact ⟨tr, h.wait (by simp [hθ]) hl⟩
  | setDeadline θ now interval =>
    have hset : ∀ {t}, (s.call θ).timer = some t →
        Inv ((s.setDeadline t (deadlineOf now interval)).goto θ (.add t)) tr :=
      fun hθ => (h.setDeadline (h.not_mem hθ) _).goto hθ.symm
    simp only [Waitq.timerStep] at e
    split at e <;> cases e
    · exact ⟨tr, hset (by simp [*])⟩
    · exact ⟨tr, hset (by simp [*, Call.timer])⟩
  | add θ =>
    simp only [Waitq.timerStep] at e
    split at e
    · rename_i t hθ
      obtain ⟨s₁, hadd, rfl⟩ := Option.map_eq_some_iff.1 e
      have hθ' : (s.call θ).timer = some t := by simp [hθ, Call.timer]
      exact h.wsetAdd hθ' hadd
    · cases e
  | reschedule θ t =>
    simp only [Waitq.timerStep, Option.ite_none_right_eq_some, Option.map_eq_some_iff] at e
    obtain ⟨hθ, r, hr, rfl⟩ := e
    -- The section finds the timer if and only if it is in the set.
    by_cases ht : t ∈ order tr
    · have hθ' : (s.call θ).timer = none := by simp [hθ]
      obtain ⟨hr₁, h'⟩ := h.wsetRemove ht hθ' (c := .reschedule t) rfl hr
      rwa [if_pos hr₁]
    · obtain rfl := h.wsetRemove_not_mem ht hr
      exact ⟨tr, h⟩
  | cancel θ t =>
    simp only [Waitq.timerStep, Option.ite_none_right_eq_some, Option.map_eq_some_iff] at e
    obtain ⟨hθ, r, hr, rfl⟩ := e
    by_cases ht : t ∈ order tr
    · have hθ' : (s.call θ).timer = none := by simp [hθ]
      obtain ⟨hr₁, h'⟩ := h.wsetRemove ht hθ' (c := .cancel t) rfl hr
      rwa [if_pos hr₁]
    · obtain rfl := h.wsetRemove_not_mem ht hr
      rw [if_neg (by simp)]
      split_ifs
      · exact ⟨tr, h.lose _⟩
      · exact ⟨tr, h⟩
  | cancelDeadline θ =>
    simp only [Waitq.timerStep] at e
    split at e <;> cases e
    rename_i t hθ
    have hθ' : (s.call θ).timer = some t := by simp [hθ, Call.timer]
    exact ⟨tr, (h.setDeadline (h.not_mem hθ') _).goto hθ'.symm⟩
  | cancelExec θ =>
    simp only [Waitq.timerStep] at e
    split at e <;> cases e
    exact ⟨tr, h.exec (by simp [*, Call.timer]) rfl⟩
  | _ => cases e

theorem Inv.dispatchStep (h : Inv s tr) {fuel : ℕ} {a : Act T Θ Φ}
    (e : dispatchStep fuel s a = some s') : ∃ tr', Inv s' tr' := by
  cases a with
  | dispatch θ limit now =>
    simp only [Waitq.dispatchStep, Option.ite_none_right_eq_some, Option.some.injEq] at e
    obtain ⟨hθ, rfl⟩ := e
    exact ⟨tr, h.goto (by simp [hθ, Call.timer])⟩
  | expire θ =>
    simp only [Waitq.dispatchStep] at e
    split at e
    · rename_i limit count now hθ
      split_ifs at e
      · obtain ⟨r, hexp, rfl⟩ := Option.map_eq_some_iff.1 e
        rcases expireSection_spec h.tree now with ⟨hret, -⟩ | ⟨t, m, tr', ys, hret, -, h', ho, ho'⟩
        · obtain rfl := hret.map_eq (fuelled_expireSection s now) hexp
          exact ⟨tr, h.goto (by simp [hθ, Call.timer])⟩
        · obtain rfl := hret.map_eq (fuelled_expireSection s now) hexp
          have hθ' : (s.call θ).timer = none := by simp [hθ, Call.timer]
          exact ⟨tr', h.take hθ' h' (ho.trans (List.nil_append _).symm) ho' rfl⟩
      · obtain rfl := Option.some.inj e
        exact ⟨tr, h.goto (by simp [hθ, Call.timer])⟩
    · cases e
  | expireExec θ =>
    simp only [Waitq.dispatchStep] at e
    split at e <;> cases e
    exact ⟨tr, h.exec (by simp [*, Call.timer]) rfl⟩
  | _ => cases e

theorem Inv.step (h : Inv s tr) {a : ℕ × Act T Θ Φ} (hl : Legal s a) (e : step s a = some s') :
    ∃ tr', Inv s' tr' := by
  obtain ⟨fuel, a⟩ := a
  cases a with
  | run t =>
    simp only [Waitq.step, Option.ite_none_right_eq_some, Option.some.injEq] at e
    obtain ⟨hq, rfl⟩ := e
    exact ⟨tr, h.run hq⟩
  | dispatch | expire | expireExec =>
    simp only [Waitq.step] at e
    exact h.dispatchStep e
  | wait | setDeadline | add | reschedule | cancel | cancelDeadline | cancelExec =>
    simp only [Waitq.step] at e
    exact h.timerStep hl e

/-! ## What a step leaves alone -/

section

omit [DecidableEq Θ]

omit [LinearOrder T] in
theorem wake_frame (s : State T Θ Φ) (b : Bool) : ∃ n, s.wake b = { s with wakeups := n } := by
  rw [State.wake]
  split_ifs
  · exact ⟨_, rfl⟩
  · exact ⟨s.wakeups, rfl⟩

theorem wsetAdd_frame {fuel : ℕ} (e : wsetAdd fuel s t = some s') :
    ∃ m n, s' = { s with mem := m, wakeups := n } := by
  obtain ⟨r, -, rfl⟩ := Option.map_eq_some_iff.1 e
  exact ⟨r.2, wake_frame _ _⟩

theorem wsetRemove_frame {fuel : ℕ} {r : Bool × State T Θ Φ} (e : wsetRemove fuel s t = some r) :
    ∃ m n, r.2 = { s with mem := m, wakeups := n } := by
  obtain ⟨r, -, rfl⟩ := Option.map_eq_some_iff.1 e
  exact ⟨r.2, wake_frame _ _⟩

theorem expireOne_frame {fuel : ℕ} {now : UInt64} {r : Option T × State T Θ Φ}
    (e : expireOne fuel s now = some r) : ∃ m, r.2 = { s with mem := m } := by
  obtain ⟨r, -, rfl⟩ := Option.map_eq_some_iff.1 e
  exact ⟨r.2, rfl⟩

end

/-- A step only changes the deadline of a timer in the hands of a thread, and only the section of
`waitq_timer_cancel` may lose a cancellation. -/
theorem step_frame {a : ℕ × Act T Θ Φ} (e : step s a = some s') :
    (s'.deadline = s.deadline ∨ ∃ θ t deadline, (s.call θ).timer = some t ∧
      s'.deadline = Function.update s.deadline t deadline) ∧
    ((∀ θ t, a.2 ≠ .cancel θ t) → s'.lost = s.lost) := by
  obtain ⟨fuel, a⟩ := a
  cases a with
  | wait | run =>
    simp only [step, timerStep, Option.ite_none_right_eq_some, Option.some.injEq] at e
    obtain ⟨-, rfl⟩ := e
    exact ⟨.inl rfl, fun _ => rfl⟩
  | dispatch =>
    simp only [step, dispatchStep, Option.ite_none_right_eq_some, Option.some.injEq] at e
    obtain ⟨-, rfl⟩ := e
    exact ⟨.inl rfl, fun _ => rfl⟩
  | setDeadline θ now interval =>
    simp only [step, timerStep] at e
    split at e <;> cases e <;>
      exact ⟨.inr ⟨θ, _, deadlineOf now interval, by simp [*, Call.timer], rfl⟩, fun _ => rfl⟩
  | add θ =>
    simp only [step, timerStep] at e
    split at e
    · obtain ⟨s₁, hadd, rfl⟩ := Option.map_eq_some_iff.1 e
      obtain ⟨m, n, rfl⟩ := wsetAdd_frame hadd
      exact ⟨.inl rfl, fun _ => rfl⟩
    · cases e
  | reschedule θ t =>
    simp only [step, timerStep, Option.ite_none_right_eq_some, Option.map_eq_some_iff] at e
    obtain ⟨-, ⟨b, s₁⟩, hr, rfl⟩ := e
    obtain ⟨m, n, rfl⟩ : ∃ m n, s₁ = _ := wsetRemove_frame hr
    split_ifs <;> exact ⟨.inl rfl, fun _ => rfl⟩
  | cancel θ t =>
    simp only [step, timerStep, Option.ite_none_right_eq_some, Option.map_eq_some_iff] at e
    obtain ⟨-, ⟨b, s₁⟩, hr, rfl⟩ := e
    obtain ⟨m, n, rfl⟩ : ∃ m n, s₁ = _ := wsetRemove_frame hr
    refine ⟨.inl ?_, fun hne => absurd rfl (hne θ t)⟩
    split_ifs <;> rfl
  | cancelDeadline θ =>
    simp only [step, timerStep] at e
    split at e <;> cases e
    exact ⟨.inr ⟨θ, _, 0, by simp [*, Call.timer], rfl⟩, fun _ => rfl⟩
  | cancelExec θ =>
    simp only [step, timerStep] at e
    split at e <;> cases e
    exact ⟨.inl rfl, fun _ => rfl⟩
  | expire θ =>
    simp only [step, dispatchStep] at e
    split at e
    · split_ifs at e
      · obtain ⟨⟨r, s₁⟩, hexp, rfl⟩ := Option.map_eq_some_iff.1 e
        obtain ⟨m, rfl⟩ : ∃ m, s₁ = _ := expireOne_frame hexp
        split <;> exact ⟨.inl rfl, fun _ => rfl⟩
      · obtain rfl := Option.some.inj e
        exact ⟨.inl rfl, fun _ => rfl⟩
    · cases e
  | expireExec θ =>
    simp only [step, dispatchStep] at e
    split at e <;> cases e
    exact ⟨.inl rfl, fun _ => rfl⟩

/-! ## A thread goes on -/

/-- The thread of a step. -/
def Act.thread : Act T Θ Φ → Option Θ
  | .wait θ .. | .setDeadline θ .. | .add θ | .reschedule θ _ | .cancel θ _ | .cancelDeadline θ
  | .cancelExec θ | .dispatch θ .. | .expire θ | .expireExec θ => some θ
  | .run _ => none

/-- The step is one of the thread. -/
abbrev Alone (θ : Θ) (_ : State T Θ Φ) (a : ℕ × Act T Θ Φ) : Prop := a.2.thread = some θ

theorem Alone.reached {a : ℕ × Act T Θ Φ} (ha : Alone θ s a) (e : step s a = some s') :
    Reached step (Alone θ) s s' :=
  Reached.refl.next ha e

theorem exists_finish_add (h : Inv s tr) (hθ : s.call θ = .add t) :
    ∃ s', Reached step (Alone θ) s s' ∧ Reach s'.mem t := by
  have hθ' : (s.call θ).timer = some t := by simp [hθ, Call.timer]
  obtain ⟨m, tr', xs, ys, hret, h', -, ho'⟩ := addSection_spec h.tree (h.not_mem hθ')
  obtain ⟨fuel, hadd⟩ := hret.yields fun r => { s with mem := r.2 }.wake r.1
  have e : step s (fuel, .add θ) =
      some (({ s with mem := m }.wake xs.isEmpty).goto θ .idle) := by
    simp only [step, timerStep, hθ]
    exact congrArg (Option.map _) (hadd fuel (le_refl fuel))
  obtain ⟨n, hn⟩ := wake_frame { s with mem := m } xs.isEmpty
  rw [hn] at e
  exact ⟨_, Alone.reached rfl e, h'.mem.reach_iff.2 (by simp [ho'])⟩

/-- The thread alone puts the timer in its hands into the set, or submits its task. -/
theorem exists_finish (h : Inv s tr) (hθ : (s.call θ).timer = some t) :
    ∃ s', Reached step (Alone θ) s s' ∧ (Reach s'.mem t ∨ s'.queued t ≠ 0) := by
  -- After the store of the deadline, whatever it is.
  have hadd : ∀ now interval, step s (0, .setDeadline θ now interval) =
      some ((s.setDeadline t (deadlineOf now interval)).goto θ (.add t)) →
      ∃ s', Reached step (Alone θ) s s' ∧ (Reach s'.mem t ∨ s'.queued t ≠ 0) := by
    intro now interval e
    have h' : Inv ((s.setDeadline t (deadlineOf now interval)).goto θ (.add t)) tr :=
      (h.setDeadline (h.not_mem hθ) _).goto hθ.symm
    obtain ⟨s', hr, ht⟩ := exists_finish_add h' (Function.update_self θ _ _)
    exact ⟨s', (Alone.reached rfl e).trans hr, .inl ht⟩
  cases hc : s.call θ with
  | idle | dispatch => simp [hc, Call.timer] at hθ
  | wait t' | reschedule t' =>
    obtain rfl : t' = t := by simpa [hc, Call.timer] using hθ
    exact hadd 0 0 (by simp only [step, timerStep, hc])
  | add t' =>
    obtain rfl : t' = t := by simpa [hc, Call.timer] using hθ
    obtain ⟨s', hr, ht⟩ := exists_finish_add h hc
    exact ⟨s', hr, .inl ht⟩
  | cancel t' =>
    obtain rfl : t' = t := by simpa [hc, Call.timer] using hθ
    have e₁ : step s (0, .cancelDeadline θ) =
        some ((s.setDeadline t' 0).goto θ (.cancelled t')) := by
      simp only [step, timerStep, hc]
    have e₂ : step ((s.setDeadline t' 0).goto θ (.cancelled t')) (0, .cancelExec θ) =
        some (taskExec (((s.setDeadline t' 0).goto θ (.cancelled t')).goto θ .idle) t') := by
      simp only [step, timerStep, State.goto, Function.update_self]
    exact ⟨_, (Alone.reached rfl e₁).trans (Alone.reached rfl e₂), .inr (by simp [taskExec])⟩
  | cancelled t' =>
    obtain rfl : t' = t := by simpa [hc, Call.timer] using hθ
    have e : step s (0, .cancelExec θ) = some (taskExec (s.goto θ .idle) t') := by
      simp only [step, timerStep, hc]
    exact ⟨_, Alone.reached rfl e, .inr (by simp [taskExec])⟩
  | expired limit count now t' =>
    obtain rfl : t' = t := by simpa [hc, Call.timer] using hθ
    have e : step s (0, .expireExec θ) =
        some (taskExec (s.goto θ (.dispatch limit (count + 1) now)) t') := by
      simp only [step, dispatchStep, hc]
    exact ⟨_, Alone.reached rfl e, .inr (by simp [taskExec])⟩

/-! ## Runs -/

theorem exists_inv {mem : Rbt.Mem T} {wakeup : Bool} {deadline : T → UInt64} {func : T → Φ}
    {P : State T Θ Φ → ℕ × Act T Θ Φ → Prop} (hP : ∀ {s a}, P s a → Legal s a)
    (hr : Reached step P (State.init mem wakeup deadline func) s) : ∃ tr, Inv s tr :=
  hr.invariant (I := fun s => ∃ tr, Inv s tr) ⟨.nil, inv_init mem wakeup deadline func⟩
    fun ⟨_, h⟩ ha e => h.step (hP ha) e

/-- In every run:
* every wait was submitted once, except for one that is outstanding and not in the run queue;
* such a wait is in the waiting set, or in the hands of a thread which alone puts it there or
  submits it;
* a timer that is about to be inserted is not in the set;
* no step changes the deadline of a timer in the set. -/
theorem run_waits_once {mem : Rbt.Mem T} {wakeup : Bool} {deadline : T → UInt64} {func : T → Φ}
    (hr : Reached step Legal (State.init mem wakeup deadline func : State T Θ Φ) s) :
    (∀ t, s.waits t =
      s.submissions t + if s.outstanding t = true ∧ s.queued t = 0 then 1 else 0) ∧
    (∀ t, s.outstanding t = true → s.queued t = 0 → Reach s.mem t ∨
      ∃ θ, (s.call θ).timer = some t ∧ ∃ s', Reached step (Alone θ) s s' ∧
        (Reach s'.mem t ∨ s'.queued t ≠ 0)) ∧
    (∀ θ t, s.call θ = .add t → ¬Reach s.mem t) ∧
    ∀ a s', Legal s a → step s a = some s' → ∀ t, Reach s.mem t →
      s'.deadline t = s.deadline t := by
  obtain ⟨tr, h⟩ := exists_inv id hr
  refine ⟨h.count, fun t ho hq => ?_, fun θ t hθ => ?_, fun a s' _ e t ht => ?_⟩
  · obtain ⟨p, hp⟩ := h.custody.cover ho
    cases p with
    | set => exact .inl (h.tree.mem.reach_iff.2 hp)
    | thread θ => exact .inr ⟨θ, hp, exists_finish h hp⟩
    | queue => exact absurd hq hp
  · have hθ' : (s.call θ).timer = some t := by simp [hθ, Call.timer]
    exact fun ht => h.not_mem hθ' (h.tree.mem.reach_iff.1 ht)
  · -- A timer whose deadline changes is in the hands of a thread, hence not in the set.
    obtain hd | ⟨θ, t', d, hθ, hd⟩ := (step_frame e).1
    · rw [hd]
    · have hne : t ≠ t' := by
        rintro rfl
        exact h.not_mem hθ (h.tree.mem.reach_iff.1 ht)
      rw [hd, Function.update_of_ne hne]

/-- Of two timers one expires, and the other one is cancelled while it is rescheduled. -/
theorem run_waits_once_two : ∃ s : State ℕ Bool Unit,
    Reached step Legal (State.init ⟨fun _ => ⟨⟨false, false⟩, none, none, none⟩, none⟩ false
      (fun _ => 0) fun _ => ()) s ∧
    (s.waits 0 = 1 ∧ s.waits 1 = 1 ∧ s.queued 0 = 1 ∧ s.queued 1 = 0 ∧ s.outstanding 1 = true) ∧
    s.submissions 0 = 1 ∧ s.submissions 1 = 0 := by
  obtain ⟨s, hr, hb⟩ := exists_reached step Legal
    (State.init ⟨fun _ => ⟨⟨false, false⟩, none, none, none⟩, none⟩ false
      (fun _ => 0) fun _ => () : State ℕ Bool Unit)
    [(0, .wait false 0 ()), (0, .setDeadline false 0 5), (2, .add false), (0, .wait false 1 ()),
      (0, .setDeadline false 0 6), (2, .add false), (3, .reschedule false 1), (3, .cancel true 1),
      (0, .dispatch true 0 5), (3, .expire true), (0, .setDeadline false 5 6), (3, .add false),
      (0, .expireExec true)]
    (fun s => decide (s.waits 0 = 1 ∧ s.waits 1 = 1 ∧ s.queued 0 = 1 ∧ s.queued 1 = 0 ∧
      s.outstanding 1 = true)) (by decide +kernel)
  obtain ⟨h₀, h₁, hq₀, hq₁, ho⟩ := of_decide_eq_true hb
  have hc := (run_waits_once hr).1
  refine ⟨s, hr, ⟨h₀, h₁, hq₀, hq₁, ho⟩, ?_, ?_⟩
  · simpa [h₀, hq₀] using (hc 0).symm
  · simpa [h₁, hq₁, ho] using (hc 1).symm

end Dlb.Waitq
