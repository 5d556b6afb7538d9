import Mathlib.Data.Fintype.Basic
import Dlb.Waitq.Once

/-!
# A cancellation may be lost

`waitq_timer_cancel` looks for the timer in the waiting set. If it is not there, the call returns,
also while the timer is in the hands of another call: `waitq_timer_reschedule` puts it back
afterwards, and the timer runs until its new deadline. A cancellation that finds the timer in the
hands of no other call is not lost.
-/

namespace Dlb.Waitq

open Machine Rbt

variable {T Θ Φ : Type} {s s' : State T Θ Φ} {tr : Tree (Cell T)} {a : ℕ × Act T Θ Φ}

/-- A timer is cancelled only while it is in the hands of no other call. -/
def Free (s : State T Θ Φ) (a : ℕ × Act T Θ Φ) : Prop :=
  match a.2 with
  | .cancel _ t => ∀ θ, (s.call θ).timer ≠ some t
  | .wait .. | .setDeadline .. | .add _ | .reschedule .. | .cancelDeadline _ | .cancelExec _
  | .dispatch .. | .expire _ | .expireExec _ | .run _ => True

instance [DecidableEq T] [Fintype Θ] (s : State T Θ Φ) : DecidablePred (Free s)
  | (_, .cancel _ t) => inferInstanceAs (Decidable (∀ θ, (s.call θ).timer ≠ some t))
  | (_, .wait ..) | (_, .setDeadline ..) | (_, .add _) | (_, .reschedule ..)
  | (_, .cancelDeadline _) | (_, .cancelExec _) | (_, .dispatch ..) | (_, .expire _)
  | (_, .expireExec _) | (_, .run _) => .isTrue trivial

/-- The step is the last one of a call of `waitq_timer_cancel` for the timer. -/
def CancelReturns (s s' : State T Θ Φ) (a : ℕ × Act T Θ Φ) (t : T) : Prop :=
  match a.2 with
  | .cancel θ t' => t' = t ∧ s'.call θ = .idle
  | .cancelExec θ => s.call θ = .cancelled t
  | .wait .. | .setDeadline .. | .add _ | .reschedule .. | .cancelDeadline _ | .dispatch ..
  | .expire _ | .expireExec _ | .run _ => False

variable [LinearOrder T]

/-- A timer that is outstanding, not submitted and in the hands of no call is in the set. -/
theorem Inv.mem_of_free (h : Inv s tr) {t : T} (ho : s.outstanding t = true) (hq : s.queued t = 0)
    (hf : ∀ θ, (s.call θ).timer ≠ some t) : t ∈ order tr := by
  obtain ⟨p, hp⟩ := h.custody.cover ho
  cases p with
  | set => exact hp
  | thread θ => exact absurd hp (hf θ)
  | queue => exact absurd hq hp

variable [DecidableEq Θ]

/-- The section of a cancellation that returns has left nothing to submit. -/
theorem Inv.queued_of_cancel (h : Inv s tr) {θ : Θ} {t : T} {fuel : ℕ}
    (hf : Free s (fuel, .cancel θ t)) (e : Waitq.step s (fuel, .cancel θ t) = some s') :
    s'.lost = s.lost ∧ (s'.call θ = .idle → s'.outstanding t = true → s'.queued t ≠ 0) := by
  simp only [Waitq.step, Waitq.timerStep, Option.ite_none_right_eq_some,
    Option.map_eq_some_iff] at e
  obtain ⟨hθ, ⟨b, s₁⟩, hr, rfl⟩ := e
  by_cases ht : t ∈ order tr
  · have hθ' : (s.call θ).timer = none := by simp [hθ]
    obtain ⟨hb, -⟩ := h.wsetRemove ht hθ' (c := .cancel t) rfl hr
    obtain ⟨m, n, rfl⟩ : ∃ m n, s₁ = _ := wsetRemove_frame hr
    rw [if_pos hb]
    exact ⟨rfl, by simp [State.goto]⟩
  · obtain ⟨rfl, rfl⟩ := Prod.mk.inj (h.wsetRemove_not_mem ht hr)
    -- It is not in the set and in the hands of no call, so its task is in the run queue.
    have hq : s₁.outstanding t = true → s₁.queued t ≠ 0 :=
      fun ho hq => ht (h.mem_of_free ho hq hf)
    have hnot : ¬(s₁.outstanding t = true ∧ s₁.queued t = 0) := by
      rintro ⟨ho, hq'⟩
      exact hq ho hq'
    rw [if_neg (by simp), if_neg hnot]
    exact ⟨rfl, fun _ => hq⟩

theorem lost_of_step (h : Inv s tr) (hf : Free s a) (e : step s a = some s') :
    s'.lost = s.lost := by
  by_cases hc : ∃ θ t, a.2 = .cancel θ t
  · obtain ⟨fuel, a⟩ := a
    obtain ⟨θ, t, rfl⟩ : ∃ θ t, a = .cancel θ t := hc
    exact (h.queued_of_cancel hf e).1
  · exact (step_frame e).2 fun θ t ha => hc ⟨θ, t, ha⟩

/-- A call of `waitq_timer_cancel` that returns has left the task in the run queue and the timer not
in the set. -/
theorem Inv.queued_of_returns (h : Inv s tr) (hl : Legal s a) (hf : Free s a)
    (e : Waitq.step s a = some s') {t : T} (hret : CancelReturns s s' a t)
    (ho : s'.outstanding t = true) : s'.queued t ≠ 0 ∧ ¬Reach s'.mem t := by
  obtain ⟨tr', h'⟩ := h.step hl e
  have hq : s'.queued t ≠ 0 := by
    obtain ⟨fuel, a⟩ := a
    cases a with
    | cancel θ t' =>
      obtain ⟨rfl, hθ⟩ : t' = t ∧ s'.call θ = .idle := hret
      exact (h.queued_of_cancel hf e).2 hθ ho
    | cancelExec θ =>
      have hθ : s.call θ = .cancelled t := hret
      simp only [Waitq.step, Waitq.timerStep, hθ, Option.some.injEq] at e
      obtain rfl := e
      simp [taskExec]
    | _ => exact hret.elim
  refine ⟨hq, fun hreach => ?_⟩
  have hmem : t ∈ held s' tr' .set := h'.tree.mem.reach_iff.1 hreach
  exact h'.only hmem (q := .queue) (by simp) hq

/-- A cancellation of a timer in the hands of another call is lost. -/
theorem Inv.lost_of_hand (h : Inv s tr) {θ θ' : Θ} {t : T}
    (hθ' : (s.call θ').timer = some t) {fuel : ℕ} (e : Waitq.step s (fuel, .cancel θ t) = some s') :
    s'.lost t = true := by
  have ho := h.outstanding_of_hand hθ'
  have hq := h.queued_of_hand hθ'
  simp only [Waitq.step, Waitq.timerStep, Option.ite_none_right_eq_some,
    Option.map_eq_some_iff] at e
  obtain ⟨-, r, hr, rfl⟩ := e
  obtain rfl := h.wsetRemove_not_mem (h.not_mem hθ') hr
  simp [ho, hq]

/-- In every run in which timers are cancelled only while they are in the hands of no other call, no
call of `waitq_timer_cancel` has returned while the wait was outstanding and its task not submitted:
when a call returns and the wait is outstanding, its task is in the run queue and the timer is not in
the set. -/
theorem run_cancels {mem : Rbt.Mem T} {wakeup : Bool} {deadline : T → UInt64} {func : T → Φ}
    (hr : Reached step (fun s a => Legal s a ∧ Free s a)
      (State.init mem wakeup deadline func : State T Θ Φ) s) (t : T) :
    s.lost t = false ∧ ∀ a s', Legal s a → Free s a → step s a = some s' →
      CancelReturns s s' a t → s'.outstanding t = true → s'.queued t ≠ 0 ∧ ¬Reach s'.mem t := by
  obtain ⟨⟨tr, h⟩, hlost⟩ : (∃ tr, Inv s tr) ∧ ∀ t, s.lost t = false := by
    refine hr.invariant (I := fun s => (∃ tr, Inv s tr) ∧ ∀ t, s.lost t = false)
      ⟨⟨.nil, inv_init mem wakeup deadline func⟩, fun _ => rfl⟩ ?_
    rintro s a s' ⟨⟨tr, hi⟩, h⟩ ha e
    refine ⟨hi.step ha.1 e, fun t => ?_⟩
    rw [lost_of_step hi ha.2 e]
    exact h t
  exact ⟨hlost t, fun _ _ hl hf e hret ho => h.queued_of_returns hl hf e hret ho⟩

/-- The first timer is cancelled. -/
theorem run_cancels_first : ∃ s s' : State ℕ Bool Unit,
    Reached step (fun s a => Legal s a ∧ Free s a)
      (State.init ⟨fun _ => ⟨⟨false, false⟩, none, none, none⟩, none⟩ false (fun _ => 0)
        fun _ => ()) s ∧
    s.call true = .cancelled 0 ∧ s.lost 0 = false ∧ step s (0, .cancelExec true) = some s' ∧
    s'.queued 0 ≠ 0 ∧ ¬Reach s'.mem 0 := by
  obtain ⟨s, hr, hb⟩ := exists_reached step
    (fun (s : State ℕ Bool Unit) a => Legal s a ∧ Free s a)
    (State.init ⟨fun _ => ⟨⟨false, false⟩, none, none, none⟩, none⟩ false (fun _ => 0)
      fun _ => ())
    [(0, .wait false 0 ()), (0, .setDeadline false 0 5), (2, .add false), (0, .wait false 1 ()),
      (0, .setDeadline false 0 6), (2, .add false), (3, .cancel true 0), (0, .cancelDeadline true)]
    (fun s => decide (s.call true = .cancelled 0 ∧ s.outstanding 0 = true)) (by decide +kernel)
  obtain ⟨hθ, ho⟩ := of_decide_eq_true hb
  obtain ⟨hlost, hret⟩ := run_cancels hr 0
  have e : step s (0, .cancelExec true) = some (taskExec (s.goto true .idle) 0) := by
    simp only [step, timerStep, hθ]
  exact ⟨s, _, hr, hθ, hlost, e, hret (0, .cancelExec true) _ trivial trivial e hθ ho⟩

/-- The timer is cancelled while it is rescheduled. It is in the set again afterwards, with its full
deadline. -/
theorem cancel_lost : ∃ s : State ℕ Bool Unit,
    Reached step Legal (State.init ⟨fun _ => ⟨⟨false, false⟩, none, none, none⟩, none⟩ false
      (fun _ => 0) fun _ => ()) s ∧
    s.lost 0 = true ∧ s.outstanding 0 = true ∧ s.submissions 0 = 0 ∧ s.call true = .idle ∧
      s.mem.root = some 0 ∧ s.deadline 0 = 1000 := by
  obtain ⟨s, hr, hb⟩ := exists_reached step Legal
    (State.init ⟨fun _ => ⟨⟨false, false⟩, none, none, none⟩, none⟩ false (fun _ => 0)
      fun _ => () : State ℕ Bool Unit)
    [(0, .wait false 0 ()), (0, .setDeadline false 0 5), (2, .add false), (2, .reschedule false 0),
      (1, .cancel true 0), (0, .setDeadline false 0 1000), (2, .add false)]
    (fun s => decide (s.lost 0 = true ∧ s.outstanding 0 = true ∧ s.submissions 0 = 0 ∧
      s.call true = .idle ∧ s.mem.root = some 0 ∧ s.deadline 0 = 1000)) (by decide +kernel)
  exact ⟨s, hr, of_decide_eq_true hb⟩

end Dlb.Waitq
