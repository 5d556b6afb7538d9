import Dlb.Ioq.OneCallback

/-!
# A wait that has ended is not changed

`ioq_fd_rewait` has no effect unless `IOQ_FLAG_WAITING` is set. The flag is reset before the task of a
wait is submitted, by `do_wait` or by `dispatch_mods`. `ioq_fd_wait` with the empty set submits the task
itself and does not reset it: a call of `ioq_fd_rewait` or `ioq_fd_cancel` after the callback puts
the `ioq_fd` in `mod_list`, and the dispatcher submits the task once more.
-/

namespace Dlb.Ioq

variable {F T K C : Type} [DecidableEq F]

/-! ## Waits with the empty set -/

namespace Wait

/-- The last wait was with the empty set, and there was no `ioq_fd_rewait` since: a client is before
    `runq_task_exec`, or the task was submitted and the callback has begun or not. -/
structure Immediate (w : Wait) : Prop where
  flags : w.flags = ⟨false, false, true⟩
  registered : w.registered = false
  listed : w.listed = 0
  hand : w.hand = .none
  starting : ¬w.starting
  task : w.executing ∧ w.outstanding = false ∧ w.queued = 0 ∧ w.submitted = 0 ∨
    ¬w.executing ∧ w.queued = w.outstanding.toNat ∧ w.submitted = 1

variable {l : Label} {w w' : Wait} {last : Option UInt32}

theorem Immediate.rest (h : w.Immediate) (hf : w.Free) : w.Rest := by
  obtain ⟨hx, -⟩ | ⟨-, hq, -⟩ := h.task
  · exact absurd hx hf.executing
  · rw [hf.outstanding, Bool.toNat_false] at hq
    exact ⟨h.registered, h.listed, h.hand, hf.outstanding, hq⟩

/-- Only the client and the run queue go on with a wait with the empty set. -/
theorem Immediate.step (h : w.Immediate) (hstep : Step .other w w') : w'.Immediate := by
  have hand : ∀ {hand : Hand}, w.hand = hand → hand = .none := fun hh => hh.symm.trans h.hand
  cases hstep with
  | same => exact h
  | exec hx =>
    obtain ⟨-, ho, hq, hs⟩ | ⟨hx', -⟩ := h.task
    · refine ⟨h.flags, h.registered, h.listed, h.hand, h.starting, .inr ⟨id, ?_, ?_⟩⟩
      · rw [hq, Bool.toNat_true]
      · rw [hs]
    · exact absurd hx hx'
  | begin hq =>
    obtain ⟨-, -, hq', -⟩ | ⟨hx, hq', hs⟩ := h.task
    · simp [hq'] at hq
    · refine ⟨h.flags, h.registered, h.listed, h.hand, h.starting, .inr ⟨hx, ?_, hs⟩⟩
      have hle : w.queued ≤ 1 := hq'.trans_le (Bool.toNat_le _)
      exact Nat.sub_eq_zero_of_le hle
  | lock hs => exact absurd hs h.starting
  | deliver hr => simp [h.registered] at hr
  | dequeue _ hl => simp [h.listed] at hl
  | delete hh | ready hh | submit hh | cancel hh | add hh | fail hh | cancelled hh | failed hh
  | added hh => cases hand hh

/-- `ioq_fd_rewait` puts the `ioq_fd` in `mod_list`. -/
theorem Immediate.rewait (h : w.Immediate) (hstep : Step .rewait w w') : w'.listed = 1 := by
  cases hstep with
  | rewait => simp [View.enqueue, h.flags, h.listed]
  | ignored hw => simp [h.flags] at hw

/-- The phases of an `ioq_fd`, if `last` is the set of events of the last `ioq_fd_wait`. -/
def Stage (last : Option UInt32) (w : Wait) : Prop :=
  if last = some 0 then w.Immediate else w.Valid ∧ ¬w.executing

theorem Stage.rest (h : w.Stage last) (hf : w.Free) : w.Rest := by
  rw [Stage] at h
  split_ifs at h with h₀
  · exact h.rest hf
  · exact (h.1.idle_of_free hf.starting hf.outstanding).rest

end Wait

/-- The set of events of the last `ioq_fd_wait` after a step, if it was `last` before it. -/
def Label.last (last : Option UInt32) : Label → Option UInt32
  | .wait set => some set
  | .rewait | .other => last

open Wait in
theorem Wait.Stage.step {l : Label} {w w' : Wait} {last : Option UInt32} (h : w.Stage last)
    (hl : l = .rewait → last ≠ some 0) (hstep : Step l w w') : w'.Stage (l.last last) := by
  cases l with
  | wait set =>
    cases hstep with
    | start hset hf =>
      rw [Stage, if_neg (by simpa [Label.last] using hset)]
      exact ⟨.starting (h.rest hf).start, hf.executing⟩
    | immediate hf =>
      obtain ⟨hr, hli, hh, ho, hq⟩ := h.rest hf
      exact ⟨rfl, hr, hli, hh, hf.starting, .inl ⟨trivial, ho, hq, rfl⟩⟩
  | rewait =>
    rw [Stage, if_neg (hl rfl)] at h
    rw [Label.last, Stage, if_neg (hl rfl)]
    exact hstep.valid h.1 h.2 (by simp)
  | other =>
    rw [Stage] at h
    rw [Label.last, Stage]
    split_ifs at h ⊢ with h₀
    · exact h.step hstep
    · exact hstep.valid h.1 h.2 (by simp)

/-- Without a call of `ioq_fd_wait` nothing happens to an `ioq_fd` for which there is no wait. -/
theorem View.Idle.step {l : Label} {w w' : Wait} (h : w.Idle) (hx : ¬w.executing)
    (hl : ∀ set, l ≠ .wait set) (hstep : Wait.Step l w w') : w' = w := by
  have hand : ∀ {hand : Hand}, w.hand = hand → hand = .none := fun hh => hh.symm.trans h.hand
  cases hstep with
  | same | ignored => rfl
  | start | immediate => exact absurd rfl (hl _)
  | lock hs => exact absurd hs h.starting
  | exec hx' => exact absurd hx' hx
  | rewait _ hw => simp [h.flags] at hw
  | deliver hr => simp [h.registered] at hr
  | dequeue _ hli => simp [h.listed] at hli
  | begin hq => simp [h.queued] at hq
  | delete hh | ready hh | submit hh | cancel hh | add hh | fail hh | cancelled hh | failed hh
  | added hh => cases hand hh

/-! ## Every run -/

variable [LinearOrder T] [DecidableEq C] {bgThreads : ℕ} {s s₁ s₂ : State F T K C} {f : F}
  {last : Option UInt32}

/-- A run of allowed steps in which `f` is not changed by `ioq_fd_rewait` after an `ioq_fd_wait`
    with the empty set. `last` is the set of events of the last `ioq_fd_wait`. -/
inductive History (bgThreads : ℕ) (f : F) : Option UInt32 → State F T K C → Prop
  | init : History bgThreads f none .init
  | step {last s s' a} : History bgThreads f last s → Allowed s a →
      (a.label f = .rewait → last ≠ some 0) → step bgThreads s a = some s' →
      History bgThreads f ((a.label f).last last) s'

theorem History.stage (h : History bgThreads f last s) : Sane s ∧ (s.wait f).Stage last := by
  induction h with
  | init =>
    refine ⟨sane_init, ?_⟩
    rw [Wait.Stage, if_neg (by simp)]
    exact ⟨valid_init.view f, by simp [State.wait, State.init]⟩
  | step _ hal hl e ih =>
    obtain ⟨hs, hst⟩ := ih
    exact ⟨hs.step hal e, hst.step hl (wait_step hs hal e f)⟩

/-- From `s` to `s₁` there are only allowed steps, and `ioq_fd_wait` is not called for `f`. -/
def Later (bgThreads : ℕ) (f : F) (s s₁ : State F T K C) : Prop :=
  Relation.ReflTransGen
    (Step bgThreads fun s a => Allowed s a ∧ ∀ set, a.label f ≠ .wait set) s s₁

/-- While there is no wait for `f`, nothing happens to it. -/
theorem Later.wait_eq (hr : Later bgThreads f s s₁) (hs : Sane s) (hi : (s.wait f).Idle)
    (hx : ¬(s.wait f).executing) : s₁.wait f = s.wait f := by
  suffices h : Sane s₁ ∧ s₁.wait f = s.wait f from h.2
  induction hr with
  | refl => exact ⟨hs, rfl⟩
  | tail _ hstep ih =>
    obtain ⟨a, ⟨hal, hl⟩, e⟩ := hstep
    obtain ⟨hs', hw⟩ := ih
    have hi' : (State.wait _ f).Idle := hw ▸ hi
    have hw' := hi'.step (hw ▸ hx) hl (wait_step hs' hal e f)
    exact ⟨hs'.step hal e, hw'.trans hw⟩

omit [LinearOrder T] [DecidableEq C] in
theorem Wait.Free.not_waits (hf : (s.wait f).Free) (c : C) : ¬(s.client c).Waits f := by
  rw [Client.waits_iff]
  rintro (hc | hc)
  · exact hf.starting ⟨c, hc⟩
  · exact hf.executing ⟨c, hc⟩

/-- Without `IOQ_FLAG_WAITING` the state does not change. -/
theorem eq_of_fdRewait {c : C} {set : UInt32} (hw : (s.fds f).flags.waiting = false)
    (e : step bgThreads s (.fdRewait c f set) = some s₁) : s₁ = s := by
  rcases step_cases e with e | e | e | ⟨-, e | e | e⟩
  · simp only [clientStep, hw, Option.ite_none_right_eq_some] at e
    exact (Option.some.inj e.2).symm
  all_goals cases e

/-- A call that led from `s` to `s₁` has had no effect on `f`, and will have none. -/
structure NoEffect (bgThreads : ℕ) (f : F) (s s₁ : State F T K C) : Prop where
  modList : s₁.modList = s.modList
  flags : (s₁.fds f).flags = (s.fds f).flags
  requested : (s₁.fds f).requested = (s.fds f).requested
  submitted : ∀ s₂, Later bgThreads f s₁ s₂ → s₂.submitted f = s.submitted f

/-- When no wait is in progress, `ioq_fd_rewait` and `ioq_fd_cancel` have no effect if and only if
    the last wait was not with the empty set. -/
theorem history_rewait (h : History bgThreads f last s) (hf : (s.wait f).Free) {c : C}
    {set : UInt32} (e : step bgThreads s (.fdRewait c f set) = some s₁) :
    NoEffect bgThreads f s s₁ ↔ last ≠ some 0 := by
  obtain ⟨hs, hst⟩ := h.stage
  constructor
  · rintro hno rfl
    -- The flag is still set, so `f` is now in `mod_list`, where it was not.
    have hal : Allowed s (.fdRewait c f set) := hf.not_waits
    have hstep := wait_step hs hal e f
    rw [Act.label, if_pos rfl] at hstep
    have him : (s.wait f).Immediate := hst
    have hlisted : s₁.modList.count f = 1 := him.rewait hstep
    rw [hno.modList, show s.modList.count f = 0 from him.listed] at hlisted
    exact absurd hlisted Nat.zero_ne_one
  · intro hlast
    -- The flag was reset before the task was submitted.
    rw [Wait.Stage, if_neg hlast] at hst
    have hi : (s.wait f).Idle := hst.1.idle_of_free hf.starting hf.outstanding
    obtain rfl : s₁ = s := eq_of_fdRewait (congrArg Flags.waiting hi.flags) e
    refine ⟨rfl, rfl, rfl, fun s₂ hr => ?_⟩
    have hw := hr.wait_eq hs hi hf.executing
    exact congrArg (fun w : Wait => w.submitted) hw

/-! ## A wait with the empty set -/

omit [DecidableEq F] in
instance decidableDeletes (result : ℤ) : (d : Disp F T K) → Decidable (d.Deletes result)
  | .held _ flags requested =>
    (inferInstance : Decidable
      (flags.waiting = true ∧ requested = 0 ∧ flags.epoll = true → result = 0))
  | .nextDeadline | .epollWait _ | .drain _ | .ack _ | .event _ | .eventLock _ _ | .dequeue
  | .cancelled _ | .failed _ | .added _ | .expire _ | .expired _ _ | .run | .running _ =>
    .isTrue trivial

omit [LinearOrder T] [DecidableEq C] in
instance decidableAllowed [Fintype C] (s : State F T K C) :
    (a : Act F T K C) → Decidable (Allowed s a)
  | .fdWait _ f _ =>
    (inferInstance : Decidable (s.outstanding f = false ∧ ∀ c, ¬(s.client c).Waits f))
  | .fdRewait _ f _ => (inferInstance : Decidable (∀ c, ¬(s.client c).Waits f))
  | .eventDel ok => (inferInstance : Decidable (ok = true))
  | .handle result => decidableDeletes result s.disp
  | .notify _ | .fdWaitLock _ | .fdWaitExec _ | .taskExec _ _ | .timerWait _ _ _ _ | .notifyLock _
  | .notifyWrite _ | .nextDeadline | .epollReturn _ | .epollInterrupted | .epollError | .read
  | .ackLock | .eventDone | .eventLock | .dequeue _ | .handleLock | .expire | .expired | .run | .ran
  | .workerRun => .isTrue trivial

/-- The steps between two calls for `f`. -/
theorem History.steps (h : History bgThreads f last s)
    (hr : Relation.ReflTransGen (Step bgThreads fun s a => Allowed s a ∧ a.label f = .other) s s₁) :
    History bgThreads f last s₁ := by
  induction hr with
  | refl => exact h
  | tail _ hstep ih =>
    obtain ⟨a, ⟨hal, hl⟩, e⟩ := hstep
    have h' := ih.step hal (by simp [hl]) e
    rwa [hl] at h'

theorem later_of_steps
    (hr : Relation.ReflTransGen (Step bgThreads fun s a => Allowed s a ∧ a.label f = .other) s s₁) :
    Later bgThreads f s s₁ := by
  refine Relation.ReflTransGen.mono ?_ s s₁ hr
  rintro s s' ⟨a, ⟨hal, hl⟩, e⟩
  exact ⟨a, ⟨hal, fun set => by simp [hl]⟩, e⟩

omit [LinearOrder T] [DecidableEq C] in
theorem free_of_idle (hc : ∀ c, s.client c = .idle) (ho : s.outstanding f = false) :
    (s.wait f).Free := by
  refine ⟨?_, ?_, ho⟩
  · rintro ⟨c, h⟩
    simp [hc c] at h
  · rintro ⟨c, h⟩
    simp [hc c] at h

/-- `epoll_ctl` has failed, and the task was submitted. -/
theorem history_rewait_failed : ∃ s s₁ : State Unit ℕ Unit Unit, s.submitted () = 1 ∧
    step 1 s (.fdRewait () () 1) = some s₁ ∧ NoEffect 1 () s s₁ := by
  obtain ⟨s, e, hs⟩ := Option.map_eq_some_iff.1 (show
    ((step 1 (.init : State Unit ℕ Unit Unit) (.fdWait () () 1)).bind
      (trace 1 (fun s a => Allowed s a ∧ a.label () = .other) · [.fdWaitLock (),
        .notifyLock (some ()), .notifyWrite (some ()), .nextDeadline, .epollInterrupted, .dequeue 0,
        .handle (-9), .handleLock, .dequeue 0, .handle 0, .handleLock, .dequeue 0, .handle 0,
        .workerRun])).map
          (fun s => (s.submitted (), s.outstanding (), s.client (), s.note (some ()),
            (s.fds ()).flags.waiting)) = some (1, false, .idle, .none, false) by decide +kernel)
  obtain ⟨s₀, e₀, e⟩ := Option.bind_eq_some_iff.1 e
  simp only [Prod.mk.injEq] at hs
  obtain ⟨hsub, ho, hc, hn, hw⟩ := hs
  have h₀ : History 1 () (some 1) s₀ :=
    .step (a := .fdWait () () 1) .init ⟨rfl, fun _ => id⟩ (by simp [Act.label]) e₀
  have hf : (s.wait ()).Free := free_of_idle (fun _ => hc) ho
  have e₁ : step 1 s (.fdRewait () () 1) = some s := by
    simp [step, clientStep, hc, hn, hw]
  exact ⟨s, s, hsub, e₁, (history_rewait (h₀.steps (steps_of_trace e)) hf e₁).2 (by decide)⟩

/-- A callback was invoked for a wait with the empty set. A call of `ioq_fd_rewait` changes `mod_list`
    and the `ioq_fd`, and the task is submitted a second time. -/
theorem rewait_submits_again : ∃ s s₁ s₂ : State Unit ℕ Unit Unit, Run 1 Allowed s ∧
    (s.wait ()).Free ∧ s.submitted () = 1 ∧ step 1 s (.fdRewait () () 1) = some s₁ ∧
    s₁.modList ≠ s.modList ∧ (s₁.fds ()).flags ≠ (s.fds ()).flags ∧
    (s₁.fds ()).requested ≠ (s.fds ()).requested ∧ Later 1 () s₁ s₂ ∧ s₂.submitted () = 2 := by
  obtain ⟨s, e, h⟩ := Option.bind_eq_some_iff.1 (show
    ((trace 1 Allowed (.init : State Unit ℕ Unit Unit)
      [.fdWait () () 0, .fdWaitExec (), .workerRun]).bind fun s =>
        (step 1 s (.fdRewait () () 1)).bind fun s₁ =>
          (trace 1 (fun s a => Allowed s a ∧ a.label () = .other) s₁
            [.nextDeadline, .epollInterrupted, .dequeue 0, .handle 0, .handleLock, .dequeue 0,
              .expire, .run, .nextDeadline, .epollReturn [((), 1)], .read, .ackLock, .eventDel true,
              .eventLock, .eventDone, .dequeue 0, .handle 0]).map fun s₂ =>
            decide (s.client () = .idle ∧ s.outstanding () = false ∧ s.submitted () = 1 ∧
              s₁.modList ≠ s.modList ∧ (s₁.fds ()).flags ≠ (s.fds ()).flags ∧
              (s₁.fds ()).requested ≠ (s.fds ()).requested ∧ s₂.submitted () = 2)) =
        some true by decide +kernel)
  obtain ⟨s₁, e₁, h⟩ := Option.bind_eq_some_iff.1 h
  obtain ⟨s₂, e₂, h⟩ := Option.map_eq_some_iff.1 h
  obtain ⟨hc, ho, hsub, hm, hfl, hreq, hsub₂⟩ := of_decide_eq_true h
  have hf : (s.wait ()).Free := free_of_idle (fun _ => hc) ho
  exact ⟨s, s₁, s₂, Run.trace .refl e, hf, hsub, e₁, hm, hfl, hreq,
    later_of_steps (steps_of_trace e₂), hsub₂⟩

end Dlb.Ioq
