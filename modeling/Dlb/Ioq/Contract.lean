import Dlb.IoqFd
import Dlb.Ioq.Finished

/-!
# The IO queue keeps the contract of a wait

Files, sockets and mailboxes rely on `IoqFd`, which says no more of a wait than that it ends at some
time, with any events or any error, and that its callback is then invoked once. Here a run of the
IO queue is for one `ioq_fd` a run of `IoqFd`, with the same calls and the same callbacks:
`run_contract`.
-/

namespace Dlb.Ioq

variable {F T K C : Type} [DecidableEq F]

/-! ## What a client sees -/

/-- The fields of an `ioq_fd` as the contract has them. While the wait goes on the client does not
look at the results. -/
def Fd.contract (x : Fd) (submitted : ℕ) (outstanding : Bool) : IoqFd :=
  if x.flags.waiting && submitted == 0 then ⟨0, 0, x.requested, .waiting, false⟩
  else ⟨x.ready, x.err, x.requested, if outstanding then .ended else .idle, false⟩

/-- What the client sees of `f`. -/
def State.contract (s : State F T K C) (f : F) : IoqFd :=
  (s.fds f).contract (s.submitted f) (s.outstanding f)

/-- The callback of `f`, if it is the next task of the run queue. -/
def State.callback (s : State F T K C) (f : F) : Option IoqFd.Event :=
  if s.jobList.head?.any (Task.isFd f) then some (.callback (s.fds f).ready (s.fds f).err) else none

/-- What the client sees of the step `a` in the state `s`. -/
def State.event (s : State F T K C) (f : F) : Act F T K C → Option IoqFd.Event
  | .fdWait _ g set => if f = g then some (.wait set) else none
  | .fdRewait _ g set => if f = g then some (.rewait set) else none
  | .run | .workerRun => s.callback f
  | _ => none

variable {x : Fd} {n : ℕ} {o : Bool} {s s' : State F T K C} {f g : F}

omit [DecidableEq F] in
theorem contract_open (hw : (s.fds f).flags.waiting = true) (hs : s.submitted f = 0) :
    s.contract f = ⟨0, 0, (s.fds f).requested, .waiting, false⟩ := by
  simp [State.contract, Fd.contract, hw, hs]

omit [DecidableEq F] in
theorem contract_closed (h : (s.fds f).flags.waiting = false ∨ s.submitted f ≠ 0) :
    s.contract f = ⟨(s.fds f).ready, (s.fds f).err, (s.fds f).requested,
      if s.outstanding f then .ended else .idle, false⟩ := by
  rcases h with h | h <;> simp [State.contract, Fd.contract, h]

omit [DecidableEq F] in
theorem contract_ended (h : (s.fds f).flags.waiting = false ∨ s.submitted f ≠ 0)
    (ho : s.outstanding f = true) :
    s.contract f = ⟨(s.fds f).ready, (s.fds f).err, (s.fds f).requested, .ended, false⟩ := by
  rw [contract_closed h, ho, if_pos rfl]

omit [DecidableEq F] in
theorem contract_misused (s : State F T K C) (f : F) : (s.contract f).misused = false := by
  rw [State.contract, Fd.contract]
  split_ifs <;> rfl

omit [DecidableEq F] in
/-- What is left alone of `f` leaves what is seen of it. -/
theorem contract_eq (hf : s'.fds f = s.fds f) (hs : s'.submitted f = s.submitted f)
    (ho : s'.outstanding f = s.outstanding f) : s'.contract f = s.contract f := by
  simp only [State.contract, hf, hs, ho]

theorem contract_setFd_of_ne (hne : f ≠ g) (u : Fd → Fd) : (s.setFd g u).contract f = s.contract f :=
  contract_eq (by simp [State.setFd, hne]) rfl rfl

/-- The flags for the dispatcher are not seen. -/
theorem contract_setFlags {u : Flags → Flags}
    (hu : (u (s.fds g).flags).waiting = (s.fds g).flags.waiting) :
    (s.setFd g (.setFlags u)).contract f = s.contract f := by
  rcases eq_or_ne f g with rfl | hne
  · simp only [State.contract, State.setFd, Fd.setFlags, Fd.contract, Function.update_self, hu]
    rfl
  · exact contract_setFd_of_ne hne _

theorem contract_modEnqueue : (modEnqueue s g).2.contract f = s.contract f := by
  rw [modEnqueue]
  split_ifs
  · rfl
  · exact contract_setFlags (u := ({ · with modList := true })) rfl

theorem contract_lock (cl : C → Client F) (o : F → Bool) :
    { (modEnqueue s g).2 with client := cl, outstanding := o }.contract f =
      { s with client := cl, outstanding := o }.contract f := by
  rw [← contract_modEnqueue (s := { s with client := cl, outstanding := o }) (g := g)]
  rw [modEnqueue, modEnqueue]
  split_ifs <;> rfl

theorem contract_endWait_of_ne (hne : f ≠ g) : (endWait s g).contract f = s.contract f := by
  rw [endWait, contract_modEnqueue, contract_setFd_of_ne hne]

theorem contract_endWait (ho : s.outstanding f = true) : (endWait s f).contract f =
    ⟨(s.fds f).ready, (s.fds f).err, (s.fds f).requested, .ended, false⟩ := by
  rw [endWait, contract_modEnqueue]
  convert contract_ended (s := s.setFd f _) (f := f) (.inl _) ho using 2
  all_goals simp [State.setFd, Fd.setFlags]

omit [DecidableEq F] in
/-- The wait ends. -/
theorem contract_finish {ready requested : UInt32} {err : ℤ}
    (h : s.contract f = ⟨0, 0, requested, .waiting, false⟩)
    (h' : s'.contract f = ⟨ready, err, requested, .ended, false⟩) :
    IoqFd.Step (s.contract f) none (s'.contract f) := by
  rw [h, h']
  exact .finish rfl

omit [DecidableEq F] in
theorem contract_wakeup [DecidableEq C] (c : Option C) (need : Bool) :
    (wakeup s c need).contract f = s.contract f := by
  rw [wakeup]
  split_ifs <;> rfl

/-! ## The phases of a wait -/

variable {last : Option UInt32} {hand : Hand}

theorem contract_active (h : (s.view f).Active) :
    s.contract f = ⟨0, 0, (s.fds f).requested, .waiting, false⟩ :=
  contract_open h.waiting h.submitted

theorem contract_setFd_active (h : (s.view f).Active) {u : Fd → Fd}
    (hu : ∀ x, (u x).flags = x.flags) :
    (s.setFd f u).contract f = ⟨0, 0, (u (s.fds f)).requested, .waiting, false⟩ := by
  have hfd : (s.setFd f u).fds f = u (s.fds f) := Function.update_self ..
  have hw : ((s.setFd f u).fds f).flags.waiting = true := by
    rw [hfd, hu]
    exact h.waiting
  have hs : (s.setFd f u).submitted f = 0 := h.submitted
  rw [contract_open hw hs, hfd]

/-- The results are written while the wait goes on. -/
theorem contract_setFd_same (h : (s.view f).Active) {u : Fd → Fd} (hu : ∀ x, (u x).flags = x.flags)
    (hr : ∀ x, (u x).requested = x.requested) : (s.setFd f u).contract f = s.contract f := by
  rw [contract_active h, contract_setFd_active h hu, hr]

/-- What the dispatcher holds, and has not dequeued after the end of the wait. -/
def Hand.Busy (hand : Hand) : Prop :=
  hand ≠ .none ∧ ∀ flags requested, flags.waiting = false → hand ≠ .held flags requested

theorem busy_held {flags : Flags} (hw : flags.waiting = true) (requested : UInt32) :
    (Hand.held flags requested).Busy := by
  refine ⟨by simp, fun flags' _ hw' heq => ?_⟩
  obtain ⟨rfl, -⟩ := Hand.held.inj heq
  simp [hw] at hw'

/-- What the dispatcher has in its hands waits, unless it was dequeued after the end of the wait. -/
theorem Wait.Stage.active (h : (s.wait f).Stage last) (hand : Hand) (hh : s.disp.hand f = hand)
    (hn : hand.Busy) : (s.view f).Active := by
  rw [Wait.Stage] at h
  split_ifs at h
  · exact absurd (hh.symm.trans h.hand) hn.1
  · exact h.1.of_hand_eq hh hn

/-- What was dequeued after the end of the wait. -/
theorem Wait.Stage.ending {flags : Flags} {requested : UInt32} (h : (s.wait f).Stage last)
    (hh : s.disp.hand f = .held flags requested) (hw : flags.waiting = false) :
    (s.view f).Ending := by
  rw [Wait.Stage] at h
  split_ifs at h
  · cases hh.symm.trans h.hand
  · exact (h.1.of_held_ended hh hw).1

/-- A wait with a set of events that is not empty, and that `ioq_fd_wait` has started. -/
theorem Wait.Stage.waiting (h : (s.wait f).Stage last) (hl : last ≠ some 0)
    (hs : ¬(s.wait f).starting) (hw : (s.fds f).flags.waiting = true) : (s.view f).Active := by
  rw [Wait.Stage, if_neg hl] at h
  exact h.1.of_waiting hw hs

/-- No wait is in progress. -/
theorem contract_free (h : (s.wait f).Stage last) (hf : (s.wait f).Free) :
    (s.contract f).phase = .idle := by
  have hc : (s.fds f).flags.waiting = false ∨ s.submitted f ≠ 0 := by
    rw [Wait.Stage] at h
    split_ifs at h
    · rcases h.task with ⟨hx, -⟩ | ⟨-, -, hs⟩
      · exact absurd hx hf.executing
      · exact .inr (hs.trans_ne Nat.one_ne_zero)
    · exact .inl (congrArg Flags.waiting (h.1.idle_of_free hf.starting hf.outstanding).flags)
  rw [contract_closed hc, show s.outstanding f = false from hf.outstanding]
  rfl

/-- A client is before the lock in `ioq_fd_wait`. -/
theorem Wait.Stage.starting (h : (s.wait f).Stage last) (hs : (s.wait f).starting) :
    (s.view f).Starting := by
  rw [Wait.Stage] at h
  split_ifs at h
  · exact absurd hs h.starting
  · exact h.1.of_starting hs

/-- A client is before `runq_task_exec` in `ioq_fd_wait`. -/
theorem Wait.Stage.executing (h : (s.wait f).Stage last) (hx : (s.wait f).executing) :
    (s.fds f).flags.waiting = true ∧ s.submitted f = 0 := by
  rw [Wait.Stage] at h
  split_ifs at h
  · rcases h.task with ⟨-, -, -, hs⟩ | ⟨hx', -⟩
    · exact ⟨congrArg Flags.waiting h.flags, hs⟩
    · exact absurd hx hx'
  · exact absurd hx h.2

/-- The task of `f` is in the run queue. -/
theorem Wait.Stage.queued (h : (s.wait f).Stage last) (hq : 0 < (s.view f).queued) :
    ((s.fds f).flags.waiting = false ∨ s.submitted f ≠ 0) ∧ s.outstanding f = true := by
  rw [Wait.Stage] at h
  split_ifs at h
  · rcases h.task with ⟨-, -, hq', -⟩ | ⟨-, hq', hs⟩
    · exact absurd hq' hq.ne'
    · refine ⟨.inr (hs.trans_ne Nat.one_ne_zero), ?_⟩
      have ho : (s.view f).outstanding.toNat ≠ 0 := hq'.symm.trans_ne hq.ne'
      simpa [State.view] using ho
  · rcases h.1 with h | h | h | h | h
    · exact absurd h.queued hq.ne'
    · exact absurd h.queued hq.ne'
    · exact absurd h.queued hq.ne'
    · exact absurd h.queued hq.ne'
    · exact ⟨.inl (congrArg Flags.waiting h.flags), h.outstanding⟩

/-! ## The steps of the threads -/

section Step

variable [LinearOrder T] [DecidableEq C] {bgThreads : ℕ} {a : Act F T K C}

omit [DecidableEq F] [LinearOrder T] in
theorem contract_runqTaskExec (c : Option C) (task : Task F T K) :
    (runqTaskExec bgThreads s c task).contract f = s.contract f := by
  rw [runqTaskExec, contract_wakeup]
  rfl

theorem contract_client (hst : (s.wait f).Stage last) (hl : Allowed s a)
    (hr : a.label f = .rewait → last ≠ some 0) (e : clientStep bgThreads s a = some s') :
    IoqFd.Step (s.contract f) (s.event f a) (s'.contract f) := by
  cases a with
  | notify c =>
    simp only [clientStep, Option.ite_none_right_eq_some, Option.some.injEq] at e
    obtain ⟨-, rfl⟩ := e
    exact .of_eq (contract_wakeup _ _)
  | fdWait c g set =>
    simp only [clientStep, Option.ite_none_right_eq_some, Option.some.injEq] at e
    obtain ⟨-, rfl⟩ := e
    simp only [State.event]
    by_cases hfg : f = g
    · obtain rfl := hfg
      have hfree : (s.wait f).Free := by
        refine ⟨?_, ?_, hl.1⟩
        · rintro ⟨c', hc'⟩
          exact hl.2 c' (hc' ▸ rfl)
        · rintro ⟨c', hc'⟩
          exact hl.2 c' (hc' ▸ rfl)
      have hidle := contract_free hst hfree
      have hc : ∀ cl, { fdWait s f set with client := cl }.contract f =
          IoqFd.ioqFdWait (s.contract f) set := by
        intro cl
        simp only [IoqFd.ioqFdWait, hidle, contract_misused]
        simp [State.contract, fdWait, State.setFd, Fd.contract]
      rw [hc, if_pos rfl]
      exact .wait _ set hidle
    · rw [if_neg hfg]
      exact .of_eq (contract_eq (by simp [fdWait, State.setFd, hfg]) (by simp [fdWait, hfg]) rfl)
  | fdWaitLock c =>
    simp only [clientStep] at e
    split at e
    · rename_i g hc
      obtain rfl := Option.some.inj e
      rw [contract_wakeup]
      rcases eq_or_ne f g with rfl | hne
      · have h := hst.starting ⟨c, hc⟩
        have hw : (s.fds f).flags.waiting = true := congrArg Flags.waiting h.flags
        rw [contract_lock, contract_open hw h.submitted]
        exact .of_eq (contract_open hw h.submitted)
      · rw [contract_lock]
        exact .of_eq (contract_eq rfl rfl (by simp [hne]))
    · cases e
  | fdWaitExec c =>
    simp only [clientStep] at e
    split at e
    · rename_i g hc
      obtain rfl := Option.some.inj e
      rw [contract_runqTaskExec]
      rcases eq_or_ne f g with rfl | hne
      · obtain ⟨hw, hs⟩ := hst.executing ⟨c, hc⟩
        exact contract_finish (contract_open hw hs) (contract_ended (.inr (by simp)) (by simp))
      · exact .of_eq (contract_eq rfl (by simp [hne]) (by simp [hne]))
    · cases e
  | fdRewait c g set =>
    simp only [clientStep, Option.ite_none_right_eq_some] at e
    obtain ⟨-, e⟩ := e
    simp only [State.event]
    split_ifs at e with hw <;> obtain rfl := Option.some.inj e
    · rw [contract_wakeup, contract_modEnqueue]
      split_ifs with hfg
      · obtain rfl := hfg
        have hstart : ¬(s.wait f).starting := by
          rintro ⟨c', hc'⟩
          exact hl c' (hc' ▸ rfl)
        have hact := hst.waiting (hr (by simp [Act.label])) hstart hw
        convert IoqFd.Step.rewait _ set using 1
        rw [contract_active hact,
          contract_setFd_active (u := ({ · with requested := set })) hact fun _ => rfl]
        rfl
      · exact .of_eq (contract_setFd_of_ne hfg _)
    · split_ifs with hfg
      · obtain rfl := hfg
        have hph : (s.contract f).phase ≠ .waiting := by
          rw [contract_closed (.inl (eq_false_of_ne_true hw))]
          dsimp only
          split_ifs <;> simp
        convert IoqFd.Step.rewait _ set using 1
        rw [IoqFd.ioqFdRewait, if_neg hph]
      · exact .same _
  | taskExec c k =>
    simp only [clientStep, Option.ite_none_right_eq_some, Option.some.injEq] at e
    obtain ⟨-, rfl⟩ := e
    exact .of_eq (contract_runqTaskExec _ _)
  | timerWait c t now interval =>
    simp only [clientStep, Option.ite_none_right_eq_some, Option.some.injEq] at e
    obtain ⟨-, rfl⟩ := e
    exact .of_eq (contract_wakeup _ _)
  | _ => cases e

omit [DecidableEq F] [LinearOrder T] in
theorem contract_note (e : noteStep s a = some s') :
    IoqFd.Step (s.contract f) none (s'.contract f) := by
  cases a with
  | notifyLock c | notifyWrite c =>
    simp only [noteStep, Option.ite_none_right_eq_some, Option.some.injEq] at e
    obtain ⟨-, rfl⟩ := e
    exact .same _
  | _ => cases e

omit [LinearOrder T] [DecidableEq C] in
theorem contract_wait (hst : (s.wait f).Stage last) (e : waitStep s a = some s') :
    IoqFd.Step (s.contract f) none (s'.contract f) := by
  cases a with
  | nextDeadline | epollInterrupted | epollError | ackLock | eventDone =>
    simp only [waitStep] at e
    split at e
    · obtain rfl := Option.some.inj e
      exact .same _
    · cases e
  | epollReturn evts =>
    simp only [waitStep] at e
    split at e
    · simp only [Option.ite_none_right_eq_some, Option.some.injEq] at e
      obtain ⟨-, rfl⟩ := e
      exact .same _
    · cases e
  | read =>
    simp only [waitStep] at e
    split at e
    · split_ifs at e <;> obtain rfl := Option.some.inj e <;> exact .same _
    · cases e
  | eventDel ok =>
    simp only [waitStep] at e
    split at e
    · rename_i g events evts hd
      obtain rfl := Option.some.inj e
      rcases eq_or_ne f g with rfl | hne
      · have h := hst.active .event (by simp [hd, Disp.hand]) (by simp [Hand.Busy])
        exact .of_eq (contract_setFd_same (u := ({ · with ready := events })) h (fun _ => rfl) fun _ => rfl)
      · exact .of_eq (contract_setFd_of_ne hne ({ · with ready := events }))
    · cases e
  | eventLock =>
    simp only [waitStep] at e
    split at e
    · rename_i g evts hd
      obtain rfl := Option.some.inj e
      rcases eq_or_ne f g with rfl | hne
      · have h := hst.active .eventLock (by simp [hd, Disp.hand]) (by simp [Hand.Busy])
        exact contract_finish (contract_active h) (contract_endWait h.outstanding)
      · exact .of_eq (contract_endWait_of_ne hne)
    · cases e
  | _ => cases e

omit [LinearOrder T] in
theorem contract_mod (hst : (s.wait f).Stage last) (e : modStep bgThreads s a = some s') :
    IoqFd.Step (s.contract f) none (s'.contract f) := by
  cases a with
  | dequeue now =>
    simp only [modStep] at e
    split at e
    · obtain rfl := Option.some.inj e
      exact .same _
    · rename_i g gs hd hm
      obtain rfl := Option.some.inj e
      exact .of_eq
        (contract_setFlags (u := fun _ => { (s.fds g).flags with modList := false }) rfl)
    · cases e
  | handle result =>
    simp only [modStep] at e
    split at e
    · rename_i g flags requested hd
      have hhand : s.disp.hand g = .held flags requested := by simp [hd, Disp.hand]
      by_cases hw : flags.waiting = true
      · -- The wait goes on, whatever `epoll_ctl` returns.
        have hbusy := busy_held hw requested
        rw [hw, Bool.not_true, if_neg (by simp)] at e
        split at e
        · obtain rfl := Option.some.inj e
          rcases eq_or_ne f g with rfl | hne
          · exact .of_eq (contract_setFd_same (u := ({ · with ready := 0 }))
              (hst.active _ hhand hbusy) (fun _ => rfl) fun _ => rfl)
          · exact .of_eq (contract_setFd_of_ne hne ({ · with ready := 0 }))
        split at e
        · obtain rfl := Option.some.inj e
          exact .same _
        · obtain rfl := Option.some.inj e
          rcases eq_or_ne f g with rfl | hne
          · exact .of_eq (contract_setFd_same (u := ({ · with err := result }))
              (hst.active _ hhand hbusy) (fun _ => rfl) fun _ => rfl)
          · exact .of_eq (contract_setFd_of_ne hne ({ · with err := result }))
      · rw [Bool.not_eq_true] at hw
        rw [hw, Bool.not_false, if_pos rfl] at e
        obtain rfl := Option.some.inj e
        rw [contract_runqTaskExec]
        rcases eq_or_ne f g with rfl | hne
        · have h := hst.ending hhand hw
          refine .of_eq ?_
          rw [contract_ended (.inl h.waiting) h.outstanding]
          exact contract_ended (.inl h.waiting) h.outstanding
        · exact .of_eq (contract_eq rfl (by simp [hne]) rfl)
    · cases e
  | handleLock =>
    simp only [modStep] at e
    split at e
    · rename_i g hd
      obtain rfl := Option.some.inj e
      rcases eq_or_ne f g with rfl | hne
      · have h := hst.active .cancelled (by simp [hd, Disp.hand]) (by simp [Hand.Busy])
        exact contract_finish (contract_active h) (contract_endWait h.outstanding)
      · exact .of_eq (contract_endWait_of_ne hne)
    · rename_i g hd
      obtain rfl := Option.some.inj e
      change IoqFd.Step _ none ((modEnqueue (s.setFd g ({ · with requested := 0 })) g).2.contract f)
      rw [contract_modEnqueue]
      rcases eq_or_ne f g with rfl | hne
      · have h := hst.active .failed (by simp [hd, Disp.hand]) (by simp [Hand.Busy])
        convert IoqFd.Step.fail _ using 1
        rw [contract_active h, contract_setFd_active (u := ({ · with requested := 0 })) h fun _ => rfl]
        rfl
      · exact .of_eq (contract_setFd_of_ne hne _)
    · rename_i g hd
      obtain rfl := Option.some.inj e
      exact .of_eq (contract_setFlags (u := ({ · with epoll := true })) rfl)
    · cases e
  | _ => cases e

omit [LinearOrder T] [DecidableEq C] in
/-- A task is taken from the run queue. -/
theorem contract_begin (hst : (s.wait f).Stage last) {task : Task F T K} {tasks : List (Task F T K)}
    (hj : s.jobList = task :: tasks) :
    IoqFd.Step (s.contract f) (s.callback f) ((beginTask s task).contract f) := by
  by_cases ht : task.isFd f = true
  · cases task with
    | fd g =>
      obtain rfl : f = g := of_decide_eq_true ht
      have hq : 0 < (s.view f).queued := by simp [State.view, hj, Task.isFd]
      obtain ⟨hc, ho⟩ := hst.queued hq
      have hcall : s.callback f = some (.callback (s.contract f).ready (s.contract f).err) := by
        rw [contract_ended hc ho]
        simp [State.callback, hj, Task.isFd]
      rw [hcall]
      refine .deliver ?_
      rw [contract_ended hc ho, contract_closed (s := beginTask s (.fd f)) hc]
      simp [IoqFd.deliver, beginTask]
    | timer t | other k => cases ht
  · have hcall : s.callback f = none := by simp [State.callback, hj, ht]
    rw [hcall]
    cases task with
    | fd g =>
      have hne : f ≠ g := by simpa [Task.isFd] using ht
      exact .of_eq (contract_eq rfl rfl (by simp [beginTask, hne]))
    | timer t | other k => exact .same _

omit [LinearOrder T] in
theorem contract_run (hst : (s.wait f).Stage last) (e : runStep bgThreads s a = some s') :
    IoqFd.Step (s.contract f) (s.event f a) (s'.contract f) := by
  cases a with
  | expire =>
    simp only [runStep] at e
    split at e
    · split_ifs at e <;> obtain rfl := Option.some.inj e <;> exact .same _
    · obtain rfl := Option.some.inj e
      exact .same _
    · cases e
  | expired =>
    simp only [runStep] at e
    split at e
    · obtain rfl := Option.some.inj e
      exact .of_eq (contract_runqTaskExec _ _)
    · cases e
  | run =>
    simp only [runStep] at e
    split at e
    · rename_i hj
      obtain rfl := Option.some.inj e
      have hcall : s.event f (.run : Act F T K C) = none := by
        simp [State.event, State.callback, hj]
      rw [hcall]
      exact .same _
    · rename_i hd hj
      obtain rfl := Option.some.inj e
      exact contract_begin hst hj
    · cases e
  | ran =>
    simp only [runStep] at e
    split at e
    · obtain rfl := Option.some.inj e
      exact .same _
    · cases e
  | _ => cases e

omit [LinearOrder T] [DecidableEq C] in
theorem contract_worker (hst : (s.wait f).Stage last) (e : workerStep bgThreads s a = some s') :
    IoqFd.Step (s.contract f) (s.event f a) (s'.contract f) := by
  cases a with
  | workerRun =>
    simp only [workerStep] at e
    split at e
    · cases e
    · rename_i hj
      split_ifs at e
      obtain rfl := Option.some.inj e
      exact contract_begin hst hj
  | _ => cases e

/-- A step of the IO queue is one of the contract. -/
theorem contract_step (hst : (s.wait f).Stage last) (hl : Allowed s a)
    (hr : a.label f = .rewait → last ≠ some 0) (e : step bgThreads s a = some s') :
    IoqFd.Step (s.contract f) (s.event f a) (s'.contract f) := by
  rcases step_cases e with e | e | e | ⟨-, e | e | e⟩
  · exact contract_client hst hl hr e
  · have h := contract_note (f := f) e
    cases a <;> first | exact h | cases e
  · exact contract_worker hst e
  · have h := contract_wait hst e
    cases a <;> first | exact h | cases e
  · have h := contract_mod hst e
    cases a <;> first | exact h | cases e
  · exact contract_run hst e

/-! ## Every run -/

/-- A history of `f` with all that its client has seen. -/
inductive Logged (bgThreads : ℕ) (f : F) :
    Option UInt32 → List IoqFd.Event → State F T K C → Prop
  | init : Logged bgThreads f none [] .init
  | step {last es s s' a} : Logged bgThreads f last es s → Allowed s a →
      (a.label f = .rewait → last ≠ some 0) → step bgThreads s a = some s' →
      Logged bgThreads f ((a.label f).last last) (es ++ (s.event f a).toList) s'

theorem Logged.history {es : List IoqFd.Event} (h : Logged bgThreads f last es s) :
    History bgThreads f last s := by
  induction h with
  | init => exact .init
  | step _ hl hr e ih => exact .step ih hl hr e

theorem Logged.run {es : List IoqFd.Event} (h : Logged bgThreads f last es s) :
    IoqFd.Run es (s.contract f) := by
  induction h with
  | init => exact .init
  | step h hl hr e ih => exact .step ih (contract_step h.history.stage.2 hl hr e)

/-- What the client of `f` sees of the steps `as`. -/
def seen (bgThreads : ℕ) (f : F) : State F T K C → List (Act F T K C) → List IoqFd.Event
  | _, [] => []
  | s, a :: as => (s.event f a).toList ++ (step bgThreads s a).elim [] (seen bgThreads f · as)

theorem Logged.steps [∀ (s : State F T K C) a, Decidable (Allowed s a)] {es : List IoqFd.Event}
    (h : Logged bgThreads f last es s) {as : List (Act F T K C)}
    (e : trace bgThreads (fun s a => Allowed s a ∧ a.label f = .other) s as = some s') :
    Logged bgThreads f last (es ++ seen bgThreads f s as) s' := by
  induction as generalizing s es with
  | nil =>
    obtain rfl := Option.some.inj e
    simpa [seen] using h
  | cons a as ih =>
    simp only [trace, Option.ite_none_right_eq_some, Option.bind_eq_some_iff] at e
    obtain ⟨⟨hal, hl⟩, s₁, e₁, e⟩ := e
    have h₁ := h.step hal (by simp [hl]) e₁
    rw [hl] at h₁
    simpa [seen, e₁] using ih h₁ e

end Step

end Dlb.Ioq
