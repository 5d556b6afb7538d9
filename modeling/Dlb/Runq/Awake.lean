import Mathlib.Order.Basic
import Mathlib.Tactic.Tauto
import Dlb.Machine
import Dlb.Runq.Code

/-!
# No job is stranded

The events are only raised when a job is put into an empty list, and a worker clears its event
before it empties the list. While there are jobs, then, an event is raised, or a worker has yet to
look at the list again, or a thread is raising events.

* `Queue`: the job list holds what was submitted and not yet popped, in this order;
* `Stirring`: somebody will look at the list.
-/

namespace Dlb.Runq

open Machine

variable {K Φ C : Type} [DecidableEq K] [DecidableEq C] {n : ℕ} {s s' : State K Φ C}
  {a : Act K Φ C} {l : List K}

/-! ## The queue -/

/-- The jobs are `l`. A task that is about to be put into the list is in no other hands. -/
structure Queue (s : State K Φ C) (l : List K) : Prop where
  lists : Slist.Lists s.next s.jobList l
  order : s.submitted = s.popped ++ l
  pending : ∀ t ∈ l, s.pending t = true
  locked : ∀ th t, s.exec th = .lock t → s.pending t = true ∧ t ∉ l
  unique : ∀ th th' t, s.exec th = .lock t → s.exec th' = .lock t → th = th'

omit [DecidableEq K] [DecidableEq C] in
theorem Queue.congr (h : Queue s l) (hn : s'.next = s.next) (hj : s'.jobList = s.jobList)
    (hs : s'.submitted = s.submitted) (hp : s'.popped = s.popped) (hb : s'.pending = s.pending)
    (he : ∀ th t, s'.exec th = .lock t → s.exec th = .lock t) : Queue s' l where
  lists := by
    rw [hn, hj]
    exact h.lists
  order := by rw [hs, hp, h.order]
  pending := hb ▸ h.pending
  locked th t ht := hb ▸ h.locked th t (he th t ht)
  unique th th' t ht ht' := h.unique th th' t (he th t ht) (he th' t ht')

omit [DecidableEq K] in
/-- A thread that does not come before the lock. -/
theorem lock_update (exec : Thread C → Exec K) (th : Thread C) {x : Exec K}
    (hx : ∀ t, x ≠ .lock t) (th' : Thread C) (t : K) (h : Function.update exec th x th' = .lock t) :
    th' ≠ th ∧ exec th' = .lock t := by
  rcases eq_or_ne th' th with rfl | hne
  · rw [Function.update_self] at h
    exact absurd h (hx t)
  · rw [Function.update_of_ne hne] at h
    exact ⟨hne, h⟩

theorem Queue.taskExec (h : Queue s l) {th : Thread C} {t : K} (hl : s.pending t = false)
    {func : K → Φ} : Queue { s with
      func := func
      pending := Function.update s.pending t true
      exec := Function.update s.exec th (.lock t) } l := by
  have htl : t ∉ l := fun ht => by simp [h.pending t ht] at hl
  have hno : ∀ th', s.exec th' ≠ .lock t := fun th' ht => by simp [(h.locked th' t ht).1] at hl
  have hpend : ∀ u, s.pending u = true → Function.update s.pending t true u = true := by
    intro u hu
    rcases eq_or_ne u t with rfl | hne
    · simp
    · simpa [hne] using hu
  refine ⟨h.lists, h.order, fun u hu => hpend u (h.pending u hu), fun th' u hu => ?_,
    fun th₁ th₂ u h₁ h₂ => ?_⟩
  · rcases eq_or_ne th' th with rfl | hne
    · obtain rfl : t = u := by simpa using hu
      simpa using htl
    · obtain ⟨hp, hul⟩ := h.locked th' u (by simpa [hne] using hu)
      exact ⟨hpend u hp, hul⟩
  · -- No other thread has the task `t`.
    by_cases e₁ : th₁ = th <;> by_cases e₂ : th₂ = th <;> simp_all
    exact h.unique th₁ th₂ u h₁ h₂

theorem Queue.taskExecLock (h : Queue s l) {th : Thread C} {t : K} (ht : s.exec th = .lock t) :
    Queue (taskExecLock s th t) (l ++ [t]) := by
  obtain ⟨hp, htl⟩ := h.locked th t ht
  have hlock := lock_update s.exec th
    (x := if Slist.slistIsEmpty s.jobList then .raise 0 else .idle) (by intro; split <;> simp)
  refine ⟨h.lists.append htl, by simp [Runq.taskExecLock, h.order], fun u hu => ?_,
    fun th' u hu => ?_, fun th₁ th₂ u h₁ h₂ => ?_⟩
  · rcases List.mem_append.1 hu with hu | hu
    · exact h.pending u hu
    · rw [List.mem_singleton.1 hu]
      exact hp
  · obtain ⟨hne, hu'⟩ := hlock th' u hu
    refine ⟨(h.locked th' u hu').1, fun hm => ?_⟩
    rcases List.mem_append.1 hm with hm | hm
    · exact (h.locked th' u hu').2 hm
    · obtain rfl := List.mem_singleton.1 hm
      exact hne (h.unique th' th u hu' ht)
  · exact h.unique th₁ th₂ u (hlock th₁ u h₁).2 (hlock th₂ u h₂).2

omit [DecidableEq C] in
/-- `run_one` takes the first job, unless it is told to quit. -/
theorem Queue.runOne (h : Queue s l) :
    s.quitRequest = true ∧ runOne s = (.quit, s) ∨
    l = [] ∧ runOne s = (.empty, s) ∨
    ∃ t l' s₁, l = t :: l' ∧ runOne s = (.task t, s₁) ∧ Queue s₁ l' ∧ s₁.wakeup = s.wakeup ∧
      s₁.worker = s.worker ∧ s₁.exec = s.exec ∧ s₁.quitRequest = s.quitRequest := by
  by_cases hq : s.quitRequest = true
  · exact .inl ⟨hq, by simp [Runq.runOne, hq]⟩
  right
  obtain ⟨hpop, hl⟩ := h.lists.pop
  cases l with
  | nil =>
    refine .inl ⟨rfl, ?_⟩
    have hs : s.jobList.start = none := h.lists.chain
    rw [Runq.runOne, if_neg hq, Slist.slistPop, hs]
  | cons t l =>
    refine .inr ⟨t, l, { s with
      jobList := (Slist.slistPop s.next s.jobList).2
      pending := Function.update s.pending t false
      popped := s.popped ++ [t] }, rfl, ?_, ?_, rfl, rfl, rfl, rfl⟩
    · rw [Runq.runOne, if_neg hq]
      rcases e : Slist.slistPop s.next s.jobList with ⟨_ | u, jobList⟩
      · simp [e] at hpop
      · obtain rfl : u = t := by simpa [e] using hpop
        rfl
    · have hne : ∀ u, u ∈ l → u ≠ t := by
        rintro u hu rfl
        exact (List.nodup_cons.1 h.lists.nodup).1 hu
      refine ⟨hl, by simp [h.order], fun u hu => ?_, fun th u hu => ?_, h.unique⟩
      · simpa [hne u hu] using h.pending u (List.mem_cons_of_mem _ hu)
      · obtain ⟨hp, hul⟩ := h.locked th u hu
        rw [List.mem_cons, not_or] at hul
        simpa [hul.1] using ⟨hp, hul.2⟩

/-! ## Somebody will look at the list -/

/-- The worker is past its event and has not found the list empty since. -/
def Worker.Past : Worker K Φ → Prop
  | .clear | .runOne | .call _ | .task .. => True
  | .wait | .returned => False

/-- An event is raised, or a worker is past its event, or a thread that found the list empty is
raising the events. -/
def Stirring (n : ℕ) (s : State K Φ C) : Prop :=
  (∃ i < n, s.wakeup i = true) ∨ (∃ i < n, (s.worker i).Past) ∨ ∃ th, ∃ i < n, s.exec th = .raise i

omit [DecidableEq K] [DecidableEq C] in
theorem Stirring.mono (h : Stirring n s) (hw : ∀ i, s.wakeup i = true → s'.wakeup i = true)
    (hp : ∀ i, (s.worker i).Past → (s'.worker i).Past)
    (he : ∀ th i, i < n → s.exec th = .raise i → s'.exec th = .raise i) : Stirring n s' := by
  rcases h with ⟨i, hi, h⟩ | ⟨i, hi, h⟩ | ⟨th, i, hi, h⟩
  · exact .inl ⟨i, hi, hw i h⟩
  · exact .inr (.inl ⟨i, hi, hp i h⟩)
  · exact .inr (.inr ⟨th, i, hi, he th i hi h⟩)

omit [DecidableEq K] [DecidableEq C] in
theorem stirring_setWorker {i : ℕ} (hi : i < n) {w : Worker K Φ} (hw : w.Past) :
    Stirring n (setWorker s i w) := by
  refine .inr (.inl ⟨i, hi, ?_⟩)
  simpa [setWorker] using hw

/-- The invariant. -/
structure Inv (n : ℕ) (s : State K Φ C) (l : List K) : Prop extends Queue s l where
  stirring : s.quitRequest = false → l ≠ [] → Stirring n s

omit [DecidableEq K] [DecidableEq C] in
theorem inv_init (next : K → Option K) (func : K → Φ) :
    Inv n (State.init next func : State K Φ C) [] :=
  ⟨⟨Slist.lists_init, rfl, by simp, by simp [State.init], by simp [State.init]⟩, by simp⟩

omit [DecidableEq K] in
theorem raise_update {exec : Thread C → Exec K} {th : Thread C} (x : Exec K)
    (h : ∀ i < n, exec th ≠ .raise i) (th' : Thread C) (i : ℕ) (hi : i < n)
    (e : exec th' = .raise i) : Function.update exec th x th' = .raise i := by
  rcases eq_or_ne th' th with rfl | hne
  · exact absurd e (h i hi)
  · rwa [Function.update_of_ne hne]

theorem Inv.exec (hn : 0 < n) (h : Inv n s l) (hl : Legal s a) (e : execStep n s a = some s') :
    ∃ l', Inv n s' l' := by
  cases a with
  | taskExec th t func =>
    simp only [execStep, Option.ite_none_right_eq_some, Option.some.injEq] at e
    obtain ⟨⟨-, he⟩, rfl⟩ := e
    refine ⟨l, h.toQueue.taskExec hl, fun hq hne => ?_⟩
    exact (h.stirring hq hne).mono (fun _ => id) (fun _ => id) (raise_update _ (by simp [he]))
  | taskExecLock th =>
    simp only [execStep] at e
    split at e
    · rename_i t ht
      obtain rfl := Option.some.inj e
      refine ⟨l ++ [t], h.toQueue.taskExecLock ht, fun hq _ => ?_⟩
      by_cases hemp : l = []
      · -- The thread found the list empty and raises the events.
        refine .inr (.inr ⟨th, 0, hn, ?_⟩)
        simp [Runq.taskExecLock, h.lists.isEmpty, hemp]
      · exact (h.stirring hq hemp).mono (fun _ => id) (fun _ => id) (raise_update _ (by simp [ht]))
    · cases e
  | raise th =>
    simp only [execStep] at e
    split at e
    · rename_i i hi
      simp only [Option.ite_none_right_eq_some, Option.some.injEq] at e
      obtain ⟨hlt, rfl⟩ := e
      refine ⟨l, h.toQueue.congr rfl rfl rfl rfl rfl ?_, fun _ _ => .inl ⟨i, hlt, by simp⟩⟩
      exact fun th' t ht => (lock_update _ _ (by simp) th' t ht).2
    · cases e
  | hook th =>
    simp only [execStep] at e
    split at e
    · rename_i i hi
      simp only [Option.ite_none_left_eq_some, Option.some.injEq] at e
      obtain ⟨hlt, rfl⟩ := e
      refine ⟨l, h.toQueue.congr rfl rfl rfl rfl rfl ?_, fun hq hne => ?_⟩
      · exact fun th' t ht => (lock_update _ _ (by simp) th' t ht).2
      · refine (h.stirring hq hne).mono (fun _ => id) (fun _ => id) (raise_update _ fun j hj => ?_)
        rw [hi]
        rintro ⟨rfl⟩
        exact hlt hj
    · cases e
  | _ => cases e

omit [DecidableEq K] [DecidableEq C] in
/-- A worker that is past its event afterwards. -/
theorem Inv.setWorker (h : Queue s l) {i : ℕ} (hi : i < n) {w : Worker K Φ} (hw : w.Past) :
    Inv n (setWorker s i w) l :=
  ⟨h.congr rfl rfl rfl rfl rfl fun _ _ => id, fun _ _ => stirring_setWorker hi hw⟩

omit [DecidableEq C] in
theorem Inv.worker (h : Inv n s l) {i : ℕ} (hi : i < n)
    (ha : a = .wait i ∨ a = .clear i ∨ a = .runOne i ∨ a = .call i ∨ a = .taskReturn i)
    (e : workerStep s a = some s') : ∃ l', Inv n s' l' := by
  have hq : ∀ wakeup, Queue { s with wakeup := wakeup } l :=
    fun _ => h.toQueue.congr rfl rfl rfl rfl rfl fun _ _ => id
  rcases ha with rfl | rfl | rfl | rfl | rfl
  · -- `thr_event_wait`
    simp only [workerStep] at e
    split at e
    · simp only [Option.ite_none_right_eq_some, Option.some.injEq] at e
      obtain ⟨-, rfl⟩ := e
      exact ⟨l, .setWorker h.toQueue hi (w := .clear) trivial⟩
    · cases e
  · -- `thr_event_clear`
    simp only [workerStep] at e
    split at e
    · obtain rfl := Option.some.inj e
      exact ⟨l, .setWorker (hq _) hi (w := .runOne) trivial⟩
    · cases e
  · -- `run_one`
    simp only [workerStep] at e
    split at e
    · rcases h.toQueue.runOne with ⟨hq, hr⟩ | ⟨rfl, hr⟩ | ⟨t, l', s₁, rfl, hr, h₁, -⟩ <;>
        rw [hr] at e <;> obtain rfl := Option.some.inj e
      · refine ⟨l, h.toQueue.congr rfl rfl rfl rfl rfl fun _ _ => id, fun hq' => ?_⟩
        exact absurd hq' (by simp [Runq.setWorker, hq])
      · -- The worker has found the list empty.
        exact ⟨[], h.toQueue.congr rfl rfl rfl rfl rfl fun _ _ => id, fun _ hne => absurd rfl hne⟩
      · exact ⟨l', .setWorker h₁ hi (w := .call t) trivial⟩
    · cases e
  · -- the call of the task
    simp only [workerStep] at e
    split at e
    · obtain rfl := Option.some.inj e
      exact ⟨l, .setWorker h.toQueue hi (w := .task ..) trivial⟩
    · cases e
  · -- its return
    simp only [workerStep] at e
    split at e
    · simp only [Option.ite_none_right_eq_some, Option.some.injEq] at e
      obtain ⟨-, rfl⟩ := e
      exact ⟨l, .setWorker h.toQueue hi (w := .runOne) trivial⟩
    · cases e

omit [DecidableEq K] in
/-- A client that goes on elsewhere. -/
theorem Inv.setClient (h : Inv n s l) (c : C) (cl : Client K Φ) : Inv n (setClient s c cl) l :=
  ⟨h.toQueue.congr rfl rfl rfl rfl rfl fun _ _ => id, h.stirring⟩

theorem Inv.client (h : Inv n s l) (e : clientStep n s a = some s') : ∃ l', Inv n s' l' := by
  cases a with
  | dispatch c limit =>
    simp only [clientStep] at e
    split at e
    · simp only [Option.ite_none_right_eq_some, Option.some.injEq] at e
      obtain ⟨-, rfl⟩ := e
      exact ⟨l, h.setClient c _⟩
    · cases e
  | dispatchOne c =>
    simp only [clientStep] at e
    split at e
    · split_ifs at e
      · rcases h.toQueue.runOne with ⟨-, hr⟩ | ⟨-, hr⟩ | ⟨t, l', s₁, rfl, hr, h₁, hw, hp, he, hq⟩ <;>
          rw [hr] at e <;> obtain rfl := Option.some.inj e
        · exact ⟨l, h.setClient c _⟩
        · exact ⟨l, h.setClient c _⟩
        · have h₁' : Inv n s₁ l' := by
            refine ⟨h₁, fun hq' _ => ?_⟩
            exact (h.stirring (hq ▸ hq') (by simp)).mono (by simp [hw]) (by simp [hp]) (by simp [he])
          exact ⟨l', h₁'.setClient c _⟩
      · obtain rfl := Option.some.inj e
        exact ⟨l, h.setClient c _⟩
    · cases e
  | dispatchCall c =>
    simp only [clientStep] at e
    split at e
    · obtain rfl := Option.some.inj e
      exact ⟨l, h.setClient c _⟩
    · cases e
  | dispatchReturn c =>
    simp only [clientStep] at e
    split at e
    · simp only [Option.ite_none_right_eq_some, Option.some.injEq] at e
      obtain ⟨-, rfl⟩ := e
      exact ⟨l, h.setClient c _⟩
    · cases e
  | destroy c =>
    simp only [clientStep] at e
    split at e
    · simp only [Option.ite_none_right_eq_some] at e
      obtain ⟨-, e⟩ := e
      split_ifs at e
      · obtain rfl := Option.some.inj e
        exact ⟨l, h.setClient c _⟩
      · obtain rfl := Option.some.inj e
        refine ⟨l, h.toQueue.congr rfl rfl rfl rfl rfl fun _ _ => id, fun hq => ?_⟩
        simp [Runq.setClient] at hq
    · cases e
  | joinRaise c =>
    simp only [clientStep] at e
    split at e
    · rename_i i hi
      split_ifs at e with hlt <;> obtain rfl := Option.some.inj e
      · refine ⟨l, h.toQueue.congr rfl rfl rfl rfl rfl fun _ _ => id, fun _ _ => ?_⟩
        exact .inl ⟨i, hlt, by simp [Runq.setClient]⟩
      · exact ⟨l, h.setClient c _⟩
    · cases e
  | join c =>
    simp only [clientStep] at e
    split at e
    · split at e
      · obtain rfl := Option.some.inj e
        exact ⟨l, h.setClient c _⟩
      · cases e
    · cases e
  | _ => cases e

theorem Inv.step (hn : 0 < n) (h : Inv n s l) (hl : Legal s a) (e : step n s a = some s') :
    ∃ l', Inv n s' l' := by
  cases a with
  | taskExec | taskExecLock | raise | hook => exact h.exec hn hl e
  | dispatch | dispatchOne | dispatchCall | dispatchReturn | destroy | joinRaise | join =>
    simp only [Runq.step] at e
    exact h.client e
  | wait i | clear i | runOne i | call i | taskReturn i =>
    simp only [Runq.step, Option.ite_none_right_eq_some] at e
    exact h.worker e.1 (by simp) e.2

/-- While there are jobs and `quit_request` is not set, some event is raised, or a worker is past
its event and has not found the list empty since, or a thread that found the list empty has not yet
raised all events. What was popped are the first of the tasks that were submitted, in this
order, each as often as it was submitted or less, and the list holds the others. -/
theorem run_not_stranded (hn : 0 < n) {next : K → Option K} {func : K → Φ}
    (hr : Reached (step n) Legal (State.init next func) s) :
    (s.quitRequest = false → Slist.slistIsEmpty s.jobList = false → Stirring n s) ∧
      s.popped <+: s.submitted ∧ (∀ t, s.popped.count t ≤ s.submitted.count t) ∧
        ∃ l, Slist.Lists s.next s.jobList l ∧ s.submitted = s.popped ++ l := by
  obtain ⟨l, h⟩ : ∃ l, Inv n s l :=
    hr.invariant (I := fun s => ∃ l, Inv n s l) ⟨[], inv_init next func⟩
      fun ⟨_, h⟩ hl e => h.step hn hl e
  have hpre : s.popped <+: s.submitted := ⟨l, h.order.symm⟩
  refine ⟨fun hq he => h.stirring hq ?_, hpre, hpre.sublist.count_le, l, h.lists, h.order⟩
  rintro rfl
  rw [h.lists.isEmpty] at he
  cases he

/-- A worker submits a task from the task it runs, and its client submits another one. -/
theorem run_not_stranded_two : ∃ s : State ℕ Unit Unit,
    Reached (step 1) Legal (State.init (fun _ => none) fun _ => ()) s ∧
      (s.submitted = [1, 2, 3] ∧ s.popped = [1]) ∧ Stirring 1 s := by
  obtain ⟨s, hr, hb⟩ := exists_reached (step 1)
    (fun s a => Legal (s : State ℕ Unit Unit) a)
    (State.init (fun _ => none) fun _ => ())
    [.taskExec (.client ()) 1 (), .taskExecLock (.client ()), .raise (.client ()), .wait 0,
      .clear 0, .runOne 0, .call 0, .hook (.client ()), .taskExec (.client ()) 3 (),
      .taskExec (.worker 0) 2 (), .taskExecLock (.worker 0), .taskExecLock (.client ())]
    (fun s => decide (s.submitted = [1, 2, 3] ∧ s.popped = [1]) && !s.quitRequest &&
      !Slist.slistIsEmpty s.jobList) (by decide +kernel)
  simp only [Bool.and_eq_true, decide_eq_true_eq, Bool.not_eq_true'] at hb
  exact ⟨s, hr, hb.1.1, (run_not_stranded (by decide) hr).1 hb.1.2 hb.2⟩

end Dlb.Runq
