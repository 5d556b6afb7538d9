import Dlb.Runq.Awake

/-!
# Quitting

`runq_destroy` sets `quit_request`, and then raises the event of each worker and joins it. No worker
is asleep while its thread is joined, and nothing is popped any more.

* `Effect`: what a step does, one case for each way in which it can go;
* `Quits`: how far `runq_destroy` has come, and what that says about the workers.
-/

namespace Dlb.Runq

open Machine

variable {K Φ C : Type} [DecidableEq K] [DecidableEq C] {n : ℕ} {s s' : State K Φ C}
  {a : Act K Φ C} {l : List K}

/-! ## What a step does -/

/-- The state after a task was popped. -/
def State.pop (s : State K Φ C) (t : K) : State K Φ C :=
  { s with
    jobList := (Slist.slistPop s.next s.jobList).2
    pending := Function.update s.pending t false
    popped := s.popped ++ [t] }

def setExec (s : State K Φ C) (th : Thread C) (x : Exec K) : State K Φ C :=
  { s with exec := Function.update s.exec th x }

def setWakeup (s : State K Φ C) (i : ℕ) (b : Bool) : State K Φ C :=
  { s with wakeup := Function.update s.wakeup i b }

/-- A step that is possible, and the state after it. -/
inductive Effect (n : ℕ) (s : State K Φ C) : Act K Φ C → State K Φ C → Prop
  | taskExec (th : Thread C) (t : K) (func : Φ) (free : s.free th) (idle : s.exec th = .idle) :
    Effect n s (.taskExec th t func) (setExec { s with
      func := Function.update s.func t func
      pending := Function.update s.pending t true } th (.lock t))
  | taskExecLock (th : Thread C) (t : K) (lock : s.exec th = .lock t) :
    Effect n s (.taskExecLock th) (taskExecLock s th t)
  | raise (th : Thread C) (i : ℕ) (at_ : s.exec th = .raise i) (lt : i < n) :
    Effect n s (.raise th) (setExec (setWakeup s i true) th (.raise (i + 1)))
  | hook (th : Thread C) (i : ℕ) (at_ : s.exec th = .raise i) (le : ¬ i < n) :
    Effect n s (.hook th) (setExec s th .idle)
  | wait (i : ℕ) (lt : i < n) (at_ : s.worker i = .wait) (raised : s.wakeup i = true) :
    Effect n s (.wait i) (setWorker s i .clear)
  | clear (i : ℕ) (lt : i < n) (at_ : s.worker i = .clear) :
    Effect n s (.clear i) (setWorker (setWakeup s i false) i .runOne)
  | quit (i : ℕ) (lt : i < n) (at_ : s.worker i = .runOne) (quit : s.quitRequest = true) :
    Effect n s (.runOne i) (setWorker s i .returned)
  | empty (i : ℕ) (lt : i < n) (at_ : s.worker i = .runOne) (quit : s.quitRequest = false)
    (none : s.jobList.start = none) : Effect n s (.runOne i) (setWorker s i .wait)
  | pop (i : ℕ) (t : K) (lt : i < n) (at_ : s.worker i = .runOne) (quit : s.quitRequest = false)
    (first : s.jobList.start = some t) :
    Effect n s (.runOne i) (setWorker (s.pop t) i (.call t))
  | call (i : ℕ) (t : K) (lt : i < n) (at_ : s.worker i = .call t) :
    Effect n s (.call i) (setWorker s i (.task t (s.func t)))
  | taskReturn (i : ℕ) (t : K) (func : Φ) (lt : i < n) (at_ : s.worker i = .task t func)
    (idle : s.exec (.worker i) = .idle) : Effect n s (.taskReturn i) (setWorker s i .runOne)
  | dispatch (c : C) (limit : ℕ) (at_ : s.client c = .idle) (idle : s.exec (.client c) = .idle) :
    Effect n s (.dispatch c limit) (setClient s c (.runOne limit 0))
  | dispatchStop (c : C) (limit count : ℕ) (at_ : s.client c = .runOne limit count) :
    Effect n s (.dispatchOne c) (setClient s c .idle)
  | dispatchPop (c : C) (limit count : ℕ) (t : K) (at_ : s.client c = .runOne limit count)
    (quit : s.quitRequest = false) (first : s.jobList.start = some t) :
    Effect n s (.dispatchOne c) (setClient (s.pop t) c (.call limit count t))
  | dispatchCall (c : C) (limit count : ℕ) (t : K) (at_ : s.client c = .call limit count t) :
    Effect n s (.dispatchCall c) (setClient s c (.task limit count t (s.func t)))
  | dispatchReturn (c : C) (limit count : ℕ) (t : K) (func : Φ)
    (at_ : s.client c = .task limit count t func) (idle : s.exec (.client c) = .idle) :
    Effect n s (.dispatchReturn c) (setClient s c (.runOne limit (count + 1)))
  | destroyNone (c : C) (at_ : s.client c = .idle) (zero : n = 0) :
    Effect n s (.destroy c) (setClient s c .destroyed)
  | destroy (c : C) (at_ : s.client c = .idle) (pos : n ≠ 0) :
    Effect n s (.destroy c) (setClient { s with quitRequest := true } c (.joinRaise 0))
  | joinRaise (c : C) (i : ℕ) (at_ : s.client c = .joinRaise i) (lt : i < n) :
    Effect n s (.joinRaise c) (setClient (setWakeup s i true) c (.join i))
  | joined (c : C) (i : ℕ) (at_ : s.client c = .joinRaise i) (le : ¬ i < n) :
    Effect n s (.joinRaise c) (setClient s c .destroyed)
  | join (c : C) (i : ℕ) (at_ : s.client c = .join i) (returned : s.worker i = .returned) :
    Effect n s (.join c) (setClient s c (.joinRaise (i + 1)))

omit [DecidableEq C] in
/-- The three ways in which `run_one` goes. -/
theorem runOne_cases (s : State K Φ C) :
    s.quitRequest = true ∧ runOne s = (.quit, s) ∨
    (s.quitRequest = false ∧ s.jobList.start = none ∧ runOne s = (.empty, s)) ∨
    ∃ t, s.quitRequest = false ∧ s.jobList.start = some t ∧ runOne s = (.task t, s.pop t) := by
  by_cases hq : s.quitRequest = true
  · exact .inl ⟨hq, by simp [runOne, hq]⟩
  · have hq' : s.quitRequest = false := by simpa using hq
    rcases ht : s.jobList.start with _ | t
    · exact .inr (.inl ⟨hq', rfl, by rw [runOne, if_neg hq, Slist.slistPop, ht]⟩)
    · refine .inr (.inr ⟨t, hq', rfl, ?_⟩)
      rw [runOne, if_neg hq]
      simp [Slist.slistPop, ht, State.pop]

theorem step_effect (e : step n s a = some s') : Effect n s a s' := by
  cases a with
  | taskExec th t func =>
    simp only [step, execStep, Option.ite_none_right_eq_some, Option.some.injEq] at e
    obtain ⟨⟨hf, he⟩, rfl⟩ := e
    exact .taskExec th t func hf he
  | taskExecLock th =>
    simp only [step, execStep] at e
    split at e
    · rename_i t ht
      obtain rfl := Option.some.inj e
      exact .taskExecLock th t ht
    · cases e
  | raise th =>
    simp only [step, execStep] at e
    split at e
    · rename_i i hi
      simp only [Option.ite_none_right_eq_some, Option.some.injEq] at e
      obtain ⟨hlt, rfl⟩ := e
      exact .raise th i hi hlt
    · cases e
  | hook th =>
    simp only [step, execStep] at e
    split at e
    · rename_i i hi
      simp only [Option.ite_none_left_eq_some, Option.some.injEq] at e
      obtain ⟨hlt, rfl⟩ := e
      exact .hook th i hi hlt
    · cases e
  | wait i =>
    simp only [step, Option.ite_none_right_eq_some] at e
    obtain ⟨hlt, e⟩ := e
    simp only [workerStep] at e
    split at e
    · rename_i hi
      simp only [Option.ite_none_right_eq_some, Option.some.injEq] at e
      obtain ⟨hw, rfl⟩ := e
      exact .wait i hlt hi hw
    · cases e
  | clear i =>
    simp only [step, Option.ite_none_right_eq_some] at e
    obtain ⟨hlt, e⟩ := e
    simp only [workerStep] at e
    split at e
    · rename_i hi
      obtain rfl := Option.some.inj e
      exact .clear i hlt hi
    · cases e
  | runOne i =>
    simp only [step, Option.ite_none_right_eq_some] at e
    obtain ⟨hlt, e⟩ := e
    simp only [workerStep] at e
    split at e
    · rename_i hi
      rcases runOne_cases s with ⟨hq, hr⟩ | ⟨hq, ht, hr⟩ | ⟨t, hq, ht, hr⟩ <;>
        rw [hr] at e <;> obtain rfl := Option.some.inj e
      · exact .quit i hlt hi hq
      · exact .empty i hlt hi hq ht
      · exact .pop i t hlt hi hq ht
    · cases e
  | call i =>
    simp only [step, Option.ite_none_right_eq_some] at e
    obtain ⟨hlt, e⟩ := e
    simp only [workerStep] at e
    split at e
    · rename_i t hi
      obtain rfl := Option.some.inj e
      exact .call i t hlt hi
    · cases e
  | taskReturn i =>
    simp only [step, Option.ite_none_right_eq_some] at e
    obtain ⟨hlt, e⟩ := e
    simp only [workerStep] at e
    split at e
    · rename_i t func hi
      simp only [Option.ite_none_right_eq_some, Option.some.injEq] at e
      obtain ⟨he, rfl⟩ := e
      exact .taskReturn i t func hlt hi he
    · cases e
  | dispatch c limit =>
    simp only [step, clientStep] at e
    split at e
    · rename_i hc
      simp only [Option.ite_none_right_eq_some, Option.some.injEq] at e
      obtain ⟨he, rfl⟩ := e
      exact .dispatch c limit hc he
    · cases e
  | dispatchOne c =>
    simp only [step, clientStep] at e
    split at e
    · rename_i limit count hc
      split_ifs at e
      · rcases runOne_cases s with ⟨hq, hr⟩ | ⟨hq, ht, hr⟩ | ⟨t, hq, ht, hr⟩ <;>
          rw [hr] at e <;> obtain rfl := Option.some.inj e
        · exact .dispatchStop c limit count hc
        · exact .dispatchStop c limit count hc
        · exact .dispatchPop c limit count t hc hq ht
      · obtain rfl := Option.some.inj e
        exact .dispatchStop c limit count hc
    · cases e
  | dispatchCall c =>
    simp only [step, clientStep] at e
    split at e
    · rename_i limit count t hc
      obtain rfl := Option.some.inj e
      exact .dispatchCall c limit count t hc
    · cases e
  | dispatchReturn c =>
    simp only [step, clientStep] at e
    split at e
    · rename_i limit count t func hc
      simp only [Option.ite_none_right_eq_some, Option.some.injEq] at e
      obtain ⟨he, rfl⟩ := e
      exact .dispatchReturn c limit count t func hc he
    · cases e
  | destroy c =>
    simp only [step, clientStep] at e
    split at e
    · rename_i hc
      simp only [Option.ite_none_right_eq_some] at e
      obtain ⟨-, e⟩ := e
      split_ifs at e with hn <;> obtain rfl := Option.some.inj e
      · exact .destroyNone c hc hn
      · exact .destroy c hc hn
    · cases e
  | joinRaise c =>
    simp only [step, clientStep] at e
    split at e
    · rename_i i hc
      split_ifs at e with hlt <;> obtain rfl := Option.some.inj e
      · exact .joinRaise c i hc hlt
      · exact .joined c i hc hlt
    · cases e
  | join c =>
    simp only [step, clientStep] at e
    split at e
    · rename_i i hc
      split at e
      · rename_i hw
        obtain rfl := Option.some.inj e
        exact .join c i hc hw
      · cases e
    · cases e

/-! ## What quitting means for the workers -/

namespace Effect

variable {i : ℕ} {c : C}

theorem quitRequest (h : Effect n s a s') (hq : s.quitRequest = true) : s'.quitRequest = true := by
  cases h <;> first | exact hq | rfl

/-- After `request_quit` nothing is popped. -/
theorem popped (h : Effect n s a s') (hq : s.quitRequest = true) : s'.popped = s.popped := by
  cases h with
  | pop _ _ _ _ hf => simp [hq] at hf
  | dispatchPop _ _ _ _ _ hf => simp [hq] at hf
  | _ => rfl

omit [DecidableEq K] [DecidableEq C] in
theorem update_worker {w : Worker K Φ} {j : ℕ} {Q : Prop}
    (hQ : j = i → Q) : Function.update s.worker j w i = s.worker i ∨ Q := by
  rcases eq_or_ne j i with rfl | hne
  · exact .inr (hQ rfl)
  · exact .inl (Function.update_of_ne hne.symm ..)

/-- A worker goes on by its own steps only. -/
theorem worker (h : Effect n s a s') (i : ℕ) : s'.worker i = s.worker i ∨
    match s.worker i with
    | .wait => a = .wait i ∧ s.wakeup i = true ∧ s'.worker i = .clear
    | .clear => a = .clear i ∧ s'.worker i = .runOne
    | .runOne => a = .runOne i ∧
      (s.quitRequest = true ∧ s'.worker i = .returned ∨
        s.quitRequest = false ∧ s.jobList.start = none ∧ s'.worker i = .wait ∨
          s.quitRequest = false ∧ ∃ t, s.jobList.start = some t ∧ s'.popped = s.popped ++ [t] ∧
            s'.worker i = .call t)
    | .call t => a = .call i ∧ s'.worker i = .task t (s.func t)
    | .task .. => a = .taskReturn i ∧ s'.worker i = .runOne
    | .returned => False := by
  cases h with
  | wait j _ hj hw => exact update_worker (by rintro rfl; simp [hj, hw, setWorker])
  | clear j _ hj => exact update_worker (by rintro rfl; simp [hj, setWorker])
  | quit j _ hj hq => exact update_worker (by rintro rfl; simp [hj, hq, setWorker])
  | empty j _ hj hq hn => exact update_worker (by rintro rfl; simp [hj, hq, hn, setWorker])
  | pop j t _ hj hq hf =>
    exact update_worker (by rintro rfl; simp [hj, hq, hf, setWorker, State.pop])
  | call j t _ hj => exact update_worker (by rintro rfl; simp [hj, setWorker])
  | taskReturn j t _ _ hj => exact update_worker (by rintro rfl; simp [hj, setWorker])
  | _ => exact .inl rfl

/-- A client goes on by its own steps only. -/
theorem client (h : Effect n s a s') (c : C) : s'.client c = s.client c ∨
    match s.client c with
    | .idle => (∃ limit, s'.client c = .runOne limit 0) ∨ n = 0 ∧ s'.client c = .destroyed ∨
      n ≠ 0 ∧ s'.quitRequest = true ∧ s'.client c = .joinRaise 0
    | .runOne limit count => s'.client c = .idle ∨ ∃ t, s'.client c = .call limit count t
    | .call limit count t => s'.client c = .task limit count t (s.func t)
    | .task limit count .. => s'.client c = .runOne limit (count + 1)
    | .joinRaise i => a = .joinRaise c ∧
      (i < n ∧ s'.wakeup i = true ∧ s'.client c = .join i ∨ n ≤ i ∧ s'.client c = .destroyed)
    | .join i => a = .join c ∧ s.worker i = .returned ∧ s'.client c = .joinRaise (i + 1)
    | .destroyed => False := by
  cases h with
  | dispatch c' _ hc | dispatchStop c' _ _ hc | dispatchPop c' _ _ _ hc | dispatchCall c' _ _ _ hc
  | dispatchReturn c' _ _ _ _ hc | destroyNone c' hc _ | destroy c' hc _ | joinRaise c' _ hc _
  | joined c' _ hc _ | join c' _ hc _ =>
    rcases eq_or_ne c c' with rfl | hne
    · right
      simp_all [setClient, setWakeup]
    · exact .inl (Function.update_of_ne hne ..)
  | _ => exact .inl rfl

/-- Only a worker clears its event, and only after it has waited for it. -/
theorem wakeup (h : Effect n s a s') (i : ℕ) (hw : s.wakeup i = true) :
    s'.wakeup i = true ∨ s.worker i = .clear ∧ s'.worker i = .runOne := by
  cases h with
  | raise _ j | joinRaise _ j =>
    refine .inl ?_
    rcases eq_or_ne i j with rfl | hne
    · exact Function.update_self ..
    · exact (Function.update_of_ne hne ..).trans hw
  | clear j _ hj =>
    rcases eq_or_ne i j with rfl | hne
    · exact .inr ⟨hj, Function.update_self ..⟩
    · exact .inl ((Function.update_of_ne hne ..).trans hw)
  | _ => exact .inl hw

/-- A worker that was joined has returned for good. -/
theorem returned (h : Effect n s a s') {i : ℕ} (hr : s.worker i = .returned) :
    s'.worker i = .returned := by
  have hw := h.worker i
  simp only [hr, or_false] at hw
  exact hw

/-- Once the worker is told to quit it does not go to sleep. -/
theorem asleep (h : Effect n s a s') (hq : s.quitRequest = true) {i : ℕ}
    (hs : s.worker i = .wait → s.wakeup i = true) (hw : s'.worker i = .wait) :
    s'.wakeup i = true := by
  have hold : s.worker i = .wait := by
    rcases h.worker i with e | e
    · rw [← e, hw]
    · cases hi : s.worker i <;> simp_all
  rcases h.wakeup i (hs hold) with e | ⟨e, -⟩
  · exact e
  · simp [hold] at e

end Effect

/-! ## How far `runq_destroy` has come -/

/-- What a client in `runq_destroy` knows about the workers. -/
def Client.Quits (n : ℕ) (s : State K Φ C) : Client K Φ → Prop
  | .joinRaise i => s.quitRequest = true ∧ ∀ j < i, s.worker j = .returned
  | .join i => i < n ∧ s.quitRequest = true ∧ (∀ j < i, s.worker j = .returned) ∧
    (s.worker i = .wait → s.wakeup i = true)
  | .destroyed => n = 0 ∨ s.quitRequest = true ∧ ∀ j < n, s.worker j = .returned
  | _ => True

structure Quits (n : ℕ) (s : State K Φ C) : Prop where
  returned : ∀ i, s.worker i = .returned → s.quitRequest = true
  client : ∀ c, (s.client c).Quits n s

omit [DecidableEq K] [DecidableEq C] in
theorem quits_init (next : K → Option K) (func : K → Φ) :
    Quits n (State.init next func : State K Φ C) :=
  ⟨by simp [State.init], fun _ => trivial⟩

theorem Client.Quits.congr (h : Effect n s a s') {cl : Client K Φ} (hc : cl.Quits n s) :
    cl.Quits n s' := by
  cases cl with
  | joinRaise i => exact ⟨h.quitRequest hc.1, fun j hj => h.returned (hc.2 j hj)⟩
  | join i =>
    obtain ⟨hi, hq, hr, hw⟩ := hc
    exact ⟨hi, h.quitRequest hq, fun j hj => h.returned (hr j hj), h.asleep hq hw⟩
  | destroyed => exact hc.imp_right fun hc => ⟨h.quitRequest hc.1, fun j hj => h.returned (hc.2 j hj)⟩
  | _ => trivial

theorem Quits.step (hs : Quits n s) (h : Effect n s a s') : Quits n s' where
  returned i hr := by
    rcases h.worker i with e | e
    · exact h.quitRequest (hs.returned i (e ▸ hr))
    · cases hi : s.worker i <;> simp_all
      exact h.quitRequest e.2
  client c := by
    rcases h.client c with e | e
    · rw [e]
      exact (hs.client c).congr h
    · have hc := hs.client c
      cases hcl : s.client c with
      | idle =>
        rw [hcl] at e
        obtain ⟨limit, e⟩ | ⟨hn, e⟩ | ⟨-, hq, e⟩ := e <;> rw [e]
        · trivial
        · exact .inl hn
        · exact ⟨hq, fun j hj => absurd hj (Nat.not_lt_zero j)⟩
      | runOne limit count =>
        rw [hcl] at e
        obtain e | ⟨t, e⟩ := e <;> rw [e] <;> trivial
      | call limit count t =>
        rw [hcl] at e
        rw [e]
        trivial
      | task limit count t func =>
        rw [hcl] at e
        rw [e]
        trivial
      | joinRaise i =>
        rw [hcl] at e hc
        obtain ⟨-, ⟨hi, hw, e⟩ | ⟨hi, e⟩⟩ := e <;> rw [e]
        · exact ⟨hi, h.quitRequest hc.1, fun j hj => h.returned (hc.2 j hj), fun _ => hw⟩
        · exact .inr ⟨h.quitRequest hc.1, fun j hj => h.returned (hc.2 j (by omega))⟩
      | join i =>
        rw [hcl] at e hc
        obtain ⟨-, hr, e⟩ := e
        obtain ⟨hi, hq, hrs, -⟩ := hc
        rw [e]
        refine ⟨h.quitRequest hq, fun j hj => ?_⟩
        rcases Nat.lt_succ_iff_lt_or_eq.1 hj with hj | rfl
        · exact h.returned (hrs j hj)
        · exact h.returned hr
      | destroyed =>
        rw [hcl] at e
        exact e.elim

theorem run_quits {next : K → Option K} {func : K → Φ}
    (hr : Reached (step n) Legal (State.init next func) s) : Quits n s :=
  hr.invariant (quits_init next func) fun hs _ e => hs.step (step_effect e)

/-- After `request_quit` no task is popped, whatever steps follow, and those that are left stay in
the list. A worker whose thread is being joined is not asleep, or its event is raised; no worker
returns before it is told to quit. When `runq_destroy` is done, every worker has returned, and none
of them ever does anything again. -/
theorem run_destroyed {next : K → Option K} {func : K → Φ}
    (hr : Reached (step n) Legal (State.init next func) s) :
    (∀ s', s.quitRequest = true → Reached (step n) Legal s s' → s'.popped = s.popped) ∧
      (∀ c i, s.client c = .join i → s.worker i = .wait → s.wakeup i = true) ∧
      (∀ i, s.worker i = .returned → s.quitRequest = true) ∧
      ∀ c, n ≠ 0 → s.client c = .destroyed → ∀ s', Reached (step n) Legal s s' →
        ∀ i < n, s'.worker i = .returned := by
  have hs := run_quits hr
  refine ⟨fun s' hq hr' => ?_, fun c i hc hw => ?_, hs.returned, fun c hn hc s' hr' i hi => ?_⟩
  · have h : s'.quitRequest = true ∧ s'.popped = s.popped := by
      refine hr'.invariant (I := fun s' => s'.quitRequest = true ∧ s'.popped = s.popped) ⟨hq, rfl⟩ ?_
      intro s₁ a s₂ h₁ _ e
      have h := step_effect e
      exact ⟨h.quitRequest h₁.1, (h.popped h₁.1).trans h₁.2⟩
    exact h.2
  · have h := hs.client c
    rw [hc] at h
    exact h.2.2.2 hw
  · have h := hs.client c
    rw [hc] at h
    exact hr'.invariant ((h.resolve_left hn).2 i hi) fun h₁ _ e => (step_effect e).returned h₁

/-- A queue is destroyed while one task runs and another one is in the list. -/
theorem run_destroyed_two : ∃ s : State ℕ Unit Unit,
    Reached (step 2) Legal (State.init (fun _ => none) fun _ => ()) s ∧ s.submitted = [1, 2] ∧
      ∀ s', Reached (step 2) Legal s s' → s'.popped = [1] ∧ ∀ i < 2, s'.worker i = .returned := by
  obtain ⟨s, hr, hb⟩ := exists_reached (step 2)
    (fun s a => Legal (s : State ℕ Unit Unit) a)
    (State.init (fun _ => none) fun _ => ())
    [.taskExec (.client ()) 1 (), .taskExecLock (.client ()), .raise (.client ()), .wait 0,
      .clear 0, .runOne 0, .call 0, .raise (.client ()), .hook (.client ()),
      .taskExec (.client ()) 2 (), .taskExecLock (.client ()), .raise (.client ()),
      .raise (.client ()), .hook (.client ()), .destroy (), .joinRaise (), .taskReturn 0,
      .runOne 0, .join (), .joinRaise (), .wait 1, .clear 1, .runOne 1, .join (), .joinRaise ()]
    (fun s => decide (s.submitted = [1, 2] ∧ s.popped = [1]) && s.quitRequest &&
      match s.client () with | .destroyed => true | _ => false) (by decide +kernel)
  simp only [Bool.and_eq_true, decide_eq_true_eq] at hb
  obtain ⟨⟨⟨hs, hp⟩, hq⟩, hc⟩ := hb
  split at hc
  · rename_i hd
    obtain ⟨h₁, -, -, h₂⟩ := run_destroyed hr
    exact ⟨s, hr, hs, fun s' hr' => ⟨(h₁ s' hq hr').trans hp, h₂ () (by decide) hd s' hr'⟩⟩
  · cases hc

end Dlb.Runq
