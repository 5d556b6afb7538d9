import Dlb.Fair
import Dlb.Runq.Quit

/-!
# Every job is run, and every worker is joined

In an execution in which the threads go on as long as they can, and in which the tasks that the
workers run return, whatever the order of the steps:

* `run_task_served`: what is submitted is popped, unless the queue is destroyed;
* `run_joined`: `runq_destroy` returns.
-/

namespace Dlb.Runq

open Machine Execution

variable {K Φ C : Type} [DecidableEq K] [DecidableEq C] {n : ℕ}

/-- The steps that a thread takes of itself in the code of the queue. It is left to the clients when
they submit, dispatch and destroy, and to the tasks when they return. -/
def Act.Own : Act K Φ C → Prop
  | .taskExec .. | .taskReturn _ | .dispatch .. | .dispatchReturn _ | .destroy _ => False
  | _ => True

def Worker.InTask (w : Worker K Φ) : Prop := ∃ t func, w = .task t func

/-- No thread stops in the code of the queue, and no worker in a task. -/
structure Scheduled {s₀ : State K Φ C} (x : Execution (step n) Legal s₀) : Prop where
  own : ∀ a : Act K Φ C, a.Own → x.Fair a
  returns : ∀ i, x.LeadsTo (fun s => (s.worker i).InTask) fun s => ¬ (s.worker i).InTask

variable {next : K → Option K} {func : K → Φ}
  {x : Execution (step n) Legal (State.init next func : State K Φ C)} {i : ℕ} {c : C} {p : List K}

/-! ## A worker comes back to the list -/

theorem runOne_possible {s : State K Φ C} (hi : i < n) (hw : s.worker i = .runOne) :
    step n s (.runOne i) ≠ none := by
  rcases runOne_cases s with ⟨-, h⟩ | ⟨-, -, h⟩ | ⟨t, -, -, h⟩ <;>
    simp [step, workerStep, hi, hw, h]

namespace Scheduled

theorem wait_clear (hx : Scheduled x) (hi : i < n) :
    x.LeadsTo (fun s => s.worker i = .wait ∧ s.wakeup i = true) fun s => s.worker i = .clear := by
  refine (hx.own (.wait i) trivial).leadsTo (fun _ hp => ?_) (fun _ _ _ e => ?_) (fun _ hp _ e => ?_)
  · simp [step, workerStep, hi, hp]
  · cases step_effect e
    exact Function.update_self ..
  · obtain ⟨hw, hu⟩ := hp
    have h := (step_effect e).worker i
    rw [hw] at h
    refine h.imp (fun h => ⟨h, ?_⟩) fun h => h.2.2
    rcases (step_effect e).wakeup i hu with hu | ⟨hc, -⟩
    · exact hu
    · simp [hw] at hc

theorem clear_runOne (hx : Scheduled x) (hi : i < n) :
    x.LeadsTo (fun s => s.worker i = .clear) fun s => s.worker i = .runOne := by
  refine (hx.own (.clear i) trivial).leadsTo (fun _ hp => ?_) (fun _ _ _ e => ?_) (fun _ hp _ e => ?_)
  · simp [step, workerStep, hi, hp]
  · cases step_effect e
    exact Function.update_self ..
  · have h := (step_effect e).worker i
    rw [hp] at h
    exact h.imp id And.right

/-- The worker calls the task that it has popped. -/
theorem call_task (hx : Scheduled x) (hi : i < n) (t : K) :
    x.LeadsTo (fun s => s.worker i = .call t) fun s => ∃ func, s.worker i = .task t func := by
  refine (hx.own (.call i) trivial).leadsTo (fun _ hp => ?_) (fun _ hp _ e => ?_) (fun _ hp _ e => ?_)
  · simp [step, workerStep, hi, hp]
  · cases step_effect e with
    | call _ t' _ hc =>
      obtain rfl : t' = t := by simpa [hp] using hc.symm
      exact ⟨_, Function.update_self ..⟩
  · have h := (step_effect e).worker i
    rw [hp] at h
    exact h.imp id fun h => ⟨_, h.2⟩

theorem task_runOne (hx : Scheduled x) :
    x.LeadsTo (fun s => (s.worker i).InTask) fun s => s.worker i = .runOne := by
  refine .of_unless (fun _ hp _ e => ?_) (hx.returns i)
  obtain ⟨t, func, hw⟩ := hp
  have h := (step_effect e).worker i
  rw [hw] at h
  exact h.imp (fun h => ⟨t, func, h⟩) And.right

/-- A worker that is past its event looks at the list. -/
theorem past_runOne (hx : Scheduled x) (hi : i < n) :
    x.LeadsTo (fun s => (s.worker i).Past) fun s => s.worker i = .runOne := by
  intro k hk
  cases hw : (x.state k).worker i with
  | wait | returned =>
    rw [hw] at hk
    exact hk.elim
  | clear => exact hx.clear_runOne hi k hw
  | runOne => exact ⟨k, le_rfl, hw⟩
  | call t =>
    obtain ⟨j, hkj, func, hj⟩ := hx.call_task hi t k hw
    obtain ⟨j', hj', h⟩ := hx.task_runOne j ⟨t, func, hj⟩
    exact ⟨j', hkj.trans hj', h⟩
  | task t func => exact hx.task_runOne k ⟨t, func, hw⟩

/-- So does one that is asleep while its event is raised. -/
theorem raised_runOne (hx : Scheduled x) (hi : i < n) :
    x.LeadsTo (fun s => s.worker i ≠ .returned ∧ (s.worker i = .wait → s.wakeup i = true))
      fun s => s.worker i = .runOne := by
  rintro k ⟨hr, hk⟩
  cases hw : (x.state k).worker i with
  | wait =>
    exact ((hx.wait_clear hi).trans (hx.clear_runOne hi)) k ⟨hw, hk hw⟩
  | returned => exact absurd hw hr
  | clear | runOne | call | task => exact hx.past_runOne hi k (by simp [hw, Worker.Past])

end Scheduled

/-! ## Every job is run -/

/-- The list is not empty; so far `p` was popped. -/
structure Waiting (p : List K) (s : State K Φ C) : Prop where
  quitRequest : s.quitRequest = false
  popped : s.popped = p
  submitted : s.submitted ≠ p

/-- What `Waiting` waits for, unless the queue is destroyed. -/
def Served (p : List K) (s : State K Φ C) : Prop :=
  s.quitRequest = true ∨ p.length < s.popped.length

theorem Effect.submitted {s s' : State K Φ C} {a : Act K Φ C} (h : Effect n s a s') :
    s.submitted <+: s'.submitted := by
  cases h with
  | taskExecLock => exact List.prefix_append ..
  | _ => exact List.prefix_rfl

theorem Effect.popped_or {s s' : State K Φ C} {a : Act K Φ C} (h : Effect n s a s') :
    s'.popped = s.popped ∨ s.popped.length < s'.popped.length := by
  cases h with
  | pop | dispatchPop =>
    right
    simp [setWorker, setClient, State.pop]
  | _ => exact .inl rfl

/-- Nobody else takes a thread out of raising the events. -/
theorem Effect.exec_raise {s s' : State K Φ C} {a : Act K Φ C} (h : Effect n s a s') (hi : i < n)
    {th : Thread C} (he : s.exec th = .raise i) : s'.exec th = .raise i ∨ s'.wakeup i = true := by
  have hu : ∀ {th' x}, th' ≠ th → Function.update s.exec th' x th = .raise i := fun hne =>
    (Function.update_of_ne hne.symm ..).trans he
  cases h with
  | taskExec th' _ _ _ hidle => exact .inl (hu (by rintro rfl; simp [he] at hidle))
  | taskExecLock th' _ hlock => exact .inl (hu (by rintro rfl; simp [he] at hlock))
  | hook th' j hj hle =>
    refine .inl (hu ?_)
    rintro rfl
    obtain rfl : i = j := by simpa [he] using hj
    exact hle hi
  | raise th' j hj _ =>
    rcases eq_or_ne th' th with rfl | hne
    · obtain rfl : i = j := by simpa [he] using hj
      exact .inr (Function.update_self ..)
    · exact .inl (hu hne)
  | _ => exact .inl he

theorem Waiting.kept {s s' : State K Φ C} {a : Act K Φ C} (hr : Reached (step n) Legal
    (State.init next func) s) (hn : 0 < n) (hs : Waiting p s) (h : Effect n s a s') :
    Waiting p s' ∨ Served p s' := by
  rcases Bool.eq_false_or_eq_true s'.quitRequest with hq | hq
  · exact .inr (.inl hq)
  rcases h.popped_or with hp | hp
  · refine .inl ⟨hq, hp.trans hs.popped, fun e => hs.submitted ?_⟩
    -- What was popped are the first that were submitted.
    have hpre : p <+: s.submitted := hs.popped ▸ (run_not_stranded hn hr).2.1
    exact (h.submitted.trans (e ▸ List.prefix_rfl)).eq_of_length_le hpre.length_le
  · exact .inr (.inr (hs.popped ▸ hp))

theorem Waiting.first {s : State K Φ C} (hr : Reached (step n) Legal (State.init next func) s)
    (hn : 0 < n) (hs : Waiting p s) : s.jobList.start ≠ none := by
  obtain ⟨-, -, -, l, hl, ho⟩ := run_not_stranded hn hr
  intro e
  have hemp := hl.isEmpty
  rw [Slist.slistIsEmpty, e] at hemp
  obtain rfl : l = [] := by simpa using hemp.symm
  exact hs.submitted (by simp [ho, hs.popped])

namespace Scheduled

/-- The worker that looks at the list takes a job. -/
theorem runOne_served (hx : Scheduled x) (hn : 0 < n) (hi : i < n) :
    x.LeadsTo (fun s => s.worker i = .runOne ∧ Waiting p s) (Served p) := by
  refine (hx.own (.runOne i) trivial).leadsTo (fun _ hp => ?_) (fun hr hp _ e => ?_)
    (fun hr hp _ e => ?_)
  · exact runOne_possible hi hp.1
  · have hw := hp.2
    cases step_effect e with
    | quit _ _ _ hq => simp [hw.quitRequest] at hq
    | empty _ _ _ _ hnone => exact absurd hnone (hw.first hr hn)
    | pop _ t => exact .inr (by simp [setWorker, State.pop, hw.popped])
  · have h := (step_effect e).worker i
    rw [hp.1] at h
    rcases hp.2.kept hr hn (step_effect e) with hw | hs
    · rcases h with h | ⟨-, ⟨hq, -⟩ | ⟨-, hnone, -⟩ | ⟨-, t, -, hpop, -⟩⟩
      · exact .inl ⟨h, hw⟩
      · simp [hp.2.quitRequest] at hq
      · exact absurd hnone (hp.2.first hr hn)
      · exact .inr (.inr (by simp [hpop, hp.2.popped]))
    · exact .inr hs

/-- The thread that found the list empty raises the next event. -/
theorem raise_wakeup (hx : Scheduled x) (hi : i < n) (th : Thread C) :
    x.LeadsTo (fun s => s.exec th = .raise i) fun s => s.wakeup i = true := by
  refine (hx.own (.raise th) trivial).leadsTo (fun _ hp => ?_) (fun _ hp _ e => ?_)
    (fun _ hp _ e => (step_effect e).exec_raise hi hp)
  · simp [step, execStep, hp, hi]
  · cases step_effect e with
    | raise _ j hj =>
      obtain rfl : j = i := by simpa [hp] using hj.symm
      exact Function.update_self ..

theorem waiting_served (hx : Scheduled x) (hn : 0 < n) : x.LeadsTo (Waiting p) (Served p) := by
  -- A worker that comes back to the list finds a job there, if no other thread has taken one.
  have hpast : ∀ i < n, x.LeadsTo (fun s => (s.worker i ≠ .returned ∧
      (s.worker i = .wait → s.wakeup i = true)) ∧ Waiting p s) (Served p) := fun i hi =>
    ((hx.raised_runOne hi).keeping fun hr hw _ e => hw.kept hr hn (step_effect e)).trans_or
      (hx.runOne_served hn hi)
  have hup : ∀ i < n, x.LeadsTo (fun s => s.wakeup i = true ∧ Waiting p s) (Served p) := by
    intro i hi k hk
    refine hpast i hi k ⟨⟨fun hret => ?_, fun _ => hk.1⟩, hk.2⟩
    have hq := (run_quits (x.reached k)).returned i hret
    simp [hk.2.quitRequest] at hq
  intro k hk
  have hne : Slist.slistIsEmpty (x.state k).jobList = false := by
    rw [Slist.slistIsEmpty, Option.isNone_eq_false_iff, Option.isSome_iff_ne_none]
    exact hk.first (x.reached k) hn
  rcases (run_not_stranded hn (x.reached k)).1 hk.quitRequest hne with
    ⟨i, hi, hw⟩ | ⟨i, hi, hw⟩ | ⟨th, i, hi, hr⟩
  · exact hup i hi k ⟨hw, hk⟩
  · refine hpast i hi k ⟨⟨?_, ?_⟩, hk⟩ <;> intro e <;> simp [e, Worker.Past] at hw
  · exact (((hx.raise_wakeup hi th).keeping fun hr hw _ e => hw.kept hr hn (step_effect e)).trans_or
      (hup i hi)) k ⟨hr, hk⟩

end Scheduled

/-- No thread is in the code of the queue, the workers that are asleep apart. -/
structure AtRest (n : ℕ) (s : State K Φ C) : Prop where
  worker : ∀ i, s.worker i = .wait ∧ (i < n → s.wakeup i = false) ∨ s.worker i = .returned
  client : ∀ c, s.client c = .idle ∨ s.client c = .destroyed
  exec : ∀ th, s.exec th = .idle

theorem AtRest.step {s : State K Φ C} (h : AtRest n s) {a : Act K Φ C} (ha : a.Own) :
    step n s a = none := by
  by_contra hne
  obtain ⟨s', e⟩ := Option.ne_none_iff_exists'.1 hne
  cases step_effect e with
  | taskExec | taskReturn | dispatch | dispatchReturn | destroyNone | destroy => exact ha
  | taskExecLock th _ hl => simp [h.exec th] at hl
  | raise th _ hr => simp [h.exec th] at hr
  | hook th _ hr => simp [h.exec th] at hr
  | wait i hi hw hu =>
    rcases h.worker i with ⟨-, hf⟩ | hf
    · simp [hf hi] at hu
    · simp [hf] at hw
  | clear i _ hw | quit i _ hw | empty i _ hw | pop i _ _ hw | call i _ _ hw =>
    rcases h.worker i with ⟨hf, -⟩ | hf <;> simp [hf] at hw
  | dispatchStop c _ _ hc | dispatchPop c _ _ _ hc | dispatchCall c _ _ _ hc | joinRaise c _ hc
  | joined c _ hc | join c _ hc =>
    rcases h.client c with hf | hf <;> simp [hf] at hc

/-- Given steps, and then rest. -/
theorem exists_scheduled {as : List (Act K Φ C)} {s : State K Φ C}
    (h : trace (step n) Legal (State.init next func) as = some s) (hs : AtRest n s) :
    ∃ x : Execution (step n) Legal (State.init next func), Scheduled x ∧
      (∀ k, trace (step n) Legal (State.init next func) (as.take k) = some (x.state k)) ∧
      ∀ k, as.length ≤ k → x.state k = s := by
  obtain ⟨x, hx, hend⟩ := exists_execution h
  refine ⟨x, ⟨fun a ha => fair_of_rest (m := as.length) fun k hk => ?_, fun i k _ => ?_⟩, hx, hend⟩
  · rw [hend k hk]
    exact hs.step ha
  · refine ⟨max k as.length, le_max_left .., ?_⟩
    rintro ⟨t, func, hw⟩
    rw [hend _ (le_max_right ..)] at hw
    rcases hs.worker i with ⟨hf, -⟩ | hf <;> simp [hf] at hw

/-- Whatever is submitted is popped at some time, and a worker that has popped a task calls it,
unless the queue is destroyed: in every execution in which no thread stops in the code of the
queue and no worker in a task. -/
theorem run_task_served (hn : 0 < n) (hx : Scheduled x)
    (hq : ∀ k, (x.state k).quitRequest = false) :
    (∀ k, ∃ j, k ≤ j ∧ (x.state k).submitted <+: (x.state j).popped) ∧
      ∀ i < n, ∀ t, x.LeadsTo (fun s => s.worker i = .call t)
        fun s => ∃ func, s.worker i = .task t func := by
  refine ⟨fun k => ?_, fun i hi t => hx.call_task hi t⟩
  -- The tasks that were submitted by then and are still to be popped get fewer.
  refine LeadsTo.rank (x := x) (p := fun s => (x.state k).submitted <+: s.submitted)
    (q := fun s => (x.state k).submitted <+: s.popped)
    (fun s => (x.state k).submitted.length - s.popped.length) (fun d j hj => ?_) k List.prefix_rfl
  obtain ⟨hsub, rfl⟩ := hj
  have hpop := (run_not_stranded hn (x.reached j)).2.1
  rcases Nat.lt_or_ge (x.state j).popped.length (x.state k).submitted.length with hlt | hge
  · have hw : Waiting (x.state j).popped (x.state j) :=
      ⟨hq j, rfl, fun e => by have := hsub.length_le; rw [e] at this; omega⟩
    obtain ⟨m, hjm, hs⟩ := hx.waiting_served hn j hw
    refine ⟨m, hjm, .inl ⟨?_, ?_⟩⟩
    · exact keeps (x := x) (p := fun s => (x.state k).submitted <+: s.submitted)
        (fun h _ e => h.trans (step_effect e).submitted) hjm hsub
    · have := hs.resolve_left (by simp [hq m])
      omega
  · exact ⟨j, le_rfl, .inr (List.prefix_of_prefix_length_le hsub hpop hge)⟩

/-- A client submits a task, and the worker runs it. -/
theorem run_task_served_one : ∃ x : Execution (step 1) Legal
    (State.init (fun _ => none) fun _ => () : State ℕ Unit Unit),
      (x.state 2).submitted = [1] ∧ ∃ j, 2 ≤ j ∧ [1] <+: (x.state j).popped := by
  let as : List (Act ℕ Unit Unit) :=
    [.taskExec (.client ()) 1 (), .taskExecLock (.client ()), .raise (.client ()),
      .hook (.client ()), .wait 0, .clear 0, .runOne 0, .call 0, .taskReturn 0, .runOne 0]
  let T := trace (step 1) Legal (State.init (fun _ => none) fun _ => () : State ℕ Unit Unit)
  obtain ⟨s, hs⟩ : ∃ s, T as = some s := Option.isSome_iff_exists.1 rfl
  have hrest : AtRest 1 s := by
    refine ⟨fun i => .inl ⟨?_, fun hi => ?_⟩, fun _ => .inl ?_, ?_⟩
    · have h : (T as).map (·.worker i) = some .wait := by cases i <;> rfl
      simpa [hs] using h
    · obtain rfl := Nat.lt_one_iff.1 hi
      have h : (T as).map (·.wakeup 0) = some false := rfl
      simpa [hs] using h
    · have h : (T as).map (·.client ()) = some .idle := rfl
      simpa [hs] using h
    · intro th
      have h : (T as).map (·.exec th) = some .idle := by cases th <;> rfl
      simpa [hs] using h
  obtain ⟨x, hx, hk, hend⟩ := exists_scheduled hs hrest
  have hq : ∀ k, (x.state k).quitRequest = false := by
    intro k
    by_contra hne
    have h := keeps (x := x) (p := fun s => s.quitRequest = true)
      (fun hq _ e => (step_effect e).quitRequest hq) (le_max_left k as.length) (by simpa using hne)
    have h' : (T as).map (·.quitRequest) = some false := rfl
    rw [hend _ (le_max_right ..)] at h
    simp [hs, h] at h'
  have h2 : (x.state 2).submitted = [1] := by
    have h : (T (as.take 2)).map (·.submitted) = some [1] := rfl
    rw [show T (as.take 2) = some (x.state 2) from hk 2] at h
    exact Option.some.inj h
  exact ⟨x, h2, h2 ▸ (run_task_served (by decide) hx hq).1 2⟩

/-! ## Every worker is joined -/

namespace Scheduled

theorem runOne_returned (hx : Scheduled x) (hi : i < n) :
    x.LeadsTo (fun s => s.worker i = .runOne ∧ s.quitRequest = true)
      fun s => s.worker i = .returned := by
  refine (hx.own (.runOne i) trivial).leadsTo (fun _ hp => ?_) (fun _ hp _ e => ?_)
    (fun _ hp _ e => ?_)
  · exact runOne_possible hi hp.1
  · cases step_effect e with
    | quit => exact Function.update_self ..
    | empty _ _ _ hf | pop _ _ _ _ hf => simp [hp.2] at hf
  · have h := (step_effect e).worker i
    rw [hp.1] at h
    have hq := (step_effect e).quitRequest hp.2
    simp only [hp.2, true_and, Bool.true_eq_false, false_and, or_false] at h
    exact h.imp (fun h => ⟨h, hq⟩) And.right

/-- The worker returns while its thread is joined. -/
theorem join_joinRaise (hx : Scheduled x) :
    x.LeadsTo (fun s => s.client c = .join i) fun s => s.client c = .joinRaise (i + 1) := by
  have hstay : ∀ {s a s'}, Reached (step n) Legal (State.init next func) s → s.client c = .join i →
      Legal s a → step n s a = some s' →
        s'.client c = .join i ∨ s'.client c = .joinRaise (i + 1) := by
    intro s a s' _ hc _ e
    have h := (step_effect e).client c
    rw [hc] at h
    exact h.imp_right fun h => h.2.2
  have hjoin : x.LeadsTo (fun s => s.worker i = .returned ∧ s.client c = .join i)
      fun s => s.client c = .joinRaise (i + 1) := by
    refine (hx.own (.join c) trivial).leadsTo (fun _ hp => ?_) (fun _ hp _ e => ?_)
      (fun hr hp ha e => ?_)
    · simp [step, clientStep, hp]
    · cases step_effect e with
      | join _ j hj =>
        obtain rfl : j = i := by simpa [hp.2] using hj.symm
        exact Function.update_self ..
    · exact (hstay hr hp.2 ha e).imp_left fun h => ⟨(step_effect e).returned hp.1, h⟩
  intro k hk
  have hq := (run_quits (x.reached k)).client c
  rw [hk] at hq
  obtain ⟨hi, hq, -, hw⟩ := hq
  rcases eq_or_ne ((x.state k).worker i) .returned with hret | hret
  · exact hjoin k ⟨hret, hk⟩
  -- The worker looks at the list again, and finds that it has to quit.
  have hback : x.LeadsTo (fun s => (s.worker i ≠ .returned ∧
      (s.worker i = .wait → s.wakeup i = true)) ∧ s.quitRequest = true)
      fun s => s.worker i = .returned :=
    ((hx.raised_runOne hi).keeping fun _ hq _ e =>
      .inl ((step_effect e).quitRequest hq)).trans_or (hx.runOne_returned hi)
  exact ((hback.keeping hstay).trans_or hjoin) k ⟨⟨⟨hret, hw⟩, hq⟩, hk⟩

theorem joinRaise_join (hx : Scheduled x) (hi : i < n) :
    x.LeadsTo (fun s => s.client c = .joinRaise i) fun s => s.client c = .join i := by
  refine (hx.own (.joinRaise c) trivial).leadsTo (fun _ hp => ?_) (fun _ hp _ e => ?_)
    (fun _ hp _ e => ?_)
  · simp [step, clientStep, hp, hi]
  · cases step_effect e with
    | joinRaise _ j hj =>
      obtain rfl : j = i := by simpa [hp] using hj.symm
      exact Function.update_self ..
    | joined _ j hj hle =>
      obtain rfl : j = i := by simpa [hp] using hj.symm
      exact absurd hi hle
  · have h := (step_effect e).client c
    rw [hp] at h
    refine h.imp_right fun h => ?_
    rcases h.2 with ⟨-, -, h⟩ | ⟨hle, -⟩
    · exact h
    · omega

theorem joinRaise_destroyed (hx : Scheduled x) (hi : n ≤ i) :
    x.LeadsTo (fun s => s.client c = .joinRaise i) fun s => s.client c = .destroyed := by
  refine (hx.own (.joinRaise c) trivial).leadsTo (fun _ hp => ?_) (fun _ hp _ e => ?_)
    (fun _ hp _ e => ?_)
  · simp [step, clientStep, hp, Nat.not_lt.2 hi]
  · cases step_effect e with
    | joinRaise _ j hj hlt =>
      obtain rfl : j = i := by simpa [hp] using hj.symm
      omega
    | joined => exact Function.update_self ..
  · have h := (step_effect e).client c
    rw [hp] at h
    refine h.imp_right fun h => ?_
    rcases h.2 with ⟨hlt, -⟩ | ⟨-, h⟩
    · omega
    · exact h

theorem joinRaise_leadsTo (hx : Scheduled x) (m i : ℕ) (hm : n ≤ i + m) :
    x.LeadsTo (fun s => s.client c = .joinRaise i) fun s => s.client c = .destroyed := by
  induction m generalizing i with
  | zero => exact hx.joinRaise_destroyed hm
  | succ m ih =>
    rcases Nat.lt_or_ge i n with hi | hi
    · exact ((hx.joinRaise_join hi).trans hx.join_joinRaise).trans (ih (i + 1) (by omega))
    · exact hx.joinRaise_destroyed hi

end Scheduled

/-- `runq_destroy` returns, whatever is in the list and wherever the workers are when it is called:
in every execution in which no thread stops in the code of the queue and no worker in a task. -/
theorem run_joined (hx : Scheduled x) (c : C) :
    x.LeadsTo (fun s => (∃ i, s.client c = .joinRaise i) ∨ ∃ i, s.client c = .join i)
      fun s => s.client c = .destroyed := by
  rintro k (⟨i, hk⟩ | ⟨i, hk⟩)
  · exact hx.joinRaise_leadsTo n i (by omega) k hk
  · exact (hx.join_joinRaise.trans (hx.joinRaise_leadsTo n (i + 1) (by omega))) k hk

/-- A queue with a worker that sleeps is destroyed. -/
theorem run_joined_one : ∃ x : Execution (step 1) Legal
    (State.init (fun _ => none) fun _ => () : State ℕ Unit Unit),
      (x.state 1).client () = .joinRaise 0 ∧ ∃ j, 1 ≤ j ∧ (x.state j).client () = .destroyed := by
  let as : List (Act ℕ Unit Unit) :=
    [.destroy (), .joinRaise (), .wait 0, .clear 0, .runOne 0, .join (), .joinRaise ()]
  let T := trace (step 1) Legal (State.init (fun _ => none) fun _ => () : State ℕ Unit Unit)
  obtain ⟨s, hs⟩ : ∃ s, T as = some s := Option.isSome_iff_exists.1 rfl
  have hrest : AtRest 1 s := by
    refine ⟨fun i => ?_, fun _ => .inr ?_, ?_⟩
    · cases i with
      | zero =>
        have h : (T as).map (·.worker 0) = some .returned := rfl
        exact .inr (by simpa [hs] using h)
      | succ i =>
        have h : (T as).map (·.worker (i + 1)) = some .wait := rfl
        exact .inl ⟨by simpa [hs] using h, fun hi => absurd hi (by omega)⟩
    · have h : (T as).map (·.client ()) = some .destroyed := rfl
      simpa [hs] using h
    · intro th
      have h : (T as).map (·.exec th) = some .idle := by cases th <;> rfl
      simpa [hs] using h
  obtain ⟨x, hx, hk, -⟩ := exists_scheduled hs hrest
  have h1 : (x.state 1).client () = .joinRaise 0 := by
    have h : (T (as.take 1)).map (·.client ()) = some (.joinRaise 0) := rfl
    rw [show T (as.take 1) = some (x.state 1) from hk 1] at h
    exact Option.some.inj h
  exact ⟨x, h1, run_joined hx () 1 (.inl ⟨0, h1⟩)⟩

end Dlb.Runq
