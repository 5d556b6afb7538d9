import Mathlib.Data.Nat.Notation
import Dlb.Slist

/-!
# The run queue as a transition system

`src/io/runq.c` with `numWorkers` background workers. A section under `lock` is one step, and so
is every `thr_event_raise`, `thr_event_wait` and `thr_event_clear` and every store outside the lock.
The functions of the tasks are not modelled, but while one runs its thread may submit
tasks, as any client may.

The queue is the one that `runq_init` leaves, with all workers started.
-/

namespace Dlb.Runq

/-- A thread that may submit tasks. -/
inductive Thread (C : Type)
  | client (c : C)
  | worker (i : ℕ)
  deriving DecidableEq

/-- Where a thread is in `runq_task_exec`. -/
inductive Exec (K : Type)
  | idle
  | lock (t : K)
  | raise (i : ℕ) -- the list was empty; the event of worker `i` is next
  deriving DecidableEq

/-- Where a worker is in `worker_func`. -/
inductive Worker (K Φ : Type)
  | wait
  | clear
  | runOne
  | call (t : K)
  | task (t : K) (func : Φ)
  | returned

/-- Where a client is in `runq_dispatch` or `runq_destroy`. -/
inductive Client (K Φ : Type)
  | idle
  | runOne (limit count : ℕ)
  | call (limit count : ℕ) (t : K)
  | task (limit count : ℕ) (t : K) (func : Φ)
  | joinRaise (i : ℕ)
  | join (i : ℕ)
  | destroyed

/-- The tasks are `K`, the functions that may be given for them `Φ` and the clients `C`. -/
structure State (K Φ C : Type) where
  /-- The fields of the tasks. -/
  next : K → Option K
  func : K → Φ
  jobList : Slist K
  quitRequest : Bool
  /-- The `wakeup` event of each worker. -/
  wakeup : ℕ → Bool
  worker : ℕ → Worker K Φ
  client : C → Client K Φ
  exec : Thread C → Exec K
  /-- The tasks that were given to `runq_task_exec` and not yet popped. -/
  pending : K → Bool
  /-- The tasks in the order of their submission, and in the order in which they were popped. -/
  submitted : List K
  popped : List K

/-- A step, and the thread that takes it. -/
inductive Act (K Φ C : Type)
  | taskExec (th : Thread C) (t : K) (func : Φ)
  | taskExecLock (th : Thread C)
  | raise (th : Thread C)
  | hook (th : Thread C)
  | wait (i : ℕ)
  | clear (i : ℕ)
  | runOne (i : ℕ)
  | call (i : ℕ)
  | taskReturn (i : ℕ)
  | dispatch (c : C) (limit : ℕ)
  | dispatchOne (c : C)
  | dispatchCall (c : C)
  | dispatchReturn (c : C)
  | destroy (c : C)
  | joinRaise (c : C)
  | join (c : C)

variable {K Φ C : Type}

/-- The state after `runq_init`. -/
def State.init (next : K → Option K) (func : K → Φ) : State K Φ C where
  next := next
  func := func
  jobList := Slist.slistInit
  quitRequest := false
  wakeup _ := false
  worker _ := .wait
  client _ := .idle
  exec _ := .idle
  pending _ := false
  submitted := []
  popped := []

/-- The thread runs code of the client: its own, or the function of a task. -/
def State.free (s : State K Φ C) : Thread C → Bool
  | .client c =>
    match s.client c with
    | .idle | .task .. => true
    | _ => false
  | .worker i =>
    match s.worker i with
    | .task .. => true
    | _ => false

variable [DecidableEq C] [DecidableEq K]

/-- What `run_one` finds under the lock. -/
inductive Found (K : Type)
  | quit
  | empty
  | task (t : K)

/-- The section of `run_one`. -/
def runOne (s : State K Φ C) : Found K × State K Φ C :=
  if s.quitRequest then (.quit, s)
  else
    match Slist.slistPop s.next s.jobList with
    | (none, jobList) => (.empty, { s with jobList := jobList })
    | (some t, jobList) =>
      (.task t, { s with
        jobList := jobList
        pending := Function.update s.pending t false
        popped := s.popped ++ [t] })

/-- The section of `runq_task_exec`. -/
def taskExecLock (s : State K Φ C) (th : Thread C) (t : K) : State K Φ C :=
  let wasEmpty := Slist.slistIsEmpty s.jobList
  let r := Slist.slistAppend s.next s.jobList t
  { s with
    next := r.1
    jobList := r.2
    submitted := s.submitted ++ [t]
    exec := Function.update s.exec th (if wasEmpty then .raise 0 else .idle) }

def setWorker (s : State K Φ C) (i : ℕ) (w : Worker K Φ) : State K Φ C :=
  { s with worker := Function.update s.worker i w }

def setClient (s : State K Φ C) (c : C) (cl : Client K Φ) : State K Φ C :=
  { s with client := Function.update s.client c cl }

/-- The steps of `runq_task_exec`. -/
def execStep (numWorkers : ℕ) (s : State K Φ C) : Act K Φ C → Option (State K Φ C)
  | .taskExec th t func =>
    if s.free th ∧ s.exec th = .idle then
      some { s with
        func := Function.update s.func t func
        pending := Function.update s.pending t true
        exec := Function.update s.exec th (.lock t) }
    else none
  | .taskExecLock th =>
    match s.exec th with
    | .lock t => some (taskExecLock s th t)
    | _ => none
  | .raise th =>
    match s.exec th with
    | .raise i =>
      if i < numWorkers then
        some { s with
          wakeup := Function.update s.wakeup i true
          exec := Function.update s.exec th (.raise (i + 1)) }
      else none
    | _ => none
  | .hook th =>
    -- `r->wakeup`, if it is set
    match s.exec th with
    | .raise i =>
      if i < numWorkers then none else some { s with exec := Function.update s.exec th .idle }
    | _ => none
  | _ => none

/-- The steps of `worker_func`. -/
def workerStep (s : State K Φ C) : Act K Φ C → Option (State K Φ C)
  | .wait i =>
    match s.worker i with
    | .wait => if s.wakeup i then some (setWorker s i .clear) else none
    | _ => none
  | .clear i =>
    match s.worker i with
    | .clear => some (setWorker { s with wakeup := Function.update s.wakeup i false } i .runOne)
    | _ => none
  | .runOne i =>
    match s.worker i with
    | .runOne =>
      match runOne s with
      | (.quit, s) => some (setWorker s i .returned)
      | (.empty, s) => some (setWorker s i .wait)
      | (.task t, s) => some (setWorker s i (.call t))
    | _ => none
  | .call i =>
    match s.worker i with
    | .call t => some (setWorker s i (.task t (s.func t)))
    | _ => none
  | .taskReturn i =>
    match s.worker i with
    | .task .. => if s.exec (.worker i) = .idle then some (setWorker s i .runOne) else none
    | _ => none
  | _ => none

/-- The steps of `runq_dispatch` and `runq_destroy`. -/
def clientStep (numWorkers : ℕ) (s : State K Φ C) : Act K Φ C → Option (State K Φ C)
  | .dispatch c limit =>
    match s.client c with
    | .idle => if s.exec (.client c) = .idle then some (setClient s c (.runOne limit 0)) else none
    | _ => none
  | .dispatchOne c =>
    match s.client c with
    | .runOne limit count =>
      if limit = 0 ∨ count < limit then
        match runOne s with
        | (.task t, s) => some (setClient s c (.call limit count t))
        | (_, s) => some (setClient s c .idle)
      else some (setClient s c .idle)
    | _ => none
  | .dispatchCall c =>
    match s.client c with
    | .call limit count t => some (setClient s c (.task limit count t (s.func t)))
    | _ => none
  | .dispatchReturn c =>
    match s.client c with
    | .task limit count .. =>
      if s.exec (.client c) = .idle then some (setClient s c (.runOne limit (count + 1))) else none
    | _ => none
  | .destroy c =>
    -- `request_quit`; without workers there is nothing to join.
    match s.client c with
    | .idle =>
      if s.exec (.client c) = .idle then
        if numWorkers = 0 then some (setClient s c .destroyed)
        else some (setClient { s with quitRequest := true } c (.joinRaise 0))
      else none
    | _ => none
  | .joinRaise c =>
    match s.client c with
    | .joinRaise i =>
      if i < numWorkers then
        some (setClient { s with wakeup := Function.update s.wakeup i true } c (.join i))
      else some (setClient s c .destroyed)
    | _ => none
  | .join c =>
    match s.client c with
    | .join i =>
      match s.worker i with
      | .returned => some (setClient s c (.joinRaise (i + 1)))
      | _ => none
    | _ => none
  | _ => none

/-- A step of the queue, if it is possible. -/
def step (numWorkers : ℕ) (s : State K Φ C) (a : Act K Φ C) : Option (State K Φ C) :=
  match a with
  | .taskExec .. | .taskExecLock _ | .raise _ | .hook _ => execStep numWorkers s a
  | .wait i | .clear i | .runOne i | .call i | .taskReturn i =>
    if i < numWorkers then workerStep s a else none
  | _ => clientStep numWorkers s a

/-- A task that is still pending is not submitted again. -/
def Legal (s : State K Φ C) : Act K Φ C → Prop
  | .taskExec _ t _ => s.pending t = false
  | _ => True

instance (s : State K Φ C) : DecidablePred (Legal s)
  | .taskExec _ t _ => inferInstanceAs (Decidable (s.pending t = false))
  | .taskExecLock _ | .raise _ | .hook _ | .wait _ | .clear _ | .runOne _ | .call _
  | .taskReturn _ | .dispatch .. | .dispatchOne _ | .dispatchCall _ | .dispatchReturn _
  | .destroy _ | .joinRaise _ | .join _ => .isTrue trivial

end Dlb.Runq
