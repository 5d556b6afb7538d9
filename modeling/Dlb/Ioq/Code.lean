import Mathlib.Algebra.Group.Nat.Defs
import Mathlib.Order.Lattice
import Mathlib.Data.Int.Notation
import Mathlib.Data.Nat.Basic
import Mathlib.Logic.Function.Basic
import Mathlib.Order.Defs.LinearOrder

/-!
# The IO queue as a transition system

`src/io/ioq_linux.c`, with what it uses of `src/io/runq.c` and `src/io/waitq.c`: one
dispatcher that calls `ioq_iterate` in a loop, and any number of client threads. A section
which is protected by a lock, an access to the pipe or a call of `epoll_ctl` is one step, and
the steps of the threads are interleaved in any order. `State` holds what the threads share,
and for each of the threads what it is about to do.

The lists `mod_list` and `job_list` are lists, and the waiting set is the list of its timers
in the order of `cmp_by_deadline`. The callbacks of tasks run between the steps of the
dispatcher; the calls they make are those of a client.
-/

namespace Dlb.Ioq

/-- `IOQ_FLAG_MOD_LIST`, `IOQ_FLAG_EPOLL` and `IOQ_FLAG_WAITING`. -/
structure Flags where
  modList : Bool
  epoll : Bool
  waiting : Bool
  deriving DecidableEq

/-- The part of `struct ioq_fd` that changes. -/
structure Fd where
  flags : Flags
  requested : UInt32
  ready : UInt32
  err : ℤ

/-- After `ioq_fd_init`. -/
def Fd.init : Fd := ⟨⟨false, false, false⟩, 0, 0, 0⟩

/-- A task in the run queue: of an `ioq_fd`, of a timer, or any other. -/
inductive Task (F T K : Type)
  | fd (f : F)
  | timer (t : T)
  | other (k : K)
  deriving DecidableEq

/-- Where a thread is in `ioq_notify`: not in it, before it takes the lock, or before it
    writes to the pipe. -/
inductive Note
  | none
  | lock
  | write
  deriving DecidableEq

/-- What a client is about to do: nothing, or the rest of `ioq_fd_wait`, with a set of events which
    is not empty or is empty. -/
inductive Client (F : Type)
  | idle
  | fdWait (f : F)
  | fdExec (f : F)
  deriving DecidableEq

/-- What the dispatcher is about to do. -/
inductive Disp (F T K : Type)
  /-- `waitq_next_deadline`. -/
  | nextDeadline
  /-- `epoll_wait`, with a timeout that was computed from the deadline `first`, if there was
      a timer. -/
  | epollWait (first : Option ℕ)
  /-- `read` in `intr_ack`; `evts` are the events that `epoll_wait` has returned. The event
      of the pipe is left out, as the loop over the events skips it. -/
  | drain (evts : List (F × UInt32))
  /-- The rest of `intr_ack`. -/
  | ack (evts : List (F × UInt32))
  /-- The loop over the events. -/
  | event (evts : List (F × UInt32))
  | eventLock (f : F) (evts : List (F × UInt32))
  /-- `mod_dequeue`. -/
  | dequeue
  /-- `mod_dequeue` has returned `f`. -/
  | held (f : F) (flags : Flags) (requested : UInt32)
  /-- The lock-protected sections of `dispatch_mods`: the wait is ended, `epoll_ctl` has
      failed, or it has succeeded. -/
  | cancelled (f : F)
  | failed (f : F)
  | added (f : F)
  /-- `expire_one`. -/
  | expire (now : ℕ)
  | expired (t : T) (now : ℕ)
  /-- `run_one`. -/
  | run
  | running (task : Task F T K)
  deriving DecidableEq

structure State (F T K C : Type) where
  fds : F → Fd
  /-- Which descriptors are registered with epoll. -/
  registered : F → Bool
  modList : List F
  intrState : Bool
  /-- The number of bytes in the pipe. -/
  pipe : ℕ
  jobList : List (Task F T K)
  deadline : T → ℕ
  waitingSet : List T
  disp : Disp F T K
  client : C → Client F
  /-- The calls of `ioq_notify`, those of the clients and that of the dispatcher. -/
  note : Option C → Note
  /-- A wait is outstanding: it was enqueued, and its callback has not begun. -/
  outstanding : F → Bool
  /-- How often the task was submitted since the last call of `ioq_fd_wait`. -/
  submitted : F → ℕ

variable {F T K C : Type} [DecidableEq F] [LinearOrder T] [DecidableEq C]

/-- After `ioq_init` and `ioq_fd_init`. -/
def State.init : State F T K C :=
  ⟨fun _ => .init, fun _ => false, [], false, 0, [], fun _ => 0, [], .nextDeadline, fun _ => .idle,
    fun _ => .none, fun _ => false, fun _ => 0⟩

/-- The `ioq_fd` `f` is changed. -/
def State.setFd (s : State F T K C) (f : F) (u : Fd → Fd) : State F T K C :=
  { s with fds := Function.update s.fds f (u (s.fds f)) }

/-- The flags of an `ioq_fd` are changed. -/
def Fd.setFlags (u : Flags → Flags) (x : Fd) : Fd := { x with flags := u x.flags }

/-! ## Lock-protected sections -/

/-- `mod_enqueue_nolock`, which returns `need_wakeup`. -/
def modEnqueue (s : State F T K C) (f : F) : Bool × State F T K C :=
  if (s.fds f).flags.modList then (false, s)
  else
    (s.modList.isEmpty,
      { s.setFd f (.setFlags ({ · with modList := true })) with modList := s.modList ++ [f] })

/-- `f->flags &= ~(IOQ_FLAG_EPOLL | IOQ_FLAG_WAITING)`, and `mod_enqueue_nolock`. -/
def endWait (s : State F T K C) (f : F) : State F T K C :=
  (modEnqueue (s.setFd f (.setFlags ({ · with epoll := false, waiting := false }))) f).2

/-- The call of `ioq_notify` by a thread if `need` is set. -/
def wakeup (s : State F T K C) (c : Option C) (need : Bool) : State F T K C :=
  if need then { s with note := Function.update s.note c .lock } else s

/-- The lock-protected section of `runq_task_exec`. The hook that calls `ioq_notify` is only there
    without background threads. -/
def runqTaskExec (bgThreads : ℕ) (s : State F T K C) (c : Option C) (task : Task F T K) :
    State F T K C :=
  wakeup { s with jobList := s.jobList ++ [task] } c (s.jobList.isEmpty && bgThreads == 0)

/-- `cmp_by_deadline`: the timer `t` is before `u`. -/
def before (deadline : T → ℕ) (t u : T) : Bool :=
  decide (deadline t < deadline u ∨ deadline t = deadline u ∧ t < u)

/-- The waiting set with the timer `t`. -/
def wsetInsert (deadline : T → ℕ) (t : T) : List T → List T
  | [] => [t]
  | u :: us => if before deadline t u then t :: u :: us else u :: wsetInsert deadline t us

/-- The lock-protected section of `wset_add`. -/
def wsetAdd (s : State F T K C) (c : Option C) (t : T) : State F T K C :=
  let set' := wsetInsert s.deadline t s.waitingSet
  wakeup { s with waitingSet := set' } c (set'.head? == some t)

/-- A callback begins. That of an `ioq_fd` ends the wait. -/
def beginTask (s : State F T K C) : Task F T K → State F T K C
  | .fd f => { s with outstanding := Function.update s.outstanding f false }
  | _ => s

/-! ## Steps -/

/-- The steps of the clients, of `ioq_notify`, and of the dispatcher. What the clock, the kernel
    and epoll decide is part of the step. -/
inductive Act (F T K C : Type)
  | notify (c : C)
  | fdWait (c : C) (f : F) (set : UInt32)
  | fdWaitLock (c : C)
  | fdWaitExec (c : C)
  | fdRewait (c : C) (f : F) (set : UInt32)
  | taskExec (c : C) (k : K)
  | timerWait (c : C) (t : T) (now interval : ℕ)
  | notifyLock (c : Option C)
  | notifyWrite (c : Option C)
  | nextDeadline
  | epollReturn (evts : List (F × UInt32))
  | epollInterrupted
  | epollError
  | read
  | ackLock
  | eventDel (ok : Bool)
  | eventDone
  | eventLock
  | dequeue (now : ℕ)
  | handle (result : ℤ)
  | handleLock
  | expire
  | expired
  | run
  | ran
  | workerRun

/-- `ioq_fd_wait` up to the lock. -/
def fdWait (s : State F T K C) (f : F) (set : UInt32) : State F T K C :=
  { s.setFd f fun _ => ⟨⟨false, false, true⟩, set, 0, 0⟩ with
    submitted := Function.update s.submitted f 0 }

/-- The steps of a client. -/
def clientStep (bgThreads : ℕ) (s : State F T K C) : Act F T K C → Option (State F T K C)
  | .notify c =>
    if s.client c = .idle ∧ s.note (some c) = .none then some (wakeup s (some c) true) else none
  | .fdWait c f set =>
    if s.client c = .idle ∧ s.note (some c) = .none then
      some { fdWait s f set with
        client := Function.update s.client c (if set = 0 then .fdExec f else .fdWait f) }
    else none
  | .fdWaitLock c =>
    match s.client c with
    | .fdWait f =>
      let r := modEnqueue s f
      some (wakeup
        { r.2 with
          client := Function.update s.client c .idle
          outstanding := Function.update s.outstanding f true } (some c) r.1)
    | _ => none
  | .fdWaitExec c =>
    match s.client c with
    | .fdExec f =>
      some (runqTaskExec bgThreads
        { s with
          client := Function.update s.client c .idle
          outstanding := Function.update s.outstanding f true
          submitted := Function.update s.submitted f (s.submitted f + 1) } (some c) (.fd f))
    | _ => none
  | .fdRewait c f set =>
    if s.client c = .idle ∧ s.note (some c) = .none then
      if (s.fds f).flags.waiting then
        let r := modEnqueue (s.setFd f ({ · with requested := set })) f
        some (wakeup r.2 (some c) r.1)
      else some s
    else none
  | .taskExec c k =>
    if s.client c = .idle ∧ s.note (some c) = .none then
      some (runqTaskExec bgThreads s (some c) (.other k))
    else none
  | .timerWait c t now interval =>
    -- The timer may not be in use.
    if s.client c = .idle ∧ s.note (some c) = .none ∧ t ∉ s.waitingSet then
      some (wsetAdd
        { s with deadline := Function.update s.deadline t ((now + interval) % 2 ^ 64) } (some c) t)
    else none
  | _ => none

/-- The steps of a thread in `ioq_notify`. -/
def noteStep (s : State F T K C) : Act F T K C → Option (State F T K C)
  | .notifyLock c =>
    if s.note c = .lock then
      -- The first call since the last `intr_ack` writes to the pipe.
      some { s with
        intrState := true
        note := Function.update s.note c (if s.intrState then .none else .write) }
    else none
  | .notifyWrite c =>
    if s.note c = .write then
      some { s with pipe := s.pipe + 1, note := Function.update s.note c .none }
    else none
  | _ => none

/-- The steps of the dispatcher up to `dispatch_mods`. -/
def waitStep (s : State F T K C) : Act F T K C → Option (State F T K C)
  | .nextDeadline =>
    match s.disp with
    | .nextDeadline => some { s with disp := .epollWait (s.waitingSet.head?.map s.deadline) }
    | _ => none
  | .epollReturn evts =>
    match s.disp with
    | .epollWait _ =>
      if evts.length ≤ 32 ∧ (evts.map Prod.fst).Nodup ∧ ∀ e ∈ evts, s.registered e.1 then
        some { s with disp := .drain evts }
      else none
    | _ => none
  | .epollInterrupted =>
    match s.disp with
    | .epollWait _ => some { s with disp := .dequeue }
    | _ => none
  | .epollError =>
    match s.disp with
    | .epollWait _ => some { s with disp := .nextDeadline }
    | _ => none
  | .read =>
    match s.disp with
    | .drain evts =>
      -- The pipe does not block; it is read until there is nothing in it.
      if s.pipe = 0 then some { s with disp := .ack evts }
      else some { s with pipe := s.pipe - min 128 s.pipe }
    | _ => none
  | .ackLock =>
    match s.disp with
    | .ack evts => some { s with intrState := false, disp := .event evts }
    | _ => none
  | .eventDel ok =>
    match s.disp with
    | .event ((f, events) :: evts) =>
      -- What `epoll_ctl` returns is not looked at.
      some { s.setFd f ({ · with ready := events }) with
        registered := if ok then Function.update s.registered f false else s.registered
        disp := .eventLock f evts }
    | _ => none
  | .eventLock =>
    match s.disp with
    | .eventLock f evts => some { endWait s f with disp := .event evts }
    | _ => none
  | .eventDone =>
    match s.disp with
    | .event [] => some { s with disp := .dequeue }
    | _ => none
  | _ => none

/-- The steps of the dispatcher in `dispatch_mods`. The argument of `handle` is what `epoll_ctl`
    returns, or the error if this is not zero. -/
def modStep (bgThreads : ℕ) (s : State F T K C) : Act F T K C → Option (State F T K C)
  | .dequeue now =>
    match s.disp, s.modList with
    | .dequeue, [] => some { s with disp := .expire now }
    | .dequeue, f :: fs =>
      let flags := { (s.fds f).flags with modList := false }
      some { s.setFd f (.setFlags fun _ => flags) with
        modList := fs
        disp := .held f flags (s.fds f).requested }
    | _, _ => none
  | .handle result =>
    match s.disp with
    | .held f flags requested =>
      -- The copies of the flags and of the events are those of `mod_dequeue`.
      if !flags.waiting then
        some (runqTaskExec bgThreads
          { s with
            disp := .dequeue
            submitted := Function.update s.submitted f (s.submitted f + 1) } none (.fd f))
      else if requested = 0 then
        some { s.setFd f ({ · with ready := 0 }) with
          registered :=
            if flags.epoll ∧ result = 0 then Function.update s.registered f false else s.registered
          disp := .cancelled f }
      else if result = 0 then
        some { s with registered := Function.update s.registered f true, disp := .added f }
      else
        some { s.setFd f ({ · with err := result }) with disp := .failed f }
    | _ => none
  | .handleLock =>
    match s.disp with
    | .cancelled f => some { endWait s f with disp := .dequeue }
    | .failed f =>
      some { (modEnqueue (s.setFd f ({ · with requested := 0 })) f).2 with disp := .dequeue }
    | .added f => some { s.setFd f (.setFlags ({ · with epoll := true })) with disp := .dequeue }
    | _ => none
  | _ => none

/-- The steps of the dispatcher in `waitq_dispatch` and `runq_dispatch`. -/
def runStep (bgThreads : ℕ) (s : State F T K C) : Act F T K C → Option (State F T K C)
  | .expire =>
    match s.disp, s.waitingSet with
    | .expire now, t :: ts =>
      if s.deadline t > now then some { s with disp := .run }
      else some { s with waitingSet := ts, disp := .expired t now }
    | .expire _, [] => some { s with disp := .run }
    | _, _ => none
  | .expired =>
    match s.disp with
    | .expired t now => some (runqTaskExec bgThreads { s with disp := .expire now } none (.timer t))
    | _ => none
  | .run =>
    match s.disp, s.jobList with
    | .run, [] => some { s with disp := .nextDeadline }
    | .run, task :: tasks => some { beginTask s task with jobList := tasks, disp := .running task }
    | _, _ => none
  | .ran =>
    match s.disp with
    | .running _ => some { s with disp := .run }
    | _ => none
  | _ => none

/-- A task is taken by a background thread. -/
def workerStep (bgThreads : ℕ) (s : State F T K C) : Act F T K C → Option (State F T K C)
  | .workerRun =>
    match s.jobList with
    | [] => none
    | task :: tasks =>
      if bgThreads = 0 then none else some { beginTask s task with jobList := tasks }
  | _ => none

/-- A step of one of the threads. The dispatcher does nothing else while it is in `ioq_notify`. -/
def step (bgThreads : ℕ) (s : State F T K C) (a : Act F T K C) : Option (State F T K C) :=
  (clientStep bgThreads s a).or <| (noteStep s a).or <| (workerStep bgThreads s a).or <|
    if s.note none = .none then
      (waitStep s a).or <| (modStep bgThreads s a).or (runStep bgThreads s a)
    else none

end Dlb.Ioq
