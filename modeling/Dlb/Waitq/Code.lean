import Mathlib.Data.Prod.Lex
import Dlb.Rbt.Iter

/-!
# The wait queue

`src/io/waitq.c`, for one wait queue with its timers `T` and any number of threads `Θ`. The waiting
set is the tree in memory, as `src/rbt.c` leaves it. A section under the lock is one step, and so is
every store to a timer and every call of `runq_task_exec` outside of it. The hook is invoked right
after a section by the same call; of that only the number is kept, so it is part of the step.

The sections take some fuel for the loops over the tree. What `clock_now` returns is part of a step.
-/

namespace Dlb.Waitq

open Rbt

/-- What `cmp_by_deadline` looks at: the deadline of a timer and its address. -/
abbrev Key (T : Type) := ℕ ×ₗ T

/-- `cmp_by_deadline` -/
def cmpByDeadline {T : Type} [LinearOrder T] (kt nt : Key T) : ℤ :=
  if (ofLex kt).1 < (ofLex nt).1 then -1
  else if (ofLex nt).1 < (ofLex kt).1 then 1
  else if (ofLex kt).2 < (ofLex nt).2 then -1
  else if (ofLex nt).2 < (ofLex kt).2 then 1
  else 0

/-- `clock_now() + interval_ms` -/
def deadlineOf (now : UInt64) (interval : Int32) : UInt64 := now + interval.toInt64.toUInt64

/-- Where a thread is. -/
inductive Call (T : Type)
  | idle
  | wait (t : T) -- `waitq_timer_wait` has set `func`
  | add (t : T) -- before the section of `wset_add`
  | reschedule (t : T) -- `waitq_timer_reschedule` has removed the timer
  | cancel (t : T) -- `waitq_timer_cancel` has removed the timer
  | cancelled (t : T) -- the deadline is zero, before `runq_task_exec`
  | dispatch (limit count : UInt32) (now : UInt64) -- in the loop of `waitq_dispatch`
  | expired (limit count : UInt32) (now : UInt64) (t : T) -- before `runq_task_exec`
  deriving DecidableEq

structure State (T Θ Φ : Type) where
  /-- The waiting set: its root and the nodes in the timers. -/
  mem : Rbt.Mem T
  /-- The hook is set. -/
  wakeup : Bool
  /-- The other fields of the timers. -/
  deadline : T → UInt64
  func : T → Φ
  /-- The threads. -/
  call : Θ → Call T
  /-- How often the task is in the run queue. -/
  queued : T → ℕ
  /-- How often the hook was invoked. -/
  wakeups : ℕ
  /-- A wait is outstanding until its callback is invoked. -/
  outstanding : T → Bool
  waits : T → ℕ
  submissions : T → ℕ
  /-- A call of `waitq_timer_cancel` has returned while a wait of the timer was outstanding and its
  task was not submitted. -/
  lost : T → Bool

inductive Act (T Θ Φ : Type)
  | wait (θ : Θ) (t : T) (func : Φ)
  | setDeadline (θ : Θ) (now : UInt64) (interval : Int32)
  | add (θ : Θ)
  | reschedule (θ : Θ) (t : T)
  | cancel (θ : Θ) (t : T)
  | cancelDeadline (θ : Θ)
  | cancelExec (θ : Θ)
  | dispatch (θ : Θ) (limit : UInt32) (now : UInt64)
  | expire (θ : Θ)
  | expireExec (θ : Θ)
  | run (t : T) -- the run queue invokes the callback

variable {T Θ Φ : Type}

/-- After `waitq_init`, with the hook set or not. The fields of the timers have any values. -/
def State.init (mem : Rbt.Mem T) (wakeup : Bool) (deadline : T → UInt64) (func : T → Φ) :
    State T Θ Φ where
  mem := rbtInit mem
  wakeup := wakeup
  deadline := deadline
  func := func
  call _ := .idle
  queued _ := 0
  wakeups := 0
  outstanding _ := false
  waits _ := 0
  submissions _ := 0
  lost _ := false

/-- The waiting set with the keys of the timers. -/
def State.tree (s : State T Θ Φ) : Rbt.State (Key T) T :=
  ⟨s.mem, fun t => toLex ((s.deadline t).toNat, t)⟩

/-- The hook is invoked. -/
def State.wake (s : State T Θ Φ) (needWakeup : Bool) : State T Θ Φ :=
  if needWakeup && s.wakeup then { s with wakeups := s.wakeups + 1 } else s

/-- The thread goes on. -/
def State.goto [DecidableEq Θ] (s : State T Θ Φ) (θ : Θ) (c : Call T) : State T Θ Φ :=
  { s with call := Function.update s.call θ c }

variable [LinearOrder T]

/-- `t->deadline = deadline;` -/
def State.setDeadline (s : State T Θ Φ) (t : T) (deadline : UInt64) : State T Θ Φ :=
  { s with deadline := Function.update s.deadline t deadline }

/-! ## The sections -/

/-- The section of `wset_add`, which returns `need_wakeup`. -/
def addSection (s : State T Θ Φ) (fuel : ℕ) (t : T) : Prog T Bool := do
  let _ ← rbtInsert (s.tree.compare cmpByDeadline) fuel (s.tree.key t) t
  let n ← rbtIterPrev fuel (some t)
  return n.isNone

/-- The section of `wset_remove`, which returns `n` and `need_wakeup`. -/
def removeSection (s : State T Θ Φ) (fuel : ℕ) (t : T) : Prog T (Option T × Bool) := do
  match ← rbtFind (s.tree.compare cmpByDeadline) fuel (s.tree.key t) with
  | none => return (none, false)
  | some n =>
    rbtRemove fuel n
    let n' ← rbtIterPrev fuel (some n)
    return (some n, n'.isNone)

/-- The section of `expire_one`. -/
def expireSection (s : State T Θ Φ) (fuel : ℕ) (now : UInt64) : Prog T (Option T) := do
  match ← rbtIterFirst fuel with
  | none => return none
  | some n =>
    if now < s.deadline n then return none
    rbtRemove fuel n
    return some n

/-- `wset_add` -/
def wsetAdd (fuel : ℕ) (s : State T Θ Φ) (t : T) : Option (State T Θ Φ) :=
  ((addSection s fuel t).run s.mem).map fun r => { s with mem := r.2 }.wake r.1

/-- `wset_remove` -/
def wsetRemove (fuel : ℕ) (s : State T Θ Φ) (t : T) : Option (Bool × State T Θ Φ) :=
  ((removeSection s fuel t).run s.mem).map fun r =>
    (r.1.1.isSome, { s with mem := r.2 }.wake r.1.2)

/-- `expire_one` -/
def expireOne (fuel : ℕ) (s : State T Θ Φ) (now : UInt64) : Option (Option T × State T Θ Φ) :=
  ((expireSection s fuel now).run s.mem).map fun r => (r.1, { s with mem := r.2 })

/-- `runq_task_exec` -/
def taskExec (s : State T Θ Φ) (t : T) : State T Θ Φ :=
  { s with
    queued := Function.update s.queued t (s.queued t + 1)
    submissions := Function.update s.submissions t (s.submissions t + 1) }

/-! ## The calls -/

/-- `waitq_timer_wait` -/
def waitqTimerWait (fuel : ℕ) (s : State T Θ Φ) (t : T) (now : UInt64) (interval : Int32)
    (func : Φ) : Option (State T Θ Φ) :=
  wsetAdd fuel ({ s with func := Function.update s.func t func }.setDeadline t
    (deadlineOf now interval)) t

/-- `waitq_timer_cancel` -/
def waitqTimerCancel (fuel : ℕ) (s : State T Θ Φ) (t : T) : Option (State T Θ Φ) :=
  (wsetRemove fuel s t).map fun r => if r.1 then taskExec (r.2.setDeadline t 0) t else r.2

/-- `waitq_timer_reschedule` -/
def waitqTimerReschedule (fuel : ℕ) (s : State T Θ Φ) (t : T) (now : UInt64) (interval : Int32) :
    Option (State T Θ Φ) :=
  (wsetRemove fuel s t).bind fun r =>
    if r.1 then wsetAdd fuel (r.2.setDeadline t (deadlineOf now interval)) t else some r.2

/-! ## The steps -/

variable [DecidableEq Θ]

/-- The steps of `waitq_timer_wait`, `waitq_timer_reschedule` and `waitq_timer_cancel`. -/
def timerStep (fuel : ℕ) (s : State T Θ Φ) : Act T Θ Φ → Option (State T Θ Φ)
  | .wait θ t func =>
    if s.call θ = .idle then
      some ({ s with
        func := Function.update s.func t func
        outstanding := Function.update s.outstanding t true
        waits := Function.update s.waits t (s.waits t + 1) }.goto θ (.wait t))
    else none
  | .setDeadline θ now interval =>
    match s.call θ with
    | .wait t | .reschedule t => some ((s.setDeadline t (deadlineOf now interval)).goto θ (.add t))
    | _ => none
  | .add θ =>
    match s.call θ with
    | .add t => (wsetAdd fuel s t).map (·.goto θ .idle)
    | _ => none
  | .reschedule θ t =>
    if s.call θ = .idle then
      (wsetRemove fuel s t).map fun r => if r.1 then r.2.goto θ (.reschedule t) else r.2
    else none
  | .cancel θ t =>
    if s.call θ = .idle then
      (wsetRemove fuel s t).map fun r =>
        if r.1 then r.2.goto θ (.cancel t)
        -- `rbt_find` has found nothing, and the call returns.
        else if s.outstanding t = true ∧ s.queued t = 0 then
          { r.2 with lost := Function.update s.lost t true }
        else r.2
    else none
  | .cancelDeadline θ =>
    match s.call θ with
    | .cancel t => some ((s.setDeadline t 0).goto θ (.cancelled t))
    | _ => none
  | .cancelExec θ =>
    match s.call θ with
    | .cancelled t => some (taskExec (s.goto θ .idle) t)
    | _ => none
  | _ => none

/-- The steps of `waitq_dispatch`. -/
def dispatchStep (fuel : ℕ) (s : State T Θ Φ) : Act T Θ Φ → Option (State T Θ Φ)
  | .dispatch θ limit now =>
    if s.call θ = .idle then some (s.goto θ (.dispatch limit 0 now)) else none
  | .expire θ =>
    match s.call θ with
    | .dispatch limit count now =>
      if limit = 0 ∨ count < limit then
        (expireOne fuel s now).map fun r =>
          match r.1 with
          | some t => r.2.goto θ (.expired limit count now t)
          | none => r.2.goto θ .idle
      else some (s.goto θ .idle)
    | _ => none
  | .expireExec θ =>
    match s.call θ with
    | .expired limit count now t =>
      some (taskExec (s.goto θ (.dispatch limit (count + 1) now)) t)
    | _ => none
  | _ => none

def step (s : State T Θ Φ) (a : ℕ × Act T Θ Φ) : Option (State T Θ Φ) :=
  match a.2 with
  | .run t =>
    if s.queued t ≠ 0 then
      some { s with
        queued := Function.update s.queued t (s.queued t - 1)
        outstanding := Function.update s.outstanding t false }
    else none
  | .dispatch .. | .expire _ | .expireExec _ => dispatchStep a.1 s a.2
  | _ => timerStep a.1 s a.2

omit [LinearOrder T] [DecidableEq Θ] in
/-- `waitq_timer_wait` is called only if no wait is outstanding. -/
def Legal (s : State T Θ Φ) (a : ℕ × Act T Θ Φ) : Prop :=
  match a.2 with
  | .wait _ t _ => s.outstanding t = false
  | .setDeadline .. | .add _ | .reschedule .. | .cancel .. | .cancelDeadline _ | .cancelExec _
  | .dispatch .. | .expire _ | .expireExec _ | .run _ => True

omit [LinearOrder T] [DecidableEq Θ] in
instance (s : State T Θ Φ) : DecidablePred (Legal s)
  | (_, .wait _ t _) => inferInstanceAs (Decidable (s.outstanding t = false))
  | (_, .setDeadline ..) | (_, .add _) | (_, .reschedule ..) | (_, .cancel ..)
  | (_, .cancelDeadline _) | (_, .cancelExec _) | (_, .dispatch ..) | (_, .expire _)
  | (_, .expireExec _) | (_, .run _) => .isTrue trivial

end Dlb.Waitq
