import Mathlib.Data.Nat.Notation
import Mathlib.Logic.Function.Basic

/-!
# The mailbox

`src/io/mailbox.c`. Each operation is a section under the lock, which decides whether to submit the
task, and then the call of `runq_task_exec`. `locked` is the section of an operation,
`call` is the whole of it. `step` is the system in which the sections and the submissions of all
threads are interleaved; there the run queue is only told apart by what it holds of the mailbox's
task.
-/

namespace Dlb

/-- `mailbox_flags_t` -/
abbrev Mailbox.Flags := BitVec 32

/-- `mailbox_wait_mode_t` -/
inductive Mailbox.WaitMode
  | none
  | any
  | all
  deriving DecidableEq

/-- `struct mailbox`, with callbacks `Φ`. -/
structure Mailbox (Φ : Type) where
  /-- The function of the task. -/
  func : Φ
  state : Mailbox.Flags
  expected : Mailbox.Flags
  mode : Mailbox.WaitMode

namespace Mailbox

/-- `MAILBOX_ALL_FLAGS` -/
def allFlags : Flags := 0xffffffff

/-- An operation and its arguments. -/
inductive Op (Φ : Type)
  | take (clearMask : Flags)
  | raise (setMask : Flags)
  | wait (set : Flags) (cb : Φ)
  | waitAll (set : Flags) (cb : Φ)

variable {Φ T : Type}

/-- The task has no function yet. -/
def mailboxInit (func : Φ) : Mailbox Φ where
  func := func
  state := 0
  expected := 0
  mode := .none

/-! ## The sections -/

def mailboxTake (m : Mailbox Φ) (clearMask : Flags) : Flags × Mailbox Φ :=
  (m.state, { m with state := m.state &&& ~~~clearMask })

/-- `fire` of `mailbox_raise`. -/
def fires (m : Mailbox Φ) : Bool :=
  match m.mode with
  | .none => false
  | .any => m.expected &&& m.state != 0
  | .all => m.expected &&& m.state == m.expected

def mailboxRaise (m : Mailbox Φ) (setMask : Flags) : Bool × Mailbox Φ :=
  let m := { m with state := m.state ||| setMask }
  (fires m, if fires m then { m with mode := .none } else m)

def mailboxWait (m : Mailbox Φ) (set : Flags) (cb : Φ) : Bool × Mailbox Φ :=
  let m := { m with func := cb, expected := set }
  if m.state &&& set != 0 then (true, m) else (false, { m with mode := .any })

def mailboxWaitAll (m : Mailbox Φ) (set : Flags) (cb : Φ) : Bool × Mailbox Φ :=
  let m := { m with func := cb, expected := set }
  if m.state &&& set == set then (true, m) else (false, { m with mode := .all })

/-- The section of an operation: whether it decides to submit the task, and the mailbox. -/
def locked (m : Mailbox Φ) : Op Φ → Bool × Mailbox Φ
  | .take clearMask => (false, (mailboxTake m clearMask).2)
  | .raise setMask => mailboxRaise m setMask
  | .wait set cb => mailboxWait m set cb
  | .waitAll set cb => mailboxWaitAll m set cb

/-- The operation as a whole: the function with which the task is submitted, if it is. -/
def call (m : Mailbox Φ) (op : Op Φ) : Option Φ × Mailbox Φ :=
  let (fire, m) := locked m op
  (if fire then some m.func else none, m)

/-! ## The threads -/

/-- A section that was executed: the operation, the flags after it and its decision. -/
structure Section (Φ : Type) where
  op : Op Φ
  after : Flags
  fire : Bool

structure State (Φ T : Type) where
  box : Mailbox Φ
  /-- The section, by its number, for which the thread is about to call `runq_task_exec`. -/
  thread : T → Option ℕ
  /-- The functions with which the task is in the run queue. -/
  queue : List Φ
  /-- A wait was called whose callback was not yet invoked. -/
  outstanding : Bool
  /-- The sections so far. -/
  log : List (Section Φ)
  /-- The submissions so far: the section that decided it, and the function. -/
  submitted : List (ℕ × Φ)

inductive Act (Φ T : Type)
  | lock (th : T) (op : Op Φ)
  | taskExec (th : T)
  | run -- the run queue invokes the callback

def State.init (func : Φ) : State Φ T where
  box := mailboxInit func
  thread _ := none
  queue := []
  outstanding := false
  log := []
  submitted := []

def Op.isWait : Op Φ → Bool
  | .wait .. | .waitAll .. => true
  | .take _ | .raise _ => false

def step [DecidableEq T] (s : State Φ T) : Act Φ T → Option (State Φ T)
  | .lock th op =>
    if s.thread th = none then
      let (fire, box) := locked s.box op
      some { s with
        box := box
        thread := if fire then Function.update s.thread th (some s.log.length) else s.thread
        outstanding := s.outstanding || op.isWait
        log := s.log ++ [⟨op, box.state, fire⟩] }
    else none
  | .taskExec th =>
    match s.thread th with
    | some j =>
      some { s with
        thread := Function.update s.thread th none
        queue := s.queue ++ [s.box.func]
        submitted := s.submitted ++ [(j, s.box.func)] }
    | none => none
  | .run =>
    match s.queue with
    | _ :: queue => some { s with queue := queue, outstanding := false }
    | [] => none

/-- The consumer starts a wait or takes only if no wait is outstanding. -/
def Legal (s : State Φ T) : Act Φ T → Prop
  | .lock _ (.raise _) | .taskExec _ | .run => True
  | .lock _ (.take _) | .lock _ (.wait ..) | .lock _ (.waitAll ..) => s.outstanding = false

instance (s : State Φ T) : DecidablePred (Legal s)
  | .lock _ (.raise _) | .taskExec _ | .run => .isTrue trivial
  | .lock _ (.take _) | .lock _ (.wait ..) | .lock _ (.waitAll ..) =>
    inferInstanceAs (Decidable (s.outstanding = false))

end Mailbox

end Dlb
