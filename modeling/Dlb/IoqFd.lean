import Mathlib.Data.Int.Notation
import Mathlib.Logic.Basic
import Mathlib.Tactic.SplitIfs

/-!
# File descriptor waits

What the client of a `struct ioq_fd` sees of `src/io/ioq_linux.c`. A wait is outstanding from
`ioq_fd_wait` on until its callback is invoked. How it ends is left open: with any events or
any error, at any time, and exactly once.
-/

namespace Dlb

/-- Where the wait is. It is `ended` while the callback is in the run queue. -/
inductive IoqFd.Phase
  | idle
  | waiting
  | ended
  deriving DecidableEq

structure IoqFd where
  ready : UInt32
  err : ℤ
  requested : UInt32
  phase : IoqFd.Phase
  /-- `ioq_fd_wait` was called while a wait was outstanding, which is not allowed. -/
  misused : Bool

namespace IoqFd

def eventIn : UInt32 := 0x001

def eventOut : UInt32 := 0x004

def eventErr : UInt32 := 0x008

def eventHup : UInt32 := 0x010

def ioqFdInit : IoqFd where
  ready := 0
  err := 0
  requested := 0
  phase := .idle
  misused := false

def ioqFdWait (f : IoqFd) (set : UInt32) : IoqFd where
  ready := 0
  err := 0
  requested := set
  phase := .waiting
  misused := f.misused || f.phase != .idle

def ioqFdRewait (f : IoqFd) (set : UInt32) : IoqFd :=
  if f.phase = .waiting then { f with requested := set } else f

def ioqFdCancel (f : IoqFd) : IoqFd := ioqFdRewait f 0

/-- The wait ends. -/
def finish (f : IoqFd) (ready : UInt32) (err : ℤ) : Option IoqFd :=
  if f.phase = .waiting then some { f with ready := ready, err := err, phase := .ended } else none

/-- The callback is invoked. -/
def deliver (f : IoqFd) : Option IoqFd :=
  if f.phase = .ended then some { f with phase := .idle } else none

/-- A wait is outstanding. -/
def Outstanding (f : IoqFd) : Prop := f.phase ≠ .idle

variable {f f' : IoqFd} {set ready : UInt32} {err : ℤ}

@[simp] theorem outstanding_ioqFdWait : (ioqFdWait f set).Outstanding := by
  simp [Outstanding, ioqFdWait]

@[simp] theorem phase_ioqFdRewait : (ioqFdRewait f set).phase = f.phase := by
  simp only [ioqFdRewait]
  split <;> rfl

@[simp] theorem outstanding_ioqFdRewait : (ioqFdRewait f set).Outstanding ↔ f.Outstanding := by
  simp [Outstanding]

@[simp] theorem misused_ioqFdRewait : (ioqFdRewait f set).misused = f.misused := by
  simp only [ioqFdRewait]
  split <;> rfl

theorem misused_ioqFdWait (h : f.misused = false) (ho : ¬f.Outstanding) :
    (ioqFdWait f set).misused = false := by
  simp [ioqFdWait, h, not_not.1 ho]

theorem finish_spec (e : finish f ready err = some f') :
    f.Outstanding ∧ f'.Outstanding ∧ f'.misused = f.misused := by
  simp only [finish, Option.ite_none_right_eq_some, Option.some.injEq] at e
  obtain ⟨h, rfl⟩ := e
  simp [Outstanding, h]

theorem deliver_spec (e : deliver f = some f') :
    f.Outstanding ∧ ¬f'.Outstanding ∧ f'.misused = f.misused := by
  simp only [deliver, Option.ite_none_right_eq_some, Option.some.injEq] at e
  obtain ⟨h, rfl⟩ := e
  simp [Outstanding, h]

/-! ## Runs -/

/-- What a client of the `ioq_fd` calls, and what its callback finds. -/
inductive Event
  | wait (set : UInt32)
  | rewait (set : UInt32)
  | callback (ready : UInt32) (err : ℤ)
  deriving DecidableEq

/-- A step, and what the client sees of it. -/
inductive Step : IoqFd → Option Event → IoqFd → Prop
  | same (f : IoqFd) : Step f none f
  | wait (f : IoqFd) (set : UInt32) : f.phase = .idle → Step f (some (.wait set)) (ioqFdWait f set)
  | rewait (f : IoqFd) (set : UInt32) : Step f (some (.rewait set)) (ioqFdRewait f set)
  | finish {f f' : IoqFd} {ready err} : finish f ready err = some f' → Step f none f'
  /-- `epoll_ctl` has failed, and the dispatcher cancels the wait. -/
  | fail (f : IoqFd) : Step f none (ioqFdCancel f)
  | deliver {f f' : IoqFd} : deliver f = some f' → Step f (some (.callback f.ready f.err)) f'

/-- A step that the client does not see. -/
theorem Step.of_eq {f f' : IoqFd} (h : f' = f) : Step f none f' := h ▸ .same f

/-- The steps from the start, and all that the client has seen. -/
inductive Run : List Event → IoqFd → Prop
  | init : Run [] ioqFdInit
  | step {es e} {f f' : IoqFd} : Run es f → Step f e f' → Run (es ++ e.toList) f'

def Event.isWait : Event → Bool
  | .wait _ => true
  | _ => false

end IoqFd

end Dlb
