import Mathlib.Data.Nat.Notation
import Mathlib.Data.Set.Basic
import Mathlib.Logic.Function.Basic

/-!
# Events over mutexes and condition variables

`src/io/thr.c`, the event that `thr_event_raise`, `thr_event_clear`, `thr_event_wait` and
`thr_event_wait_timeout` make of a mutex, a condition variable and a flag. Each access to the flag is a
step of its own, and so is each call of the POSIX functions.

`pthread_cond_wait` gives up the mutex and falls asleep in one step. A thread that is asleep may be
woken for no reason, and `pthread_cond_timedwait` may give up at any time; both take the mutex again
before they return. `pthread_cond_signal` wakes a thread if there is one.
-/

namespace Dlb.Thr

/-- The functions of an event; a wait may be one with a timeout. -/
inductive Op
  | raise
  | clear
  | wait (timed : Bool)
  deriving DecidableEq

/-- Where a thread is in them. -/
inductive Pc
  | idle
  | raiseLock
  | raiseOld -- `old = e->state`
  | raiseSet (old : Bool)
  | raiseUnlock (old : Bool)
  | raiseSignal
  | clearLock
  | clearSet
  | clearUnlock
  | waitLock (timed : Bool)
  | waitTest (timed : Bool)
  | waitCond (timed : Bool)
  | asleep (timed : Bool)
  | woken (timed : Bool)
  | expired
  | waitUnlock (result : ℤ)
  | returned (result : ℤ)
  deriving DecidableEq

/-- An event, and the threads `T` that use it. -/
structure State (T : Type) where
  lock : Option T
  raised : Bool -- `state`
  pc : T → Pc

/-- What a thread does; `wake` and `expire` come from outside. -/
inductive Act (T : Type)
  | call (th : T) (op : Op)
  | run (th : T)
  | signal (th : T) (woken : Option T)
  | wake (th : T)
  | expire (th : T)

variable {T : Type}

/-- The state after `thr_event_init`. -/
def State.init : State T := ⟨none, false, fun _ => .idle⟩

def Op.start : Op → Pc
  | .raise => .raiseLock
  | .clear => .clearLock
  | .wait timed => .waitLock timed

variable [DecidableEq T]

def State.goto (s : State T) (th : T) (pc : Pc) : State T :=
  { s with pc := Function.update s.pc th pc }

def State.acquire (s : State T) (th : T) (pc : Pc) : Option (State T) :=
  if s.lock = none then some ({ s with lock := some th }.goto th pc) else none

def State.release (s : State T) (th : T) (pc : Pc) : State T :=
  { s with lock := none }.goto th pc

/-- The next step of a thread; the wakeups and `pthread_cond_signal` apart. -/
def State.run (s : State T) (th : T) : Option (State T) :=
  match s.pc th with
  | .raiseLock => s.acquire th .raiseOld
  | .raiseOld => some (s.goto th (.raiseSet s.raised))
  | .raiseSet old => some ({ s with raised := true }.goto th (.raiseUnlock old))
  | .raiseUnlock old => some (s.release th (if old then .returned 0 else .raiseSignal))
  | .clearLock => s.acquire th .clearSet
  | .clearSet => some ({ s with raised := false }.goto th .clearUnlock)
  | .clearUnlock => some (s.release th (.returned 0))
  | .waitLock timed => s.acquire th (.waitTest timed)
  | .waitTest timed => some (s.goto th (if s.raised then .waitUnlock 0 else .waitCond timed))
  | .waitCond timed => some (s.release th (.asleep timed))
  | .woken timed => s.acquire th (.waitTest timed)
  | .expired => s.acquire th (.waitUnlock (-1))
  | .waitUnlock result => some (s.release th (.returned result))
  | .idle | .raiseSignal | .asleep _ | .returned _ => none

/-- A step, if it is possible. -/
def step (s : State T) : Act T → Option (State T)
  | .call th op =>
    match s.pc th with
    | .idle | .returned _ => some (s.goto th op.start)
    | _ => none
  | .run th => s.run th
  | .signal th u =>
    match s.pc th with
    | .raiseSignal =>
      match u with
      | none => some (s.goto th (.returned 0))
      | some u =>
        match s.pc u with
        | .asleep timed => some ((s.goto u (.woken timed)).goto th (.returned 0))
        | _ => none
    | _ => none
  | .wake th =>
    match s.pc th with
    | .asleep timed => some (s.goto th (.woken timed))
    | _ => none
  | .expire th =>
    match s.pc th with
    | .asleep true => some (s.goto th .expired)
    | _ => none

/-- Only the threads in `W` wait, and `pthread_cond_signal` finds a thread that is asleep if there
is one. -/
def Legal (W : Set T) (s : State T) : Act T → Prop
  | .call th (.wait _) => th ∈ W
  | .signal _ none => ∀ u timed, s.pc u ≠ .asleep timed
  | _ => True

/-- The time at which `thr_event_wait_timeout` gives up, in seconds and nanoseconds, if it is called
at the time `tvSec`, `tvUsec` as `gettimeofday` gives it. -/
def deadline (tvSec tvUsec timeoutMs : ℤ) : ℤ × ℤ :=
  let sec := tvSec + timeoutMs.tdiv 1000
  let nsec := tvUsec * 1000 + timeoutMs.tmod 1000 * 1000000
  if 1000000000 ≤ nsec then (sec + 1, nsec - 1000000000) else (sec, nsec)

/-- For a timeout that is not negative, a time that `pthread_cond_timedwait` accepts, and the right
one. -/
theorem deadline_eq {tvSec tvUsec timeoutMs : ℤ} (hu : 0 ≤ tvUsec ∧ tvUsec < 1000000)
    (ht : 0 ≤ timeoutMs) : ∃ sec nsec, deadline tvSec tvUsec timeoutMs = (sec, nsec) ∧
      0 ≤ nsec ∧ nsec < 1000000000 ∧
      sec * 1000000000 + nsec =
        tvSec * 1000000000 + tvUsec * 1000 + timeoutMs * 1000000 := by
  have hd : timeoutMs.tdiv 1000 = timeoutMs / 1000 := Int.tdiv_eq_ediv_of_nonneg ht
  have hm : timeoutMs.tmod 1000 = timeoutMs % 1000 := Int.tmod_eq_emod_of_nonneg ht
  simp only [deadline, hd, hm]
  split
  · exact ⟨_, _, rfl, by omega, by omega, by omega⟩
  · exact ⟨_, _, rfl, by omega, by omega, by omega⟩

end Dlb.Thr
