import Mathlib.Data.Nat.Notation
import Mathlib.Logic.Function.Basic
import Dlb.IoqFd

/-!
# Asynchronous files

`src/io/afile_posix.c`, for one file. The section of `afile_read`, `afile_write` and `afile_cancel`
is one step, and so is the one of `end_wait`, in which its callback begins. The callback then
performs the operations it has chosen, and calls the function of each.
-/

namespace Dlb

/-- The bits `F_WANT_READ`, `F_WANT_WRITE` and `F_WANT_CANCEL`. -/
structure Afile.Flags where
  read : Bool
  write : Bool
  cancel : Bool
  deriving DecidableEq

/-- `struct afile_op`, with functions `Φ` and buffers `B`. -/
structure Afile.AfileOp (Φ B : Type) where
  func : Φ
  buffer : B
  size : ℕ
  error : ℤ

/-- `struct afile` -/
structure Afile (Φ B : Type) where
  fd : IoqFd
  read : Afile.AfileOp Φ B
  write : Afile.AfileOp Φ B
  flags : Afile.Flags

namespace Afile

variable {Φ B T : Type}

/-- No flag is set. -/
def Flags.none : Flags := ⟨false, false, false⟩

def afileInit (func : Φ) (buffer : B) : Afile Φ B where
  fd := IoqFd.ioqFdInit
  read := ⟨func, buffer, 0, 0⟩
  write := ⟨func, buffer, 0, 0⟩
  flags := .none

/-! ## The sections -/

/-- The actions to perform, the events to wait for and the flags that are left, without an error
or a cancellation. -/
def chooseActions (flags : Flags) (ready : UInt32) : Flags × UInt32 × Flags :=
  let outReady := ready &&& (IoqFd.eventOut ||| IoqFd.eventErr ||| IoqFd.eventHup) ≠ 0
  let inReady := ready &&& (IoqFd.eventIn ||| IoqFd.eventErr ||| IoqFd.eventHup) ≠ 0
  let doWrite := flags.write && decide outReady
  let doRead := flags.read && decide inReady
  (⟨doRead, doWrite, false⟩,
    (if flags.write && !doWrite then IoqFd.eventOut else 0) |||
      (if flags.read && !doRead then IoqFd.eventIn else 0),
    { flags with read := flags.read && !doRead, write := flags.write && !doWrite })

/-- The section of `end_wait`: what to perform, the error and the file. -/
def endWait (a : Afile Φ B) : Flags × ℤ × Afile Φ B :=
  if a.fd.err ≠ 0 then ({ a.flags with cancel := true }, a.fd.err, { a with flags := .none })
  else if a.flags.cancel then (a.flags, 0, { a with flags := .none })
  else
    let (perform, waitMask, flags) := chooseActions a.flags a.fd.ready
    (perform, 0, { a with
      flags := flags
      fd := if waitMask ≠ 0 then IoqFd.ioqFdWait a.fd waitMask else a.fd })

/-- The stores of `afile_read` before its section. -/
def afileRead (a : Afile Φ B) (data : B) (len : ℕ) (func : Φ) : Afile Φ B :=
  { a with read := { a.read with buffer := data, size := len, func := func } }

/-- The stores of `afile_write` before its section. -/
def afileWrite (a : Afile Φ B) (data : B) (len : ℕ) (func : Φ) : Afile Φ B :=
  { a with write := { a.write with buffer := data, size := len, func := func } }

/-- A wait for `event`, or a change of the one in progress. -/
def startWait (a : Afile Φ B) (event : UInt32) : IoqFd :=
  if a.flags ≠ .none then IoqFd.ioqFdRewait a.fd (IoqFd.eventIn ||| IoqFd.eventOut)
  else IoqFd.ioqFdWait a.fd event

/-- The section of `afile_read`. -/
def afileReadLock (a : Afile Φ B) : Afile Φ B :=
  { a with fd := startWait a IoqFd.eventIn, flags := { a.flags with read := true } }

/-- The section of `afile_write`. -/
def afileWriteLock (a : Afile Φ B) : Afile Φ B :=
  { a with fd := startWait a IoqFd.eventOut, flags := { a.flags with write := true } }

def afileCancel (a : Afile Φ B) : Afile Φ B :=
  { a with fd := IoqFd.ioqFdCancel a.fd, flags := { a.flags with cancel := true } }

/-- The result of `read` or `write`, with the last error if it is negative. -/
structure Answer where
  r : ℤ
  err : ℤ

/-- The size and the error that an operation leaves. -/
def AfileOp.finish (op : AfileOp Φ B) (ans : Answer) : AfileOp Φ B :=
  if ans.r < 0 then { op with size := 0, error := ans.err }
  else { op with size := ans.r.toNat, error := 0 }

/-- The read of `ioq_cb`, before the call of its function. -/
def performRead (a : Afile Φ B) (cancel : Bool) (error : ℤ) (ans : Answer) : Afile Φ B :=
  if cancel then { a with read := { a.read with size := 0, error := error } }
  else { a with read := a.read.finish ans }

/-- The write of `ioq_cb`, before the call of its function. The result is left in `read`. -/
def performWrite (a : Afile Φ B) (cancel : Bool) (error : ℤ) (ans : Answer) : Afile Φ B :=
  if cancel then { a with write := { a.write with size := 0, error := error } }
  else { a with read := a.read.finish ans }

/-- The files in the course of `ioq_cb`. -/
structure CbRun (Φ B : Type) where
  begun : Afile Φ B -- after the section
  read : Option (Afile Φ B) -- when the function of the read is called, if it is performed
  between : Afile Φ B -- before the write
  write : Option (Afile Φ B) -- when the function of the write is called, if it is performed
  done : Afile Φ B

/-- `ioq_cb`, with the results of `read` and `write`. What the function of an operation does to the
file is given by `call`. -/
def ioqCb (call : Φ → Afile Φ B → Afile Φ B) (a : Afile Φ B) (rd wr : Answer) : CbRun Φ B :=
  let (perform, error, begun) := endWait a
  let read := if perform.read then some (performRead begun perform.cancel error rd) else none
  let between := read.elim begun fun b => call b.read.func b
  let write := if perform.write then some (performWrite between perform.cancel error wr) else none
  { begun := begun, read := read, between := between, write := write
    done := write.elim between fun b => call b.write.func b }

/-! ## The system -/

/-- How far an operation is: not outstanding, before the section of its call, or requested and not
yet called back. -/
inductive Stage
  | none
  | called
  | requested
  deriving DecidableEq

/-- A run of `ioq_cb` after its section: what is left to perform, and the error. -/
structure Cb where
  perform : Flags
  error : ℤ

structure State (Φ B T : Type) where
  file : Afile Φ B
  /-- The callbacks that the threads are in. -/
  cb : T → Option Cb
  reading : Stage
  writing : Stage

inductive Act (Φ B T : Type)
  | read (data : B) (len : ℕ) (func : Φ)
  | readLock
  | write (data : B) (len : ℕ) (func : Φ)
  | writeLock
  | cancel
  | finish (ready : UInt32) (err : ℤ) -- the wait ends
  | endWait (th : T)
  | performRead (th : T) (ans : Answer)
  | performWrite (th : T) (ans : Answer)
  | cbReturn (th : T)

def State.init (func : Φ) (buffer : B) : State Φ B T where
  file := afileInit func buffer
  cb _ := none
  reading := .none
  writing := .none

def step [DecidableEq T] (s : State Φ B T) : Act Φ B T → Option (State Φ B T)
  | .read data len func =>
    some { s with file := afileRead s.file data len func, reading := .called }
  | .readLock =>
    if s.reading = .called then
      some { s with file := afileReadLock s.file, reading := .requested }
    else none
  | .write data len func =>
    some { s with file := afileWrite s.file data len func, writing := .called }
  | .writeLock =>
    if s.writing = .called then
      some { s with file := afileWriteLock s.file, writing := .requested }
    else none
  | .cancel => some { s with file := afileCancel s.file }
  | .finish ready err =>
    (s.file.fd.finish ready err).map fun fd => { s with file := { s.file with fd := fd } }
  | .endWait th =>
    match s.cb th with
    | none =>
      s.file.fd.deliver.map fun fd =>
        let (perform, error, file) := endWait { s.file with fd := fd }
        { s with file := file, cb := Function.update s.cb th (some ⟨perform, error⟩) }
    | some _ => none
  | .performRead th ans =>
    match s.cb th with
    | some ⟨⟨true, w, cancel⟩, error⟩ =>
      some { s with
        file := performRead s.file cancel error ans
        cb := Function.update s.cb th (some ⟨⟨false, w, cancel⟩, error⟩)
        reading := .none }
    | _ => none
  | .performWrite th ans =>
    match s.cb th with
    | some ⟨⟨false, true, cancel⟩, error⟩ =>
      some { s with
        file := performWrite s.file cancel error ans
        cb := Function.update s.cb th (some ⟨⟨false, false, cancel⟩, error⟩)
        writing := .none }
    | _ => none
  | .cbReturn th =>
    match s.cb th with
    | some ⟨⟨false, false, _⟩, _⟩ => some { s with cb := Function.update s.cb th none }
    | _ => none

/-- At most one read and one write are outstanding. -/
def Legal (s : State Φ B T) : Act Φ B T → Prop
  | .read .. => s.reading = .none
  | .write .. => s.writing = .none
  | .readLock | .writeLock | .cancel | .finish .. | .endWait _ | .performRead .. | .performWrite ..
  | .cbReturn _ => True

instance (s : State Φ B T) : DecidablePred (Legal s)
  | .read .. => inferInstanceAs (Decidable (s.reading = .none))
  | .write .. => inferInstanceAs (Decidable (s.writing = .none))
  | .readLock | .writeLock | .cancel | .finish .. | .endWait _ | .performRead .. | .performWrite ..
  | .cbReturn _ => .isTrue trivial

end Afile

end Dlb
