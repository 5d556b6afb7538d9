import Mathlib.Data.Finset.Erase
import Mathlib.Data.Finset.Insert
import Mathlib.Data.List.ReduceOption
import Mathlib.Data.Nat.Notation
import Mathlib.Logic.Function.Basic

/-!
# Asynchronous operations on Windows

`src/io/asock_windows.c` and `src/io/afile_windows.c`, for the sockets and files of an i/o queue, with
what they use of `src/io/ioq_windows.c`. An operation is handed to the system together with its
`OVERLAPPED` structure. When the system has completed it, it puts a packet in the completion port, and
`ioq_iterate` submits the task of the operation to the run queue.

A call is one step: after it has handed an operation to the system, it does not access anything that
the operation shares with others. What the system calls return is part of the step; so the buffers, and
the handles that `GetOverlappedResult` is given, are left out.
-/

namespace Dlb.Windows

/-- The operations of the sockets `O` and of the files `F`: a connect or an accept, and transfers. -/
inductive Key (O F : Type)
  | ca (t : O)
  | send (t : O)
  | recv (t : O)
  | read (a : F)
  | write (a : F)
  deriving DecidableEq

/-- The functions `accept_done`, `connect_done`, ..., which a task can have. -/
inductive Done
  | accept
  | connect
  | send
  | recv
  | read
  | write
  deriving DecidableEq

/-- `ERROR_IO_PENDING`, which is also `WSA_IO_PENDING`. -/
def ioPending : ℕ := 997

/-- What an operation has in its `asock` or `afile`: the function of its task, the callback, the error
    and the size. A connect or an accept has no size. -/
structure Op (Φ : Type) where
  done : Option Done
  func : Option Φ
  error : ℕ
  size : ℕ

/-- The sockets and the operations; the handles of sockets that are open; the operations that the system
    has not completed, the packets in the completion port, where `none` is from `ioq_notify`, and the
    run queue. -/
structure State (O F S Φ : Type) where
  sock : O → Option S
  caClient : O → Option O
  caAcceptSock : O → Option S
  op : Key O F → Op Φ
  opened : Finset S
  pending : List (Key O F)
  packets : List (Option (Key O F))
  jobs : List (Key O F)

/-- The answer when an operation is handed to the system. One that is done at once has a packet as well,
    unless its handle was set to do without. -/
inductive Start
  | done (posted : Bool) (size : ℕ)
  | failed (error : ℕ)

/-- The answer of `WSASocket`, with the error of the first of the other calls that prepare the socket
    and fails: of `ioq_bind`, `bind` and `listen`, as far as they are made. -/
inductive Created (S : Type)
  | refused (error : ℕ)
  | created (h : S) (error : Option ℕ)

/-- What `GetOverlappedResult` says, where the error is 0 if it succeeds. -/
structure Completion where
  error : ℕ
  size : ℕ

variable {O F S Φ : Type} [DecidableEq O] [DecidableEq F] [DecidableEq S] (s : State O F S Φ)

def State.init : State O F S Φ where
  sock _ := none
  caClient _ := none
  caAcceptSock _ := none
  op _ := ⟨none, none, 0, 0⟩
  opened := ∅
  pending := []
  packets := []
  jobs := []

def State.setOp (k : Key O F) (op : Op Φ) : State O F S Φ := { s with op := Function.update s.op k op }

def State.setError (k : Key O F) (e : ℕ) : State O F S Φ := s.setOp k { s.op k with error := e }

def State.setSock (t : O) (h : Option S) : State O F S Φ := { s with sock := Function.update s.sock t h }

def State.setAcceptSock (t : O) (h : Option S) : State O F S Φ :=
  { s with caAcceptSock := Function.update s.caAcceptSock t h }

/-! ## `ioq_windows.c` -/

/-- A task may not be submitted again before it runs. -/
def taskExec (k : Key O F) : Option (State O F S Φ) :=
  if k ∈ s.jobs then none else some { s with jobs := s.jobs ++ [k] }

def ioqOvlWait (k : Key O F) (d : Done) : State O F S Φ := s.setOp k { s.op k with done := some d }

def ioqOvlTrigger (k : Key O F) : Option (State O F S Φ) := taskExec s k

def ioqNotify : State O F S Φ := { s with packets := s.packets ++ [none] }

/-- The part of `ioq_iterate` before `waitq_dispatch`, if there is a packet. -/
def ioqIterate : Option (State O F S Φ) :=
  match s.packets with
  | [] => none
  | none :: packets => some { s with packets := packets }
  | some k :: packets => taskExec { s with packets := packets } k

/-! ## The system -/

/-- An operation is handed to the system. -/
def submit (k : Key O F) : Start → State O F S Φ
  | .done posted _ => if posted then { s with packets := s.packets ++ [some k] } else s
  | .failed e => if e = ioPending then { s with pending := s.pending ++ [k] } else s

/-- The system completes an operation. -/
def complete (k : Key O F) : Option (State O F S Φ) :=
  if k ∈ s.pending then
    some { s with pending := s.pending.erase k, packets := s.packets ++ [some k] }
  else none

def closesocket (h : S) : Option (State O F S Φ) :=
  if h ∈ s.opened then some { s with opened := s.opened.erase h } else none

/-- A handle is closed if it is valid. -/
def closeValid : Option S → Option (State O F S Φ)
  | none => some s
  | some h => closesocket s h

def wsaSocket (h : S) : State O F S Φ := { s with opened := insert h s.opened }

/-! ## `asock_windows.c` -/

def asockClose (t : O) : Option (State O F S Φ) := do
  let s ← closeValid s (s.sock t)
  return s.setSock t none

/-- The code that is returned is -1 if a call fails. -/
def asockListen (t : O) (cr : Created S) : Option (State O F S Φ) := do
  let s ← closeValid s (s.sock t)
  match cr with
  | .refused e => return (s.setSock t none).setError (.ca t) e
  | .created h (some e) => return ((wsaSocket s h).setSock t (some h)).setError (.ca t) e
  | .created h none => return (wsaSocket s h).setSock t (some h)

/-- The end of a function that starts an operation of a socket. -/
def startSock (k : Key O F) (ans : Start) : Option (State O F S Φ) :=
  match ans with
  | .done .. => some (submit s k ans)
  | .failed e =>
    if e ≠ ioPending then ioqOvlTrigger ((submit s k ans).setError k e) k else some (submit s k ans)

/-- An operation of a socket fails before it is handed to the system. -/
def failSock (k : Key O F) (e : ℕ) : Option (State O F S Φ) := ioqOvlTrigger (s.setError k e) k

/-- The callback and the error are set, then the task. -/
def prepare (k : Key O F) (d : Done) (f : Φ) : State O F S Φ :=
  ioqOvlWait (s.setOp k { s.op k with func := some f, error := ioPending }) k d

def asockAccept (t client : O) (f : Φ) (cr : Created S) (ans : Start) : Option (State O F S Φ) :=
  let s := prepare { s with caClient := Function.update s.caClient t (some client) } (.ca t) .accept f
  match cr with
  | .refused e => failSock (s.setAcceptSock t none) (.ca t) e
  | .created h (some e) => failSock ((wsaSocket s h).setAcceptSock t (some h)) (.ca t) e
  | .created h none => startSock ((wsaSocket s h).setAcceptSock t (some h)) (.ca t) ans

/-- The callback and the task are set only if nothing has failed. -/
def asockConnect (t : O) (f : Φ) (cr : Created S) (ans : Start) : Option (State O F S Φ) := do
  let s ← closeValid s (s.sock t)
  match cr with
  | .refused e => failSock (s.setSock t none) (.ca t) e
  | .created h (some e) => failSock ((wsaSocket s h).setSock t (some h)) (.ca t) e
  | .created h none =>
    startSock (prepare ((wsaSocket s h).setSock t (some h)) (.ca t) .connect f) (.ca t) ans

def asockSend (t : O) (f : Φ) (ans : Start) : Option (State O F S Φ) :=
  startSock (prepare s (.send t) .send f) (.send t) ans

def asockRecv (t : O) (f : Φ) (ans : Start) : Option (State O F S Φ) :=
  startSock (prepare s (.recv t) .recv f) (.recv t) ans

/-- The error after the first statement of a function `..._done`. -/
def settled (op : Op Φ) (c : Completion) : ℕ := if op.error = ioPending then c.error else op.error

/-- A function `..._done` of a transfer, before the callback. -/
def transferDone (k : Key O F) (c : Completion) : State O F S Φ :=
  let op := s.op k
  let size := if op.error = ioPending then c.size else op.size
  s.setOp k { op with error := settled op c, size := if settled op c ≠ 0 then 0 else size }

def connectDone (t : O) (c : Completion) : State O F S Φ :=
  s.setError (.ca t) (settled (s.op (.ca t)) c)

def acceptDone (t : O) (c : Completion) : Option (State O F S Φ) := do
  let e := settled (s.op (.ca t)) c
  let s := s.setError (.ca t) e
  if e ≠ 0 then
    let s ← closeValid s (s.caAcceptSock t)
    return s.setAcceptSock t none
  else
    let client ← s.caClient t
    return (s.setSock client (s.caAcceptSock t)).setAcceptSock t none

/-! ## `afile_windows.c` -/

/-- The end of a function that starts an operation of a file. -/
def startFile (k : Key O F) (ans : Start) : Option (State O F S Φ) :=
  let s := submit s k ans
  match ans with
  | .done _ n => ioqOvlTrigger (s.setOp k { s.op k with error := 0, size := n }) k
  | .failed e => if e ≠ ioPending then ioqOvlTrigger (s.setError k e) k else some s

def afileRead (a : F) (f : Φ) (ans : Start) : Option (State O F S Φ) :=
  startFile (prepare s (.read a) .read f) (.read a) ans

def afileWrite (a : F) (f : Φ) (ans : Start) : Option (State O F S Φ) :=
  startFile (prepare s (.write a) .write f) (.write a) ans

/-! ## The system of all of these -/

/-- The function of a task is called. -/
def callDone : Done → Key O F → Completion → Option (State O F S Φ)
  | .accept, .ca t, c => acceptDone s t c
  | .connect, .ca t, c => some (connectDone s t c)
  | .send, .send t, c => some (transferDone s (.send t) c)
  | .recv, .recv t, c => some (transferDone s (.recv t) c)
  | .read, .read a, c => some (transferDone s (.read a) c)
  | .write, .write a, c => some (transferDone s (.write a) c)
  | _, _, _ => none

/-- The first task of the run queue runs, and calls back. -/
def runOne (c : Completion) : Option (State O F S Φ) :=
  match s.jobs with
  | [] => none
  | k :: jobs => do
    let d ← (s.op k).done
    let s ← callDone { s with jobs := jobs } d k c
    if (s.op k).func.isSome then return s else none

inductive Act (O F S Φ : Type)
  | close (t : O)
  | listen (t : O) (cr : Created S)
  | accept (t client : O) (f : Φ) (cr : Created S) (ans : Start)
  | connect (t : O) (f : Φ) (cr : Created S) (ans : Start)
  | send (t : O) (f : Φ) (ans : Start)
  | recv (t : O) (f : Φ) (ans : Start)
  | read (a : F) (f : Φ) (ans : Start)
  | write (a : F) (f : Φ) (ans : Start)
  | complete (k : Key O F)
  | notify
  | iterate
  | run (c : Completion)

def step : Act O F S Φ → Option (State O F S Φ)
  | .close t => asockClose s t
  | .listen t cr => asockListen s t cr
  | .accept t client f cr ans => asockAccept s t client f cr ans
  | .connect t f cr ans => asockConnect s t f cr ans
  | .send t f ans => asockSend s t f ans
  | .recv t f ans => asockRecv s t f ans
  | .read a f ans => afileRead s a f ans
  | .write a f ans => afileWrite s a f ans
  | .complete k => complete s k
  | .notify => some (ioqNotify s)
  | .iterate => ioqIterate s
  | .run c => runOne s c

/-- The operations that were started and are not yet called back. -/
def State.work : List (Key O F) := s.pending ++ (s.packets.reduceOption ++ s.jobs)

/-- What is known of an operation before its task runs. -/
def Op.early (op : Op Φ) : Option (ℕ × ℕ) :=
  if op.error = ioPending then none else some (op.error, if op.error = 0 then op.size else 0)

/-- The operations that are not yet called back, with their callbacks and what is known of them. -/
def State.outstanding (k : Key O F) : Option (Φ × Option (ℕ × ℕ)) :=
  if k ∈ s.work then (s.op k).func.map fun f => (f, (s.op k).early) else none

/-- The socket `t` has handed an accept to the system. -/
def Accepting (t : O) : Prop :=
  .ca t ∈ s.work ∧ (s.op (.ca t)).done = some .accept ∧ (s.op (.ca t)).error = ioPending

/-- A socket is being accepted for `t`. -/
def IsClient (t : O) : Prop := ∃ t', Accepting s t' ∧ s.caClient t' = some t

/-- The error of a call that has failed. -/
def Real (e : ℕ) : Prop := e ≠ 0 ∧ e ≠ ioPending

/-- A handle is new, and errors are errors. -/
def Created.Legal (free : S → Prop) : Created S → Prop
  | .refused e => Real e
  | .created h e => free h ∧ ∀ e' ∈ e, Real e'

/-- The handles of sockets are not set to do without packets. -/
def Start.OfSock : Start → Prop
  | .done posted _ => posted = true
  | .failed e => e ≠ 0

def Start.OfFile : Start → Prop
  | .done .. => True
  | .failed e => e ≠ 0

/-- The calls that may be made, and what the system may do. -/
def Legal : Act O F S Φ → Prop
  | .listen t cr => ¬IsClient s t ∧ cr.Legal fun h => h ∈ s.opened → s.sock t = some h
  | .accept t client _ cr ans => .ca t ∉ s.work ∧ s.sock client = none ∧ ¬IsClient s client ∧
    cr.Legal (· ∉ s.opened) ∧ ans.OfSock
  | .connect t _ cr ans => .ca t ∉ s.work ∧ ¬IsClient s t ∧
    cr.Legal (fun h => h ∈ s.opened → s.sock t = some h) ∧ ans.OfSock
  | .send t _ ans => .send t ∉ s.work ∧ ans.OfSock
  | .recv t _ ans => .recv t ∉ s.work ∧ ans.OfSock
  | .read a _ ans => .read a ∉ s.work ∧ ans.OfFile
  | .write a _ ans => .write a ∉ s.work ∧ ans.OfFile
  | .complete k => k ∈ s.pending
  | .iterate => s.packets ≠ []
  | .run _ => s.jobs ≠ []
  | .close _ | .notify => True

/-- Whether a call of these fails before the end. -/
def Created.Fails : Created S → Prop
  | .created _ none => False
  | _ => True

/-- A file is not written to or read from at once and also posted. -/
def Start.Unposted : Start → Prop
  | .done posted _ => posted = false
  | .failed _ => True

/-- The calls that work: `asock_connect` fails early only with the callback of the operation before it,
    which it does not replace; `asock_listen` does not fail while an operation can see the error; and
    a file that is done at once has no packet. -/
def Exact : Act O F S Φ → Prop
  | .listen t cr => cr.Fails → .ca t ∉ s.work
  | .connect t f cr _ => cr.Fails → (s.op (.ca t)).func = some f
  | .read _ _ ans | .write _ _ ans => ans.Unposted
  | _ => True

end Dlb.Windows
