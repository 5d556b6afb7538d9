import Mathlib.Data.Finset.Insert
import Mathlib.Data.Finset.SDiff
import Mathlib.Data.Nat.Notation
import Mathlib.Logic.Function.Basic
import Dlb.IoqFd

/-!
# Asynchronous sockets

`src/io/asock_posix.c`, for one socket. A section under `wait_lock` or `dispatch_lock` is one step,
and so are the accesses between two of them. `wait_end` and `dispatch_func` begin with such a
section, so it is there that they are invoked. What the system calls return is part of the step.

A thread is in one call at a time; a call that is made from a callback is one of another thread.
-/

namespace Dlb

/-- The bits of `wait_ops` and `dispatch_queue`. -/
inductive Asock.Op
  | connect
  | accept
  | send
  | recv
  | cancel
  deriving DecidableEq

/-- `struct asock`, with callbacks `Φ`, pointers to data `P` and other sockets `K`. -/
structure Asock (Φ P K : Type) where
  sock : ℤ
  caFunc : Φ
  caError : ℤ
  caAddr : P
  caSize : ℕ
  caClient : K
  sendFunc : Φ
  sendData : P
  sendSize : ℕ
  sendError : ℤ
  recvFunc : Φ
  recvData : P
  recvSize : ℕ
  recvError : ℤ
  waitFd : IoqFd
  waitOps : Finset Asock.Op
  dispatchQueue : Finset Asock.Op

namespace Asock

variable {Φ P K T : Type}

/-- The result of a system call, and the last error after it. -/
structure Answer where
  r : ℤ
  errno : ℤ

def eagain : ℤ := 11

def ebadf : ℤ := 9

def einprogress : ℤ := 115

def asockInit (func : Φ) (data : P) (client : K) : Asock Φ P K where
  sock := -1
  caFunc := func
  caError := 0
  caAddr := data
  caSize := 0
  caClient := client
  sendFunc := func
  sendData := data
  sendSize := 0
  sendError := 0
  recvFunc := func
  recvData := data
  recvSize := 0
  recvError := 0
  waitFd := IoqFd.ioqFdInit
  waitOps := ∅
  dispatchQueue := ∅

/-! ## The wait process -/

def waitMask (ops : Finset Op) : UInt32 :=
  (if .connect ∈ ops ∨ .send ∈ ops then IoqFd.eventOut else 0) |||
    if .connect ∈ ops ∨ .accept ∈ ops ∨ .recv ∈ ops then
      IoqFd.eventIn ||| IoqFd.eventErr ||| IoqFd.eventHup
    else 0

/-- Whether the connection was made or has failed, and the socket. -/
def waitConnect (t : Asock Φ P K) (ans : Answer) : Bool × Asock Φ P K :=
  if ans.r < 0 then
    if ans.errno = eagain then (false, t) else (true, { t with caError := ans.errno })
  else (true, { t with caError := 0 })

/-- The new descriptor goes to the client, which is another socket. -/
def waitAccept (t : Asock Φ P K) (ans : Answer) : Bool × Asock Φ P K :=
  if t.waitFd.ready &&& (IoqFd.eventIn ||| IoqFd.eventOut ||| IoqFd.eventErr) = 0 then (false, t)
  else if ans.r < 0 then
    if ans.errno = eagain then (false, t) else (true, { t with caError := ans.errno })
  else (true, { t with caError := 0 })

def waitSend (t : Asock Φ P K) (ans : Answer) : Bool × Asock Φ P K :=
  if t.waitFd.ready &&& (IoqFd.eventOut ||| IoqFd.eventErr) = 0 then (false, t)
  else if ans.r < 0 then
    if ans.errno = eagain then (false, t)
    else (true, { t with sendError := ans.errno, sendSize := 0 })
  else (true, { t with sendSize := ans.r.toNat, sendError := 0 })

def waitRecv (t : Asock Φ P K) (ans : Answer) : Bool × Asock Φ P K :=
  if t.waitFd.ready &&& IoqFd.eventHup ≠ 0 then (true, { t with recvSize := 0, recvError := 0 })
  else if t.waitFd.ready &&& (IoqFd.eventIn ||| IoqFd.eventHup) = 0 then (false, t)
  else if ans.r < 0 then
    if ans.errno = eagain then (false, t)
    else (true, { t with recvError := ans.errno, recvSize := 0 })
  else (true, { t with recvSize := ans.r.toNat, recvError := 0 })

/-- What the system calls of `wait_end` return. -/
structure Answers where
  connect : Answer
  accept : Answer
  send : Answer
  recv : Answer

/-- The operation `op`, if it is waited for. -/
def attempt (op : Op) (f : Asock Φ P K → Bool × Asock Φ P K) (r : Finset Op × Asock Φ P K) :
    Finset Op × Asock Φ P K :=
  if op ∈ r.2.waitOps then
    let (done, t) := f r.2
    (if done then insert op r.1 else r.1, t)
  else r

/-- The operations that are complete, in the second branch of `wait_end`. -/
def tryOps (t : Asock Φ P K) (ans : Answers) : Finset Op × Asock Φ P K :=
  attempt .recv (waitRecv · ans.recv) <|
    attempt .send (waitSend · ans.send) <|
      attempt .accept (waitAccept · ans.accept) <|
        attempt .connect (waitConnect · ans.connect) (∅, t)

/-- All operations fail. -/
def failOps (t : Asock Φ P K) (e : ℤ) : Asock Φ P K :=
  let t := if .connect ∈ t.waitOps ∨ .accept ∈ t.waitOps then { t with caError := e } else t
  let t := if .send ∈ t.waitOps then { t with sendSize := 0, sendError := e } else t
  if .recv ∈ t.waitOps then { t with recvSize := 0, recvError := e } else t

/-- The section of `wait_end`: the operations to dispatch, and the socket. -/
def waitEnd (t : Asock Φ P K) (ans : Answers) : Finset Op × Asock Φ P K :=
  if .cancel ∈ t.waitOps ∨ t.waitFd.err ≠ 0 then
    (t.waitOps, { failOps t t.waitFd.err with waitOps := ∅ })
  else
    let (mask, t) := tryOps t ans
    let ops := t.waitOps \ mask
    (mask, { t with
      waitOps := ops
      waitFd := if ops ≠ ∅ then IoqFd.ioqFdWait t.waitFd (waitMask ops) else t.waitFd })

/-- The section of `wait_begin` for an operation. -/
def waitBegin (t : Asock Φ P K) (op : Op) : Asock Φ P K :=
  let ops := insert op t.waitOps
  { t with
    waitOps := ops
    waitFd := if t.waitOps ≠ ∅ then IoqFd.ioqFdRewait t.waitFd (waitMask ops)
      else IoqFd.ioqFdWait t.waitFd (waitMask ops) }

/-- The section of `wait_begin` for `OP_CANCEL`: what was waited for, and the socket. -/
def waitBeginCancel (t : Asock Φ P K) : Finset Op × Asock Φ P K :=
  (t.waitOps,
    if t.waitOps ≠ ∅ then
      { t with waitOps := insert .cancel t.waitOps, waitFd := IoqFd.ioqFdCancel t.waitFd }
    else t)

/-- A wait object that is initialized while a wait is outstanding is misused. -/
def waitInit (t : Asock Φ P K) : Asock Φ P K :=
  { t with
    waitFd := { IoqFd.ioqFdInit with misused := t.waitFd.misused || t.waitFd.phase != .idle }
    waitOps := ∅ }

/-! ## The system -/

/-- Where `dispatch_push` is called. -/
inductive Caller
  | call
  | waitEnd
  deriving DecidableEq

/-- Where a thread is. -/
inductive Pc
  | idle
  | connectInit -- `asock_connect` before `wait_init`
  | connecting -- `asock_connect` after `wait_init`
  | listenInit
  | listening
  | begin (op : Op) -- before `wait_begin`
  | closing -- `asock_close` before `wait_begin`
  | closed (r : Finset Op)
  | push (c : Caller) (ops : Finset Op) -- before the section of `dispatch_push`
  | submit (c : Caller) -- before the `runq_task_exec` of `dispatch_push`
  | dispatch (ops : Finset Op) -- `dispatch_func`, with these callbacks left
  deriving DecidableEq

structure State (Φ P K T : Type) where
  asock : Asock Φ P K
  thread : T → Pc
  /-- How often the dispatch task is in the run queue. -/
  queued : ℕ
  /-- `asock_connect` or `asock_listen` is before its `wait_init`. -/
  opening : Bool
  /-- The operations whose functions were called, and that were not yet called back. -/
  outstanding : Finset Op
  /-- How often an operation was called, and how often it was called back. -/
  requests : Op → ℕ
  callbacks : Op → ℕ
  /-- The dispatch task was submitted while it was in the run queue. -/
  resubmitted : Bool

inductive Act (Φ P K T : Type)
  | connect (th : T) (sa : P) (saLen : ℕ) (func : Φ) (socket : Answer)
  | connectInit (th : T)
  | connecting (th : T) (errno : ℤ)
  | listen (th : T) (socket : Answer)
  | listenInit (th : T)
  | listening (th : T) (setsockopt bind listen : Answer)
  | accept (th : T) (client : K) (func : Φ)
  | send (th : T) (data : P) (len : ℕ) (func : Φ)
  | recv (th : T) (data : P) (maxLen : ℕ) (func : Φ)
  | begin (th : T)
  | close (th : T)
  | closing (th : T)
  | closed (th : T)
  | finish (ready : UInt32) (err : ℤ) -- the wait ends
  | waitEnd (th : T) (ans : Answers)
  | push (th : T)
  | submit (th : T)
  | dispatch (th : T)
  | callback (th : T)

def State.init (func : Φ) (data : P) (client : K) : State Φ P K T where
  asock := asockInit func data client
  thread _ := .idle
  queued := 0
  opening := false
  outstanding := ∅
  requests _ := 0
  callbacks _ := 0
  resubmitted := false

variable [DecidableEq T]

def goto (s : State Φ P K T) (th : T) (pc : Pc) : State Φ P K T :=
  { s with thread := Function.update s.thread th pc }

/-- The operation is called. -/
def request (s : State Φ P K T) (op : Op) : State Φ P K T :=
  { s with
    outstanding := insert op s.outstanding
    requests := Function.update s.requests op (s.requests op + 1) }

/-- The callback of the operations `ops` is invoked. -/
def answer (s : State Φ P K T) (ops : Finset Op) : State Φ P K T :=
  { s with
    outstanding := s.outstanding \ ops
    callbacks := fun op => if op ∈ ops then s.callbacks op + 1 else s.callbacks op }

/-- The steps of `asock_connect` and `asock_listen`. -/
def openStep (s : State Φ P K T) : Act Φ P K T → Option (State Φ P K T)
  | .connect th sa saLen func socket =>
    if s.thread th = .idle then
      let t := { s.asock with caFunc := func, caAddr := sa, caSize := saLen, sock := socket.r }
      if socket.r < 0 then
        some (goto { request s .connect with asock := { t with caError := socket.errno } } th
          (.push .call {.connect}))
      else some (goto { request s .connect with asock := t, opening := true } th .connectInit)
    else none
  | .connectInit th =>
    if s.thread th = .connectInit then
      some (goto { s with asock := waitInit s.asock, opening := false } th .connecting)
    else none
  | .connecting th errno =>
    if s.thread th = .connecting then
      if errno ≠ einprogress then
        some (goto { s with asock := { s.asock with caError := errno } } th
          (.push .call {.connect}))
      else some (goto s th (.begin .connect))
    else none
  | .listen th socket =>
    if s.thread th = .idle then
      let t := { s.asock with sock := socket.r }
      if socket.r < 0 then some { s with asock := { t with caError := socket.errno } }
      else some (goto { s with asock := t, opening := true } th .listenInit)
    else none
  | .listenInit th =>
    if s.thread th = .listenInit then
      some (goto { s with asock := waitInit s.asock, opening := false } th .listening)
    else none
  | .listening th setsockopt bind listen =>
    if s.thread th = .listening then
      let fail := fun ans : Answer =>
        some (goto { s with asock := { s.asock with caError := ans.errno } } th .idle)
      if setsockopt.r < 0 then fail setsockopt
      else if bind.r < 0 then fail bind
      else if listen.r < 0 then fail listen
      else some (goto s th .idle)
    else none
  | _ => none

/-- The steps of the other calls. -/
def callStep (s : State Φ P K T) : Act Φ P K T → Option (State Φ P K T)
  | .accept th client func =>
    if s.thread th = .idle then
      let t := { s.asock with caClient := client, caFunc := func }
      if t.sock < 0 then
        some (goto { request s .accept with asock := { t with caError := ebadf } } th
          (.push .call {.accept}))
      else some (goto { request s .accept with asock := t } th (.begin .accept))
    else none
  | .send th data len func =>
    if s.thread th = .idle then
      let t := { s.asock with sendData := data, sendSize := len, sendFunc := func }
      if t.sock < 0 then
        some (goto { request s .send with asock := { t with sendError := ebadf } } th
          (.push .call {.send}))
      else some (goto { request s .send with asock := t } th (.begin .send))
    else none
  | .recv th data maxLen func =>
    if s.thread th = .idle then
      let t := { s.asock with recvData := data, recvSize := maxLen, recvFunc := func }
      if t.sock < 0 then
        some (goto { request s .recv with asock := { t with recvError := ebadf } } th
          (.push .call {.recv}))
      else some (goto { request s .recv with asock := t } th (.begin .recv))
    else none
  | .begin th =>
    match s.thread th with
    | .begin op => some (goto { s with asock := waitBegin s.asock op } th .idle)
    | _ => none
  | .close th =>
    if s.thread th = .idle then
      if s.asock.sock < 0 then some s else some (goto s th .closing)
    else none
  | .closing th =>
    if s.thread th = .closing then
      let (r, t) := waitBeginCancel s.asock
      some (goto { s with asock := t } th (.closed r))
    else none
  | .closed th =>
    -- The descriptor is closed here if nothing was waited for.
    match s.thread th with
    | .closed _ => some (goto { s with asock := { s.asock with sock := -1 } } th .idle)
    | _ => none
  | _ => none

/-- The steps of `wait_end`, `dispatch_push` and `dispatch_func`. -/
def eventStep (s : State Φ P K T) : Act Φ P K T → Option (State Φ P K T)
  | .finish ready err =>
    (s.asock.waitFd.finish ready err).map fun fd =>
      { s with asock := { s.asock with waitFd := fd } }
  | .waitEnd th ans =>
    if s.thread th = .idle then
      s.asock.waitFd.deliver.map fun fd =>
        let (mask, t) := waitEnd { s.asock with waitFd := fd } ans
        goto { s with asock := t } th (if mask = ∅ then .idle else .push .waitEnd mask)
    else none
  | .push th =>
    match s.thread th with
    | .push c ops =>
      some (goto { s with
        asock := { s.asock with dispatchQueue := s.asock.dispatchQueue ∪ ops } } th
          (if s.asock.dispatchQueue = ∅ ∧ ops ≠ ∅ then .submit c else .idle))
    | _ => none
  | .submit th =>
    match s.thread th with
    | .submit _ =>
      some (goto { s with
        queued := s.queued + 1
        resubmitted := s.resubmitted || s.queued != 0 } th .idle)
    | _ => none
  | .dispatch th =>
    if s.thread th = .idle ∧ s.queued ≠ 0 then
      some (goto { s with
        queued := s.queued - 1
        asock := { s.asock with dispatchQueue := ∅ } } th (.dispatch s.asock.dispatchQueue))
    else none
  | .callback th =>
    -- The callbacks in the order of `dispatch_func`.
    match s.thread th with
    | .dispatch ops =>
      if .connect ∈ ops ∨ .accept ∈ ops then
        some (goto (answer s (ops ∩ {.connect, .accept})) th (.dispatch (ops \ {.connect, .accept})))
      else if .send ∈ ops then some (goto (answer s {.send}) th (.dispatch (ops \ {.send})))
      else if .recv ∈ ops then some (goto (answer s {.recv}) th (.dispatch (ops \ {.recv})))
      else some (goto s th .idle)
    | _ => none
  | _ => none

def step (s : State Φ P K T) (a : Act Φ P K T) : Option (State Φ P K T) :=
  match a with
  | .connect .. | .connectInit _ | .connecting .. | .listen .. | .listenInit _ | .listening .. =>
    openStep s a
  | .accept .. | .send .. | .recv .. | .begin _ | .close _ | .closing _ | .closed _ => callStep s a
  | _ => eventStep s a

/-- At most one operation of each kind is outstanding, `asock_connect` and `asock_listen` are called
only if none is, and no operation is called while one of these two is before its `wait_init`. -/
def Legal (s : State Φ P K T) : Act Φ P K T → Prop
  | .connect .. | .listen .. => s.outstanding = ∅ ∧ s.opening = false
  | .accept .. => .connect ∉ s.outstanding ∧ .accept ∉ s.outstanding ∧ s.opening = false
  | .send .. => .send ∉ s.outstanding ∧ s.opening = false
  | .recv .. => .recv ∉ s.outstanding ∧ s.opening = false
  | .connectInit _ | .connecting .. | .listenInit _ | .listening .. | .begin _ | .close _
  | .closing _ | .closed _ | .finish .. | .waitEnd .. | .push _ | .submit _ | .dispatch _
  | .callback _ => True

omit [DecidableEq T] in
instance (s : State Φ P K T) : DecidablePred (Legal s)
  | .connect .. | .listen .. => inferInstanceAs (Decidable (s.outstanding = ∅ ∧ s.opening = false))
  | .accept .. => inferInstanceAs
      (Decidable (.connect ∉ s.outstanding ∧ .accept ∉ s.outstanding ∧ s.opening = false))
  | .send .. => inferInstanceAs (Decidable (.send ∉ s.outstanding ∧ s.opening = false))
  | .recv .. => inferInstanceAs (Decidable (.recv ∉ s.outstanding ∧ s.opening = false))
  | .connectInit _ | .connecting .. | .listenInit _ | .listening .. | .begin _ | .close _
  | .closing _ | .closed _ | .finish .. | .waitEnd .. | .push _ | .submit _ | .dispatch _
  | .callback _ => .isTrue trivial

end Asock

end Dlb
