import Mathlib.Data.Int.Notation
import Dlb.Links

/-!
# The resolver

`src/io/adns.c`, for one resolver and its requests `Q`. A section under the lock is one step, and so
is every store outside it that another thread may notice. What `getaddrinfo` returns is part of
the step.

At most one call of `adns_request_ask` for a request is before its section, so where it is can be
kept with the request; of the calls that are past their sections only the number matters. The
same holds of `adns_request_cancel`.
-/

namespace Dlb.Adns

/-- The arguments of `getaddrinfo`, with hints `H`. -/
structure Question (H : Type) where
  hostname : Option (List UInt8)
  service : Option (List UInt8)
  hints : Option H
  deriving DecidableEq

/-- `strncpy` into a buffer of 128 bytes, the last of which is then set to zero. -/
def copyName (name : List UInt8) : List UInt8 := name.take 127

/-- The copy that `peek_request` makes. -/
def Question.copy {H : Type} (req : Question H) : Question H :=
  { req with hostname := req.hostname.map copyName, service := req.service.map copyName }

/-- What `getaddrinfo` returns, with results `I`. -/
structure Answer (I : Type) where
  errCode : ℤ
  info : Option I
  deriving DecidableEq

/-- A call of `getaddrinfo` that has returned: the request and the number of its ask that it was made
for, its arguments and what it returned. -/
structure Lookup (Q H I : Type) where
  source : Q
  ask : ℕ
  req : Question H
  answer : Answer I
  deriving DecidableEq

/-- Where `adns_request_ask` is. -/
inductive Ask
  | idle
  | stored -- before `flags` is set
  | busy -- before the section
  deriving DecidableEq

/-- Where the worker is in `do_work`. It does not know the number of the ask. -/
inductive Worker (Q H I : Type)
  | peek
  | wait
  | clear
  | lookup (q : Q) (ask : ℕ) (req : Question H)
  | fulfill (q : Q) (ask : ℕ) (req : Question H) (ans : Answer I)
  | unlinked (q : Q) (ask : ℕ) (req : Question H) (ans : Answer I) -- before `flags` is cleared
  | cleared (q : Q) (ask : ℕ) (req : Question H) (ans : Answer I)
  | failed (q : Q) (ask : ℕ) (req : Question H) (ans : Answer I) -- `error` is set
  | ready (q : Q) (ask : ℕ) (req : Question H) (ans : Answer I) -- before `runq_task_exec`
  | exited
  deriving DecidableEq

structure State (Q H I Φ : Type) where
  /-- The resolver. -/
  requests : Links Q
  quit : Bool
  notify : Bool
  /-- The fields of the requests: the flag `REQUEST_BUSY` and the others. -/
  busy : Q → Bool
  question : Q → Question H
  func : Q → Φ
  result : Q → Option I
  error : Q → ℤ
  /-- The threads. -/
  worker : Worker Q H I
  ask : Q → Ask
  /-- Calls of `adns_request_ask` that are about to raise `notify`. -/
  raising : ℕ
  /-- Calls of `adns_request_cancel` that are about to submit the task. -/
  cancelling : Q → ℕ
  /-- How often the task is in the run queue. -/
  queued : Q → ℕ
  /-- A null pointer was followed. -/
  fault : Bool
  /-- A request is outstanding until its callback is invoked. -/
  outstanding : Q → Bool
  asks : Q → ℕ
  submissions : Q → ℕ
  /-- The last ask was cancelled. -/
  cancelled : Q → Bool
  /-- The calls of `getaddrinfo` that have returned. -/
  lookups : List (Lookup Q H I)

inductive Act (Q H I Φ : Type)
  | ask (q : Q) (req : Question H) (func : Φ)
  | askBusy (q : Q)
  | askLock (q : Q)
  | raise
  | cancel (q : Q)
  | cancelExec (q : Q)
  | peek
  | wait
  | clear
  | getaddrinfo (ans : Answer I)
  | fulfill
  | clearBusy
  | setError
  | setResult
  | exec
  | run (q : Q) -- the run queue invokes the callback
  | destroy

variable {Q H I Φ : Type}

/-- The requests as `adns_request_init` leaves them. -/
def State.init (func : Q → Φ) : State Q H I Φ where
  requests := Links.listInit
  quit := false
  notify := false
  busy _ := false
  question _ := ⟨none, none, none⟩
  func := func
  result _ := none
  error _ := 0
  worker := .peek
  ask _ := .idle
  raising := 0
  cancelling _ := 0
  queued _ := 0
  fault := false
  outstanding _ := false
  asks _ := 0
  submissions _ := 0
  cancelled _ := false
  lookups := []

variable [DecidableEq Q]

/-- The section of `peek_request`. -/
def peekRequest (s : State Q H I Φ) : State Q H I Φ :=
  if s.quit then { s with worker := .exited }
  else
    match s.requests.next .head with
    | .item q => { s with worker := .lookup q (s.asks q) (s.question q).copy }
    | _ => { s with worker := .wait }

/-- The section of `fulfill_request`. -/
def fulfillRequest (s : State Q H I Φ) (q : Q) (ask : ℕ) (req : Question H) (ans : Answer I) :
    State Q H I Φ :=
  if s.requests.next .head ≠ .item q then { s with worker := .peek }
  else
    match s.requests.listRemove q with
    | some requests => { s with requests := requests, worker := .unlinked q ask req ans }
    | none => { s with fault := true }

/-- `runq_task_exec` -/
def taskExec (s : State Q H I Φ) (q : Q) : State Q H I Φ :=
  { s with
    queued := Function.update s.queued q (s.queued q + 1)
    submissions := Function.update s.submissions q (s.submissions q + 1) }

/-- The steps of `adns_request_ask` and `adns_request_cancel`. -/
def clientStep (s : State Q H I Φ) : Act Q H I Φ → Option (State Q H I Φ)
  | .ask q req func =>
    if s.ask q = .idle then
      some { s with
        result := Function.update s.result q none
        question := Function.update s.question q req
        func := Function.update s.func q func
        ask := Function.update s.ask q .stored
        outstanding := Function.update s.outstanding q true
        asks := Function.update s.asks q (s.asks q + 1)
        cancelled := Function.update s.cancelled q false }
    else none
  | .askBusy q =>
    if s.ask q = .stored then
      some { s with
        busy := Function.update s.busy q true
        ask := Function.update s.ask q .busy }
    else none
  | .askLock q =>
    if s.ask q = .busy then
      some { s with
        requests := s.requests.listInsert q
        ask := Function.update s.ask q .idle
        raising := if s.requests.listIsEmpty then s.raising + 1 else s.raising }
    else none
  | .raise =>
    if s.raising ≠ 0 then some { s with raising := s.raising - 1, notify := true } else none
  | .cancel q =>
    if s.busy q then
      match s.requests.listRemove q with
      | some requests =>
        some { s with
          busy := Function.update s.busy q false
          requests := requests
          cancelling := Function.update s.cancelling q (s.cancelling q + 1)
          cancelled := Function.update s.cancelled q true }
      | none => some { s with fault := true }
    else some s
  | .cancelExec q =>
    if s.cancelling q ≠ 0 then
      some (taskExec { s with
        cancelling := Function.update s.cancelling q (s.cancelling q - 1) } q)
    else none
  | _ => none

/-- The steps of `do_work`. -/
def workerStep (s : State Q H I Φ) : Act Q H I Φ → Option (State Q H I Φ)
  | .peek =>
    match s.worker with
    | .peek => some (peekRequest s)
    | _ => none
  | .wait =>
    match s.worker with
    | .wait => if s.notify then some { s with worker := .clear } else none
    | _ => none
  | .clear =>
    match s.worker with
    | .clear => some { s with notify := false, worker := .peek }
    | _ => none
  | .getaddrinfo ans =>
    match s.worker with
    | .lookup q ask req =>
      some { s with worker := .fulfill q ask req ans, lookups := s.lookups ++ [⟨q, ask, req, ans⟩] }
    | _ => none
  | .fulfill =>
    match s.worker with
    | .fulfill q ask req ans => some (fulfillRequest s q ask req ans)
    | _ => none
  | .clearBusy =>
    match s.worker with
    | .unlinked q ask req ans =>
      some { s with busy := Function.update s.busy q false, worker := .cleared q ask req ans }
    | _ => none
  | .setError =>
    match s.worker with
    | .cleared q ask req ans =>
      some { s with
        error := Function.update s.error q ans.errCode
        worker := .failed q ask req ans }
    | _ => none
  | .setResult =>
    match s.worker with
    | .failed q ask req ans =>
      some { s with result := Function.update s.result q ans.info, worker := .ready q ask req ans }
    | _ => none
  | .exec =>
    match s.worker with
    | .ready q _ _ _ => some (taskExec { s with worker := .peek } q)
    | _ => none
  | _ => none

/-- A step, unless the program has crashed. -/
def step (s : State Q H I Φ) (a : Act Q H I Φ) : Option (State Q H I Φ) :=
  if s.fault then none
  else
    match a with
    | .ask .. | .askBusy _ | .askLock _ | .raise | .cancel _ | .cancelExec _ => clientStep s a
    | .run q =>
      if s.queued q ≠ 0 then
        some { s with
          queued := Function.update s.queued q (s.queued q - 1)
          outstanding := Function.update s.outstanding q false }
      else none
    | .destroy =>
      -- `notify` is raised after the section.
      some { s with quit := true, raising := s.raising + 1 }
    | _ => workerStep s a

/-- A request is asked only if it is not outstanding. -/
def Legal (s : State Q H I Φ) : Act Q H I Φ → Prop
  | .ask q .. => s.outstanding q = false
  | .askBusy _ | .askLock _ | .raise | .cancel _ | .cancelExec _ | .peek | .wait | .clear
  | .getaddrinfo _ | .fulfill | .clearBusy | .setError | .setResult | .exec | .run _
  | .destroy => True

omit [DecidableEq Q] in
instance (s : State Q H I Φ) : DecidablePred (Legal s)
  | .ask q .. => inferInstanceAs (Decidable (s.outstanding q = false))
  | .askBusy _ | .askLock _ | .raise | .cancel _ | .cancelExec _ | .peek | .wait | .clear
  | .getaddrinfo _ | .fulfill | .clearBusy | .setError | .setResult | .exec | .run _
  | .destroy => .isTrue trivial

end Dlb.Adns
