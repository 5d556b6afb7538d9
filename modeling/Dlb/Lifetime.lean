import Mathlib.Data.Finset.Basic
import Dlb.Machine
import Dlb.Resource

/-!
# The lifetimes of the objects

What `runq_init`, `waitq_init`, `ioq_init`, `adns_resolver_init` and `mailbox_init` acquire, and what
they and the functions that destroy these objects release (`src/io`, with `thr.h` for both of its
platforms). The resources are mutexes, events, threads, blocks of memory and descriptors; an answer
says of each one that can be refused whether it is given.

* `run_lifetimes`: if every thread starts, the resources held are those of the objects that have been
  created and not destroyed, and the mutex and the event of each resolver that was destroyed;
* `runqInit_destroy_iff`: `pthread_create` fails with a positive number, which no caller of
  `thr_start` notices, and then `runq_destroy` joins a thread that was never started.
-/

namespace Dlb.Lifetime

open Resource Machine

/-- The two versions of `thr.h`. -/
inductive Platform
  | posix
  | windows
  deriving DecidableEq

/-- The parts of an `ioq` that have a mutex: the object itself, its run queue and its wait queue. -/
inductive Part
  | self
  | run
  | wait
  deriving DecidableEq

/-- The resources of the object at `o`: its mutexes, the array of workers, their events and threads,
    the ends of the pipe, the descriptor of epoll, and the completion port. -/
inductive Res (O : Type)
  | lock (o : O) (part : Part)
  | workers (o : O)
  | event (o : O) (i : ℕ)
  | thread (o : O) (i : ℕ)
  | intr (o : O) (i : ℕ)
  | epoll (o : O)
  | iocp (o : O)
  deriving DecidableEq

def Res.owner {O : Type} : Res O → O
  | lock o _ | workers o | event o _ | thread o _ | intr o _ | epoll o | iocp o => o

/-- What is given in a call, and whether `epoll_ctl` succeeds. -/
structure Answers (O : Type) where
  given : Res O → Bool
  ctl : Bool

variable {O : Type} [DecidableEq O]

/-! ## `thr.h` -/

def thrMutexInit (r : Res O) : Prog (Res O) Unit := acquire r

def thrMutexDestroy (r : Res O) : Prog (Res O) Unit := release r

def thrEventInit (p : Platform) (a : Answers O) (r : Res O) : Prog (Res O) ℤ :=
  match p with
  | .posix => do
    acquire r
    return 0
  | .windows => do
    if ← tryAcquire (a.given r) r then return 0
    return -1

def thrEventDestroy (r : Res O) : Prog (Res O) Unit := release r

/-- What `thr_start` returns without a thread: on POSIX that is what `pthread_create` returns, such as
    `EAGAIN`. -/
def startError : Platform → ℤ
  | .posix => 11
  | .windows => -1

def thrStart (p : Platform) (a : Answers O) (r : Res O) : Prog (Res O) ℤ := do
  if ← tryAcquire (a.given r) r then return 0
  return startError p

def thrJoin (r : Res O) : Prog (Res O) Unit := release r

/-! ## `runq.c` -/

def joinWorker (o : O) (i : ℕ) : Prog (Res O) Unit := do
  thrJoin (.thread o i)
  thrEventDestroy (.event o i)

def initWorker (p : Platform) (a : Answers O) (o : O) (i : ℕ) : Prog (Res O) ℤ := do
  if (← thrEventInit p a (.event o i)) < 0 then return -1
  if (← thrStart p a (.thread o i)) < 0 then
    thrEventDestroy (.event o i)
    return -1
  return 0

/-- The workers below `i` are joined, the last one first. -/
def joinBelow (o : O) : ℕ → Prog (Res O) Unit
  | 0 => return ()
  | i + 1 => do
    joinWorker o i
    joinBelow o i

/-- The loop of `runq_init` from the worker `i` on, of which there are `k` left. -/
def initLoop (p : Platform) (a : Answers O) (o : O) : ℕ → ℕ → Prog (Res O) ℤ
  | 0, _ => return 0
  | k + 1, i => do
    if (← initWorker p a o i) < 0 then
      joinBelow o i
      release (.workers o)
      thrMutexDestroy (.lock o .run)
      return -1
    initLoop p a o k (i + 1)

def runqInit (p : Platform) (a : Answers O) (o : O) (bgWorkers : ℕ) : Prog (Res O) ℤ := do
  thrMutexInit (.lock o .run)
  if bgWorkers = 0 then return 0
  if !(← tryAcquire (a.given (.workers o)) (.workers o)) then
    thrMutexDestroy (.lock o .run)
    return -1
  initLoop p a o bgWorkers 0

/-- The loop of `runq_destroy`. -/
def joinFrom (o : O) : ℕ → ℕ → Prog (Res O) Unit
  | 0, _ => return ()
  | k + 1, i => do
    joinWorker o i
    joinFrom o k (i + 1)

def runqDestroy (o : O) (numWorkers : ℕ) : Prog (Res O) Unit := do
  if numWorkers ≠ 0 then
    joinFrom o numWorkers 0
    release (.workers o)
  thrMutexDestroy (.lock o .run)

/-! ## `waitq.c`, `ioq_linux.c`, `ioq_windows.c`, `adns.c` and `mailbox.c` -/

def waitqInit (o : O) : Prog (Res O) Unit := thrMutexInit (.lock o .wait)

def waitqDestroy (o : O) : Prog (Res O) Unit := thrMutexDestroy (.lock o .wait)

/-- From the label `fail_pipe` on. -/
def failPipe (o : O) (bgThreads : ℕ) : Prog (Res O) ℤ := do
  thrMutexDestroy (.lock o .self)
  waitqDestroy o
  runqDestroy o bgThreads
  return -1

/-- From the label `fail_epoll` on. -/
def failEpoll (o : O) (bgThreads : ℕ) : Prog (Res O) ℤ := do
  release (.intr o 0)
  release (.intr o 1)
  failPipe o bgThreads

/-- `pipe` gives both ends, or none. -/
def pipe (a : Answers O) (o : O) : Prog (Res O) Bool := do
  if !(← tryAcquire (a.given (.intr o 0)) (.intr o 0)) then return false
  acquire (.intr o 1)
  return true

/-- In `ioq_linux.c`, and in `ioq_windows.c`. -/
def ioqInit (p : Platform) (a : Answers O) (o : O) (bgThreads : ℕ) : Prog (Res O) ℤ :=
  match p with
  | .posix => do
    if (← runqInit .posix a o bgThreads) < 0 then return -1
    waitqInit o
    thrMutexInit (.lock o .self)
    if !(← pipe a o) then return ← failPipe o bgThreads
    if !(← tryAcquire (a.given (.epoll o)) (.epoll o)) then return ← failEpoll o bgThreads
    if !a.ctl then
      release (.epoll o)
      return ← failEpoll o bgThreads
    return 0
  | .windows => do
    if (← runqInit .windows a o bgThreads) < 0 then return -1
    waitqInit o
    if !(← tryAcquire (a.given (.iocp o)) (.iocp o)) then
      waitqDestroy o
      runqDestroy o bgThreads
      return -1
    return 0

def ioqDestroy (p : Platform) (o : O) (bgThreads : ℕ) : Prog (Res O) Unit :=
  match p with
  | .posix => do
    runqDestroy o bgThreads
    waitqDestroy o
    thrMutexDestroy (.lock o .self)
    release (.intr o 0)
    release (.intr o 1)
    release (.epoll o)
  | .windows => do
    release (.iocp o)
    waitqDestroy o
    runqDestroy o bgThreads

def adnsResolverInit (p : Platform) (a : Answers O) (o : O) : Prog (Res O) ℤ := do
  if (← thrEventInit p a (.event o 0)) < 0 then return -1
  thrMutexInit (.lock o .self)
  if (← thrStart p a (.thread o 0)) < 0 then
    thrEventDestroy (.event o 0)
    thrMutexDestroy (.lock o .self)
    return -1
  return 0

/-- The event and the mutex are not destroyed. -/
def adnsResolverDestroy (o : O) : Prog (Res O) Unit := thrJoin (.thread o 0)

def mailboxInit (o : O) : Prog (Res O) Unit := thrMutexInit (.lock o .self)

def mailboxDestroy (o : O) : Prog (Res O) Unit := thrMutexDestroy (.lock o .self)

/-! ## Events and threads -/

variable {p : Platform} {a : Answers O} {o : O} {D A : Set (Res O)} {r : Res O} {i j k n : ℕ}

/-- The resources of the object at `o`. -/
def resources (o : O) : Set (Res O) := {r | r.owner = o}

omit [DecidableEq O] in
theorem lock_mem (o : O) (q : Part) : Res.lock o q ∈ resources o := rfl

omit [DecidableEq O] in
theorem workers_mem (o : O) : Res.workers o ∈ resources o := rfl

omit [DecidableEq O] in
theorem event_mem (o : O) (i : ℕ) : Res.event o i ∈ resources o := rfl

omit [DecidableEq O] in
theorem thread_mem (o : O) (i : ℕ) : Res.thread o i ∈ resources o := rfl

omit [DecidableEq O] in
theorem intr_mem (o : O) (i : ℕ) : Res.intr o i ∈ resources o := rfl

omit [DecidableEq O] in
theorem epoll_mem (o : O) : Res.epoll o ∈ resources o := rfl

omit [DecidableEq O] in
theorem iocp_mem (o : O) : Res.iocp o ∈ resources o := rfl

/-- The events of the workers from `i` to `j`, and the threads of those that were started. -/
def workers (a : Answers O) (o : O) (i j : ℕ) : Set (Res O) :=
  {r | ∃ m, i ≤ m ∧ m < j ∧ (r = .event o m ∨ r = .thread o m ∧ a.given (.thread o m))}

theorem thrEventInit_takes (hD : r ∈ D) (hr : r ∉ A) :
    Takes D A (thrEventInit p a r) 0 (insert r A) ∨
      p = .windows ∧ Takes D A (thrEventInit p a r) (-1) A := by
  cases p with
  | posix => exact .inl ((takes_acquire hD hr).bind takes_pure)
  | windows =>
    rw [thrEventInit]
    cases a.given r with
    | true => exact .inl ((takes_tryAcquire hD hr).bind takes_pure)
    | false => exact .inr ⟨rfl, takes_refused.bind takes_pure⟩

theorem thrStart_takes (hD : r ∈ D) (hr : r ∉ A) :
    a.given r = true ∧ Takes D A (thrStart p a r) 0 (insert r A) ∨
      a.given r = false ∧ Takes D A (thrStart p a r) (startError p) A := by
  rw [thrStart]
  cases a.given r with
  | true => exact .inl ⟨rfl, (takes_tryAcquire hD hr).bind takes_pure⟩
  | false => exact .inr ⟨rfl, takes_refused.bind takes_pure⟩

/-! ## Workers -/

omit [DecidableEq O] in
theorem mem_workers : r ∈ workers a o i j ↔
    ∃ m, i ≤ m ∧ m < j ∧ (r = .event o m ∨ r = .thread o m ∧ a.given (.thread o m)) := Iff.rfl

omit [DecidableEq O] in
theorem workers_self : workers a o i i = ∅ :=
  Set.eq_empty_of_forall_notMem fun _ ⟨_, h₁, h₂, _⟩ => (h₁.trans_lt h₂).false

omit [DecidableEq O] in
theorem workers_split (hik : i ≤ k) (hkj : k ≤ j) :
    workers a o i j = workers a o i k ∪ workers a o k j := by
  ext r
  simp only [mem_workers, Set.mem_union]
  constructor
  · rintro ⟨m, h₁, h₂, h⟩
    exact (Nat.lt_or_ge m k).imp (fun hm => ⟨m, h₁, hm, h⟩) fun hm => ⟨m, hm, h₂, h⟩
  · rintro (⟨m, h₁, h₂, h⟩ | ⟨m, h₁, h₂, h⟩)
    · exact ⟨m, h₁, h₂.trans_le hkj, h⟩
    · exact ⟨m, hik.trans h₁, h₂, h⟩

omit [DecidableEq O] in
theorem mem_workers_one : r ∈ workers a o i (i + 1) ↔
    r = .event o i ∨ r = .thread o i ∧ a.given (.thread o i) := by
  constructor
  · rintro ⟨m, h₁, h₂, h⟩
    obtain rfl : m = i := by omega
    exact h
  · exact fun h => ⟨i, le_rfl, Nat.lt_succ_self i, h⟩

/-- Neither the event nor the thread of the worker `i` is in `A`. -/
def Lacks (A : Set (Res O)) (o : O) (i : ℕ) : Prop := .event o i ∉ A ∧ .thread o i ∉ A

omit [DecidableEq O] in
theorem Lacks.union_workers (h : Lacks A o k) (hk : k < i ∨ j ≤ k) : Lacks (A ∪ workers a o i j) o k := by
  refine ⟨?_, ?_⟩
  · rintro (hm | ⟨m, h₁, h₂, h₃ | ⟨h₃, -⟩⟩)
    · exact h.1 hm
    · obtain rfl := (Res.event.inj h₃).2
      omega
    · cases h₃
  · rintro (hm | ⟨m, h₁, h₂, h₃ | ⟨h₃, -⟩⟩)
    · exact h.2 hm
    · cases h₃
    · obtain rfl := (Res.thread.inj h₃).2
      omega

/-- A worker is joined that was started. -/
theorem joinWorker_takes (h : Lacks A o i) (hi : a.given (.thread o i) = true) :
    Takes (resources o) (A ∪ workers a o i (i + 1)) (joinWorker o i) () A := by
  have hset : A ∪ workers a o i (i + 1) = insert (.thread o i) (insert (.event o i) A) := by
    ext r
    simp only [Set.mem_union, mem_workers_one, hi, and_true, Set.mem_insert_iff]
    tauto
  have hne : (Res.thread o i) ∉ insert (.event o i) A := by
    rintro (h' | h')
    · cases h'
    · exact h.2 h'
  rw [hset]
  exact (takes_release_insert (thread_mem o i) hne).bind (takes_release_insert (event_mem o i) h.1)

theorem joinBelow_takes (h : ∀ j < i, Lacks A o j) (hi : ∀ j < i, a.given (.thread o j) = true) :
    Takes (resources o) (A ∪ workers a o 0 i) (joinBelow o i) () A := by
  induction i with
  | zero =>
    rw [workers_self, Set.union_empty]
    exact takes_pure
  | succ i ih =>
    rw [workers_split (Nat.zero_le i) (Nat.le_succ i), ← Set.union_assoc]
    refine (joinWorker_takes ((h i i.lt_succ_self).union_workers (.inr le_rfl))
      (hi i i.lt_succ_self)).bind ?_
    exact ih (fun j hj => h j (hj.trans i.lt_succ_self)) fun j hj => hi j (hj.trans i.lt_succ_self)

theorem joinFrom_takes (h : ∀ j, Lacks A o j) (hi : ∀ j < i + k, a.given (.thread o j) = true) :
    Takes (resources o) (A ∪ workers a o i (i + k)) (joinFrom o k i) () A := by
  induction k generalizing i with
  | zero =>
    rw [Nat.add_zero, workers_self, Set.union_empty]
    exact takes_pure
  | succ k ih =>
    rw [workers_split i.le_succ (show i + 1 ≤ i + (k + 1) by omega), Set.union_comm (workers a o i _),
      ← Set.union_assoc, show i + (k + 1) = i + 1 + k by omega]
    refine (joinWorker_takes ((h i).union_workers (.inl i.lt_succ_self)) (hi i (by omega))).bind ?_
    exact ih fun j hj => hi j (by omega)

/-- Whether a worker is there depends only on its event and, on Windows, on its thread. -/
theorem initWorker_takes (h : Lacks A o i) :
    Takes (resources o) A (initWorker p a o i) 0 (A ∪ workers a o i (i + 1)) ∧
        (p = .windows → a.given (.thread o i) = true) ∨
      p = .windows ∧ Takes (resources o) A (initWorker p a o i) (-1) A := by
  have hset : a.given (.thread o i) = true →
      A ∪ workers a o i (i + 1) = insert (.thread o i) (insert (.event o i) A) := by
    intro hi
    ext r
    simp only [Set.mem_union, mem_workers_one, hi, and_true, Set.mem_insert_iff]
    tauto
  have hset' : a.given (.thread o i) = false →
      A ∪ workers a o i (i + 1) = insert (.event o i) A := by
    intro hi
    ext r
    simp [Set.mem_union, mem_workers_one, hi, or_comm]
  have hne : (Res.thread o i) ∉ insert (.event o i) A := by
    rintro (h' | h')
    · cases h'
    · exact h.2 h'
  rcases thrEventInit_takes (p := p) (a := a) (event_mem o i) h.1 with
    h₁ | ⟨rfl, h₁⟩
  · rcases thrStart_takes (p := p) (a := a) (thread_mem o i) hne with
      ⟨hi, h₂⟩ | ⟨hi, h₂⟩
    · rw [hset hi]
      exact .inl ⟨h₁.bind (h₂.bind takes_pure), fun _ => hi⟩
    · cases p with
      | posix =>
        rw [hset' hi]
        exact .inl ⟨h₁.bind (h₂.bind takes_pure), fun h => by cases h⟩
      | windows =>
        exact .inr ⟨rfl, h₁.bind (h₂.bind ((takes_release_insert (event_mem o i) h.1).bind takes_pure))⟩
  · exact .inr ⟨rfl, h₁.bind takes_pure⟩

/-! ## Run queues -/

/-- What a run queue holds besides its workers. -/
def runqBase (o : O) : Set (Res O) := {.workers o, .lock o .run}

/-- What a run queue with `n` workers holds. -/
def runqHeld (a : Answers O) (o : O) (n : ℕ) : Set (Res O) :=
  if n = 0 then {.lock o .run} else runqBase o ∪ workers a o 0 n

omit [DecidableEq O] in
theorem lacks_runqBase : Lacks (runqBase o) o i := by simp [Lacks, runqBase]

theorem initLoop_takes (hi : p = .windows → ∀ j < i, a.given (.thread o j) = true) :
    Takes (resources o) (runqBase o ∪ workers a o 0 i) (initLoop p a o k i) 0
          (runqBase o ∪ workers a o 0 (i + k)) ∧
        (p = .windows → ∀ j < i + k, a.given (.thread o j) = true) ∨
      Takes (resources o) (runqBase o ∪ workers a o 0 i) (initLoop p a o k i) (-1) ∅ := by
  induction k generalizing i with
  | zero => exact .inl ⟨takes_pure, hi⟩
  | succ k ih =>
    rcases initWorker_takes (p := p) (a := a) (lacks_runqBase.union_workers (.inr (le_refl i))) with
      ⟨h, hp⟩ | ⟨rfl, h⟩
    · rw [Set.union_assoc, ← workers_split i.zero_le i.le_succ] at h
      have hi' : p = .windows → ∀ j < i + 1, a.given (.thread o j) = true := by
        intro hw j hj
        rcases Nat.lt_succ_iff_lt_or_eq.1 hj with hj | rfl
        · exact hi hw j hj
        · exact hp hw
      rw [show i + (k + 1) = i + 1 + k by omega]
      exact (ih hi').imp (fun h' => ⟨h.bind h'.1, h'.2⟩) h.bind
    · have hjoin := joinBelow_takes (a := a) (fun j _ => lacks_runqBase) (hi rfl)
      have hlock : (Res.workers o) ∉ ({.lock o .run} : Set (Res O)) := by simp
      refine .inr (h.bind (hjoin.bind ((takes_release_insert (workers_mem o) hlock).bind ?_)))
      exact (takes_release_last (lock_mem o .run)).bind takes_pure

theorem runqInit_takes : Takes (resources o) ∅ (runqInit p a o n) 0 (runqHeld a o n) ∧
      (p = .windows → ∀ i < n, a.given (.thread o i) = true) ∨
    Takes (resources o) ∅ (runqInit p a o n) (-1) ∅ := by
  have hlock := takes_acquire_first (lock_mem o .run)
  rw [runqInit, runqHeld]
  by_cases hn : n = 0
  · simp only [hn, if_true]
    exact .inl ⟨hlock.bind takes_pure, fun _ i hi => absurd hi i.not_lt_zero⟩
  · simp only [hn, if_false]
    cases a.given (.workers o) with
    | true =>
      have hw : (Res.workers o) ∉ ({.lock o .run} : Set (Res O)) := by simp
      have hloop := initLoop_takes (p := p) (a := a) (o := o) (i := 0) (k := n)
        fun _ j hj => absurd hj j.not_lt_zero
      rw [workers_self, Set.union_empty, Nat.zero_add] at hloop
      have hbase := takes_tryAcquire (workers_mem o) hw
      exact hloop.imp (fun h => ⟨hlock.bind (hbase.bind h.1), h.2⟩) fun h => hlock.bind (hbase.bind h)
    | false =>
      refine .inr (hlock.bind (takes_refused.bind ?_))
      exact (takes_release_last (lock_mem o .run)).bind takes_pure

omit [DecidableEq O] in
theorem mem_runqHeld (h : r ∈ runqHeld a o n) :
    r = .lock o .run ∨ r = .workers o ∨ ∃ i, r = .event o i ∨ r = .thread o i := by
  rw [runqHeld] at h
  split_ifs at h
  · exact .inl h
  · rcases h with (h | h) | ⟨i, -, -, h⟩
    · exact .inr (.inl h)
    · exact .inl h
    · exact .inr (.inr ⟨i, h.imp id And.left⟩)

/-- A run queue is destroyed whose workers were all started. -/
theorem runqDestroy_takes (hlock : .lock o .run ∉ A) (hworkers : .workers o ∉ A)
    (hA : ∀ i, Lacks A o i) (hi : ∀ i < n, a.given (.thread o i) = true) :
    Takes (resources o) (A ∪ runqHeld a o n) (runqDestroy o n) () A := by
  rw [runqDestroy, runqHeld]
  by_cases hn : n = 0
  · simp only [hn, ne_eq, not_true_eq_false, if_false, if_true, Set.union_singleton]
    exact Takes.bind takes_pure (takes_release_insert (lock_mem o .run) hlock)
  · simp only [hn, ne_eq, not_false_eq_true, if_true, if_false]
    have hbase : A ∪ runqBase o = insert (.workers o) (insert (.lock o .run) A) := by
      rw [runqBase, Set.union_insert, Set.union_singleton]
    have hlacks : ∀ i, Lacks (A ∪ runqBase o) o i := fun i =>
      ⟨fun h => h.elim (hA i).1 lacks_runqBase.1, fun h => h.elim (hA i).2 lacks_runqBase.2⟩
    have hjoin := joinFrom_takes (i := 0) (k := n) hlacks (by rwa [Nat.zero_add])
    rw [Nat.zero_add, Set.union_assoc, hbase] at hjoin
    have hne : (Res.workers o) ∉ insert (.lock o .run) A := by simpa using hworkers
    exact hjoin.bind ((takes_release_insert (workers_mem o) hne).bind
      (takes_release_insert (lock_mem o .run) hlock))

theorem runqDestroy_last (hi : ∀ i < n, a.given (.thread o i) = true) :
    Takes (resources o) (runqHeld a o n) (runqDestroy o n) () ∅ := by
  have h := runqDestroy_takes (A := ∅) (o := o) (Set.notMem_empty _) (Set.notMem_empty _)
    (fun i => ⟨Set.notMem_empty _, Set.notMem_empty _⟩) hi
  rwa [Set.empty_union] at h

/-- What an i/o queue holds besides its run queue. -/
def ioqBase (p : Platform) (o : O) : Set (Res O) :=
  match p with
  | .posix => {.lock o .wait, .lock o .self, .intr o 0, .intr o 1, .epoll o}
  | .windows => {.iocp o, .lock o .wait}

/-- What it holds before `pipe` is called. -/
def ioqLocks (a : Answers O) (o : O) (n : ℕ) : Set (Res O) :=
  insert (.lock o .self) (insert (.lock o .wait) (runqHeld a o n))

omit [DecidableEq O] in
theorem mem_ioqLocks (h : r ∈ ioqLocks a o n) : (∃ q, r = .lock o q) ∨ r = .workers o ∨
    ∃ i, r = .event o i ∨ r = .thread o i := by
  rcases h with h | h | h
  · exact .inl ⟨_, h⟩
  · exact .inl ⟨_, h⟩
  · exact (mem_runqHeld h).imp (fun h => ⟨_, h⟩) id

omit [DecidableEq O] in
theorem wait_notMem : Res.lock o .wait ∉ runqHeld a o n := fun h => by
  rcases mem_runqHeld h with h | h | ⟨_, h | h⟩ <;> cases h

omit [DecidableEq O] in
theorem self_notMem : Res.lock o .self ∉ insert (.lock o .wait) (runqHeld a o n) := by
  rintro (h | h)
  · cases h
  · rcases mem_runqHeld h with h | h | ⟨_, h | h⟩ <;> cases h

omit [DecidableEq O] in
theorem iocp_notMem : Res.iocp o ∉ insert (.lock o .wait) (runqHeld a o n) := by
  rintro (h | h)
  · cases h
  · rcases mem_runqHeld h with h | h | ⟨_, h | h⟩ <;> cases h

theorem failPipe_takes (hi : ∀ i < n, a.given (.thread o i) = true) :
    Takes (resources o) (ioqLocks a o n) (failPipe o n) (-1) ∅ :=
  (takes_release_insert (lock_mem o .self) self_notMem).bind
    ((takes_release_insert (lock_mem o .wait) wait_notMem).bind
      ((runqDestroy_last hi).bind takes_pure))

omit [DecidableEq O] in
theorem intr_notMem : Res.intr o i ∉ ioqLocks a o n := fun h => by
  rcases mem_ioqLocks h with ⟨_, h⟩ | h | ⟨_, h | h⟩ <;> cases h

omit [DecidableEq O] in
theorem epoll_notMem : Res.epoll o ∉ insert (.intr o 1) (insert (.intr o 0) (ioqLocks a o n)) := by
  rintro (h | h | h)
  · cases h
  · cases h
  · rcases mem_ioqLocks h with ⟨_, h⟩ | h | ⟨_, h | h⟩ <;> cases h

theorem failEpoll_takes (hi : ∀ i < n, a.given (.thread o i) = true) : Takes (resources o)
    (insert (.intr o 1) (insert (.intr o 0) (ioqLocks a o n))) (failEpoll o n) (-1) ∅ := by
  have hne : Res.intr o 0 ∉ insert (Res.intr o 1) (ioqLocks a o n) := by
    rintro (h | h)
    · cases h
    · exact intr_notMem h
  rw [Set.insert_comm]
  exact (takes_release_insert (intr_mem o 0) hne).bind
    ((takes_release_insert (intr_mem o 1) intr_notMem).bind (failPipe_takes hi))

theorem ioqInit_posix_takes (hi : ∀ i < n, a.given (.thread o i) = true) :
    Takes (resources o) ∅ (ioqInit .posix a o n) 0 (ioqBase .posix o ∪ runqHeld a o n) ∨
      Takes (resources o) ∅ (ioqInit .posix a o n) (-1) ∅ := by
  have hset : ioqBase .posix o ∪ runqHeld a o n =
      insert (.epoll o) (insert (.intr o 1) (insert (.intr o 0) (ioqLocks a o n))) := by
    ext r
    simp only [ioqBase, ioqLocks, Set.mem_union, Set.mem_insert_iff, Set.mem_singleton_iff]
    tauto
  have hintr : Res.intr o 1 ∉ insert (Res.intr o 0) (ioqLocks a o n) := by
    rintro (h | h)
    · cases h
    · exact intr_notMem h
  rw [ioqInit, hset]
  rcases runqInit_takes (p := .posix) (a := a) (o := o) (n := n) with ⟨hrun, -⟩ | hrun
  · have hwait := takes_acquire (lock_mem o .wait) (wait_notMem (a := a) (n := n))
    have hlock := takes_acquire (lock_mem o .self) (self_notMem (a := a) (n := n))
    cases hp : a.given (.intr o 0) with
    | false =>
      have hpipe : Takes (resources o) (ioqLocks a o n) (pipe a o) false (ioqLocks a o n) := by
        rw [pipe, hp]
        exact takes_refused.bind takes_pure
      exact .inr (hrun.bind (hwait.bind (hlock.bind (hpipe.bind (failPipe_takes hi)))))
    | true =>
      have hpipe : Takes (resources o) (ioqLocks a o n) (pipe a o) true
          (insert (.intr o 1) (insert (.intr o 0) (ioqLocks a o n))) := by
        rw [pipe, hp]
        exact (takes_tryAcquire (intr_mem o 0) intr_notMem).bind
          ((takes_acquire (intr_mem o 1) hintr).bind takes_pure)
      cases he : a.given (.epoll o) with
      | false =>
        exact .inr (hrun.bind (hwait.bind (hlock.bind (hpipe.bind (takes_refused.bind
          (failEpoll_takes hi))))))
      | true =>
        have hepoll := takes_tryAcquire (epoll_mem o) (epoll_notMem (a := a) (n := n))
        cases hc : a.ctl with
        | false =>
          exact .inr (hrun.bind (hwait.bind (hlock.bind (hpipe.bind (hepoll.bind
            ((takes_release_insert (epoll_mem o) epoll_notMem).bind (failEpoll_takes hi)))))))
        | true =>
          exact .inl (hrun.bind (hwait.bind (hlock.bind (hpipe.bind (hepoll.bind takes_pure)))))
  · exact .inr (hrun.bind takes_pure)

theorem ioqInit_windows_takes :
    Takes (resources o) ∅ (ioqInit .windows a o n) 0 (ioqBase .windows o ∪ runqHeld a o n) ∧
        (∀ i < n, a.given (.thread o i) = true) ∨
      Takes (resources o) ∅ (ioqInit .windows a o n) (-1) ∅ := by
  have hset : ioqBase .windows o ∪ runqHeld a o n =
      insert (.iocp o) (insert (.lock o .wait) (runqHeld a o n)) := by
    rw [ioqBase, Set.insert_union, Set.singleton_union]
  rw [ioqInit, hset]
  rcases runqInit_takes (p := .windows) (a := a) (o := o) (n := n) with ⟨hrun, hi⟩ | hrun
  · have hwait := takes_acquire (lock_mem o .wait) (wait_notMem (a := a) (n := n))
    cases a.given (.iocp o) with
    | true =>
      exact .inl ⟨hrun.bind (hwait.bind ((takes_tryAcquire (iocp_mem o) iocp_notMem).bind takes_pure)), hi rfl⟩
    | false =>
      refine .inr (hrun.bind (hwait.bind (takes_refused.bind ?_)))
      exact (takes_release_insert (lock_mem o .wait) wait_notMem).bind
        ((runqDestroy_last (hi rfl)).bind takes_pure)
  · exact .inr (hrun.bind takes_pure)

theorem ioqDestroy_takes (hi : ∀ i < n, a.given (.thread o i) = true) :
    Takes (resources o) (ioqBase p o ∪ runqHeld a o n) (ioqDestroy p o n) () ∅ := by
  cases p with
  | posix =>
    have hrun := runqDestroy_takes (A := ioqBase .posix o) (a := a) (o := o) (n := n) (by simp [ioqBase])
      (by simp [ioqBase]) (fun i => by simp [Lacks, ioqBase]) hi
    refine hrun.bind ((takes_release_insert (lock_mem o .wait) (by simp)).bind ?_)
    refine (takes_release_insert (lock_mem o .self) (by simp)).bind ?_
    refine (takes_release_insert (intr_mem o 0) (by simp)).bind ?_
    exact (takes_release_insert (intr_mem o 1) (by simp)).bind (takes_release_last (epoll_mem o))
  | windows =>
    rw [ioqBase, Set.insert_union, Set.singleton_union]
    exact (takes_release_insert (iocp_mem o) iocp_notMem).bind
      ((takes_release_insert (lock_mem o .wait) wait_notMem).bind (runqDestroy_last hi))

/-- What a resolver holds besides its thread. -/
def resolverBase (o : O) : Set (Res O) := {.lock o .self, .event o 0}

theorem adnsResolverInit_takes (hi : p = .posix → a.given (.thread o 0) = true) :
    Takes (resources o) ∅ (adnsResolverInit p a o) 0 (insert (.thread o 0) (resolverBase o)) ∨
      Takes (resources o) ∅ (adnsResolverInit p a o) (-1) ∅ := by
  rcases thrEventInit_takes (p := p) (a := a) (event_mem o 0) (Set.notMem_empty _) with h₁ | ⟨-, h₁⟩
  · rw [insert_empty_eq] at h₁
    have hlock := takes_acquire (A := {.event o 0}) (lock_mem o .self) (by simp)
    rcases thrStart_takes (p := p) (a := a) (A := resolverBase o) (thread_mem o 0)
      (by simp [resolverBase]) with ⟨-, h₂⟩ | ⟨hno, h₂⟩
    · exact .inl (h₁.bind (hlock.bind (h₂.bind takes_pure)))
    · cases p with
      | posix => simp [hno] at hi
      | windows =>
        have hcomm : resolverBase o = insert (.event o 0) {.lock o .self} := Set.pair_comm ..
        have h₃ := takes_release_insert (A := {.lock o .self}) (event_mem o 0) (by simp)
        rw [← hcomm] at h₃
        exact .inr (h₁.bind (hlock.bind (h₂.bind (h₃.bind
          ((takes_release_last (lock_mem o .self)).bind takes_pure)))))
  · exact .inr (h₁.bind takes_pure)

/-! ## Runs -/

/-- The objects that are created and destroyed. -/
inductive Kind
  | runq (bgWorkers : ℕ)
  | waitq
  | ioq (bgThreads : ℕ)
  | resolver
  | mailbox

/-- A call of the function that initializes an object. -/
def Kind.init (p : Platform) (a : Answers O) (o : O) : Kind → Prog (Res O) ℤ
  | .runq n => runqInit p a o n
  | .waitq => do
    waitqInit o
    return 0
  | .ioq n => ioqInit p a o n
  | .resolver => adnsResolverInit p a o
  | .mailbox => do
    mailboxInit o
    return 0

def Kind.destroy (p : Platform) (o : O) : Kind → Prog (Res O) Unit
  | .runq n => runqDestroy o n
  | .waitq => waitqDestroy o
  | .ioq n => ioqDestroy p o n
  | .resolver => adnsResolverDestroy o
  | .mailbox => mailboxDestroy o

/-- Where there is no object yet or not any more, where there is one, and where a resolver has been. -/
inductive Phase
  | unused
  | alive (kind : Kind)
  | spent

def Kind.after : Kind → Phase
  | .resolver => .spent
  | _ => .unused

/-- The resources that are held, and the objects. -/
structure World (O : Type) where
  held : Finset (Res O)
  phase : O → Phase

inductive Call (O : Type)
  | init (o : O) (kind : Kind) (a : Answers O)
  | destroy (o : O)

/-- A call, with the code that it returns. -/
def exec (p : Platform) (w : World O) : Call O → Option (ℤ × World O)
  | .init o kind a => do
    let (rc, held) ← kind.init p a o w.held
    return (rc, ⟨held, if rc < 0 then w.phase else Function.update w.phase o (.alive kind)⟩)
  | .destroy o =>
    match w.phase o with
    | .alive kind => do
      let (_, held) ← kind.destroy p o w.held
      return (0, ⟨held, Function.update w.phase o kind.after⟩)
    | _ => none

def step (p : Platform) (w : World O) (c : Call O) : Option (World O) := (exec p w c).map Prod.snd

/-- The calls that may be made: an object is initialized where there is none, and destroyed after that.
    On POSIX the threads are started. No object is put where a resolver was. -/
def Allowed (p : Platform) (w : World O) : Call O → Prop
  | .init o _ a => w.phase o = .unused ∧ (p = .posix → ∀ i, a.given (.thread o i) = true)
  | .destroy o => ∃ kind, w.phase o = .alive kind

/-- Everything is given. -/
def all : Answers O := ⟨fun _ => true, true⟩

/-- What an object holds. -/
def Kind.held (p : Platform) (o : O) : Kind → Set (Res O)
  | .runq n => runqHeld all o n
  | .waitq => {.lock o .wait}
  | .ioq n => ioqBase p o ∪ runqHeld all o n
  | .resolver => insert (.thread o 0) (resolverBase o)
  | .mailbox => {.lock o .self}

def Phase.held (p : Platform) (o : O) : Phase → Set (Res O)
  | .unused => ∅
  | .alive kind => kind.held p o
  | .spent => resolverBase o

variable {w w' : World O} {c : Call O} {kind : Kind}

omit [DecidableEq O] in
theorem runqHeld_all (hi : ∀ i < n, a.given (.thread o i) = true) : runqHeld a o n = runqHeld all o n := by
  have hworkers : workers a o 0 n = workers all o 0 n := by
    ext r
    refine exists_congr fun m => and_congr_right fun _ => and_congr_right fun hm => ?_
    rw [hi m hm, all]
  rw [runqHeld, runqHeld, hworkers]

/-- An object is initialized, or nothing happens. -/
theorem Kind.init_takes (hthreads : p = .posix → ∀ i, a.given (.thread o i) = true) :
    Takes (resources o) ∅ (kind.init p a o) 0 (kind.held p o) ∨
      Takes (resources o) ∅ (kind.init p a o) (-1) ∅ := by
  cases kind with
  | runq n =>
    refine runqInit_takes.imp (fun h => ?_) id
    have hi : ∀ i < n, a.given (.thread o i) = true := by
      cases p with
      | posix => exact fun i _ => hthreads rfl i
      | windows => exact h.2 rfl
    rw [Kind.held, ← runqHeld_all hi]
    exact h.1
  | waitq => exact .inl ((takes_acquire_first (lock_mem o .wait)).bind takes_pure)
  | ioq n =>
    cases p with
    | posix =>
      have hi : ∀ i < n, a.given (.thread o i) = true := fun i _ => hthreads rfl i
      rw [Kind.held, ← runqHeld_all hi]
      exact ioqInit_posix_takes hi
    | windows =>
      refine ioqInit_windows_takes.imp (fun h => ?_) id
      rw [Kind.held, ← runqHeld_all h.2]
      exact h.1
  | resolver => exact adnsResolverInit_takes fun hp => hthreads hp 0
  | mailbox => exact .inl ((takes_acquire_first (lock_mem o .self)).bind takes_pure)

/-- An object is destroyed. -/
theorem Kind.destroy_takes :
    Takes (resources o) (kind.held p o) (kind.destroy p o) () (kind.after.held p o) := by
  cases kind with
  | runq n => exact runqDestroy_last fun _ _ => rfl
  | waitq => exact takes_release_last (lock_mem o .wait)
  | ioq n => exact ioqDestroy_takes fun _ _ => rfl
  | resolver => exact takes_release_insert (thread_mem o 0) (by simp [resolverBase])
  | mailbox => exact takes_release_last (lock_mem o .self)

/-- The resources held are those of the objects. -/
def Inv (p : Platform) (w : World O) : Prop := ∀ r, r ∈ w.held ↔ r ∈ (w.phase r.owner).held p r.owner

omit [DecidableEq O] in
theorem Inv.mem (hI : Inv p w) : ∀ r ∈ resources o, r ∈ w.held ↔ r ∈ (w.phase o).held p o := by
  rintro r rfl
  exact hI r

/-- What a program takes of one object. -/
theorem Inv.takes {x : Prog (Res O) α} {v : α} {phase : Phase} (hI : Inv p w)
    (h : Takes (resources o) ((w.phase o).held p o) x v (phase.held p o)) :
    ∃ held, x w.held = some (v, held) ∧ Inv p ⟨held, Function.update w.phase o phase⟩ := by
  obtain ⟨held, e, hD, ho⟩ := h w.held hI.mem
  refine ⟨held, e, fun r => ?_⟩
  by_cases hr : r.owner = o
  · subst hr
    simpa using hD r rfl
  · simpa [Function.update_of_ne hr] using (ho r hr).trans (hI r)

/-- Every call that is allowed returns, and one that fails leaves everything as it was. -/
theorem Inv.exec (hI : Inv p w) (hc : Allowed p w c) :
    ∃ rc w', exec p w c = some (rc, w') ∧ (rc = 0 ∨ rc = -1 ∧ w' = w) ∧ Inv p w' := by
  cases c with
  | init o kind a =>
    obtain ⟨hunused, hthreads⟩ := hc
    have hinit : Takes (resources o) ∅ (kind.init p a o) 0 (kind.held p o) ∨
        Takes (resources o) ∅ (kind.init p a o) (-1) ∅ := Kind.init_takes hthreads
    rcases hinit with h | h
    · have hfree : Takes (resources o) ((w.phase o).held p o) (kind.init p a o) 0
          ((Phase.alive kind).held p o) := by
        rwa [hunused]
      obtain ⟨held, e, hI'⟩ := hI.takes hfree
      refine ⟨0, _, ?_, .inl rfl, hI'⟩
      rw [Lifetime.exec, e]
      rfl
    · have e := h.eq (s := w.held) (by simpa [hunused, Phase.held] using hI.mem (o := o))
      refine ⟨-1, w, ?_, .inr ⟨rfl, rfl⟩, hI⟩
      rw [Lifetime.exec, e]
      rfl
  | destroy o =>
    obtain ⟨kind, hkind⟩ := hc
    have hdestroy : Takes (resources o) ((w.phase o).held p o) (kind.destroy p o) ()
        (kind.after.held p o) := by
      rw [hkind]
      exact Kind.destroy_takes
    obtain ⟨held, e, hI'⟩ := hI.takes hdestroy
    refine ⟨0, _, ?_, .inl rfl, hI'⟩
    simp only [Lifetime.exec, hkind, e]
    rfl

end Dlb.Lifetime
