import Mathlib.Data.Finset.Basic
import Mathlib.Data.Finset.Lattice.Lemmas
import Mathlib.Tactic.Common
import Dlb.Custody
import Dlb.Machine
import Dlb.Asock.Code

/-!
# A socket operation completes once

An operation that is not yet called back is in one place: in `wait_ops`, in `dispatch_queue`,
or in the hands of a thread. `wait_ops` is not zero exactly while a wait is outstanding, and
`dispatch_queue` is not zero exactly while the dispatch task is in the run queue or is about to be put
there.

* `held`: what is in which place;
* `Inv`: the invariant, with `Task` for the dispatch task.
-/

namespace Dlb.Asock

open Machine

variable {Φ P K T : Type} {s s' : State Φ P K T} {a : Act Φ P K T} {t : Asock Φ P K}

/-! ## Where the operations are -/

/-- The operations in the hands of a thread. -/
def Pc.ops : Pc → Finset Op
  | .connectInit | .connecting => {.connect}
  | .begin op => {op}
  | .push _ ops | .dispatch ops => ops
  | .idle | .listenInit | .listening | .closing | .closed _ | .submit _ => ∅

/-- The thread is in `asock_connect` or `asock_listen`, before `wait_init`. -/
def Pc.Init : Pc → Prop
  | .connectInit | .listenInit => True
  | _ => False

/-- The thread is about to submit the dispatch task. -/
def Pc.Submit : Pc → Prop
  | .submit _ => True
  | _ => False

/-- Bits other than `OP_CANCEL`. -/
def tracked (ops : Finset Op) : Set Op := {op | op ∈ ops ∧ op ≠ .cancel}

inductive Place (T : Type)
  | wait
  | queue
  | thread (th : T)

/-- What is in which place. -/
def held (s : State Φ P K T) : Place T → Set Op
  | .wait => tracked s.asock.waitOps
  | .queue => tracked s.asock.dispatchQueue
  | .thread th => tracked (s.thread th).ops

/-- The dispatch task is in the run queue, or about to be put there, if there is something to
dispatch. -/
structure Task (s : State Φ P K T) : Prop where
  empty : s.asock.dispatchQueue = ∅ → s.queued = 0 ∧ ∀ th, ¬(s.thread th).Submit
  full : s.asock.dispatchQueue ≠ ∅ → s.queued = 1 ∧ (∀ th, ¬(s.thread th).Submit) ∨
    s.queued = 0 ∧ ∃! th, (s.thread th).Submit
  proper : s.resubmitted = false

/-- There is at most one thread before `wait_init`, and nothing but its own operation is
outstanding. -/
structure Opening (s : State Φ P K T) : Prop where
  opening : ∀ th, (s.thread th).Init →
    s.opening = true ∧ ∀ op ∈ s.outstanding, op ∈ (s.thread th).ops
  unique : ∀ th th', (s.thread th).Init → (s.thread th').Init → th = th'

/-- A wait is outstanding exactly if there is something to wait for. -/
structure Waiting (t : Asock Φ P K) : Prop where
  wait : t.waitOps ≠ ∅ ↔ t.waitFd.Outstanding
  proper : t.waitFd.misused = false
  cancel : .cancel ∈ t.waitOps → ∃ op ∈ t.waitOps, op ≠ .cancel

/-- The invariant. -/
structure Inv (s : State Φ P K T) : Prop where
  custody : Custody (held s) {op | op ∈ s.outstanding}
  waiting : Waiting s.asock
  task : Task s
  opening : Opening s
  begin : ∀ th op, s.thread th = .begin op → op ≠ .cancel
  count : ∀ op, s.requests op = s.callbacks op + if op ∈ s.outstanding then 1 else 0

@[simp] theorem mem_tracked {ops : Finset Op} {op : Op} : op ∈ tracked ops ↔ op ∈ ops ∧ op ≠ .cancel :=
  Iff.rfl

@[simp] theorem tracked_empty : tracked ∅ = ∅ := by
  ext op
  simp

theorem inv_init (func : Φ) (data : P) (client : K) :
    Inv (State.init func data client : State Φ P K T) where
  custody := by
    have ho : {op | op ∈ (State.init func data client : State Φ P K T).outstanding} = ∅ := by
      ext op
      simp [State.init]
    rw [ho]
    refine Custody.empty fun p => ?_
    cases p <;> simp [held, State.init, asockInit, Pc.ops]
  waiting := by constructor <;> simp [State.init, asockInit, IoqFd.ioqFdInit, IoqFd.Outstanding]
  task := by constructor <;> simp [State.init, asockInit, Pc.Submit]
  opening := by constructor <;> simp [State.init, Pc.Init]
  begin := by simp [State.init]
  count := by simp [State.init]

/-! ## Threads -/

theorem Opening.not_init (h : Opening s) (ho : s.opening = false) (th : T) :
    ¬(s.thread th).Init := by
  intro hi
  simpa [ho] using (h.opening th hi).1

/-- Operations may be called back meanwhile. -/
theorem Opening.congr (h : Opening s) (ht : s'.thread = s.thread) (ho : s'.opening = s.opening)
    (hout : s'.outstanding ⊆ s.outstanding) : Opening s' := by
  refine ⟨fun th hth => ?_, by simpa only [ht] using h.unique⟩
  rw [ht] at hth ⊢
  obtain ⟨h₁, h₂⟩ := h.opening th hth
  exact ⟨ho.trans h₁, fun op hop => h₂ op (hout hop)⟩

/-- The socket changes, but what is where does not. -/
theorem Inv.withAsock (h : Inv s) (hw : tracked t.waitOps = tracked s.asock.waitOps)
    (hd : t.dispatchQueue = s.asock.dispatchQueue) (ht : Waiting t) : Inv { s with asock := t } where
  custody := h.custody.congr fun p => by cases p <;> simp [held, hw, hd]
  waiting := ht
  task := by
    constructor
    · simpa [hd] using h.task.empty
    · simpa [hd] using h.task.full
    · exact h.task.proper
  opening := h.opening.congr rfl rfl subset_rfl
  begin := h.begin
  count := h.count

variable [DecidableEq T] {th : T} {pc : Pc}

theorem thread_goto (s : State Φ P K T) (th th' : T) (pc : Pc) :
    (goto s th pc).thread th' = if th' = th then pc else s.thread th' := by
  simp [goto, Function.update_apply]

theorem held_goto_self (s : State Φ P K T) (th : T) (pc : Pc) :
    held (goto s th pc) (.thread th) = tracked pc.ops := by
  rw [held, thread_goto, if_pos rfl]

theorem held_goto_of_ne (s : State Φ P K T) (th : T) (pc : Pc) {p : Place T} (hp : p ≠ .thread th) :
    held (goto s th pc) p = held s p := by
  cases p with
  | wait | queue => rfl
  | thread th' =>
    have hne : th' ≠ th := by
      rintro rfl
      exact hp rfl
    rw [held, thread_goto, if_neg hne, held]

theorem Task.goto (h : Task s) (hth : ¬(s.thread th).Submit) (hpc : ¬pc.Submit) :
    Task (goto s th pc) := by
  have hs : ∀ th', ((Asock.goto s th pc).thread th').Submit ↔ (s.thread th').Submit := by
    intro th'
    rw [thread_goto]
    split_ifs with e
    · simp [e, hth, hpc]
    · rfl
  refine ⟨?_, ?_, h.proper⟩
  · simp only [hs]
    exact h.empty
  · simp only [hs]
    exact h.full

theorem Opening.goto (h : Opening s) (hpc : ¬pc.Init) : Opening (goto s th pc) := by
  have hi : ∀ th', ((Asock.goto s th pc).thread th').Init →
      (s.thread th').Init ∧ (Asock.goto s th pc).thread th' = s.thread th' := by
    intro th'
    rw [thread_goto]
    split_ifs
    · exact fun h => absurd h hpc
    · exact fun h => ⟨h, rfl⟩
  refine ⟨fun th' h' => ?_, fun th₁ th₂ h₁ h₂ => h.unique _ _ (hi th₁ h₁).1 (hi th₂ h₂).1⟩
  rw [(hi th' h').2]
  exact h.opening th' (hi th' h').1

theorem begin_goto (h : ∀ th op, s.thread th = .begin op → op ≠ .cancel)
    (hpc : ∀ op, pc = .begin op → op ≠ .cancel) (th' : T) (op : Op)
    (e : (goto s th pc).thread th' = .begin op) : op ≠ .cancel := by
  rw [thread_goto] at e
  split_ifs at e
  · exact hpc op e
  · exact h th' op e

/-- A thread goes on with the operations it has. -/
theorem Inv.goto (h : Inv s) (hth : ¬(s.thread th).Submit) (hpc : ¬pc.Submit) (hi : ¬pc.Init)
    (hb : ∀ op, pc = .begin op → op ≠ .cancel)
    (hops : tracked pc.ops = tracked (s.thread th).ops) : Inv (goto s th pc) where
  custody := by
    refine h.custody.congr fun p => ?_
    by_cases hp : p = .thread th
    · rw [hp, held_goto_self, hops, held]
    · exact held_goto_of_ne s th pc hp
  waiting := h.waiting
  task := h.task.goto hth hpc
  opening := h.opening.goto hi
  begin := begin_goto h.begin hb
  count := h.count

/-- An operation is called. If this is `asock_connect`, nothing is outstanding. -/
theorem Inv.request (h : Inv s) (hth : s.thread th = .idle) {op : Op} (hop : op ∉ s.outstanding)
    (hc : op ≠ .cancel) (hopen : s.opening = false) (hpc : pc.ops = {op}) (hs : ¬pc.Submit)
    {o : Bool} (hi : pc.Init → o = true ∧ s.outstanding = ∅) :
    Inv (Asock.goto { request s op with opening := o } th pc) where
  custody := by
    have hout : {x | x ∈ (Asock.request s op).outstanding} = insert op {x | x ∈ s.outstanding} := by
      ext x
      simp [Asock.request]
    change Custody _ {x | x ∈ (Asock.request s op).outstanding}
    rw [hout]
    refine h.custody.add (p := .thread th) (by simpa using hop) ?_ fun r hr => ?_
    · rw [held_goto_self, hpc, held, hth, Pc.ops]
      ext x
      simp only [mem_tracked, Finset.mem_singleton, tracked_empty, insert_empty_eq,
        Set.mem_singleton_iff, and_iff_left_iff_imp]
      rintro rfl
      exact hc
    · rw [held_goto_of_ne _ th pc hr]
      rfl
  waiting := h.waiting
  task := by
    have ht : Task { Asock.request s op with opening := o } :=
      ⟨h.task.empty, h.task.full, h.task.proper⟩
    exact ht.goto (by simp [Asock.request, hth, Pc.Submit]) hs
  opening := by
    -- No other thread is before `wait_init`.
    have honly : ∀ th', ((Asock.goto { Asock.request s op with opening := o } th pc).thread th').Init →
        th' = th ∧ pc.Init := by
      intro th'
      rw [thread_goto]
      split_ifs with e
      · exact fun h' => ⟨e, h'⟩
      · exact fun h' => absurd h' (h.opening.not_init hopen th')
    refine ⟨fun th' h' => ?_, fun th₁ th₂ h₁ h₂ => (honly th₁ h₁).1.trans (honly th₂ h₂).1.symm⟩
    obtain ⟨rfl, hinit⟩ := honly th' h'
    obtain ⟨ho, hempty⟩ := hi hinit
    refine ⟨ho, fun op' hop' => ?_⟩
    have hop' : op' ∈ insert op s.outstanding := hop'
    rw [thread_goto, if_pos rfl, hpc]
    simpa [hempty] using hop'
  begin := by
    refine begin_goto h.begin ?_
    rintro op' rfl
    obtain rfl : op' = op := by simpa [Pc.ops] using hpc
    exact hc
  count op' := by
    change Function.update s.requests op (s.requests op + 1) op' =
      s.callbacks op' + if op' ∈ insert op s.outstanding then 1 else 0
    rcases eq_or_ne op' op with rfl | hne
    · simpa [hop] using h.count op'
    · simpa [hne] using h.count op'

/-- `asock_listen` has made a socket. -/
theorem Inv.listen (h : Inv s) (hth : s.thread th = .idle) (hout : s.outstanding = ∅)
    (hopen : s.opening = false) :
    Inv (Asock.goto { s with opening := true } th .listenInit) := by
  have honly : ∀ th', ((Asock.goto { s with opening := true } th .listenInit).thread th').Init →
      th' = th := by
    intro th'
    rw [thread_goto]
    split_ifs with e
    · exact fun _ => e
    · exact fun h' => absurd h' (h.opening.not_init hopen th')
  have h' : Inv (Asock.goto s th .listening) :=
    h.goto (by simp [hth, Pc.Submit]) (by simp [Pc.Submit]) (by simp [Pc.Init]) (by simp)
      (by simp [hth, Pc.ops])
  refine ⟨h'.custody.congr fun p => ?_, h.waiting, ?_, ⟨fun th' _ => ⟨rfl, ?_⟩, fun th₁ th₂ h₁ h₂ =>
    (honly th₁ h₁).trans (honly th₂ h₂).symm⟩, ?_, h.count⟩
  · by_cases hp : p = .thread th
    · rw [hp, held_goto_self, held_goto_self]
      rfl
    · rw [held_goto_of_ne _ _ _ hp, held_goto_of_ne _ _ _ hp]
      rfl
  · have ht : Task { s with opening := true } := ⟨h.task.empty, h.task.full, h.task.proper⟩
    exact ht.goto (by simp [hth, Pc.Submit]) (by simp [Pc.Submit])
  · intro op hop
    change op ∈ s.outstanding at hop
    simp [hout] at hop
  · exact begin_goto (s := { s with opening := true }) h.begin (by simp)

omit [DecidableEq T] in
/-- Nothing is waited for before `wait_init`. -/
theorem Inv.waitOps_of_init (h : Inv s) (hi : (s.thread th).Init) : s.asock.waitOps = ∅ := by
  have hno : ∀ op ∈ s.asock.waitOps, op = .cancel := by
    intro op hop
    by_contra hc
    have hw : op ∈ held s .wait := ⟨hop, hc⟩
    have ht : op ∈ held s (.thread th) :=
      ⟨(h.opening.opening th hi).2 op (h.custody.subset _ hw), hc⟩
    cases h.custody.unique hw ht
  by_contra hne
  obtain ⟨op, hop⟩ := Finset.nonempty_iff_ne_empty.2 hne
  obtain ⟨op', hop', hc⟩ := h.waiting.cancel (hno op hop ▸ hop)
  exact hc (hno op' hop')

theorem Inv.waitInit (h : Inv s) (hi : (s.thread th).Init) (hth : ¬(s.thread th).Submit)
    (hpc : ¬pc.Submit) (hi' : ¬pc.Init) (hb : ∀ op, pc ≠ .begin op)
    (hops : pc.ops = (s.thread th).ops) :
    Inv (Asock.goto { s with asock := waitInit s.asock, opening := false } th pc) := by
  have hempty := h.waitOps_of_init hi
  have hidle : ¬s.asock.waitFd.Outstanding := h.waiting.wait.not.1 (by simp [hempty])
  have hphase : s.asock.waitFd.phase = .idle := not_not.1 hidle
  have hw : Waiting (Asock.waitInit s.asock) := by
    constructor <;>
      simp [Asock.waitInit, IoqFd.Outstanding, IoqFd.ioqFdInit, h.waiting.proper, hphase]
  have h₁ : Inv { s with asock := Asock.waitInit s.asock } :=
    h.withAsock (by simp [Asock.waitInit, hempty]) rfl hw
  have h₂ : Inv (Asock.goto { s with asock := Asock.waitInit s.asock } th pc) :=
    h₁.goto hth hpc hi' (fun op e => absurd e (hb op)) (by rw [hops])
  refine ⟨h₂.custody, h₂.waiting, ⟨h₂.task.empty, h₂.task.full, h₂.task.proper⟩, ?_, h₂.begin,
    h₂.count⟩
  have hno : ∀ th', ((Asock.goto { s with asock := Asock.waitInit s.asock, opening := false } th
      pc).thread th').Init → False := by
    intro th' h'
    rw [thread_goto] at h'
    split_ifs at h' with e
    · exact hi' h'
    · exact e (h.opening.unique th' th h' hi)
  exact ⟨fun th' h' => (hno th' h').elim, fun th₁ _ h₁ => (hno th₁ h₁).elim⟩

/-! ## The wait process -/

omit [DecidableEq T] in
theorem waiting_waitBegin (h : Waiting t) {op : Op} (hop : op ≠ .cancel) :
    Waiting (waitBegin t op) where
  wait := by
    refine iff_of_true (by simp [waitBegin]) ?_
    by_cases hw : t.waitOps = ∅
    · simp [waitBegin, hw]
    · simpa [waitBegin, hw] using h.wait.1 hw
  proper := by
    by_cases hw : t.waitOps = ∅
    · simpa [waitBegin, hw] using IoqFd.misused_ioqFdWait h.proper (h.wait.not.1 (by simp [hw]))
    · simpa [waitBegin, hw] using h.proper
  cancel _ := ⟨op, by simp [waitBegin], hop⟩

omit [DecidableEq T] in
theorem waiting_waitBeginCancel (h : Waiting t) : Waiting (waitBeginCancel t).2 := by
  by_cases hw : t.waitOps = ∅
  · simpa [waitBeginCancel, hw] using h
  · simp only [waitBeginCancel, ne_eq, hw, not_false_eq_true, ↓reduceIte]
    refine ⟨iff_of_true (by simp) ?_, ?_, fun _ => ?_⟩
    · simpa [IoqFd.ioqFdCancel] using h.wait.1 hw
    · simpa [IoqFd.ioqFdCancel] using h.proper
    · obtain ⟨op, hop⟩ := Finset.nonempty_iff_ne_empty.2 hw
      by_cases hc : op = .cancel
      · obtain ⟨op', hop', hc'⟩ := h.cancel (hc ▸ hop)
        exact ⟨op', by simp [hop'], hc'⟩
      · exact ⟨op, by simp [hop], hc⟩

/-- What the sections of the wait process leave alone. -/
structure Kept (t t' : Asock Φ P K) : Prop where
  waitOps : t'.waitOps = t.waitOps
  waitFd : t'.waitFd = t.waitFd
  dispatchQueue : t'.dispatchQueue = t.dispatchQueue

theorem Kept.refl (t : Asock Φ P K) : Kept t t := ⟨rfl, rfl, rfl⟩

theorem Kept.trans {t₁ t₂ t₃ : Asock Φ P K} (h : Kept t₁ t₂) (h' : Kept t₂ t₃) : Kept t₁ t₃ :=
  ⟨h'.waitOps.trans h.waitOps, h'.waitFd.trans h.waitFd, h'.dispatchQueue.trans h.dispatchQueue⟩

theorem kept_attempt (op : Op) {f : Asock Φ P K → Bool × Asock Φ P K}
    (hf : ∀ t, Kept t (f t).2) {r : Finset Op × Asock Φ P K} (h : Kept t r.2)
    (hr : r.1 ⊆ t.waitOps) :
    Kept t (attempt op f r).2 ∧ (attempt op f r).1 ⊆ t.waitOps := by
  rw [attempt]
  split_ifs with hop
  · refine ⟨h.trans (hf r.2), ?_⟩
    dsimp only
    split_ifs
    · rw [Finset.insert_subset_iff]
      exact ⟨h.waitOps ▸ hop, hr⟩
    · exact hr
  · exact ⟨h, hr⟩

theorem kept_waitConnect (t : Asock Φ P K) (ans : Answer) : Kept t (waitConnect t ans).2 := by
  rw [waitConnect]
  split_ifs <;> exact ⟨rfl, rfl, rfl⟩

theorem kept_waitAccept (t : Asock Φ P K) (ans : Answer) : Kept t (waitAccept t ans).2 := by
  rw [waitAccept]
  split_ifs <;> exact ⟨rfl, rfl, rfl⟩

theorem kept_waitSend (t : Asock Φ P K) (ans : Answer) : Kept t (waitSend t ans).2 := by
  rw [waitSend]
  split_ifs <;> exact ⟨rfl, rfl, rfl⟩

theorem kept_waitRecv (t : Asock Φ P K) (ans : Answer) : Kept t (waitRecv t ans).2 := by
  rw [waitRecv]
  split_ifs <;> exact ⟨rfl, rfl, rfl⟩

theorem kept_tryOps (t : Asock Φ P K) (ans : Answers) :
    Kept t (tryOps t ans).2 ∧ (tryOps t ans).1 ⊆ t.waitOps := by
  rw [tryOps]
  obtain ⟨hk₁, h₁⟩ := kept_attempt .connect (fun t => kept_waitConnect t ans.connect)
    (r := (∅, t)) (.refl t) (by simp)
  obtain ⟨hk₂, h₂⟩ := kept_attempt .accept (fun t => kept_waitAccept t ans.accept) hk₁ h₁
  obtain ⟨hk₃, h₃⟩ := kept_attempt .send (fun t => kept_waitSend t ans.send) hk₂ h₂
  exact kept_attempt .recv (fun t => kept_waitRecv t ans.recv) hk₃ h₃

theorem kept_failOps (t : Asock Φ P K) (e : ℤ) : Kept t (failOps t e) := by
  simp only [failOps]
  split_ifs <;> exact ⟨rfl, rfl, rfl⟩

/-- The section of `wait_end` takes the operations to dispatch out of `wait_ops`, and waits for the
others. -/
theorem waitEnd_spec (ans : Answers) (ho : ¬t.waitFd.Outstanding) (hp : t.waitFd.misused = false) :
    (waitEnd t ans).1 ⊆ t.waitOps ∧ (waitEnd t ans).2.waitOps = t.waitOps \ (waitEnd t ans).1 ∧
      (waitEnd t ans).2.dispatchQueue = t.dispatchQueue ∧ Waiting (waitEnd t ans).2 := by
  rw [waitEnd]
  split_ifs with hc
  · have hk := kept_failOps t t.waitFd.err
    refine ⟨subset_rfl, by simp, hk.dispatchQueue, ?_, ?_, ?_⟩
    · simpa [hk.waitFd] using ho
    · simpa [hk.waitFd] using hp
    · simp
  · obtain ⟨hk, hsub⟩ := kept_tryOps t ans
    rw [not_or] at hc
    dsimp only
    refine ⟨hsub, by rw [hk.waitOps], hk.dispatchQueue, ?_, ?_, ?_⟩
    · split_ifs with hops
      · exact iff_of_true hops (by simp)
      · exact iff_of_false hops (by rwa [hk.waitFd])
    · split_ifs
      · rw [hk.waitFd]
        exact IoqFd.misused_ioqFdWait hp ho
      · rwa [hk.waitFd]
    · intro hcancel
      rw [Finset.mem_sdiff, hk.waitOps] at hcancel
      exact absurd hcancel.1 hc.1

/-! ## The steps -/

theorem Inv.begin_step (h : Inv s) {op : Op} (hth : s.thread th = .begin op) :
    Inv (Asock.goto { s with asock := waitBegin s.asock op } th .idle) := by
  have hc := h.begin th op hth
  refine ⟨?_, waiting_waitBegin h.waiting hc, ?_, ?_, ?_, h.count⟩
  · have hmem : op ∈ held s (.thread th) := by simp [held, hth, Pc.ops, hc]
    refine h.custody.pass (p := .thread th) (q := .wait) nofun hmem (fun x => ?_) (fun x => ?_)
      fun r hr hr' => ?_
    · rw [held_goto_self, held, hth]
      simp only [Pc.ops, tracked_empty, Set.mem_empty_iff_false, mem_tracked,
        Finset.mem_singleton, false_iff]
      tauto
    · by_cases hx : x = op <;> simp_all [held, Asock.goto, waitBegin]
    · rw [held_goto_of_ne _ _ _ hr]
      cases r with
      | wait => exact absurd rfl hr'
      | queue | thread => rfl
  · have ht : Task { s with asock := waitBegin s.asock op } :=
      ⟨h.task.empty, h.task.full, h.task.proper⟩
    exact ht.goto (by simp [hth, Pc.Submit]) (by simp [Pc.Submit])
  · refine Opening.goto (h.opening.congr rfl rfl subset_rfl) ?_
    simp [Pc.Init]
  · exact begin_goto (s := { s with asock := waitBegin s.asock op }) h.begin (by simp)

theorem Inv.waitEnd_step (h : Inv s) (hth : s.thread th = .idle) {fd : IoqFd}
    (e : s.asock.waitFd.deliver = some fd) {mask : Finset Op} {ans : Answers}
    (et : waitEnd { s.asock with waitFd := fd } ans = (mask, t)) :
    Inv (Asock.goto { s with asock := t } th (if mask = ∅ then .idle else .push .waitEnd mask)) := by
  obtain ⟨-, ho, hp⟩ := IoqFd.deliver_spec e
  obtain ⟨hsub, hops, hd, hw⟩ : mask ⊆ s.asock.waitOps ∧ t.waitOps = s.asock.waitOps \ mask ∧
      t.dispatchQueue = s.asock.dispatchQueue ∧ Waiting t := by
    have hspec := waitEnd_spec (t := { s.asock with waitFd := fd }) ans ho
      (hp.trans h.waiting.proper)
    rwa [et] at hspec
  have hpc : (if mask = ∅ then Pc.idle else .push .waitEnd mask).ops = mask := by
    split_ifs with hm
    · exact hm.symm
    · rfl
  refine ⟨?_, hw, ?_, ?_, ?_, h.count⟩
  · refine h.custody.move (p := .wait) (q := .thread th) (M := tracked mask) nofun ?_ ?_ ?_
      fun r hr hr' => ?_
    · exact fun x hx => ⟨hsub hx.1, hx.2⟩
    · ext x
      simp only [held, Asock.goto, hops, mem_tracked, Finset.mem_sdiff, Set.mem_sdiff]
      tauto
    · rw [held_goto_self, hpc, held, hth]
      simp [Pc.ops]
    · rw [held_goto_of_ne _ _ _ hr']
      cases r with
      | wait => exact absurd rfl hr
      | queue => simp only [held, hd]
      | thread => rfl
  · have ht : Task { s with asock := t } := by
      refine ⟨?_, ?_, h.task.proper⟩
      · simpa only [hd] using h.task.empty
      · simpa only [hd] using h.task.full
    exact ht.goto (by simp [hth, Pc.Submit]) (by split_ifs <;> simp [Pc.Submit])
  · refine Opening.goto (h.opening.congr rfl rfl subset_rfl) ?_
    split_ifs <;> simp [Pc.Init]
  · exact begin_goto (s := { s with asock := t }) h.begin (by intro op; split_ifs <;> simp)

theorem Inv.push_step (h : Inv s) {c : Caller} {ops : Finset Op} (hth : s.thread th = .push c ops) :
    Inv (Asock.goto
      { s with asock := { s.asock with dispatchQueue := s.asock.dispatchQueue ∪ ops } } th
      (if s.asock.dispatchQueue = ∅ ∧ ops ≠ ∅ then .submit c else .idle)) := by
  have hpc : (if s.asock.dispatchQueue = ∅ ∧ ops ≠ ∅ then Pc.submit c else .idle).ops = ∅ := by
    split_ifs <;> rfl
  refine ⟨?_, ⟨h.waiting.wait, h.waiting.proper, h.waiting.cancel⟩, ?_, ?_, ?_, h.count⟩
  · refine h.custody.move (p := .thread th) (q := .queue) (M := tracked ops) nofun ?_ ?_ ?_
      fun r hr hr' => ?_
    · simp only [held, hth, Pc.ops]
      exact subset_rfl
    · rw [held_goto_self, hpc, held, hth]
      simp [Pc.ops]
    · ext x
      simp only [held, Asock.goto, mem_tracked, Finset.mem_union, Set.mem_union]
      tauto
    · rw [held_goto_of_ne _ _ _ hr]
      cases r with
      | queue => exact absurd rfl hr'
      | wait | thread => rfl
  · by_cases hd : s.asock.dispatchQueue = ∅ ∧ ops ≠ ∅
    · -- The thread finds the queue empty and is to submit the task.
      obtain ⟨hq, hno⟩ := h.task.empty hd.1
      have hne : s.asock.dispatchQueue ∪ ops ≠ ∅ := by simp [hd.2]
      rw [if_pos hd]
      refine ⟨fun he => absurd he hne, fun _ => .inr ⟨hq, th, ?_, fun th' h' => ?_⟩, h.task.proper⟩
      · simp [thread_goto, Pc.Submit]
      · by_contra hth'
        simp only [thread_goto, if_neg hth'] at h'
        exact hno th' h'
    · rw [if_neg hd]
      have hd' : s.asock.dispatchQueue ∪ ops = ∅ ↔ s.asock.dispatchQueue = ∅ := by
        rw [Finset.union_eq_empty]
        tauto
      have ht : Task { s with asock := { s.asock with dispatchQueue := s.asock.dispatchQueue ∪ ops } } :=
        ⟨fun he => h.task.empty (hd'.1 he), fun he => h.task.full (hd'.not.1 he), h.task.proper⟩
      exact ht.goto (by simp [hth, Pc.Submit]) (by simp [Pc.Submit])
  · refine Opening.goto (h.opening.congr rfl rfl subset_rfl) ?_
    split_ifs <;> simp [Pc.Init]
  · exact begin_goto (s := { s with asock := { s.asock with
      dispatchQueue := s.asock.dispatchQueue ∪ ops } }) h.begin (by intro op; split_ifs <;> simp)

theorem Inv.submit_step (h : Inv s) (hth : (s.thread th).Submit) :
    Inv (Asock.goto
      { s with queued := s.queued + 1, resubmitted := s.resubmitted || s.queued != 0 } th .idle) := by
  have hops : (s.thread th).ops = ∅ := by
    cases e : s.thread th <;> simp_all [Pc.Submit, Pc.ops]
  have hfull : s.asock.dispatchQueue ≠ ∅ := fun he => (h.task.empty he).2 th hth
  -- While a thread is to submit the task, it is not queued, and there is no other such thread.
  obtain ⟨hq, hu⟩ : s.queued = 0 ∧ ∃! th, (s.thread th).Submit :=
    (h.task.full hfull).resolve_left fun h' => h'.2 th hth
  refine ⟨h.custody.congr fun p => ?_, h.waiting, ?_, ?_, ?_, h.count⟩
  · by_cases hp : p = .thread th
    · rw [hp, held_goto_self, held, hops]
      rfl
    · rw [held_goto_of_ne _ _ _ hp]
      cases p <;> rfl
  · refine ⟨fun he => absurd he hfull, fun _ => .inl ⟨by simp [Asock.goto, hq], fun th' => ?_⟩, ?_⟩
    · rw [thread_goto]
      split_ifs with e
      · simp [Pc.Submit]
      · exact fun h' => e (hu.unique h' hth)
    · simp [Asock.goto, h.task.proper, hq]
  · refine Opening.goto (h.opening.congr rfl rfl subset_rfl) ?_
    simp [Pc.Init]
  · exact begin_goto (s := { s with queued := _, resubmitted := _ }) h.begin (by simp)

theorem Inv.dispatch_step (h : Inv s) (hth : s.thread th = .idle) (hq : s.queued ≠ 0) :
    Inv (Asock.goto
      { s with queued := s.queued - 1, asock := { s.asock with dispatchQueue := ∅ } } th
      (.dispatch s.asock.dispatchQueue)) := by
  have hfull : s.asock.dispatchQueue ≠ ∅ := fun he => hq (h.task.empty he).1
  -- The task is queued, so no thread is still to submit it for what is in the queue now.
  obtain ⟨hq', hno⟩ : s.queued = 1 ∧ ∀ th, ¬(s.thread th).Submit :=
    (h.task.full hfull).resolve_right fun h' => hq h'.1
  refine ⟨?_, ⟨h.waiting.wait, h.waiting.proper, h.waiting.cancel⟩, ?_, ?_, ?_, h.count⟩
  · refine h.custody.move (p := .queue) (q := .thread th) (M := held s .queue) nofun subset_rfl ?_ ?_
      fun r hr hr' => ?_
    · simp [held, Asock.goto]
    · rw [held_goto_self]
      simp [Pc.ops, held, hth]
    · rw [held_goto_of_ne _ _ _ hr']
      cases r with
      | queue => exact absurd rfl hr
      | wait | thread => rfl
  · have ht : Task { s with queued := s.queued - 1, asock := { s.asock with dispatchQueue := ∅ } } :=
      ⟨fun _ => ⟨by simp [hq'], hno⟩, fun he => absurd rfl he, h.task.proper⟩
    exact ht.goto (hno th) (by simp [Pc.Submit])
  · refine Opening.goto (h.opening.congr rfl rfl subset_rfl) ?_
    simp [Pc.Init]
  · exact begin_goto (s := { s with queued := _, asock := _ }) h.begin (by simp)

theorem Inv.callback_step (h : Inv s) {ops M : Finset Op} (hth : s.thread th = .dispatch ops)
    (hM : M ⊆ ops) (hc : .cancel ∉ M) :
    Inv (Asock.goto (answer s M) th (.dispatch (ops \ M))) := by
  have hheld : {op | op ∈ M} ⊆ held s (.thread th) := by
    intro op hop
    simp only [held, hth, Pc.ops, mem_tracked]
    exact ⟨hM hop, fun e => hc (e ▸ hop)⟩
  have hout : {op | op ∈ (answer s M).outstanding} = {op | op ∈ s.outstanding} \ {op | op ∈ M} := by
    ext op
    simp [answer]
  refine ⟨?_, h.waiting, ?_, ?_, ?_, fun op => ?_⟩
  · change Custody _ {op | op ∈ (answer s M).outstanding}
    rw [hout]
    refine h.custody.drop hheld ?_ fun r hr => ?_
    · rw [held_goto_self, held, hth]
      ext op
      simp only [Pc.ops, mem_tracked, Finset.mem_sdiff, Set.mem_sdiff, Set.mem_ofPred_eq]
      tauto
    · rw [held_goto_of_ne _ _ _ hr]
      cases r <;> rfl
  · have ht : Task (answer s M) := ⟨h.task.empty, h.task.full, h.task.proper⟩
    exact ht.goto (by simp [answer, hth, Pc.Submit]) (by simp [Pc.Submit])
  · have ho : Opening (answer s M) := h.opening.congr rfl rfl Finset.sdiff_subset
    exact ho.goto (by simp [Pc.Init])
  · exact begin_goto (s := answer s M) h.begin (by simp)
  · change s.requests op = (if op ∈ M then s.callbacks op + 1 else s.callbacks op) +
      if op ∈ s.outstanding \ M then 1 else 0
    rw [h.count op]
    by_cases hop : op ∈ M
    · have ho : op ∈ s.outstanding := h.custody.subset _ (hheld hop)
      simp [hop, ho]
    · simp [hop]

theorem Inv.openStep (h : Inv s) (hl : Legal s a) (e : openStep s a = some s') : Inv s' := by
  cases a with
  | connect th sa saLen func socket =>
    simp only [Asock.openStep, Option.ite_none_right_eq_some] at e
    obtain ⟨hth, e⟩ := e
    have hop : .connect ∉ s.outstanding := by simp [hl.1]
    split_ifs at e with hr <;> obtain rfl := Option.some.inj e
    · have h' : Inv { s with asock := { s.asock with
          caFunc := func, caAddr := sa, caSize := saLen, sock := socket.r, caError := socket.errno } } :=
        h.withAsock rfl rfl ⟨h.waiting.wait, h.waiting.proper, h.waiting.cancel⟩
      exact h'.request hth hop (by simp) hl.2 rfl (by simp [Pc.Submit]) (by simp [Pc.Init])
    · have h' : Inv { s with asock := { s.asock with
          caFunc := func, caAddr := sa, caSize := saLen, sock := socket.r } } :=
        h.withAsock rfl rfl ⟨h.waiting.wait, h.waiting.proper, h.waiting.cancel⟩
      exact h'.request hth hop (by simp) hl.2 rfl (by simp [Pc.Submit]) fun _ => ⟨rfl, hl.1⟩
  | connectInit th =>
    simp only [Asock.openStep, Option.ite_none_right_eq_some, Option.some.injEq] at e
    obtain ⟨hth, rfl⟩ := e
    exact h.waitInit (by simp [hth, Pc.Init]) (by simp [hth, Pc.Submit]) (by simp [Pc.Submit])
      (by simp [Pc.Init]) (by simp) (by simp [hth, Pc.ops])
  | connecting th errno =>
    simp only [Asock.openStep, Option.ite_none_right_eq_some] at e
    obtain ⟨hth, e⟩ := e
    split_ifs at e <;> obtain rfl := Option.some.inj e
    · have h' : Inv { s with asock := { s.asock with caError := errno } } :=
        h.withAsock rfl rfl ⟨h.waiting.wait, h.waiting.proper, h.waiting.cancel⟩
      exact h'.goto (by simp [hth, Pc.Submit]) (by simp [Pc.Submit]) (by simp [Pc.Init]) (by simp)
        (by simp [hth, Pc.ops])
    · exact h.goto (by simp [hth, Pc.Submit]) (by simp [Pc.Submit]) (by simp [Pc.Init])
        (by rintro op ⟨rfl⟩; simp) (by simp [hth, Pc.ops])
  | listen th socket =>
    simp only [Asock.openStep, Option.ite_none_right_eq_some] at e
    obtain ⟨hth, e⟩ := e
    split_ifs at e <;> obtain rfl := Option.some.inj e
    · exact h.withAsock rfl rfl ⟨h.waiting.wait, h.waiting.proper, h.waiting.cancel⟩
    · have h' : Inv { s with asock := { s.asock with sock := socket.r } } :=
        h.withAsock rfl rfl ⟨h.waiting.wait, h.waiting.proper, h.waiting.cancel⟩
      exact h'.listen hth hl.1 hl.2
  | listenInit th =>
    simp only [Asock.openStep, Option.ite_none_right_eq_some, Option.some.injEq] at e
    obtain ⟨hth, rfl⟩ := e
    exact h.waitInit (by simp [hth, Pc.Init]) (by simp [hth, Pc.Submit]) (by simp [Pc.Submit])
      (by simp [Pc.Init]) (by simp) (by simp [hth, Pc.ops])
  | listening th setsockopt bind listen =>
    simp only [Asock.openStep, Option.ite_none_right_eq_some] at e
    obtain ⟨hth, e⟩ := e
    have hidle : ∀ errno, Inv (Asock.goto { s with asock := { s.asock with caError := errno } } th
        .idle) := by
      intro errno
      have h' : Inv { s with asock := { s.asock with caError := errno } } :=
        h.withAsock rfl rfl ⟨h.waiting.wait, h.waiting.proper, h.waiting.cancel⟩
      exact h'.goto (by simp [hth, Pc.Submit]) (by simp [Pc.Submit]) (by simp [Pc.Init]) (by simp)
        (by simp [hth, Pc.ops])
    split_ifs at e <;> obtain rfl := Option.some.inj e
    · exact hidle _
    · exact hidle _
    · exact hidle _
    · exact hidle s.asock.caError
  | _ => cases e

/-- An operation that is put into `dispatch_queue` if the socket is closed, and waited for
otherwise. -/
theorem Inv.call (h : Inv s) (hth : s.thread th = .idle) {op : Op} (hop : op ∉ s.outstanding)
    (hc : op ≠ .cancel) (hopen : s.opening = false) (hpc : pc = .push .call {op} ∨ pc = .begin op)
    (hw : t.waitOps = s.asock.waitOps) (hf : t.waitFd = s.asock.waitFd)
    (hd : t.dispatchQueue = s.asock.dispatchQueue) :
    Inv (Asock.goto { Asock.request s op with asock := t } th pc) := by
  have hwait : Waiting t := by
    constructor
    · simpa only [hw, hf] using h.waiting.wait
    · simpa only [hf] using h.waiting.proper
    · simpa only [hw] using h.waiting.cancel
  have h' : Inv { s with asock := t } := h.withAsock (by rw [hw]) hd hwait
  refine h'.request (o := s.opening) hth hop hc hopen ?_ ?_ ?_ <;>
    rcases hpc with rfl | rfl <;> simp [Pc.ops, Pc.Submit, Pc.Init]

theorem Inv.callStep (h : Inv s) (hl : Legal s a) (e : callStep s a = some s') : Inv s' := by
  cases a with
  | accept th client func =>
    simp only [Asock.callStep, Option.ite_none_right_eq_some] at e
    obtain ⟨hth, e⟩ := e
    split_ifs at e <;> obtain rfl := Option.some.inj e
    · exact h.call hth hl.2.1 (by simp) hl.2.2 (.inl rfl) rfl rfl rfl
    · exact h.call hth hl.2.1 (by simp) hl.2.2 (.inr rfl) rfl rfl rfl
  | send th data len func =>
    simp only [Asock.callStep, Option.ite_none_right_eq_some] at e
    obtain ⟨hth, e⟩ := e
    split_ifs at e <;> obtain rfl := Option.some.inj e
    · exact h.call hth hl.1 (by simp) hl.2 (.inl rfl) rfl rfl rfl
    · exact h.call hth hl.1 (by simp) hl.2 (.inr rfl) rfl rfl rfl
  | recv th data maxLen func =>
    simp only [Asock.callStep, Option.ite_none_right_eq_some] at e
    obtain ⟨hth, e⟩ := e
    split_ifs at e <;> obtain rfl := Option.some.inj e
    · exact h.call hth hl.1 (by simp) hl.2 (.inl rfl) rfl rfl rfl
    · exact h.call hth hl.1 (by simp) hl.2 (.inr rfl) rfl rfl rfl
  | begin th =>
    simp only [Asock.callStep] at e
    split at e
    · obtain rfl := Option.some.inj e
      exact h.begin_step ‹_›
    · cases e
  | close th =>
    simp only [Asock.callStep, Option.ite_none_right_eq_some] at e
    obtain ⟨hth, e⟩ := e
    split_ifs at e <;> obtain rfl := Option.some.inj e
    · exact h
    · exact h.goto (by simp [hth, Pc.Submit]) (by simp [Pc.Submit]) (by simp [Pc.Init]) (by simp)
        (by simp [hth, Pc.ops])
  | closing th =>
    simp only [Asock.callStep, Option.ite_none_right_eq_some, Option.some.injEq] at e
    obtain ⟨hth, rfl⟩ := e
    have h' : Inv { s with asock := (waitBeginCancel s.asock).2 } := by
      refine h.withAsock ?_ ?_ (waiting_waitBeginCancel h.waiting)
      · ext op
        simp only [waitBeginCancel]
        split_ifs <;> simp +contextual
      · simp only [waitBeginCancel]
        split_ifs <;> rfl
    exact h'.goto (by simp [hth, Pc.Submit]) (by simp [Pc.Submit]) (by simp [Pc.Init]) (by simp)
      (by simp [hth, Pc.ops])
  | closed th =>
    simp only [Asock.callStep] at e
    split at e
    · rename_i r hth
      obtain rfl := Option.some.inj e
      have h' : Inv { s with asock := { s.asock with sock := -1 } } :=
        h.withAsock rfl rfl ⟨h.waiting.wait, h.waiting.proper, h.waiting.cancel⟩
      exact h'.goto (by simp [hth, Pc.Submit]) (by simp [Pc.Submit]) (by simp [Pc.Init]) (by simp)
        (by simp [hth, Pc.ops])
    · cases e
  | _ => cases e

theorem Inv.eventStep (h : Inv s) (e : eventStep s a = some s') : Inv s' := by
  cases a with
  | finish ready err =>
    simp only [Asock.eventStep, Option.map_eq_some_iff] at e
    obtain ⟨fd, e, rfl⟩ := e
    obtain ⟨ho, ho', hp⟩ := IoqFd.finish_spec e
    refine h.withAsock rfl rfl ⟨?_, hp.trans h.waiting.proper, h.waiting.cancel⟩
    exact iff_of_true (h.waiting.wait.2 ho) ho'
  | waitEnd th ans =>
    simp only [Asock.eventStep, Option.ite_none_right_eq_some, Option.map_eq_some_iff] at e
    obtain ⟨hth, fd, e, e'⟩ := e
    rcases et : Asock.waitEnd { s.asock with waitFd := fd } ans with ⟨mask, t⟩
    simp only [et] at e'
    obtain rfl := e'
    exact h.waitEnd_step hth e et
  | push th =>
    simp only [Asock.eventStep] at e
    split at e
    · obtain rfl := Option.some.inj e
      exact h.push_step ‹_›
    · cases e
  | submit th =>
    simp only [Asock.eventStep] at e
    split at e
    · rename_i c hth
      obtain rfl := Option.some.inj e
      exact h.submit_step (by simp [hth, Pc.Submit])
    · cases e
  | dispatch th =>
    simp only [Asock.eventStep, Option.ite_none_right_eq_some, Option.some.injEq] at e
    obtain ⟨⟨hth, hq⟩, rfl⟩ := e
    exact h.dispatch_step hth hq
  | callback th =>
    simp only [Asock.eventStep] at e
    split at e
    · rename_i ops hth
      split_ifs at e with hca hsend hrecv <;> obtain rfl := Option.some.inj e
      · have := h.callback_step hth (M := ops ∩ {.connect, .accept}) Finset.inter_subset_left (by simp)
        rwa [Finset.sdiff_inter_self_left] at this
      · exact h.callback_step hth (by simpa using hsend) (by simp)
      · exact h.callback_step hth (by simpa using hrecv) (by simp)
      · -- What is left is `OP_CANCEL`, if anything.
        refine h.goto (by simp [hth, Pc.Submit]) (by simp [Pc.Submit]) (by simp [Pc.Init]) (by simp) ?_
        ext op
        cases op <;> simp_all [Pc.ops]
    · cases e
  | _ => cases e

theorem Inv.step (h : Inv s) (hl : Legal s a) (e : step s a = some s') : Inv s' := by
  cases a with
  | connect | connectInit | connecting | listen | listenInit | listening => exact h.openStep hl e
  | accept | send | recv | begin | close | closing | closed => exact h.callStep hl e
  | finish | waitEnd | push | submit | dispatch | callback =>
    simp only [Asock.step] at e
    exact h.eventStep e

/-! ## Runs -/

/-- The thread carries the operation in `wait_end` or `dispatch_func`. -/
def Pc.Carries (op : Op) : Pc → Prop
  | .push .waitEnd ops | .dispatch ops => op ∈ ops
  | _ => False

/-- The thread is in `wait_end` or `dispatch_func`. -/
def Pc.InRun : Pc → Prop
  | .push .waitEnd _ | .submit .waitEnd | .dispatch _ => True
  | _ => False

/-- The thread is in the call of the operation, which has not yet recorded it. -/
def Pc.Calls (op : Op) : Pc → Prop
  | .connectInit | .connecting => op = .connect
  | .begin op' => op = op'
  | .push .call ops => op ∈ ops
  | _ => False

/-- The operation is recorded in `wait_ops` while a wait is outstanding, or in `dispatch_queue`
while the dispatch task is in the run queue or about to be submitted, or a callback carries it. -/
def Recorded (s : State Φ P K T) (op : Op) : Prop :=
  op ∈ s.asock.waitOps ∧ s.asock.waitFd.Outstanding ∨
    op ∈ s.asock.dispatchQueue ∧ (s.queued ≠ 0 ∨ ∃ th, (s.thread th).Submit) ∨
    ∃ th, (s.thread th).Carries op

omit [DecidableEq T] in
theorem Inv.recorded (h : Inv s) {op : Op} (hop : op ∈ s.outstanding) :
    Recorded s op ∨ ∃ th, (s.thread th).Calls op := by
  obtain ⟨p, hp⟩ := h.custody.cover (o := op) hop
  cases p with
  | wait =>
    refine .inl (.inl ⟨hp.1, h.waiting.wait.1 ?_⟩)
    exact Finset.ne_empty_of_mem hp.1
  | queue =>
    refine .inl (.inr (.inl ⟨hp.1, ?_⟩))
    rcases h.task.full (Finset.ne_empty_of_mem hp.1) with ⟨hq, -⟩ | ⟨-, th, hth, -⟩
    · exact .inl (by simp [hq])
    · exact .inr ⟨th, hth⟩
  | thread th =>
    have hmem : op ∈ (s.thread th).ops := hp.1
    rw [Recorded]
    cases e : s.thread th with
    | connectInit | connecting | begin op' =>
      refine .inr ⟨th, ?_⟩
      simpa [e, Pc.ops, Pc.Calls] using hmem
    | push c ops =>
      cases c with
      | call =>
        refine .inr ⟨th, ?_⟩
        simpa [e, Pc.ops, Pc.Calls] using hmem
      | waitEnd =>
        refine .inl (.inr (.inr ⟨th, ?_⟩))
        simpa [e, Pc.ops, Pc.Carries] using hmem
    | dispatch ops =>
      refine .inl (.inr (.inr ⟨th, ?_⟩))
      simpa [e, Pc.ops, Pc.Carries] using hmem
    | idle | listenInit | listening | closing | closed | submit => simp [e, Pc.ops] at hmem

/-- In every run, an operation was called back as often as it was called, or once less while it is
outstanding; it is then recorded or carried, or in the call itself. The dispatch task is
never submitted while it is in the run queue, nor is a wait started while one is outstanding. -/
theorem run_once {func : Φ} {data : P} {client : K}
    (hr : Reached step Legal (State.init func data client) s) :
    (∀ op, s.requests op = s.callbacks op + if op ∈ s.outstanding then 1 else 0) ∧
      s.resubmitted = false ∧ s.asock.waitFd.misused = false ∧
      ∀ op ∈ s.outstanding, Recorded s op ∨ ∃ th, (s.thread th).Calls op := by
  have h : Inv s := hr.invariant (inv_init func data client) fun h hl e => h.step hl e
  exact ⟨h.count, h.task.proper, h.waiting.proper, fun op hop => h.recorded hop⟩

/-- A connection is accepted on a listening socket. -/
theorem run_once_accept : ∃ s : State Unit Unit Unit Bool,
    Reached step Legal (State.init () () ()) s ∧ s.outstanding = {.accept} ∧
      s.requests .accept = s.callbacks .accept + 1 := by
  obtain ⟨s, hr, hb⟩ := exists_reached step
    (fun s a => Legal (s : State Unit Unit Unit Bool) a) (State.init () () ())
    [.listen false ⟨3, 0⟩, .listenInit false, .listening false ⟨0, 0⟩ ⟨0, 0⟩ ⟨0, 0⟩,
      .accept false () (), .begin false, .finish IoqFd.eventIn 0,
      .waitEnd true ⟨⟨0, 0⟩, ⟨4, 0⟩, ⟨0, 0⟩, ⟨0, 0⟩⟩, .push true]
    (fun s => decide (s.outstanding = {.accept})) (by decide +kernel)
  have hs := of_decide_eq_true hb
  exact ⟨s, hr, hs, by simpa [hs] using (run_once hr).1 .accept⟩

/-- The socket is closed while an accept is waited for. Before the dispatch task is submitted for a
send that has failed, the accept is put into `dispatch_queue` and its `wait_end` is over. -/
theorem not_queued_yet : ∃ s : State Unit Unit Unit Bool,
    Reached step Legal (State.init () () ()) s ∧ .accept ∈ s.outstanding ∧
      ¬((∃ th, (s.thread th).Calls .accept) ∨
        .accept ∈ s.asock.waitOps ∧ s.asock.waitFd.Outstanding ∨
        .accept ∈ s.asock.dispatchQueue ∧ s.queued ≠ 0 ∨ ∃ th, (s.thread th).InRun) := by
  obtain ⟨s, hr, hb⟩ := exists_reached step
    (fun s a => Legal (s : State Unit Unit Unit Bool) a) (State.init () () ())
    [.listen false ⟨3, 0⟩, .listenInit false, .listening false ⟨0, 0⟩ ⟨0, 0⟩ ⟨0, 0⟩,
      .accept false () (), .begin false, .close false, .closing false, .closed false,
      .send false () 8 (), .push false, .finish 0 0,
      .waitEnd true ⟨⟨0, 0⟩, ⟨4, 0⟩, ⟨0, 0⟩, ⟨0, 0⟩⟩, .push true]
    (fun s => decide (.accept ∈ s.outstanding ∧ .accept ∉ s.asock.waitOps ∧ s.queued = 0 ∧
      s.thread false = .submit .call ∧ s.thread true = .idle)) (by decide +kernel)
  obtain ⟨ho, hw, hq, h₀, h₁⟩ := of_decide_eq_true hb
  refine ⟨s, hr, ho, ?_⟩
  rintro (⟨th, h⟩ | ⟨h, -⟩ | ⟨-, h⟩ | ⟨th, h⟩)
  · cases th <;> simp [h₀, h₁, Pc.Calls] at h
  · exact hw h
  · exact h hq
  · cases th <;> simp [h₀, h₁, Pc.InRun] at h

end Dlb.Asock
