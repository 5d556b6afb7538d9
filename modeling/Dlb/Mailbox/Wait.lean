import Mathlib.Data.List.Nodup
import Dlb.Machine
import Dlb.Mailbox.Log

/-!
# A wait completes once, when its condition first holds

Whether the section of a wait itself or a later one of `mailbox_raise` submits the callback, it is
the first one after which the flags meet the condition of the wait. `Phase` says how far the
last wait is: completed, armed, decided, or in the run queue.
-/

namespace Dlb.Mailbox

open Machine

variable {Φ T : Type} {m : Mailbox Φ} {op : Op Φ}

/-! ## The sections -/

/-- The wait `op` is armed. -/
def Armed (m : Mailbox Φ) : Op Φ → Prop
  | .wait set cb => m.mode = .any ∧ m.expected = set ∧ m.func = cb
  | .waitAll set cb => m.mode = .all ∧ m.expected = set ∧ m.func = cb
  | .take _ | .raise _ => False

/-- The section of a wait decides by its condition, and otherwise arms it. -/
theorem locked_wait (hop : op.isWait = true) (hm : m.mode = .none) :
    ((locked m op).1 = true ↔ op.Meets (locked m op).2.state) ∧
      ((locked m op).1 = true → (locked m op).2.mode = .none) ∧
      ((locked m op).1 = false → Armed (locked m op).2 op) ∧ op.callback = some (locked m op).2.func := by
  cases op with
  | take | raise => cases hop
  | wait set cb =>
    have := @and_ne_zero_iff m.state set
    simp only [locked, mailboxWait]
    split_ifs with h <;> simp_all [Op.Meets, Armed, Op.callback]
  | waitAll set cb =>
    have := @and_eq_iff m.state set
    simp only [locked, mailboxWaitAll]
    split_ifs with h <;> simp_all [Op.Meets, Armed, Op.callback]

/-- While no wait is armed, the other sections decide nothing. -/
theorem locked_quiet (hop : op.isWait = false) (hm : m.mode = .none) :
    (locked m op).1 = false ∧ (locked m op).2.mode = .none ∧ (locked m op).2.func = m.func := by
  cases op with
  | take mask => exact ⟨rfl, hm, rfl⟩
  | raise mask => simp [locked, mailboxRaise, fires, hm]
  | wait | waitAll => cases hop

/-- While a wait is armed, the section of `mailbox_raise` decides by its condition. -/
theorem locked_raise_armed (h : Armed m op) (mask : Flags) :
    ((locked m (.raise mask)).1 = true ↔ op.Meets (locked m (.raise mask)).2.state) ∧
      ((locked m (.raise mask)).1 = true → (locked m (.raise mask)).2.mode = .none) ∧
      ((locked m (.raise mask)).1 = false → Armed (locked m (.raise mask)).2 op) ∧
      op.callback = some (locked m (.raise mask)).2.func := by
  cases op with
  | take | raise => cases h
  | wait set cb =>
    obtain ⟨hm, rfl, rfl⟩ := h
    have := @and_ne_zero_iff (m.state ||| mask) m.expected
    rw [BitVec.and_comm] at this
    simp only [locked, mailboxRaise, fires, hm]
    split_ifs with h <;> simp_all [Op.Meets, Armed, Op.callback]
  | waitAll set cb =>
    obtain ⟨hm, rfl, rfl⟩ := h
    have := @and_eq_iff (m.state ||| mask) m.expected
    rw [BitVec.and_comm] at this
    simp only [locked, mailboxRaise, fires, hm]
    split_ifs with h <;> simp_all [Op.Meets, Armed, Op.callback]

/-- The flags after a section. -/
theorem locked_state (m : Mailbox Φ) (op : Op Φ) (k : ℕ) :
    (locked m op).2.state.getLsbD k = true ↔
      (∃ mask, op = .raise mask ∧ mask.getLsbD k = true) ∨
        m.state.getLsbD k = true ∧ ∀ mask, op = .take mask → mask.getLsbD k = false := by
  cases op with
  | take mask =>
    have hk : m.state.getLsbD k = true → k < 32 := BitVec.lt_of_getLsbD
    cases h : m.state.getLsbD k <;> simp_all [locked, mailboxTake]
  | raise mask =>
    have hs : (locked m (.raise mask)).2.state = m.state ||| mask := by
      simp only [locked, mailboxRaise]
      split_ifs <;> rfl
    simp [hs, or_comm]
  | wait set cb =>
    have hs : (locked m (.wait set cb)).2.state = m.state := by
      simp only [locked, mailboxWait]
      split <;> rfl
    simp [hs]
  | waitAll set cb =>
    have hs : (locked m (.waitAll set cb)).2.state = m.state := by
      simp only [locked, mailboxWaitAll]
      split <;> rfl
    simp [hs]

/-! ## The phases of a wait -/

variable {s s' : State Φ T} {a : Act Φ T}

/-- The section `j` has decided to submit `f`, the callback of a wait. -/
def Owed (log : List (Section Φ)) (j : ℕ) (f : Φ) : Prop :=
  ∃ i w, log[i]? = some w ∧ w.op.callback = some f ∧ Decides log i j

/-- How far the last wait is. -/
inductive Phase (s : State Φ T) : Prop
  | idle (ho : s.outstanding = false) (hm : s.box.mode = .none) (ht : ∀ th, s.thread th = none)
      (hq : s.queue = [])
  | armed (i : ℕ) (w : Section Φ) (hw : s.log[i]? = some w) (ho : s.outstanding = true)
      (ha : Armed s.box w.op) (hopen : Open s.log w.op i) (ht : ∀ th, s.thread th = none)
      (hq : s.queue = [])
  | decided (j : ℕ) (th : T) (ho : s.outstanding = true) (hm : s.box.mode = .none)
      (hj : Owed s.log j s.box.func) (hs : ∀ f, (j, f) ∉ s.submitted)
      (ht : ∀ th' j', s.thread th' = some j' ↔ th' = th ∧ j' = j) (hq : s.queue = [])
  | queued (f : Φ) (ho : s.outstanding = true) (hm : s.box.mode = .none)
      (ht : ∀ th, s.thread th = none) (hq : s.queue = [f])

/-- The invariant. -/
structure Inv (s : State Φ T) : Prop where
  phase : Phase s
  agree : Agree s.log
  settled : ∀ i w, s.log[i]? = some w → w.op.isWait = true → Open s.log w.op i →
    Last s.log i ∧ Armed s.box w.op
  fires : ∀ j x, s.log[j]? = some x → x.fire = true →
    (∃ f, Owed s.log j f) ∧ ((∃ f, (j, f) ∈ s.submitted) ∨ ∃ th, s.thread th = some j)
  submitted : ∀ j f, (j, f) ∈ s.submitted → Owed s.log j f
  nodup : (s.submitted.map Prod.fst).Nodup
  raised : ∀ k, s.box.state.getLsbD k = true ↔ Raised s.log k

theorem inv_init (func : Φ) : Inv (State.init func : State Φ T) where
  phase := .idle rfl rfl (fun _ => rfl) rfl
  agree i w hw := by simp [State.init] at hw
  settled i w hw := by simp [State.init] at hw
  fires j x hx := by simp [State.init] at hx
  submitted j f hf := by simp [State.init] at hf
  nodup := by simp [State.init]
  raised k := by simp [State.init, mailboxInit, Raised]

theorem Armed.mode_ne (h : Armed m op) : m.mode ≠ .none := by
  cases op with
  | take | raise => cases h
  | wait | waitAll => simp [h.1]

theorem Owed.snoc {log : List (Section Φ)} {j : ℕ} {f : Φ} (h : Owed log j f) (x : Section Φ) :
    Owed (log ++ [x]) j f := by
  obtain ⟨i, w, hw, hf, hd⟩ := h
  exact ⟨i, w, getElem?_snoc.2 (.inl hw), hf, decides_snoc.2 (.inl hd)⟩

/-- There is no open wait while none is armed. -/
theorem Inv.not_open (h : Inv s) (hm : s.box.mode = .none) (i : ℕ) (w : Section Φ)
    (hw : s.log[i]? = some w) (hop : w.op.isWait = true) : ¬Open s.log w.op i :=
  fun ho => (h.settled i w hw hop ho).2.mode_ne hm

variable [DecidableEq T]

/-- The state after the section of `op` by the thread `th`. -/
def afterLock (s : State Φ T) (th : T) (op : Op Φ) : State Φ T :=
  { s with
    box := (locked s.box op).2
    thread := if (locked s.box op).1 then Function.update s.thread th (some s.log.length)
      else s.thread
    outstanding := s.outstanding || op.isWait
    log := s.log ++ [⟨op, (locked s.box op).2.state, (locked s.box op).1⟩] }

theorem Inv.snoc (h : Inv s) {th : T} (hth : s.thread th = none)
    (hphase : Phase (afterLock s th op)) (hagree : Agree (afterLock s th op).log)
    (hsettled : ∀ i w, (afterLock s th op).log[i]? = some w → w.op.isWait = true →
      Open (afterLock s th op).log w.op i →
        Last (afterLock s th op).log i ∧ Armed (afterLock s th op).box w.op)
    (hnew : (locked s.box op).1 = true → ∃ f, Owed (afterLock s th op).log s.log.length f) :
    Inv (afterLock s th op) where
  phase := hphase
  agree := hagree
  settled := hsettled
  fires j x hx hf := by
    rcases getElem?_snoc.1 hx with hx | ⟨rfl, rfl⟩
    · obtain ⟨⟨f, howed⟩, hj⟩ := h.fires j x hx hf
      refine ⟨⟨f, howed.snoc _⟩, hj.imp_right ?_⟩
      rintro ⟨th', hth'⟩
      refine ⟨th', ?_⟩
      have hne : th' ≠ th := by
        rintro rfl
        simp [hth] at hth'
      simp only [afterLock]
      split_ifs
      · rwa [Function.update_of_ne hne]
      · exact hth'
    · have hf : (locked s.box op).1 = true := hf
      exact ⟨hnew hf, .inr ⟨th, by simp [afterLock, hf]⟩⟩
  submitted j f hf := (h.submitted j f hf).snoc _
  nodup := h.nodup
  raised k := by
    rw [afterLock, raised_snoc, ← h.raised k]
    exact locked_state s.box op k

/-- A section that decides to submit the callback, or leaves the wait `i` armed. -/
theorem Inv.phase_afterLock (h : Inv s) {th : T} (ht : ∀ th, s.thread th = none)
    (hq : s.queue = []) (ho : (afterLock s th op).outstanding = true)
    (hm : (locked s.box op).1 = true → (locked s.box op).2.mode = .none)
    (howed : (locked s.box op).1 = true →
      Owed (afterLock s th op).log s.log.length (locked s.box op).2.func)
    {i : ℕ} {w : Section Φ} (hw : (afterLock s th op).log[i]? = some w)
    (ha : (locked s.box op).1 = false →
      Armed (locked s.box op).2 w.op ∧ Open (afterLock s th op).log w.op i) :
    Phase (afterLock s th op) := by
  cases hfire : (locked s.box op).1 with
  | true =>
    -- No submission is for the new section, which is after all that were logged.
    refine .decided s.log.length th ho (hm hfire) (howed hfire) ?_ ?_ hq
    · intro f hmem
      obtain ⟨i', w', -, -, -, ⟨x, hx, -⟩, -⟩ := h.submitted _ f hmem
      exact (lt_length hx).ne rfl
    · intro th' j'
      rcases eq_or_ne th' th with rfl | hne
      · simp [afterLock, hfire, eq_comm]
      · simp [afterLock, hfire, hne, ht]
  | false =>
    obtain ⟨ha, hopen⟩ := ha hfire
    exact .armed i w hw ho ha hopen (by simpa [afterLock, hfire] using ht) hq

/-- A section while no wait is armed, other than the one of a wait. -/
theorem Inv.quiet (h : Inv s) {th : T} (hth : s.thread th = none) (hop : op.isWait = false)
    (hm : s.box.mode = .none) : Inv (afterLock s th op) := by
  obtain ⟨hf, hm', hfunc⟩ := locked_quiet hop hm
  have hno := h.not_open hm
  refine h.snoc hth ?_ ?_ ?_ (by simp [hf])
  · have ht : (afterLock s th op).thread = s.thread := by simp [afterLock, hf]
    have ho : (afterLock s th op).outstanding = s.outstanding := by
      simp [afterLock, hop]
    -- The wait is as far as it was: nothing is armed, and a decision stays owed.
    rcases h.phase with ⟨ho', -, ht', hq⟩ | ⟨i, w, hw, -, ha, -⟩ |
      ⟨j, th', ho', -, hj, hs, ht', hq⟩ | ⟨f, ho', -, ht', hq⟩
    · exact .idle (ho.trans ho') hm' (ht ▸ ht') hq
    · exact absurd hm ha.mode_ne
    · refine .decided j th' (ho.trans ho') hm' ?_ hs (ht ▸ ht') hq
      simp only [afterLock, hfunc]
      exact hj.snoc _
    · exact .queued f (ho.trans ho') hm' (ht ▸ ht') hq
  · refine h.agree.snoc ?_ hop ?_ (by simp [hf])
    · exact fun i w hw hw' ho => absurd ho (hno i w hw hw')
    · exact fun i w hw hw' ho => absurd ho (hno i w hw hw')
  · intro i w hw hw' ho
    rcases getElem?_snoc.1 hw with hw | ⟨rfl, rfl⟩
    · exact absurd (open_snoc.1 ho).1 (hno i w hw hw')
    · simp [hop] at hw'

/-- The section of `mailbox_raise` while a wait is armed. -/
theorem Inv.raise (h : Inv s) {th : T} (ht : ∀ th, s.thread th = none) (hq : s.queue = [])
    (ho : s.outstanding = true) {i : ℕ} {w : Section Φ} (hw : s.log[i]? = some w)
    (ha : Armed s.box w.op) (hopen : Open s.log w.op i) (mask : Flags) :
    Inv (afterLock s th (.raise mask)) := by
  obtain ⟨hf, hm, harm, hcb⟩ := locked_raise_armed ha mask
  have hop : w.op.isWait = true := by
    cases hwop : w.op with
    | take | raise => simp [hwop, Armed] at ha
    | wait | waitAll => rfl
  obtain ⟨hlast, -⟩ := h.settled i w hw hop hopen
  -- The wait that is armed is the only open one, so the section decides for it or for none.
  have honly : ∀ i' w', s.log[i']? = some w' → w'.op.isWait = true → Open s.log w'.op i' →
      i' = i ∧ w' = w := by
    intro i' w' hw' hop' hopen'
    obtain rfl := last_unique hw hop hlast hw' hop' (h.settled i' w' hw' hop' hopen').1
    exact ⟨rfl, Option.some.inj (hw'.symm.trans hw)⟩
  have howed : (locked s.box (.raise mask)).1 = true →
      Owed (afterLock s th (.raise mask)).log s.log.length
        (locked s.box (.raise mask)).2.func := by
    intro hf
    refine ⟨i, w, getElem?_snoc.2 (.inl hw), hcb, decides_snoc.2 (.inr ?_)⟩
    exact ⟨rfl, (lt_length hw).le, hf, fun _ => rfl, hlast⟩
  refine h.snoc (ht th) ?_ ?_ ?_ fun hf => ⟨_, howed hf⟩
  · refine h.phase_afterLock ht hq (by simp [afterLock, ho]) hm howed
      (getElem?_snoc.2 (.inl hw)) fun hnf => ⟨harm hnf, open_snoc.2 ⟨hopen, fun _ => ?_⟩⟩
    simp [← hf, hnf]
  · refine h.agree.snoc ?_ rfl ?_ fun _ => ⟨i, w, hw, hop, hopen⟩
    · exact fun i' w' hw' hop' hopen' => (h.settled i' w' hw' hop' hopen').1
    · intro i' w' hw' hop' hopen'
      obtain ⟨rfl, rfl⟩ := honly i' w' hw' hop' hopen'
      exact hf
  · intro i' w' hw' hop' hopen'
    rcases getElem?_snoc.1 hw' with hw' | ⟨rfl, rfl⟩
    · obtain ⟨hopen', hm⟩ := open_snoc.1 hopen'
      obtain ⟨rfl, rfl⟩ := honly i' w' hw' hop' hopen'
      have hnf : (locked s.box (.raise mask)).1 = false := by
        simpa [← hf] using hm (lt_length hw').le
      exact ⟨last_snoc.2 ⟨hlast, fun _ => rfl⟩, harm hnf⟩
    · cases hop'

/-- The section of a wait. -/
theorem Inv.wait (h : Inv s) {th : T} (hop : op.isWait = true) (ht : ∀ th, s.thread th = none)
    (hq : s.queue = []) (hm : s.box.mode = .none) : Inv (afterLock s th op) := by
  obtain ⟨hf, hm', harm, hcb⟩ := locked_wait hop hm
  have hno := h.not_open hm
  -- The section of the wait is the last one of the log, so it can only be decided by itself.
  have hnone : ∀ {k y}, s.log.length ≤ k → s.log[k]? ≠ some y :=
    fun hk hy => (lt_length hy).not_ge hk
  have hself : (afterLock s th op).log[s.log.length]? =
      some ⟨op, (locked s.box op).2.state, (locked s.box op).1⟩ := getElem?_snoc.2 (.inr ⟨rfl, rfl⟩)
  have howed : (locked s.box op).1 = true →
      Owed (afterLock s th op).log s.log.length (locked s.box op).2.func := by
    intro hf
    refine ⟨s.log.length, _, hself, hcb, decides_snoc.2 (.inr ?_)⟩
    exact ⟨rfl, le_rfl, hf, fun hlt => absurd rfl hlt.ne, fun k y hk hy => absurd hy (hnone hk.le)⟩
  have ho : (afterLock s th op).outstanding = true := by simp [afterLock, hop]
  refine h.snoc (ht th) ?_ (h.agree.snoc_wait hop hno hf) ?_ fun hf => ⟨_, howed hf⟩
  · refine h.phase_afterLock ht hq ho hm' howed hself fun hnf => ⟨harm hnf, ?_⟩
    refine open_snoc.2 ⟨fun k y hk hy => absurd hy (hnone hk), fun _ => ?_⟩
    simp [← hf, hnf]
  · intro i' w' hw' hop' hopen'
    rcases getElem?_snoc.1 hw' with hw' | ⟨rfl, rfl⟩
    · exact absurd (open_snoc.1 hopen').1 (hno i' w' hw' hop')
    · have hnf : (locked s.box op).1 = false := by
        simpa [← hf] using (open_snoc.1 hopen').2 le_rfl
      refine ⟨last_snoc.2 ⟨fun k y hk hy => absurd hy (hnone hk.le), fun hlt => ?_⟩, harm hnf⟩
      exact absurd rfl hlt.ne

theorem Inv.lock (h : Inv s) {th : T} (hth : s.thread th = none) (hl : Legal s (.lock th op)) :
    Inv (afterLock s th op) := by
  by_cases hm : s.box.mode = .none
  · cases hop : op.isWait with
    | false => exact h.quiet hth hop hm
    | true =>
      have ho : s.outstanding = false := by
        cases op with
        | take | raise => cases hop
        | wait | waitAll => exact hl
      rcases h.phase with ⟨-, -, ht, hq⟩ | ⟨_, _, _, ho', _⟩ | ⟨_, _, ho', _⟩ | ⟨_, ho', _⟩
      · exact h.wait hop ht hq hm
      all_goals simp [ho] at ho'
  · -- A wait is armed, so it is outstanding, and only `mailbox_raise` may be called.
    rcases h.phase with ⟨_, hm', _⟩ | ⟨i, w, hw, ho, ha, hopen, ht, hq⟩ | ⟨_, _, _, hm', _⟩ |
      ⟨_, _, hm', _⟩
    · exact absurd hm' hm
    · cases op with
      | raise mask => exact h.raise ht hq ho hw ha hopen mask
      | take | wait | waitAll =>
        have ho' : s.outstanding = false := hl
        simp [ho] at ho'
    · exact absurd hm' hm
    · exact absurd hm' hm

theorem Inv.taskExec (h : Inv s) {th : T} (e : step s (.taskExec th) = some s') : Inv s' := by
  simp only [step] at e
  split at e
  · rename_i j hj
    obtain rfl := Option.some.inj e
    rcases h.phase with ⟨-, -, ht, -⟩ | ⟨_, _, _, _, _, _, ht, -⟩ | ⟨j', th', ho, hm, howed, hs, ht, hq⟩ |
      ⟨_, _, _, ht, _⟩
    · simp [ht] at hj
    · simp [ht] at hj
    · -- This thread has decided, and it is the only one: nothing else is left to submit.
      obtain ⟨rfl, rfl⟩ := (ht th j).1 hj
      refine ⟨.queued s.box.func ho hm (fun th' => ?_) (by simp [hq]), h.agree, h.settled,
        fun k x hx hf => ?_, fun k f hmem => ?_, ?_, h.raised⟩
      · rcases eq_or_ne th' th with rfl | hne
        · simp
        · rw [Option.eq_none_iff_forall_ne_some]
          intro k hk
          exact hne ((ht th' k).1 (by simpa [hne] using hk)).1
      · obtain ⟨hf', ⟨f, hmem⟩ | ⟨th', hth'⟩⟩ := h.fires k x hx hf
        · exact ⟨hf', .inl ⟨f, List.mem_append_left _ hmem⟩⟩
        · obtain ⟨-, rfl⟩ := (ht th' k).1 hth'
          exact ⟨hf', .inl ⟨s.box.func, by simp⟩⟩
      · rcases List.mem_append.1 hmem with hmem | hmem
        · exact h.submitted k f hmem
        · obtain ⟨rfl, rfl⟩ : k = j ∧ f = s.box.func := by simpa using hmem
          exact howed
      · rw [List.map_append, List.nodup_append_comm]
        refine List.nodup_cons.2 ⟨fun hmem => ?_, h.nodup⟩
        obtain ⟨⟨k, f⟩, hk, rfl⟩ := List.mem_map.1 hmem
        exact hs f hk
    · simp [ht] at hj
  · cases e

theorem Inv.run (h : Inv s) (e : step s .run = some s') : Inv s' := by
  simp only [step] at e
  split at e
  · rename_i f queue hq'
    obtain rfl := Option.some.inj e
    rcases h.phase with ⟨_, _, _, hq⟩ | ⟨_, _, _, _, _, _, _, hq⟩ | ⟨_, _, _, _, _, _, _, hq⟩ |
      ⟨_, _, hm, ht, hq⟩
    · simp [hq'] at hq
    · simp [hq'] at hq
    · simp [hq'] at hq
    · rw [hq', List.cons.injEq] at hq
      exact ⟨.idle rfl hm ht hq.2, h.agree, h.settled, h.fires, h.submitted, h.nodup, h.raised⟩
  · cases e

theorem Inv.step (h : Inv s) (hl : Legal s a) (e : step s a = some s') : Inv s' := by
  cases a with
  | lock th op =>
    simp only [Mailbox.step, Option.ite_none_right_eq_some, Option.some.injEq] at e
    obtain ⟨hth, rfl⟩ := e
    exact h.lock hth hl
  | taskExec th => exact h.taskExec e
  | run => exact h.run e

/-- In every run:
* the section that decides to submit the callback of a wait is the first one from the wait on after
  which its condition holds;
* every decision is one for a wait, and there is one submission for it, with the callback of
  the wait, or a thread that is about to make it;
* no decision leads to two submissions, and nothing else does to one;
* the flags are those that were raised and not cleared since. -/
theorem run_completes {func : Φ} (hr : Reached step Legal (State.init func) s) :
    (∀ i w, s.log[i]? = some w → w.op.isWait = true → ∀ j, Decides s.log i j ↔ First s.log w.op i j) ∧
      (∀ j x, s.log[j]? = some x → x.fire = true → (∃ f, Owed s.log j f) ∧
        ((∃ f, (j, f) ∈ s.submitted) ∧ (∀ th, s.thread th ≠ some j) ∨
          (∀ f, (j, f) ∉ s.submitted) ∧ ∃! th, s.thread th = some j)) ∧
      ((s.submitted.map Prod.fst).Nodup ∧ ∀ j f, (j, f) ∈ s.submitted → Owed s.log j f) ∧
      ∀ k, s.box.state.getLsbD k = true ↔ Raised s.log k := by
  have h : Inv s := hr.invariant (inv_init func) fun h hl e => h.step hl e
  refine ⟨h.agree, fun j x hx hf => ?_, ⟨h.nodup, h.submitted⟩, h.raised⟩
  obtain ⟨howed, hj⟩ := h.fires j x hx hf
  refine ⟨howed, ?_⟩
  by_cases hth : ∃ th, s.thread th = some j
  · obtain ⟨th, hth⟩ := hth
    rcases h.phase with ⟨-, -, ht, -⟩ | ⟨_, _, _, _, _, _, ht, -⟩ | ⟨j', th', _, _, _, hs, ht, _⟩ |
      ⟨_, _, _, ht, _⟩
    · simp [ht] at hth
    · simp [ht] at hth
    · obtain ⟨rfl, rfl⟩ := (ht th j).1 hth
      exact .inr ⟨hs, th, hth, fun th' hth' => ((ht th' j).1 hth').1⟩
    · simp [ht] at hth
  · rw [not_exists] at hth
    rcases hj with hj | ⟨th, hj⟩
    · exact .inl ⟨hj, hth⟩
    · exact absurd hj (hth th)

/-- Two threads raise the flags that a wait is for, and the second one submits its callback. -/
theorem run_completes_two : ∃ s : State ℕ (Fin 3), Reached step Legal (State.init 0) s ∧
    s.submitted = [(2, 7)] ∧ Owed s.log 2 7 := by
  obtain ⟨s, hr, hb⟩ := exists_reached step
    (fun s a => Legal (s : State ℕ (Fin 3)) a) (State.init 0)
    [.lock 0 (.waitAll 3 7), .lock 1 (.raise 1), .lock 2 (.raise 2), .lock 1 (.raise 3), .taskExec 2]
    (fun s => decide (s.submitted = [(2, 7)])) (by decide +kernel)
  have hs := of_decide_eq_true hb
  exact ⟨s, hr, hs, (run_completes hr).2.2.1.2 2 7 (by simp [hs])⟩

end Dlb.Mailbox
