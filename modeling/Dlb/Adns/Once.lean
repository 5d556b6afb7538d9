import Mathlib.Tactic.Common
import Dlb.Custody
import Dlb.Machine
import Dlb.Adns.Code

/-!
# A request is called back once

A request that is outstanding is in one place: in its call, in the list, in the hands of the worker or
of a cancellation, or in the run queue. `adns_request_cancel` takes it from the list if the flag
`REQUEST_BUSY` is set; but this is set before the request is in the list, and cleared after it was
taken out by the worker. A cancellation in one of these gaps removes a request that is not in
the list, which is the only way to a fault.

* `held`: what is in which place;
* `Gap`: the flag is set, and the request is not in the list.
-/

namespace Dlb.Adns

open Machine

variable {Q H I Φ : Type} {s s' : State Q H I Φ} {a : Act Q H I Φ} {l : List Q} {q : Q}

/-! ## Where the requests are -/

/-- The request that the worker has taken out of the list. -/
def Worker.source : Worker Q H I → Option Q
  | .unlinked q .. | .cleared q .. | .failed q .. | .ready q .. => some q
  | .peek | .wait | .clear | .lookup .. | .fulfill .. | .exited => none

/-- The request that the worker has taken out of the list, before its flag is cleared. -/
def Worker.stale : Worker Q H I → Option Q
  | .unlinked q .. => some q
  | _ => none

/-- The flag of the request is set while it is not in the list: between the two in
`adns_request_ask`, or in `fulfill_request`. -/
def Gap (s : State Q H I Φ) (q : Q) : Prop := s.ask q = .busy ∨ s.worker.stale = some q

inductive Place
  | ask
  | list
  | worker
  | cancel
  | queue

/-- What is in which place, if the list holds `l`. -/
def held (s : State Q H I Φ) (l : List Q) : Place → Set Q
  | .ask => {q | s.ask q ≠ .idle}
  | .list => {q | q ∈ l}
  | .worker => {q | s.worker.source = some q}
  | .cancel => {q | s.cancelling q ≠ 0}
  | .queue => {q | s.queued q ≠ 0}

/-- The invariant. -/
structure Inv (s : State Q H I Φ) (l : List Q) : Prop where
  list : s.requests.Holds l
  custody : Custody (held s l) {q | s.outstanding q = true}
  cancelling : ∀ q, s.cancelling q ≤ 1
  queued : ∀ q, s.queued q ≤ 1
  busy : ∀ q, s.busy q = true → q ∈ l ∨ Gap s q
  count : ∀ q, s.asks q =
    s.submissions q + if s.outstanding q = true ∧ s.queued q = 0 then 1 else 0

theorem inv_init [DecidableEq Q] (func : Q → Φ) : Inv (State.init func : State Q H I Φ) [] where
  list := Links.holds_init
  custody := by
    have ho : {q | (State.init func : State Q H I Φ).outstanding q = true} = ∅ := by
      ext q
      simp [State.init]
    rw [ho]
    refine Custody.empty fun p => ?_
    ext q
    cases p <;> simp [held, State.init, Worker.source]
  cancelling := by simp [State.init]
  queued := by simp [State.init]
  busy := by simp [State.init]
  count := by simp [State.init]

/-- What the invariant does not speak of may change. -/
theorem Inv.congr (h : Inv s l) (hr : s'.requests = s.requests) (hb : s'.busy = s.busy)
    (hw : s'.worker.source = s.worker.source) (hw' : s'.worker.stale = s.worker.stale)
    (ha : s'.ask = s.ask) (hc : s'.cancelling = s.cancelling) (hq : s'.queued = s.queued)
    (ho : s'.outstanding = s.outstanding) (hn : s'.asks = s.asks)
    (hs : s'.submissions = s.submissions) : Inv s' l where
  list := hr ▸ h.list
  custody := by
    rw [ho]
    refine h.custody.congr fun p => ?_
    cases p <;> simp only [held, hw, ha, hc, hq]
  cancelling := hc ▸ h.cancelling
  queued := hq ▸ h.queued
  busy := by simpa only [hb, Gap, ha, hw'] using h.busy
  count := by simpa only [hn, hs, ho, hq] using h.count

/-- A request is in one place only. -/
theorem Inv.only (h : Inv s l) {p r : Place} (hp : q ∈ held s l p) (hne : r ≠ p) :
    q ∉ held s l r :=
  fun hr => hne (h.custody.unique hr hp)

variable [DecidableEq Q]

theorem Inv.ask (h : Inv s l) (hl : s.outstanding q = false) (ha : s.ask q = .idle)
    {result : Q → Option I} {question : Q → Question H} {func : Q → Φ} {cancelled : Q → Bool} :
    Inv { s with
      result := result
      question := question
      func := func
      ask := Function.update s.ask q .stored
      outstanding := Function.update s.outstanding q true
      asks := Function.update s.asks q (s.asks q + 1)
      cancelled := cancelled } l := by
  have hqueue : s.queued q = 0 := by
    by_contra hne
    have := h.custody.subset .queue hne
    simp [hl] at this
  refine ⟨h.list, ?_, h.cancelling, h.queued, fun q' hb => ?_, fun q' => ?_⟩
  · rw [setOf_update_true]
    refine h.custody.add (p := .ask) (by simp [hl]) ?_ fun p hp => ?_
    · ext x
      rcases eq_or_ne x q with rfl | hne
      · simp [held]
      · simp [held, hne]
    · cases p with
      | ask => exact absurd rfl hp
      | list | worker | cancel | queue => rfl
  · refine (h.busy q' hb).imp_right fun hg => ?_
    rcases eq_or_ne q' q with rfl | hne
    · exact .inr (hg.resolve_left (by simp [ha]))
    · simpa [Gap, hne] using hg
  · rcases eq_or_ne q' q with rfl | hne
    · simpa [hqueue, hl] using h.count q'
    · simpa [hne] using h.count q'

theorem Inv.askLock (h : Inv s l) (ha : s.ask q = .busy) (raising : ℕ) :
    Inv { s with
      requests := s.requests.listInsert q
      ask := Function.update s.ask q .idle
      raising := raising } (l ++ [q]) := by
  have hask : q ∈ held s l .ask := by simp [held, ha]
  have hql : q ∉ l := h.only hask (r := .list) nofun
  refine ⟨h.list.insert hql, ?_, h.cancelling, h.queued, fun q' hb => ?_, h.count⟩
  · refine h.custody.pass (p := .ask) (q := .list) nofun hask (fun x => ?_) (fun x => ?_)
      fun p hp hp' => ?_
    · rcases eq_or_ne x q with rfl | hne
      · simp [held]
      · simp [held, hne]
    · simp [held]
    · cases p with
      | ask => exact absurd rfl hp
      | list => exact absurd rfl hp'
      | worker | cancel | queue => rfl
  · rcases eq_or_ne q' q with rfl | hne
    · exact .inl (by simp)
    · refine (h.busy q' hb).imp (List.mem_append_left _) fun hg => ?_
      simpa [Gap, hne] using hg

theorem Inv.cancel (h : Inv s l) {requests : Links Q} (e : s.requests.listRemove q = some requests)
    (cancelled : Q → Bool) :
    Inv { s with
      busy := Function.update s.busy q false
      requests := requests
      cancelling := Function.update s.cancelling q (s.cancelling q + 1)
      cancelled := cancelled } (l.erase q) := by
  have hql : q ∈ l := by
    by_contra hq
    simp [h.list.remove_of_not_mem hq] at e
  obtain ⟨m, e', hm⟩ := h.list.remove hql
  obtain rfl := Option.some.inj (e.symm.trans e')
  have hcanc : s.cancelling q = 0 := by
    by_contra hne
    exact h.only (p := .list) (r := .cancel) hql nofun hne
  refine ⟨hm, ?_, fun q' => ?_, h.queued, fun q' hb => ?_, h.count⟩
  · refine h.custody.pass (p := .list) (q := .cancel) nofun hql (fun x => ?_) (fun x => ?_)
      fun p hp hp' => ?_
    · simp [held, h.list.nodup.mem_erase_iff, and_comm]
    · rcases eq_or_ne x q with rfl | hne
      · simp [held]
      · simp [held, hne]
    · cases p with
      | list => exact absurd rfl hp
      | cancel => exact absurd rfl hp'
      | ask | worker | queue => rfl
  · rcases eq_or_ne q' q with rfl | hne
    · simp [hcanc]
    · simpa [hne] using h.cancelling q'
  · rcases eq_or_ne q' q with rfl | hne
    · simp at hb
    · refine (h.busy q' (by simpa [hne] using hb)).imp_left fun hq' => ?_
      rwa [h.list.nodup.mem_erase_iff, and_iff_right hne]

/-- A request that is not yet in the run queue is put there. -/
theorem Inv.count_exec (h : Inv s l) (ho : s.outstanding q = true) (hq : s.queued q = 0) (q' : Q) :
    s.asks q' = Function.update s.submissions q (s.submissions q + 1) q' +
      if s.outstanding q' = true ∧ Function.update s.queued q (s.queued q + 1) q' = 0 then 1
      else 0 := by
  rcases eq_or_ne q' q with rfl | hne
  · simpa [ho, hq] using h.count q'
  · simpa [hne] using h.count q'

theorem queued_exec (h : ∀ q, s.queued q ≤ 1) (hq : s.queued q = 0) (q' : Q) :
    Function.update s.queued q (s.queued q + 1) q' ≤ 1 := by
  rcases eq_or_ne q' q with rfl | hne
  · simp [hq]
  · simpa [hne] using h q'

theorem Inv.cancelExec (h : Inv s l) (hc : s.cancelling q ≠ 0) :
    Inv (taskExec { s with
      cancelling := Function.update s.cancelling q (s.cancelling q - 1) } q) l := by
  have hq : s.queued q = 0 := by
    by_contra hne
    exact h.only (p := .cancel) (r := .queue) hc nofun hne
  have hc₁ : s.cancelling q - 1 = 0 := Nat.sub_eq_zero_of_le (h.cancelling q)
  refine ⟨h.list, ?_, fun q' => ?_, queued_exec h.queued hq, h.busy,
    h.count_exec (h.custody.subset .cancel hc) hq⟩
  · refine h.custody.pass (p := .cancel) (q := .queue) nofun hc (fun x => ?_) (fun x => ?_)
      fun p hp hp' => ?_
    · rcases eq_or_ne x q with rfl | hne
      · simp [held, taskExec, hc₁]
      · simp [held, taskExec, hne]
    · rcases eq_or_ne x q with rfl | hne
      · simp [held, taskExec]
      · simp [held, taskExec, hne]
    · cases p with
      | cancel => exact absurd rfl hp
      | queue => exact absurd rfl hp'
      | ask | list | worker => rfl
  · rcases eq_or_ne q' q with rfl | hne
    · simp [taskExec, hc₁]
    · simpa [taskExec, hne] using h.cancelling q'

theorem Inv.exec (h : Inv s l) {ask : ℕ} {req : Question H} {ans : Answer I}
    (hw : s.worker = .ready q ask req ans) : Inv (taskExec { s with worker := .peek } q) l := by
  have hsrc : q ∈ held s l .worker := by simp [held, hw, Worker.source]
  have hq : s.queued q = 0 := by
    by_contra hne
    exact h.only hsrc (r := .queue) nofun hne
  refine ⟨h.list, ?_, h.cancelling, queued_exec h.queued hq, fun q' hb => ?_,
    h.count_exec (h.custody.subset .worker hsrc) hq⟩
  · refine h.custody.pass (p := .worker) (q := .queue) nofun hsrc (fun x => ?_) (fun x => ?_)
      fun p hp hp' => ?_
    · simp [held, taskExec, hw, Worker.source, eq_comm]
    · rcases eq_or_ne x q with rfl | hne
      · simp [held, taskExec]
      · simp [held, taskExec, hne]
    · cases p with
      | worker => exact absurd rfl hp
      | queue => exact absurd rfl hp'
      | ask | list | cancel => rfl
  · refine (h.busy q' hb).imp_right fun hg => .inl (hg.resolve_right ?_)
    simp [hw, Worker.stale]

omit [DecidableEq Q] in
theorem Inv.mem_of_next (h : Inv s l) (hq : s.requests.next .head = .item q) : q ∈ l := by
  rw [h.list.next_head] at hq
  cases l with
  | nil => simp at hq
  | cons x l =>
    obtain rfl : x = q := by simpa using hq
    simp

theorem Inv.fulfill (h : Inv s l) {ask : ℕ} {req : Question H} {ans : Answer I}
    (hw : s.worker = .fulfill q ask req ans) : ∃ l', Inv (fulfillRequest s q ask req ans) l' := by
  rw [fulfillRequest]
  split_ifs with hhead
  · exact ⟨l, h.congr rfl rfl (by simp [hw, Worker.source]) (by simp [hw, Worker.stale]) rfl rfl rfl
      rfl rfl rfl⟩
  have hql := h.mem_of_next (not_not.1 hhead)
  obtain ⟨m, e, hm⟩ := h.list.remove hql
  refine ⟨l.erase q, ?_⟩
  rw [e]
  refine ⟨hm, ?_, h.cancelling, h.queued, fun q' hb => ?_, h.count⟩
  · refine h.custody.pass (p := .list) (q := .worker) nofun hql (fun x => ?_) (fun x => ?_)
      fun p hp hp' => ?_
    · simp [held, h.list.nodup.mem_erase_iff, and_comm]
    · simp [held, hw, Worker.source, eq_comm]
    · cases p with
      | list => exact absurd rfl hp
      | worker => exact absurd rfl hp'
      | ask | cancel | queue => rfl
  · rcases eq_or_ne q' q with rfl | hne
    · exact .inr (.inr rfl)
    · refine (h.busy q' hb).imp (fun hq' => ?_) fun hg => .inl (hg.resolve_right ?_)
      · rwa [h.list.nodup.mem_erase_iff, and_iff_right hne]
      · simp [hw, Worker.stale]

theorem Inv.clearBusy (h : Inv s l) {ask : ℕ} {req : Question H} {ans : Answer I}
    (hw : s.worker = .unlinked q ask req ans) :
    Inv { s with busy := Function.update s.busy q false, worker := .cleared q ask req ans } l := by
  refine ⟨h.list, h.custody.congr fun p => ?_, h.cancelling, h.queued, fun q' hb => ?_, h.count⟩
  · cases p <;> simp [held, hw, Worker.source]
  · rcases eq_or_ne q' q with rfl | hne
    · simp at hb
    · refine (h.busy q' (by simpa [hne] using hb)).imp_right fun hg => .inl (hg.resolve_right ?_)
      simpa [hw, Worker.stale] using hne.symm

theorem Inv.run (h : Inv s l) (hq : s.queued q ≠ 0) :
    Inv { s with
      queued := Function.update s.queued q (s.queued q - 1)
      outstanding := Function.update s.outstanding q false } l := by
  have hq₁ : s.queued q - 1 = 0 := Nat.sub_eq_zero_of_le (h.queued q)
  refine ⟨h.list, ?_, h.cancelling, fun q' => ?_, h.busy, fun q' => ?_⟩
  · rw [setOf_update_false]
    refine h.custody.drop (p := .queue) ?_ ?_ fun p hp => ?_
    · rintro _ rfl
      exact hq
    · ext x
      rcases eq_or_ne x q with rfl | hne
      · simp [held, hq₁]
      · simp [held, hne]
    · cases p with
      | queue => exact absurd rfl hp
      | ask | list | worker | cancel => rfl
  · rcases eq_or_ne q' q with rfl | hne
    · simp [hq₁]
    · simpa [hne] using h.queued q'
  · rcases eq_or_ne q' q with rfl | hne
    · simpa [hq] using h.count q'
    · simpa [hne] using h.count q'

/-! ## The steps -/

/-- A cancellation does nothing, follows a null pointer or removes the request from the list. -/
theorem cancel_cases (e : clientStep s (.cancel q) = some s') :
    s' = s ∨ s.busy q = true ∧ (s.requests.listRemove q = none ∧ s' = { s with fault := true } ∨
      ∃ requests, s.requests.listRemove q = some requests ∧ s' = { s with
        busy := Function.update s.busy q false
        requests := requests
        cancelling := Function.update s.cancelling q (s.cancelling q + 1)
        cancelled := Function.update s.cancelled q true }) := by
  simp only [Adns.clientStep] at e
  split_ifs at e with hb
  · refine .inr ⟨hb, ?_⟩
    cases er : s.requests.listRemove q with
    | none =>
      rw [er] at e
      exact .inl ⟨rfl, (Option.some.inj e).symm⟩
    | some requests =>
      rw [er] at e
      exact .inr ⟨requests, rfl, (Option.some.inj e).symm⟩
  · exact .inl (Option.some.inj e).symm

theorem Inv.clientStep (h : Inv s l) (hl : Legal s a) (e : clientStep s a = some s') :
    ∃ l', Inv s' l' := by
  cases a with
  | ask q req func =>
    simp only [Adns.clientStep, Option.ite_none_right_eq_some, Option.some.injEq] at e
    obtain ⟨ha, rfl⟩ := e
    exact ⟨l, h.ask hl ha⟩
  | askBusy q =>
    simp only [Adns.clientStep, Option.ite_none_right_eq_some, Option.some.injEq] at e
    obtain ⟨ha, rfl⟩ := e
    refine ⟨l, h.list, h.custody.congr fun p => ?_, h.cancelling, h.queued, fun q' hb => ?_, h.count⟩
    · ext x
      rcases eq_or_ne x q with rfl | hne
      · cases p <;> simp [held, ha]
      · cases p <;> simp [held, hne]
    · rcases eq_or_ne q' q with rfl | hne
      · exact .inr (.inl (by simp))
      · refine (h.busy q' (by simpa [hne] using hb)).imp_right fun hg => ?_
        simpa [Gap, hne] using hg
  | askLock q =>
    simp only [Adns.clientStep, Option.ite_none_right_eq_some, Option.some.injEq] at e
    obtain ⟨ha, rfl⟩ := e
    exact ⟨l ++ [q], h.askLock ha _⟩
  | raise =>
    simp only [Adns.clientStep, Option.ite_none_right_eq_some, Option.some.injEq] at e
    obtain ⟨-, rfl⟩ := e
    exact ⟨l, h.congr rfl rfl rfl rfl rfl rfl rfl rfl rfl rfl⟩
  | cancel q =>
    rcases cancel_cases e with rfl | ⟨-, ⟨-, rfl⟩ | ⟨requests, er, rfl⟩⟩
    · exact ⟨l, h⟩
    · exact ⟨l, h.congr rfl rfl rfl rfl rfl rfl rfl rfl rfl rfl⟩
    · exact ⟨l.erase q, h.cancel er _⟩
  | cancelExec q =>
    simp only [Adns.clientStep, Option.ite_none_right_eq_some, Option.some.injEq] at e
    obtain ⟨hc, rfl⟩ := e
    exact ⟨l, h.cancelExec hc⟩
  | _ => cases e

omit [DecidableEq Q] in
theorem Inv.peek (h : Inv s l) (hw : s.worker = .peek) : Inv (peekRequest s) l := by
  rw [peekRequest]
  split_ifs
  · exact h.congr rfl rfl (by simp [hw, Worker.source]) (by simp [hw, Worker.stale]) rfl rfl rfl rfl
      rfl rfl
  · split <;>
      exact h.congr rfl rfl (by simp [hw, Worker.source]) (by simp [hw, Worker.stale]) rfl rfl rfl rfl
        rfl rfl

theorem Inv.workerStep (h : Inv s l) (e : workerStep s a = some s') : ∃ l', Inv s' l' := by
  -- The worker has the same request in its hands, and nothing else changes.
  have hsame : ∀ {w notify lookups error result}, w.source = s.worker.source →
      w.stale = s.worker.stale → ∃ l', Inv { s with
        worker := w
        notify := notify
        lookups := lookups
        error := error
        result := result } l' :=
    fun hw hw' => ⟨l, h.congr rfl rfl hw hw' rfl rfl rfl rfl rfl rfl⟩
  cases a with
  | peek =>
    simp only [Adns.workerStep] at e
    split at e <;> cases e
    exact ⟨l, h.peek ‹_›⟩
  | wait =>
    simp only [Adns.workerStep] at e
    split at e
    · simp only [Option.ite_none_right_eq_some, Option.some.injEq] at e
      obtain ⟨-, rfl⟩ := e
      exact hsame (by simp [*, Worker.source]) (by simp [*, Worker.stale])
    · cases e
  | clear | getaddrinfo | setError | setResult =>
    simp only [Adns.workerStep] at e
    split at e <;> cases e
    exact hsame (by simp [*, Worker.source]) (by simp [*, Worker.stale])
  | fulfill =>
    simp only [Adns.workerStep] at e
    split at e <;> cases e
    exact h.fulfill ‹_›
  | clearBusy =>
    simp only [Adns.workerStep] at e
    split at e <;> cases e
    exact ⟨l, h.clearBusy ‹_›⟩
  | exec =>
    simp only [Adns.workerStep] at e
    split at e <;> cases e
    exact ⟨l, h.exec ‹_›⟩
  | _ => cases e

theorem Inv.step (h : Inv s l) (hl : Legal s a) (e : step s a = some s') : ∃ l', Inv s' l' := by
  simp only [Adns.step, Option.ite_none_left_eq_some] at e
  obtain ⟨-, e⟩ := e
  cases a with
  | ask | askBusy | askLock | raise | cancel | cancelExec => exact h.clientStep hl e
  | run q =>
    simp only [Option.ite_none_right_eq_some, Option.some.injEq] at e
    obtain ⟨hq, rfl⟩ := e
    exact ⟨l, h.run hq⟩
  | destroy =>
    obtain rfl := Option.some.inj e
    exact ⟨l, h.congr rfl rfl rfl rfl rfl rfl rfl rfl rfl rfl⟩
  | peek | wait | clear | getaddrinfo | fulfill | clearBusy | setError | setResult | exec =>
    exact h.workerStep e

/-! ## Runs -/

/-- The request is not cancelled while its flag is set and it is not in the list. -/
def Safe (s : State Q H I Φ) : Act Q H I Φ → Prop
  | .cancel q => ¬Gap s q
  | .ask .. | .askBusy _ | .askLock _ | .raise | .cancelExec _ | .peek | .wait | .clear
  | .getaddrinfo _ | .fulfill | .clearBusy | .setError | .setResult | .exec | .run _
  | .destroy => True

instance (s : State Q H I Φ) : DecidablePred (Safe s)
  | .cancel q => inferInstanceAs (Decidable (¬(s.ask q = .busy ∨ s.worker.stale = some q)))
  | .ask .. | .askBusy _ | .askLock _ | .raise | .cancelExec _ | .peek | .wait | .clear
  | .getaddrinfo _ | .fulfill | .clearBusy | .setError | .setResult | .exec | .run _
  | .destroy => .isTrue trivial

theorem fault_of_step (h : Inv s l) (hf : s.fault = false) (hs : Safe s a)
    (e : step s a = some s') : s'.fault = false := by
  simp only [step, Option.ite_none_left_eq_some] at e
  obtain ⟨-, e⟩ := e
  cases a with
  | cancel q =>
    rcases cancel_cases e with rfl | ⟨hb, ⟨er, -⟩ | ⟨requests, -, rfl⟩⟩
    · exact hf
    · -- With the flag set and outside of the gaps the request is in the list.
      obtain ⟨m, er', -⟩ := h.list.remove ((h.busy q hb).resolve_right hs)
      cases er.symm.trans er'
    · exact hf
  | ask | askBusy | askLock | raise | cancelExec =>
    simp only [clientStep, Option.ite_none_right_eq_some, Option.some.injEq] at e
    obtain ⟨-, rfl⟩ := e
    exact hf
  | run q =>
    simp only [Option.ite_none_right_eq_some, Option.some.injEq] at e
    obtain ⟨-, rfl⟩ := e
    exact hf
  | destroy =>
    obtain rfl := Option.some.inj e
    exact hf
  | fulfill =>
    simp only [workerStep] at e
    split at e <;> cases e
    rw [fulfillRequest]
    split_ifs with hhead
    · exact hf
    · -- The worker removes the head of the list.
      obtain ⟨m, er, -⟩ := h.list.remove (h.mem_of_next (not_not.1 hhead))
      rw [er]
      exact hf
  | peek =>
    simp only [workerStep] at e
    split at e <;> cases e
    rw [peekRequest]
    split_ifs
    · exact hf
    · split <;> exact hf
  | wait =>
    simp only [workerStep] at e
    split at e
    · simp only [Option.ite_none_right_eq_some, Option.some.injEq] at e
      obtain ⟨-, rfl⟩ := e
      exact hf
    · cases e
  | clear | getaddrinfo | clearBusy | setError | setResult | exec =>
    simp only [workerStep] at e
    split at e <;> cases e
    exact hf

/-- A cancellation in a gap follows a null pointer. -/
theorem Inv.cancel_fault (h : Inv s l) (hb : s.busy q = true) (hg : Gap s q) :
    Adns.clientStep s (.cancel q) = some { s with fault := true } := by
  have hql : q ∉ l := by
    rcases hg with ha | hw
    · exact h.only (p := .ask) (r := .list) (by simp [held, ha]) nofun
    · refine h.only (p := .worker) (r := .list) ?_ nofun
      cases e : s.worker <;> simp_all [held, Worker.stale, Worker.source]
  simp [Adns.clientStep, hb, h.list.remove_of_not_mem hql]

/-- In every run in which no request is cancelled in a gap, no null pointer is followed: a request is
removed from the list only if it is there. A request was submitted as often as it was asked, or
once less while it is outstanding and not in the run queue. -/
theorem run_submits_once {func : Q → Φ}
    (hr : Reached step (fun s a => Legal s a ∧ Safe s a) (State.init func : State Q H I Φ) s) :
    s.fault = false ∧ (∃ l, s.requests.Holds l) ∧ ∀ q, s.asks q =
      s.submissions q + if s.outstanding q = true ∧ s.queued q = 0 then 1 else 0 := by
  obtain ⟨hf, l, h⟩ : s.fault = false ∧ ∃ l, Inv s l :=
    hr.invariant (I := fun s => s.fault = false ∧ ∃ l, Inv s l) ⟨rfl, [], inv_init func⟩
      fun ⟨hf, l, h⟩ ha e => ⟨fault_of_step h hf ha.2 e, h.step ha.1 e⟩
  exact ⟨hf, ⟨l, h.list⟩, h.count⟩

/-- One request is answered and another one is cancelled during its lookup. -/
theorem run_submits_once_two : ∃ s : State Bool Unit Unit Unit,
    Reached step (fun s a => Legal s a ∧ Safe s a) (State.init fun _ => ()) s ∧
      (s.outstanding true = false ∧ s.asks true = 1) ∧ s.submissions true = 1 := by
  obtain ⟨s, hr, hb⟩ := exists_reached step
    (fun (s : State Bool Unit Unit Unit) a => Legal s a ∧ Safe s a)
    (State.init fun _ => ())
    [.ask true ⟨some [97], none, none⟩ (), .askBusy true, .askLock true, .raise,
      .ask false ⟨some [98], none, none⟩ (), .askBusy false, .askLock false, .peek, .cancel false,
      .getaddrinfo ⟨0, some ()⟩, .fulfill, .clearBusy, .setError, .setResult, .exec, .run true]
    (fun s => decide (s.outstanding true = false ∧ s.asks true = 1)) (by decide +kernel)
  obtain ⟨ho, hn⟩ := of_decide_eq_true hb
  have hc := (run_submits_once hr).2.2 true
  exact ⟨s, hr, ⟨ho, hn⟩, by simpa [ho, hn] using hc.symm⟩

/-- The request is cancelled after the worker has taken it out of the list. -/
theorem cancel_faults : ∃ s : State Unit Unit Unit Unit,
    Reached step Legal (State.init fun _ => ()) s ∧ s.fault = true := by
  exact exists_reached step (fun (s : State Unit Unit Unit Unit) a => Legal s a)
    (State.init fun _ => ())
    [.ask () ⟨some [97], none, none⟩ (), .askBusy (), .askLock (), .peek,
      .getaddrinfo ⟨0, some ()⟩, .fulfill, .cancel ()]
    (fun s => s.fault) (by decide +kernel)

end Dlb.Adns
