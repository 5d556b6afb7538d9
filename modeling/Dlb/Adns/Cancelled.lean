import Dlb.Adns.Answer

/-!
# A cancelled request

The header says of `adns_request_cancel` that a cancelled request completes with a non-error code and no
result. Neither is set there. The result was freed when the request was asked, but the error
is the one of the last answer that the worker gave to this request, if there was any.
-/

namespace Dlb.Adns

open Machine

variable {Q H I Φ : Type} [DecidableEq Q] {s s' : State Q H I Φ} {a : Act Q H I Φ} {l : List Q} {q : Q}
  {last : Q → ℤ}

/-! ## Answers -/

/-- The error code of the last answer of each request after a step, if it was `last` before it. An answer
is given when the worker submits the task. -/
def completed (s : State Q H I Φ) (last : Q → ℤ) : Act Q H I Φ → Q → ℤ
  | .exec =>
    match s.worker with
    | .ready q _ _ ans => Function.update last q ans.errCode
    | _ => last
  | _ => last

/-- A step, and the error codes of the last answers. -/
def answerStep (t : State Q H I Φ × (Q → ℤ)) (a : Act Q H I Φ) : Option (State Q H I Φ × (Q → ℤ)) :=
  (step t.1 a).map fun s => (s, completed t.1 t.2 a)

/-- The request whose error the worker has set, and the error. -/
def Worker.noted : Worker Q H I → Option (Q × ℤ)
  | .failed q _ _ ans | .ready q _ _ ans => some (q, ans.errCode)
  | .peek | .wait | .clear | .lookup .. | .fulfill .. | .unlinked .. | .cleared .. | .exited => none

/-- The invariant. -/
structure Clean (s : State Q H I Φ) (last : Q → ℤ) : Prop where
  error : ∀ q, (∀ e, s.worker.noted ≠ some (q, e)) → s.error q = last q
  noted : ∀ q e, s.worker.noted = some (q, e) → s.error q = e
  /-- A cancelled request is in the hands of a cancellation or in the run queue, or called back. -/
  cancelled : ∀ q, s.cancelled q = true → s.ask q = .idle ∧ ¬Linked s q ∧ s.worker.source ≠ some q
  result : ∀ q, s.ask q ≠ .idle ∨ Linked s q ∨ s.cancelled q = true ∧ s.outstanding q = true →
    s.result q = none

omit [DecidableEq Q] in
theorem clean_init (func : Q → Φ) : Clean (State.init func : State Q H I Φ) fun _ => 0 := by
  constructor <;> simp [State.init, Worker.noted]

omit [DecidableEq Q] in
/-- A step of the worker that has nothing to do with a request in its hands, or of a client that
is past its section. -/
theorem Clean.congr (h : Clean s last) (he : s'.error = s.error) (hc : s'.cancelled = s.cancelled)
    (ha : s'.ask = s.ask) (hr : s'.requests = s.requests) (hres : s'.result = s.result)
    (hn : s'.worker.noted = s.worker.noted) (hs : s'.worker.source = s.worker.source)
    (ho : ∀ q, s'.outstanding q = true → s.outstanding q = true) : Clean s' last where
  error := by simpa only [he, hn] using h.error
  noted := by simpa only [he, hn] using h.noted
  cancelled := by simpa only [hc, ha, Linked, hr, hs] using h.cancelled
  result q := by
    rw [hc, ha, hres, Linked, hr]
    exact fun hq => h.result q (hq.imp_right (Or.imp_right (And.imp_right (ho q))))

/-! ## The clients -/

theorem Clean.ask (h : Clean s last) (q : Q) (req : Question H) (func : Q → Φ) :
    Clean { s with
      result := Function.update s.result q none
      question := Function.update s.question q req
      func := func
      ask := Function.update s.ask q .stored
      outstanding := Function.update s.outstanding q true
      asks := Function.update s.asks q (s.asks q + 1)
      cancelled := Function.update s.cancelled q false } last := by
  refine ⟨h.error, h.noted, fun q' hc => ?_, fun q' hq => ?_⟩
  · have hne : q' ≠ q := by
      rintro rfl
      simp at hc
    simpa [Linked, hne] using h.cancelled q' (by simpa [hne] using hc)
  · rcases eq_or_ne q' q with rfl | hne
    · exact Function.update_self ..
    · simpa [hne] using h.result q' (by simpa [Linked, hne] using hq)

theorem Clean.askBusy (h : Clean s last) (ha : s.ask q = .stored) (busy : Q → Bool) :
    Clean { s with busy := busy, ask := Function.update s.ask q .busy } last := by
  have hask : ∀ q', Function.update s.ask q Ask.busy q' = .idle ↔ s.ask q' = .idle := by
    intro q'
    rcases eq_or_ne q' q with rfl | hne
    · simp [ha]
    · simp [hne]
  exact ⟨h.error, h.noted, by simpa [hask, Linked] using h.cancelled,
    by simpa [hask, Linked] using h.result⟩

theorem Clean.askLock (h : Clean s last) (hi : Inv s l) (ha : s.ask q = .busy) (raising : ℕ) :
    Clean { s with
      requests := s.requests.listInsert q
      ask := Function.update s.ask q .idle
      raising := raising } last := by
  have hlink : ∀ q', (s.requests.listInsert q).next (.item q') ≠ .null ↔ Linked s q' ∨ q' = q := by
    intro q'
    rw [← (hi.askLock ha raising).list.mem_iff, List.mem_append, List.mem_singleton, hi.list.mem_iff]
    rfl
  refine ⟨h.error, h.noted, fun q' hc => ?_, fun q' hq => ?_⟩
  · obtain ⟨hidle, hl, hw⟩ := h.cancelled q' hc
    have hne : q' ≠ q := by
      rintro rfl
      simp [ha] at hidle
    refine ⟨by simpa [hne] using hidle, ?_, hw⟩
    rw [Linked, hlink, not_or]
    exact ⟨hl, hne⟩
  · rcases eq_or_ne q' q with rfl | hne
    · exact h.result q' (.inl (by simp [ha]))
    · rw [Linked, hlink] at hq
      exact h.result q' (by simpa [hne] using hq)

theorem Clean.cancel (h : Clean s last) (hi : Inv s l) {requests : Links Q}
    (e : s.requests.listRemove q = some requests) :
    Clean { s with
      busy := Function.update s.busy q false
      requests := requests
      cancelling := Function.update s.cancelling q (s.cancelling q + 1)
      cancelled := Function.update s.cancelled q true } last := by
  have hql : q ∈ l := by
    by_contra hq
    simp [hi.list.remove_of_not_mem hq] at e
  have hlink : ∀ q', requests.next (.item q') ≠ .null ↔ q' ≠ q ∧ Linked s q' := by
    intro q'
    rw [← (hi.cancel e s.cancelled).list.mem_iff, hi.list.nodup.mem_erase_iff, hi.list.mem_iff]
    rfl
  refine ⟨h.error, h.noted, fun q' hc => ?_, fun q' hq => ?_⟩
  · rcases eq_or_ne q' q with rfl | hne
    · -- The request was in the list, and so nowhere else.
      refine ⟨?_, ?_, ?_⟩
      · by_contra hask
        exact hi.only (p := .list) (r := .ask) hql (by simp) hask
      · rw [Linked, hlink]
        exact fun hl => hl.1 rfl
      · exact hi.only (p := .list) (r := .worker) hql (by simp)
    · obtain ⟨hidle, hl, hw⟩ := h.cancelled q' (by simpa [hne] using hc)
      refine ⟨hidle, ?_, hw⟩
      rw [Linked, hlink]
      exact fun hl' => hl hl'.2
  · rcases eq_or_ne q' q with rfl | hne
    · exact h.result q' (.inr (.inl (hi.list.mem_iff.1 hql)))
    · rw [Linked, hlink] at hq
      exact h.result q' (by simpa [hne] using hq)

theorem Clean.clientStep (h : Clean s last) (hi : Inv s l) (e : clientStep s a = some s') :
    Clean s' last := by
  cases a with
  | ask q req func =>
    simp only [Adns.clientStep, Option.ite_none_right_eq_some, Option.some.injEq] at e
    obtain ⟨-, rfl⟩ := e
    exact h.ask q req _
  | askBusy q =>
    simp only [Adns.clientStep, Option.ite_none_right_eq_some, Option.some.injEq] at e
    obtain ⟨ha, rfl⟩ := e
    exact h.askBusy ha _
  | askLock q =>
    simp only [Adns.clientStep, Option.ite_none_right_eq_some, Option.some.injEq] at e
    obtain ⟨ha, rfl⟩ := e
    exact h.askLock hi ha _
  | raise =>
    simp only [Adns.clientStep, Option.ite_none_right_eq_some, Option.some.injEq] at e
    obtain ⟨-, rfl⟩ := e
    exact h.congr rfl rfl rfl rfl rfl rfl rfl fun _ => id
  | cancel q =>
    rcases cancel_cases e with rfl | ⟨-, ⟨-, rfl⟩ | ⟨requests, er, rfl⟩⟩
    · exact h
    · exact h.congr rfl rfl rfl rfl rfl rfl rfl fun _ => id
    · exact h.cancel hi er
  | cancelExec q =>
    simp only [Adns.clientStep, Option.ite_none_right_eq_some, Option.some.injEq] at e
    obtain ⟨-, rfl⟩ := e
    exact h.congr rfl rfl rfl rfl rfl rfl rfl fun _ => id
  | _ => cases e

/-! ## The worker -/

theorem Clean.fulfill (h : Clean s last) (hi : Inv s l) {ask : ℕ} {req : Question H} {ans : Answer I}
    (hw : s.worker = .fulfill q ask req ans) : Clean (fulfillRequest s q ask req ans) last := by
  rw [fulfillRequest]
  split_ifs with hhead
  · exact h.congr rfl rfl rfl rfl rfl (by rw [hw]; rfl) (by rw [hw]; rfl) fun _ => id
  have hql := hi.mem_of_next (not_not.1 hhead)
  obtain ⟨m, e, hm⟩ := hi.list.remove hql
  have hlink : ∀ {q'}, m.next (.item q') ≠ .null → Linked s q' := by
    intro q' hq'
    exact hi.list.mem_iff.1 (List.mem_of_mem_erase (hm.mem_iff.2 hq'))
  have hn : s.worker.noted = none := by rw [hw]; rfl
  rw [e]
  refine ⟨fun q' _ => h.error q' (by simp [hn]), by simp [Worker.noted], fun q' hc => ?_,
    fun q' hq => h.result q' (hq.imp_right (Or.imp_left hlink))⟩
  obtain ⟨hidle, hl, -⟩ := h.cancelled q' hc
  refine ⟨hidle, fun hl' => hl (hlink hl'), ?_⟩
  rintro hsrc
  obtain rfl : q = q' := Option.some.inj hsrc
  exact hl (hi.list.mem_iff.1 hql)

theorem Clean.setError (h : Clean s last) {ask : ℕ} {req : Question H} {ans : Answer I}
    (hw : s.worker = .cleared q ask req ans) :
    Clean { s with
      error := Function.update s.error q ans.errCode
      worker := .failed q ask req ans } last := by
  have hn : s.worker.noted = none := by rw [hw]; rfl
  refine ⟨fun q' hne => ?_, fun q' e hq => ?_, by simpa [hw, Linked, Worker.source] using h.cancelled, h.result⟩
  · have hne : q' ≠ q := by
      rintro rfl
      exact hne ans.errCode rfl
    simpa [hne] using h.error q' (by simp [hn])
  · obtain ⟨rfl, rfl⟩ := Prod.mk.inj (Option.some.inj hq)
    exact Function.update_self ..

theorem Clean.setResult (h : Clean s last) (hi : Inv s l) {ask : ℕ} {req : Question H} {ans : Answer I}
    (hw : s.worker = .failed q ask req ans) :
    Clean { s with
      result := Function.update s.result q ans.info
      worker := .ready q ask req ans } last := by
  have hs : s.worker.source = some q := by rw [hw]; rfl
  refine ⟨by simpa [hw, Worker.noted] using h.error, by simpa [hw, Worker.noted] using h.noted,
    by simpa [hw, Linked, Worker.source] using h.cancelled, fun q' hq => ?_⟩
  -- The request is in the hands of the worker, and so it is neither asked, in the list nor cancelled.
  have hne : q' ≠ q := by
    rintro rfl
    rcases hq with hask | hlink | ⟨hc, -⟩
    · exact hi.only (p := .worker) (r := .ask) hs (by simp) hask
    · exact hi.only (p := .worker) (r := .list) hs (by simp) (hi.list.mem_iff.2 hlink)
    · exact (h.cancelled q' hc).2.2 hs
  simpa [hne] using h.result q' hq

theorem Clean.exec (h : Clean s last) {ask : ℕ} {req : Question H} {ans : Answer I}
    (hw : s.worker = .ready q ask req ans) :
    Clean (taskExec { s with worker := .peek } q) (Function.update last q ans.errCode) := by
  have hn : s.worker.noted = some (q, ans.errCode) := by rw [hw]; rfl
  refine ⟨fun q' _ => ?_, by simp [taskExec, Worker.noted], fun q' hc => ?_, h.result⟩
  · rcases eq_or_ne q' q with rfl | hne
    · simpa [taskExec] using h.noted q' ans.errCode hn
    · simpa [taskExec, hne] using h.error q' (by simp [hn, hne.symm])
  · obtain ⟨hidle, hl, -⟩ := h.cancelled q' hc
    exact ⟨hidle, hl, by simp [taskExec, Worker.source]⟩

theorem Clean.workerStep (h : Clean s last) (hi : Inv s l) (e : workerStep s a = some s') :
    Clean s' (completed s last a) := by
  cases a with
  | peek =>
    simp only [Adns.workerStep] at e
    split at e <;> cases e
    rw [peekRequest]
    split_ifs
    · exact h.congr rfl rfl rfl rfl rfl (by simp [*, Worker.noted]) (by simp [*, Worker.source])
        fun _ => id
    · split <;> exact h.congr rfl rfl rfl rfl rfl (by simp [*, Worker.noted])
        (by simp [*, Worker.source]) fun _ => id
  | wait =>
    simp only [Adns.workerStep] at e
    split at e
    · simp only [Option.ite_none_right_eq_some, Option.some.injEq] at e
      obtain ⟨-, rfl⟩ := e
      exact h.congr rfl rfl rfl rfl rfl (by simp [*, Worker.noted]) (by simp [*, Worker.source])
        fun _ => id
    · cases e
  | clear | getaddrinfo | clearBusy =>
    simp only [Adns.workerStep] at e
    split at e <;> cases e
    exact h.congr rfl rfl rfl rfl rfl (by simp [*, Worker.noted]) (by simp [*, Worker.source])
      fun _ => id
  | fulfill =>
    simp only [Adns.workerStep] at e
    split at e <;> cases e
    exact h.fulfill hi ‹_›
  | setError =>
    simp only [Adns.workerStep] at e
    split at e <;> cases e
    exact h.setError ‹_›
  | setResult =>
    simp only [Adns.workerStep] at e
    split at e <;> cases e
    exact h.setResult hi ‹_›
  | exec =>
    simp only [Adns.workerStep] at e
    split at e
    next hw =>
      cases e
      simp only [completed, hw]
      exact h.exec hw
    · cases e
  | _ => cases e

/-! ## Runs -/

theorem Clean.step (h : Clean s last) (hi : Inv s l) (e : step s a = some s') :
    Clean s' (completed s last a) := by
  simp only [Adns.step, Option.ite_none_left_eq_some] at e
  obtain ⟨-, e⟩ := e
  cases a with
  | ask | askBusy | askLock | raise | cancel | cancelExec => exact h.clientStep hi e
  | run q =>
    simp only [Option.ite_none_right_eq_some, Option.some.injEq] at e
    obtain ⟨-, rfl⟩ := e
    refine h.congr rfl rfl rfl rfl rfl rfl rfl fun q' ho => ?_
    rcases eq_or_ne q' q with rfl | hne
    · simp at ho
    · simpa [hne] using ho
  | destroy =>
    obtain rfl := Option.some.inj e
    exact h.congr rfl rfl rfl rfl rfl rfl rfl fun _ => id
  | peek | wait | clear | getaddrinfo | fulfill | clearBusy | setError | setResult | exec =>
    exact h.workerStep hi e

/-- When the callback of a cancelled request is about to be invoked, there is no result. The error code
is zero if and only if the last answer to this request, if there was any, had no error. -/
theorem run_cancelled {func : Q → Φ}
    (hr : Reached answerStep (fun t a => Legal t.1 a) ((State.init func : State Q H I Φ), fun _ => 0)
      (s, last))
    (hq : s.queued q ≠ 0) (hc : s.cancelled q = true) :
    s.result q = none ∧ (s.error q = 0 ↔ last q = 0) := by
  obtain ⟨⟨l, hi⟩, hclean⟩ : (∃ l, Inv s l) ∧ Clean s last :=
    hr.invariant (I := fun t => (∃ l, Inv t.1 l) ∧ Clean t.1 t.2)
      ⟨⟨[], inv_init func⟩, clean_init func⟩ fun ⟨⟨l, hi⟩, h⟩ ha e => by
        obtain ⟨s', e', rfl⟩ := Option.map_eq_some_iff.1 e
        exact ⟨hi.step ha e', h.step hi e'⟩
  refine ⟨hclean.result q (.inr (.inr ⟨hc, hi.custody.subset .queue hq⟩)), ?_⟩
  rw [hclean.error q fun e hn => ?_]
  refine hi.ne_of_queued (q := q) ?_ hq rfl
  cases hw : s.worker <;> simp_all [Worker.noted, Worker.source]

/-- A request that has got an answer is asked again and cancelled. -/
theorem run_cancelled_again : ∃ t : State Unit Unit ℕ Unit × (Unit → ℤ),
    Reached answerStep (fun t a => Legal t.1 a) (State.init fun _ => (), fun _ => 0) t ∧
      (t.1.queued () ≠ 0 ∧ t.1.cancelled () = true ∧ t.2 () = 0) ∧
      t.1.result () = none ∧ t.1.error () = 0 := by
  obtain ⟨⟨s, last⟩, hr, hb⟩ := exists_reached answerStep
    (fun (t : State Unit Unit ℕ Unit × (Unit → ℤ)) a => Legal t.1 a)
    (State.init fun _ => (), fun _ => 0)
    [.ask () ⟨some [97], none, none⟩ (), .askBusy (), .askLock (), .peek, .getaddrinfo ⟨0, some 1⟩,
      .fulfill, .clearBusy, .setError, .setResult, .exec, .run (),
      .ask () ⟨some [98], none, none⟩ (), .askBusy (), .askLock (), .cancel (), .cancelExec ()]
    (fun t => decide (t.1.queued () ≠ 0 ∧ t.1.cancelled () = true ∧ t.2 () = 0)) (by decide +kernel)
  obtain ⟨hq, hc, hl⟩ := of_decide_eq_true hb
  obtain ⟨hres, herr⟩ := run_cancelled hr hq hc
  exact ⟨_, hr, ⟨hq, hc, hl⟩, hres, herr.2 hl⟩

/-- A request that was not found is asked again and cancelled. -/
theorem cancelled_with_error : ∃ s : State Unit Unit ℕ Unit,
    Reached step Legal (State.init fun _ => ()) s ∧
      (s.queued () ≠ 0 ∧ s.cancelled () = true) ∧ s.error () = -2 := by
  obtain ⟨s, hr, hb⟩ := exists_reached step (fun (s : State Unit Unit ℕ Unit) a => Legal s a)
    (State.init fun _ => ())
    [.ask () ⟨some [97], none, none⟩ (), .askBusy (), .askLock (), .peek, .getaddrinfo ⟨-2, none⟩,
      .fulfill, .clearBusy, .setError, .setResult, .exec, .run (),
      .ask () ⟨some [98], none, none⟩ (), .askBusy (), .askLock (), .cancel (), .cancelExec ()]
    (fun s => decide ((s.queued () ≠ 0 ∧ s.cancelled () = true) ∧ s.error () = -2))
    (by decide +kernel)
  exact ⟨s, hr, of_decide_eq_true hb⟩

end Dlb.Adns
