import Dlb.Adns.Once

/-!
# An answer belongs to its question

After a lookup the worker only looks whether the request is still the first one of the list. If it was
cancelled and is asked again meanwhile, it is given the answer to its earlier question. As long as no
request gets into the list during a lookup that was made for it, the answers are right.
-/

namespace Dlb.Adns

open Machine

variable {Q H I Φ : Type} [DecidableEq Q] {s s' : State Q H I Φ} {a : Act Q H I Φ} {l : List Q} {q : Q}

/-- The names are shorter than 128 bytes. -/
def Question.Short (req : Question H) : Prop :=
  (∀ name ∈ req.hostname, name.length < 128) ∧ ∀ name ∈ req.service, name.length < 128

instance (req : Question H) : Decidable req.Short :=
  inferInstanceAs (Decidable ((∀ name ∈ req.hostname, name.length < 128) ∧
    ∀ name ∈ req.service, name.length < 128))

theorem Question.copy_eq {req : Question H} (h : req.Short) : req.copy = req := by
  have hcopy : ∀ {name : Option (List UInt8)}, (∀ n ∈ name, n.length < 128) →
      name.map copyName = name := by
    intro name hn
    cases name with
    | none => rfl
    | some n => simp [copyName, List.take_of_length_le (Nat.le_of_lt_succ (hn n rfl))]
  simp [Question.copy, hcopy h.1, hcopy h.2]

/-- The request that the worker makes a lookup for. -/
def Worker.lookupFor : Worker Q H I → Option (Q × ℕ × Question H)
  | .lookup q ask req | .fulfill q ask req _ => some (q, ask, req)
  | _ => none

/-- The lookup whose answer the worker has. -/
def Worker.lookupOf : Worker Q H I → Option (Lookup Q H I)
  | .fulfill q ask req ans | .unlinked q ask req ans | .cleared q ask req ans
  | .failed q ask req ans | .ready q ask req ans => some ⟨q, ask, req, ans⟩
  | .peek | .wait | .clear | .lookup .. | .exited => none

/-- The lookup was made for the last ask of the request. -/
def Current (s : State Q H I Φ) (q : Q) (ask : ℕ) (req : Question H) : Prop :=
  ask = s.asks q ∧ req = (s.question q).copy

/-- The request carries the answer of a lookup for its last ask. -/
def Answered (s : State Q H I Φ) (q : Q) : Prop :=
  ∃ ask req, ⟨q, ask, req, ⟨s.error q, s.result q⟩⟩ ∈ s.lookups ∧ Current s q ask req

/-- The request is in the list. -/
def Linked (s : State Q H I Φ) (q : Q) : Prop := s.requests.next (.item q) ≠ .null

/-- The invariant. -/
structure Right (s : State Q H I Φ) : Prop where
  short : ∀ q, (s.question q).Short
  lookup : ∀ q ask req, s.worker.lookupFor = some (q, ask, req) → Linked s q → Current s q ask req
  returned : ∀ lk, s.worker.lookupOf = some lk → lk ∈ s.lookups
  taken : ∀ lk, s.worker.lookupOf = some lk → s.worker.source = some lk.source →
    Current s lk.source lk.ask lk.req
  failed : ∀ q ask req ans, s.worker = .failed q ask req ans → s.error q = ans.errCode
  ready : ∀ q ask req ans, s.worker = .ready q ask req ans →
    s.error q = ans.errCode ∧ s.result q = ans.info
  cancelling : ∀ q, s.cancelling q ≠ 0 → s.cancelled q = true
  queued : ∀ q, s.queued q ≠ 0 → s.cancelled q = false → Answered s q

/-- No request gets into the list during a lookup that was made for it. -/
def Fresh (s : State Q H I Φ) : Act Q H I Φ → Prop
  | .askLock q => s.worker.lookupFor.map Prod.fst ≠ some q
  | .ask .. | .askBusy _ | .raise | .cancel _ | .cancelExec _ | .peek | .wait | .clear
  | .getaddrinfo _ | .fulfill | .clearBusy | .setError | .setResult | .exec | .run _
  | .destroy => True

instance (s : State Q H I Φ) : DecidablePred (Fresh s)
  | .askLock q => inferInstanceAs (Decidable (s.worker.lookupFor.map Prod.fst ≠ some q))
  | .ask .. | .askBusy _ | .raise | .cancel _ | .cancelExec _ | .peek | .wait | .clear
  | .getaddrinfo _ | .fulfill | .clearBusy | .setError | .setResult | .exec | .run _
  | .destroy => .isTrue trivial

/-- The names that are asked for are shorter than 128 bytes. -/
def Act.Short : Act Q H I Φ → Prop
  | .ask _ req _ => req.Short
  | .askBusy _ | .askLock _ | .raise | .cancel _ | .cancelExec _ | .peek | .wait | .clear
  | .getaddrinfo _ | .fulfill | .clearBusy | .setError | .setResult | .exec | .run _
  | .destroy => True

instance : DecidablePred (Act.Short : Act Q H I Φ → Prop)
  | .ask _ req _ => inferInstanceAs (Decidable req.Short)
  | .askBusy _ | .askLock _ | .raise | .cancel _ | .cancelExec _ | .peek | .wait | .clear
  | .getaddrinfo _ | .fulfill | .clearBusy | .setError | .setResult | .exec | .run _
  | .destroy => .isTrue trivial

omit [DecidableEq Q] in
theorem right_init (func : Q → Φ) : Right (State.init func : State Q H I Φ) := by
  constructor <;> simp [State.init, Question.Short, Worker.lookupFor, Worker.lookupOf]

omit [DecidableEq Q] in
/-- What the invariant does not speak of may change. -/
theorem Right.congr (h : Right s) (hr : s'.requests = s.requests) (hw : s'.worker = s.worker)
    (hn : s'.asks = s.asks) (hqu : s'.question = s.question) (he : s'.error = s.error)
    (hres : s'.result = s.result) (hc : s'.cancelling = s.cancelling)
    (hc' : s'.cancelled = s.cancelled) (hq : s'.queued = s.queued) (hl : s'.lookups = s.lookups) :
    Right s' where
  short := hqu ▸ h.short
  lookup := by simpa only [hw, Linked, hr, Current, hn, hqu] using h.lookup
  returned := by simpa only [hw, hl] using h.returned
  taken := by simpa only [hw, Current, hn, hqu] using h.taken
  failed := by simpa only [hw, he] using h.failed
  ready := by simpa only [hw, he, hres] using h.ready
  cancelling := by simpa only [hc, hc'] using h.cancelling
  queued := by simpa only [hq, hc', Answered, he, hres, hl, Current, hn, hqu] using h.queued

/-! ## The clients -/

theorem Right.ask (h : Right s) (hi : Inv s l) (hl : s.outstanding q = false) {req : Question H}
    (hs : req.Short) {func : Q → Φ} :
    Right { s with
      result := Function.update s.result q none
      question := Function.update s.question q req
      func := func
      ask := Function.update s.ask q .stored
      outstanding := Function.update s.outstanding q true
      asks := Function.update s.asks q (s.asks q + 1)
      cancelled := Function.update s.cancelled q false } := by
  -- The request is in no place.
  have hne : ∀ {p q'}, q' ∈ held s l p → q' ≠ q := by
    rintro p q' hp rfl
    simpa [hl] using hi.custody.subset p hp
  refine ⟨fun q' => ?_, fun q' ask req' hw hlink => ?_, h.returned, fun lk hlk hsrc => ?_, h.failed,
    fun q' ask req' ans hw => ?_, fun q' hc => ?_, fun q' hq' hc => ?_⟩
  · rcases eq_or_ne q' q with rfl | hne
    · simpa using hs
    · simpa [hne] using h.short q'
  · have hq' := hne (p := .list) (hi.list.mem_iff.2 hlink)
    simpa [Current, hq'] using h.lookup q' ask req' hw hlink
  · have hq' := hne (p := .worker) hsrc
    simpa [Current, hq'] using h.taken lk hlk hsrc
  · have hw : s.worker = .ready q' ask req' ans := hw
    have hsrc : q' ∈ held s l .worker := by simp [held, hw, Worker.source]
    simpa [hne hsrc] using h.ready q' ask req' ans hw
  · have hq' := hne (p := .cancel) hc
    simpa [hq'] using h.cancelling q' hc
  · have hq'' := hne (p := .queue) hq'
    simpa [Answered, Current, hq''] using h.queued q' hq' (by simpa [hq''] using hc)

theorem Right.askLock (h : Right s) (hi : Inv s l) (ha : s.ask q = .busy)
    (hf : Fresh s (.askLock q)) {raising : ℕ} :
    Right { s with
      requests := s.requests.listInsert q
      ask := Function.update s.ask q .idle
      raising := raising } := by
  refine ⟨h.short, fun q' ask req hw hlink => ?_, h.returned, h.taken, h.failed, h.ready,
    h.cancelling, h.queued⟩
  have hne : q' ≠ q := by
    rintro rfl
    exact hf (by simp [show s.worker.lookupFor = some (q', ask, req) from hw])
  have hmem : q' ∈ l ++ [q] := (hi.askLock ha raising).list.mem_iff.2 hlink
  have hmem : q' ∈ l := by simpa [hne] using hmem
  exact h.lookup q' ask req hw (hi.list.mem_iff.1 hmem)

theorem Right.cancel (h : Right s) (hi : Inv s l) {requests : Links Q}
    (e : s.requests.listRemove q = some requests) :
    Right { s with
      busy := Function.update s.busy q false
      requests := requests
      cancelling := Function.update s.cancelling q (s.cancelling q + 1)
      cancelled := Function.update s.cancelled q true } := by
  refine ⟨h.short, fun q' ask req hw hlink => ?_, h.returned, h.taken, h.failed, h.ready,
    fun q' hc => ?_, fun q' hq hc => ?_⟩
  · have hmem : q' ∈ l.erase q :=
      (hi.cancel e s.cancelled).list.mem_iff.2 hlink
    exact h.lookup q' ask req hw (hi.list.mem_iff.1 (List.mem_of_mem_erase hmem))
  · rcases eq_or_ne q' q with rfl | hne
    · simp
    · simpa [hne] using h.cancelling q' (by simpa [hne] using hc)
  · -- A request that was cancelled may have any answer.
    rcases eq_or_ne q' q with rfl | hne
    · simp at hc
    · exact h.queued q' hq (by simpa [hne] using hc)

theorem Right.cancelExec (h : Right s) (hc : s.cancelling q ≠ 0) :
    Right (taskExec { s with
      cancelling := Function.update s.cancelling q (s.cancelling q - 1) } q) := by
  have hcanc := h.cancelling q hc
  refine ⟨h.short, h.lookup, h.returned, h.taken, h.failed, h.ready, fun q' hc' => ?_,
    fun q' hq' hc' => ?_⟩
  · rcases eq_or_ne q' q with rfl | hne
    · exact hcanc
    · exact h.cancelling q' (by simpa [taskExec, hne] using hc')
  · rcases eq_or_ne q' q with rfl | hne
    · simp [taskExec, hcanc] at hc'
    · exact h.queued q' (by simpa [taskExec, hne] using hq') hc'

theorem Right.clientStep (h : Right s) (hi : Inv s l) (hl : Legal s a) (hs : a.Short)
    (hf : Fresh s a) (e : clientStep s a = some s') : Right s' := by
  cases a with
  | ask q req func =>
    simp only [Adns.clientStep, Option.ite_none_right_eq_some, Option.some.injEq] at e
    obtain ⟨-, rfl⟩ := e
    exact h.ask hi hl hs
  | askLock q =>
    simp only [Adns.clientStep, Option.ite_none_right_eq_some, Option.some.injEq] at e
    obtain ⟨ha, rfl⟩ := e
    exact h.askLock hi ha hf
  | askBusy q | raise =>
    simp only [Adns.clientStep, Option.ite_none_right_eq_some, Option.some.injEq] at e
    obtain ⟨-, rfl⟩ := e
    exact h.congr rfl rfl rfl rfl rfl rfl rfl rfl rfl rfl
  | cancel q =>
    rcases cancel_cases e with rfl | ⟨-, ⟨-, rfl⟩ | ⟨requests, er, rfl⟩⟩
    · exact h
    · exact h.congr rfl rfl rfl rfl rfl rfl rfl rfl rfl rfl
    · exact h.cancel hi er
  | cancelExec q =>
    simp only [Adns.clientStep, Option.ite_none_right_eq_some, Option.some.injEq] at e
    obtain ⟨hc, rfl⟩ := e
    exact h.cancelExec hc
  | _ => cases e

/-! ## The worker -/

omit [DecidableEq Q] in
/-- The worker makes no lookup and has no answer. -/
theorem Right.idle (h : Right s) {w : Worker Q H I} (hw : w.lookupFor = none)
    (hw' : w.lookupOf = none) (notify : Bool) :
    Right { s with worker := w, notify := notify } where
  short := h.short
  lookup := by simp [hw]
  returned := by simp [hw']
  taken := by simp [hw']
  failed q ask req ans := by
    rintro rfl
    simp [Worker.lookupOf] at hw'
  ready q ask req ans := by
    rintro rfl
    simp [Worker.lookupOf] at hw'
  cancelling := h.cancelling
  queued := h.queued

omit [DecidableEq Q] in
theorem Right.peek (h : Right s) : Right (peekRequest s) := by
  rw [peekRequest]
  split_ifs
  · exact h.idle rfl rfl s.notify
  · split
    · refine { h with lookup := ?_, returned := ?_, taken := ?_, failed := ?_, ready := ?_ }
      · rintro q ask req hw -
        obtain ⟨rfl, rfl, rfl⟩ : _ ∧ _ ∧ _ := by simpa [Worker.lookupFor] using hw
        exact ⟨rfl, rfl⟩
      all_goals simp [Worker.lookupOf]
    · exact h.idle rfl rfl s.notify

omit [DecidableEq Q] in
theorem Right.getaddrinfo (h : Right s) {ask : ℕ} {req : Question H} {ans : Answer I}
    (hw : s.worker = .lookup q ask req) :
    Right { s with
      worker := .fulfill q ask req ans
      lookups := s.lookups ++ [⟨q, ask, req, ans⟩] } := by
  refine ⟨h.short, fun q' ask' req' hw' => ?_, fun lk hlk => ?_, ?_, ?_, ?_, h.cancelling,
    fun q' hq' hc => ?_⟩
  · exact h.lookup q' ask' req' (by rw [hw]; exact hw')
  · obtain rfl := Option.some.inj hlk
    simp
  · simp [Worker.source]
  · simp
  · simp
  · obtain ⟨ask, req, hmem, hcur⟩ := h.queued q' hq' hc
    exact ⟨ask, req, List.mem_append_left _ hmem, hcur⟩

theorem Right.fulfill (h : Right s) (hi : Inv s l) {ask : ℕ} {req : Question H} {ans : Answer I}
    (hw : s.worker = .fulfill q ask req ans) : Right (fulfillRequest s q ask req ans) := by
  rw [fulfillRequest]
  split_ifs with hhead
  · exact h.idle rfl rfl s.notify
  -- The request is the head of the list, hence linked, and the lookup was made for its last ask.
  have hql := hi.mem_of_next (not_not.1 hhead)
  obtain ⟨m, e, -⟩ := hi.list.remove hql
  rw [e]
  refine ⟨h.short, ?_, fun lk hlk => ?_, fun lk hlk _ => ?_, ?_, ?_, h.cancelling, h.queued⟩
  · simp [Worker.lookupFor]
  · exact h.returned lk (by rw [hw]; exact hlk)
  · obtain rfl := Option.some.inj hlk
    exact h.lookup q ask req (by rw [hw]; rfl) (hi.list.mem_iff.1 hql)
  · simp
  · simp

omit [DecidableEq Q] in
theorem Right.clearBusy (h : Right s) {ask : ℕ} {req : Question H} {ans : Answer I}
    (hw : s.worker = .unlinked q ask req ans) {busy : Q → Bool} :
    Right { s with busy := busy, worker := .cleared q ask req ans } :=
  ⟨h.short, by simp [Worker.lookupFor], fun lk hlk => h.returned lk (by rw [hw]; exact hlk),
    fun lk hlk hsrc => h.taken lk (by rw [hw]; exact hlk) (by rw [hw]; exact hsrc), by simp,
    by simp, h.cancelling, h.queued⟩

omit [DecidableEq Q] in
/-- A request in the hands of the worker is not in the run queue. -/
theorem Inv.ne_of_queued (h : Inv s l) (hw : s.worker.source = some q) {q' : Q}
    (hq' : s.queued q' ≠ 0) : q' ≠ q := by
  rintro rfl
  exact h.only (p := .worker) (r := .queue) hw nofun hq'

theorem Right.setError (h : Right s) (hi : Inv s l) {ask : ℕ} {req : Question H} {ans : Answer I}
    (hw : s.worker = .cleared q ask req ans) :
    Right { s with
      error := Function.update s.error q ans.errCode
      worker := .failed q ask req ans } := by
  refine ⟨h.short, by simp [Worker.lookupFor],
    fun lk hlk => h.returned lk (by rw [hw]; exact hlk),
    fun lk hlk hsrc => h.taken lk (by rw [hw]; exact hlk) (by rw [hw]; exact hsrc),
    fun q' ask' req' ans' hw' => ?_, by simp, h.cancelling, fun q' hq' hc => ?_⟩
  · obtain ⟨rfl, rfl, rfl, rfl⟩ : _ ∧ _ ∧ _ ∧ _ := by simpa using hw'
    simp
  · have hne := hi.ne_of_queued (q := q) (by simp [hw, Worker.source]) hq'
    simpa [Answered, Current, hne] using h.queued q' hq' hc

theorem Right.setResult (h : Right s) (hi : Inv s l) {ask : ℕ} {req : Question H} {ans : Answer I}
    (hw : s.worker = .failed q ask req ans) :
    Right { s with
      result := Function.update s.result q ans.info
      worker := .ready q ask req ans } := by
  refine ⟨h.short, by simp [Worker.lookupFor],
    fun lk hlk => h.returned lk (by rw [hw]; exact hlk),
    fun lk hlk hsrc => h.taken lk (by rw [hw]; exact hlk) (by rw [hw]; exact hsrc), by simp,
    fun q' ask' req' ans' hw' => ?_, h.cancelling, fun q' hq' hc => ?_⟩
  · obtain ⟨rfl, rfl, rfl, rfl⟩ : _ ∧ _ ∧ _ ∧ _ := by simpa using hw'
    exact ⟨h.failed q ask req ans hw, by simp⟩
  · have hne := hi.ne_of_queued (q := q) (by simp [hw, Worker.source]) hq'
    simpa [Answered, Current, hne] using h.queued q' hq' hc

theorem Right.exec (h : Right s) {ask : ℕ} {req : Question H} {ans : Answer I}
    (hw : s.worker = .ready q ask req ans) : Right (taskExec { s with worker := .peek } q) := by
  refine ⟨h.short, by simp [taskExec, Worker.lookupFor], by simp [taskExec, Worker.lookupOf],
    by simp [taskExec, Worker.lookupOf], by simp [taskExec], by simp [taskExec], h.cancelling,
    fun q' hq' hc => ?_⟩
  rcases eq_or_ne q' q with rfl | hne
  · obtain ⟨he, hr⟩ := h.ready q' ask req ans hw
    refine ⟨ask, req, ?_, h.taken ⟨q', ask, req, ans⟩ (by rw [hw]; rfl) (by rw [hw]; rfl)⟩
    have hmem := h.returned ⟨q', ask, req, ans⟩ (by rw [hw]; rfl)
    simpa [taskExec, he, hr] using hmem
  · exact h.queued q' (by simpa [taskExec, hne] using hq') hc

theorem Right.workerStep (h : Right s) (hi : Inv s l) (e : workerStep s a = some s') :
    Right s' := by
  cases a with
  | peek =>
    simp only [Adns.workerStep] at e
    split at e <;> cases e
    exact h.peek
  | wait =>
    simp only [Adns.workerStep] at e
    split at e
    · simp only [Option.ite_none_right_eq_some, Option.some.injEq] at e
      obtain ⟨-, rfl⟩ := e
      exact h.idle rfl rfl s.notify
    · cases e
  | clear =>
    simp only [Adns.workerStep] at e
    split at e <;> cases e
    exact h.idle rfl rfl _
  | getaddrinfo ans =>
    simp only [Adns.workerStep] at e
    split at e <;> cases e
    exact h.getaddrinfo ‹_›
  | fulfill =>
    simp only [Adns.workerStep] at e
    split at e <;> cases e
    exact h.fulfill hi ‹_›
  | clearBusy =>
    simp only [Adns.workerStep] at e
    split at e <;> cases e
    exact h.clearBusy ‹_›
  | setError =>
    simp only [Adns.workerStep] at e
    split at e <;> cases e
    exact h.setError hi ‹_›
  | setResult =>
    simp only [Adns.workerStep] at e
    split at e <;> cases e
    exact h.setResult hi ‹_›
  | exec =>
    simp only [Adns.workerStep] at e
    split at e <;> cases e
    exact h.exec ‹_›
  | _ => cases e

/-! ## Runs -/

theorem Right.run (h : Right s) {outstanding : Q → Bool} :
    Right { s with
      queued := Function.update s.queued q (s.queued q - 1)
      outstanding := outstanding } := by
  refine ⟨h.short, h.lookup, h.returned, h.taken, h.failed, h.ready, h.cancelling,
    fun q' hq' hc => h.queued q' (fun h₀ => hq' ?_) hc⟩
  rcases eq_or_ne q' q with rfl | hne
  · simp [h₀]
  · simpa [hne] using h₀

theorem Right.step (h : Right s) (hi : Inv s l) (hl : Legal s a) (hs : a.Short) (hf : Fresh s a)
    (e : step s a = some s') : Right s' := by
  simp only [Adns.step, Option.ite_none_left_eq_some] at e
  obtain ⟨-, e⟩ := e
  cases a with
  | ask | askBusy | askLock | raise | cancel | cancelExec => exact h.clientStep hi hl hs hf e
  | run q =>
    simp only [Option.ite_none_right_eq_some, Option.some.injEq] at e
    obtain ⟨-, rfl⟩ := e
    exact h.run
  | destroy =>
    obtain rfl := Option.some.inj e
    exact h.congr rfl rfl rfl rfl rfl rfl rfl rfl rfl rfl
  | peek | wait | clear | getaddrinfo | fulfill | clearBusy | setError | setResult | exec =>
    exact h.workerStep hi e

/-- In every run in which no request gets into the list during a lookup that was made for it, a
request that completes without having been cancelled carries what `getaddrinfo` returned for the
names and hints of its last ask. -/
theorem run_answers {func : Q → Φ}
    (hr : Reached step (fun s a => Legal s a ∧ a.Short ∧ Fresh s a)
      (State.init func : State Q H I Φ) s) (hq : s.queued q ≠ 0) (hc : s.cancelled q = false) :
    ⟨q, s.asks q, s.question q, ⟨s.error q, s.result q⟩⟩ ∈ s.lookups := by
  obtain ⟨-, h⟩ : (∃ l, Inv s l) ∧ Right s :=
    hr.invariant (I := fun s => (∃ l, Inv s l) ∧ Right s) ⟨⟨[], inv_init func⟩, right_init func⟩
      fun ⟨⟨l, hi⟩, h⟩ ha e => ⟨hi.step ha.1 e, h.step hi ha.1 ha.2.1 ha.2.2 e⟩
  obtain ⟨ask, req, hmem, rfl, rfl⟩ := h.queued q hq hc
  rwa [Question.copy_eq (h.short q)] at hmem

/-- A request is cancelled during its lookup; it is asked again, and gets into the list after the
worker has seen that it is gone. -/
theorem run_answers_again : ∃ s : State Unit Unit ℕ Unit,
    Reached step (fun s a => Legal s a ∧ a.Short ∧ Fresh s a) (State.init fun _ => ()) s ∧
      (s.queued () ≠ 0 ∧ s.cancelled () = false ∧ s.asks () = 2) ∧
      ⟨(), 2, s.question (), ⟨s.error (), s.result ()⟩⟩ ∈ s.lookups := by
  obtain ⟨s, hr, hb⟩ := exists_reached step
    (fun (s : State Unit Unit ℕ Unit) a => Legal s a ∧ a.Short ∧ Fresh s a)
    (State.init fun _ => ())
    [.ask () ⟨some [97], none, none⟩ (), .askBusy (), .askLock (), .peek, .cancel (),
      .cancelExec (), .run (), .ask () ⟨some [98], none, none⟩ (), .askBusy (),
      .getaddrinfo ⟨0, some 1⟩, .fulfill, .askLock (), .peek, .getaddrinfo ⟨0, some 2⟩, .fulfill,
      .clearBusy, .setError, .setResult, .exec]
    (fun s => decide (s.queued () ≠ 0 ∧ s.cancelled () = false ∧ s.asks () = 2))
    (by decide +kernel)
  obtain ⟨hq, hc, hn⟩ := of_decide_eq_true hb
  have hmem := run_answers hr hq hc
  rw [hn] at hmem
  exact ⟨s, hr, ⟨hq, hc, hn⟩, hmem⟩

/-- The request gets into the list before the worker looks whether it is still the first one, and
carries the answer to its earlier question. -/
theorem stale_answer : ∃ s : State Unit Unit ℕ Unit,
    Reached step (fun s a => Legal s a ∧ a.Short) (State.init fun _ => ()) s ∧
      (s.queued () ≠ 0 ∧ s.cancelled () = false ∧ s.question () = ⟨some [98], none, none⟩) ∧
      s.lookups = [⟨(), 1, ⟨some [97], none, none⟩, ⟨s.error (), s.result ()⟩⟩] := by
  obtain ⟨s, hr, hb⟩ := exists_reached step
    (fun (s : State Unit Unit ℕ Unit) a => Legal s a ∧ a.Short)
    (State.init fun _ => ())
    [.ask () ⟨some [97], none, none⟩ (), .askBusy (), .askLock (), .peek, .cancel (),
      .cancelExec (), .run (), .ask () ⟨some [98], none, none⟩ (), .askBusy (), .askLock (),
      .getaddrinfo ⟨0, some 1⟩, .fulfill, .clearBusy, .setError, .setResult, .exec]
    (fun s => decide
      ((s.queued () ≠ 0 ∧ s.cancelled () = false ∧ s.question () = ⟨some [98], none, none⟩) ∧
        s.lookups = [⟨(), 1, ⟨some [97], none, none⟩, ⟨s.error (), s.result ()⟩⟩]))
    (by decide +kernel)
  exact ⟨s, hr, of_decide_eq_true hb⟩

end Dlb.Adns
