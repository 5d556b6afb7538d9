import Dlb.Fair
import Dlb.Adns.Once

/-!
# Every request is answered

In an execution in which no thread stops in the code of the resolver, in which `getaddrinfo` returns,
and in which the run queue invokes what is submitted:

* `run_called_back`: every request that is asked is called back, unless the resolver is destroyed;
* `run_exited`: the worker exits when the resolver is destroyed, so that its thread can be joined.

The requests are looked up in the order in which they were asked. A request that is waiting has so
many others before it, and these get fewer each time the worker is back, whether they are answered
or cancelled.
-/

namespace Dlb.Adns

open Machine Execution

variable {Q H I Φ : Type} [DecidableEq Q] {s s' : State Q H I Φ} {a : Act Q H I Φ} {l : List Q} {q : Q}

/-! ## The steps -/

/-- The steps of the worker. -/
def Act.OfWorker : Act Q H I Φ → Prop
  | .peek | .wait | .clear | .getaddrinfo _ | .fulfill | .clearBusy | .setError | .setResult
  | .exec => True
  | .ask .. | .askBusy _ | .askLock _ | .raise | .cancel _ | .cancelExec _ | .run _ | .destroy => False

/-- What a step does that follows no null pointer. -/
inductive Effect (s : State Q H I Φ) : Act Q H I Φ → State Q H I Φ → Prop
  | ask (q : Q) (req : Question H) (func : Φ) (idle : s.ask q = .idle) :
    Effect s (.ask q req func) { s with
      result := Function.update s.result q none
      question := Function.update s.question q req
      func := Function.update s.func q func
      ask := Function.update s.ask q .stored
      outstanding := Function.update s.outstanding q true
      asks := Function.update s.asks q (s.asks q + 1)
      cancelled := Function.update s.cancelled q false }
  | askBusy (q : Q) (stored : s.ask q = .stored) :
    Effect s (.askBusy q) { s with
      busy := Function.update s.busy q true
      ask := Function.update s.ask q .busy }
  | askLock (q : Q) (busy : s.ask q = .busy) :
    Effect s (.askLock q) { s with
      requests := s.requests.listInsert q
      ask := Function.update s.ask q .idle
      raising := if s.requests.listIsEmpty then s.raising + 1 else s.raising }
  | raise (pos : s.raising ≠ 0) :
    Effect s .raise { s with raising := s.raising - 1, notify := true }
  | cancelIdle (q : Q) (busy : s.busy q = false) : Effect s (.cancel q) s
  | cancel (q : Q) (requests : Links Q) (removed : s.requests.listRemove q = some requests) :
    Effect s (.cancel q) { s with
      busy := Function.update s.busy q false
      requests := requests
      cancelling := Function.update s.cancelling q (s.cancelling q + 1)
      cancelled := Function.update s.cancelled q true }
  | cancelExec (q : Q) (pos : s.cancelling q ≠ 0) :
    Effect s (.cancelExec q) (taskExec { s with
      cancelling := Function.update s.cancelling q (s.cancelling q - 1) } q)
  | peekQuit (at_ : s.worker = .peek) (quit : s.quit = true) :
    Effect s .peek { s with worker := .exited }
  | peek (q : Q) (at_ : s.worker = .peek) (quit : s.quit = false)
    (first : s.requests.next .head = .item q) :
    Effect s .peek { s with worker := .lookup q (s.asks q) (s.question q).copy }
  | peekEmpty (at_ : s.worker = .peek) (quit : s.quit = false)
    (none : ∀ q, s.requests.next .head ≠ .item q) : Effect s .peek { s with worker := .wait }
  | wait (at_ : s.worker = .wait) (notify : s.notify = true) :
    Effect s .wait { s with worker := .clear }
  | clear (at_ : s.worker = .clear) :
    Effect s .clear { s with notify := false, worker := .peek }
  | getaddrinfo (q : Q) (ask : ℕ) (req : Question H) (ans : Answer I)
    (at_ : s.worker = .lookup q ask req) :
    Effect s (.getaddrinfo ans) { s with
      worker := .fulfill q ask req ans
      lookups := s.lookups ++ [⟨q, ask, req, ans⟩] }
  | drop (q : Q) (ask : ℕ) (req : Question H) (ans : Answer I)
    (at_ : s.worker = .fulfill q ask req ans) (first : s.requests.next .head ≠ .item q) :
    Effect s .fulfill { s with worker := .peek }
  | fulfill (q : Q) (ask : ℕ) (req : Question H) (ans : Answer I) (requests : Links Q)
    (at_ : s.worker = .fulfill q ask req ans) (first : s.requests.next .head = .item q)
    (removed : s.requests.listRemove q = some requests) :
    Effect s .fulfill { s with requests := requests, worker := .unlinked q ask req ans }
  | clearBusy (q : Q) (ask : ℕ) (req : Question H) (ans : Answer I)
    (at_ : s.worker = .unlinked q ask req ans) :
    Effect s .clearBusy { s with
      busy := Function.update s.busy q false
      worker := .cleared q ask req ans }
  | setError (q : Q) (ask : ℕ) (req : Question H) (ans : Answer I)
    (at_ : s.worker = .cleared q ask req ans) :
    Effect s .setError { s with
      error := Function.update s.error q ans.errCode
      worker := .failed q ask req ans }
  | setResult (q : Q) (ask : ℕ) (req : Question H) (ans : Answer I)
    (at_ : s.worker = .failed q ask req ans) :
    Effect s .setResult { s with
      result := Function.update s.result q ans.info
      worker := .ready q ask req ans }
  | exec (q : Q) (ask : ℕ) (req : Question H) (ans : Answer I)
    (at_ : s.worker = .ready q ask req ans) :
    Effect s .exec (taskExec { s with worker := .peek } q)
  | run (q : Q) (pos : s.queued q ≠ 0) :
    Effect s (.run q) { s with
      queued := Function.update s.queued q (s.queued q - 1)
      outstanding := Function.update s.outstanding q false }
  | destroy : Effect s .destroy { s with quit := true, raising := s.raising + 1 }

theorem step_effect (h : Inv s l) (hf : s.fault = false) (hs : Safe s a)
    (e : step s a = some s') : Effect s a s' := by
  have hf' := fault_of_step h hf hs e
  simp only [step, Option.ite_none_left_eq_some] at e
  obtain ⟨-, e⟩ := e
  cases a with
  | ask | askBusy | askLock | raise | cancelExec =>
    simp only [clientStep, Option.ite_none_right_eq_some, Option.some.injEq] at e
    obtain ⟨hc, rfl⟩ := e
    constructor
    exact hc
  | cancel q =>
    simp only [clientStep] at e
    split_ifs at e with hb
    · split at e <;> cases e
      · exact .cancel q _ ‹_›
      · cases hf'
    · obtain rfl := Option.some.inj e
      exact .cancelIdle q (eq_false_of_ne_true hb)
  | run q =>
    simp only [Option.ite_none_right_eq_some, Option.some.injEq] at e
    obtain ⟨hq, rfl⟩ := e
    exact .run q hq
  | destroy =>
    obtain rfl := Option.some.inj e
    exact .destroy
  | peek =>
    simp only [workerStep] at e
    split at e <;> cases e
    rw [peekRequest]
    split_ifs with hq
    · exact .peekQuit ‹_› hq
    · split
      · exact .peek _ ‹_› (eq_false_of_ne_true hq) ‹_›
      · exact .peekEmpty ‹_› (eq_false_of_ne_true hq) ‹_›
  | wait =>
    simp only [workerStep] at e
    split at e
    · simp only [Option.ite_none_right_eq_some, Option.some.injEq] at e
      obtain ⟨hn, rfl⟩ := e
      exact .wait ‹_› hn
    · cases e
  | fulfill =>
    simp only [workerStep] at e
    split at e <;> cases e
    rename_i q ask req ans hw
    rw [fulfillRequest] at hf' ⊢
    split_ifs at hf' ⊢ with hhead
    · exact .drop q ask req ans hw hhead
    · rcases er : s.requests.listRemove q with _ | requests
      · simp [er] at hf'
      · exact .fulfill q ask req ans requests hw (not_not.1 hhead) er
  | clear | getaddrinfo | clearBusy | setError | setResult | exec =>
    simp only [workerStep] at e
    split at e <;> cases e
    constructor
    assumption

/-- A step of the worker takes it on. -/
theorem Effect.worker_ne (h : Effect s a s') (ha : a.OfWorker) : s'.worker ≠ s.worker := by
  cases h <;> simp_all [Act.OfWorker, taskExec]

theorem Effect.notify (h : Effect s a s') (hw : s'.worker = s.worker) (hn : s.notify = true) :
    s'.notify = true := by
  cases h <;> simp_all [taskExec]

/-! ## No wakeup is lost -/

/-- The worker does not wait for nothing while there is something to do. -/
def Awake (s : State Q H I Φ) : Prop :=
  s.worker = .wait → (∃ q, s.requests.next .head = .item q) ∨ s.quit = true →
    s.notify = true ∨ s.raising ≠ 0

theorem Inv.awake (h : Inv s l) (hs : Awake s) (he : Effect s a s') : Awake s' := by
  cases he with
  | askLock q =>
    intro hw hd
    by_cases hemp : s.requests.listIsEmpty
    · exact .inr (by simp [hemp])
    · refine (hs hw ?_).imp_right fun hr => by simpa [hemp] using hr
      rw [h.list.isEmpty] at hemp
      cases l with
      | nil => simp at hemp
      | cons x l => exact .inl ⟨x, by simp [h.list.next_head]⟩
  | raise => exact fun _ _ => .inl rfl
  | cancel q requests removed =>
    refine fun hw hd => hs hw (hd.imp_left fun _ => ?_)
    -- What was removed was in the list.
    have hql : q ∈ l := by
      by_contra hq
      cases (h.list.remove_of_not_mem hq).symm.trans removed
    cases l with
    | nil => cases hql
    | cons x l => exact ⟨x, by simp [h.list.next_head]⟩
  | peekEmpty _ hquit hnone =>
    rintro - (⟨q, hq⟩ | hq)
    · exact absurd hq (hnone q)
    · simp [hquit] at hq
  | destroy => exact fun _ _ => .inr (Nat.succ_ne_zero _)
  | ask | askBusy | cancelIdle | cancelExec | run => exact hs
  | peekQuit | peek | wait | clear | getaddrinfo | drop | fulfill | clearBusy | setError | setResult
  | exec => simp [Awake, taskExec]

theorem Effect.exited (he : Effect s a s') (h : s.worker = .exited → s.quit = true) :
    s'.worker = .exited → s'.quit = true := by
  cases he <;> simp_all [taskExec]

/-- What holds in all runs. -/
structure Sound (s : State Q H I Φ) : Prop where
  fault : s.fault = false
  inv : ∃ l, Inv s l
  awake : Awake s
  exited : s.worker = .exited → s.quit = true

variable {func : Q → Φ}

theorem sound (hr : Reached step (fun s a => Legal s a ∧ Safe s a) (State.init func) s) : Sound s :=
  hr.invariant ⟨rfl, ⟨[], inv_init func⟩, fun hw => by simp [State.init] at hw,
    fun hw => by simp [State.init] at hw⟩ fun ⟨hf, ⟨l, h⟩, hs, hx⟩ ha e =>
      have he := step_effect h hf ha.2 e
      ⟨fault_of_step h hf ha.2 e, h.step ha.1 e, h.awake hs he, he.exited hx⟩

theorem Sound.effect (h : Sound s) (ha : Legal s a ∧ Safe s a) (e : step s a = some s') :
    Effect s a s' :=
  have ⟨_, hi⟩ := h.inv
  step_effect hi h.fault ha.2 e

/-! ## Progress of the worker -/

/-- No thread stops in the code of the resolver, `getaddrinfo` returns, and the run queue invokes
what was submitted. -/
structure Scheduled {s₀ : State Q H I Φ}
    (x : Execution step (fun s a => Legal s a ∧ Safe s a) s₀) : Prop where
  worker : x.FairFor Act.OfWorker
  raise : x.Fair .raise
  askBusy : ∀ q, x.Fair (.askBusy q)
  askLock : ∀ q, x.Fair (.askLock q)
  cancelExec : ∀ q, x.Fair (.cancelExec q)
  run : ∀ q, x.Fair (.run q)

theorem Sound.possible (h : Sound s) (he : s.worker ≠ .exited)
    (hw : s.worker = .wait → s.notify = true) : ∃ a : Act Q H I Φ, a.OfWorker ∧ step s a ≠ none := by
  cases hc : s.worker with
  | peek => exact ⟨.peek, trivial, by simp [step, h.fault, workerStep, hc]⟩
  | wait => exact ⟨.wait, trivial, by simp [step, h.fault, workerStep, hc, hw hc]⟩
  | clear => exact ⟨.clear, trivial, by simp [step, h.fault, workerStep, hc]⟩
  | lookup => exact ⟨.getaddrinfo ⟨0, none⟩, trivial, by simp [step, h.fault, workerStep, hc]⟩
  | fulfill => exact ⟨.fulfill, trivial, by simp [step, h.fault, workerStep, hc]⟩
  | unlinked => exact ⟨.clearBusy, trivial, by simp [step, h.fault, workerStep, hc]⟩
  | cleared => exact ⟨.setError, trivial, by simp [step, h.fault, workerStep, hc]⟩
  | failed => exact ⟨.setResult, trivial, by simp [step, h.fault, workerStep, hc]⟩
  | ready => exact ⟨.exec, trivial, by simp [step, h.fault, workerStep, hc]⟩
  | exited => exact absurd hc he

variable {x : Execution step (fun s a => Legal s a ∧ Safe s a) (State.init func : State Q H I Φ)}

/-- A rank that every step of the worker lowers, and no step of the others raises. -/
theorem Scheduled.ranked (hx : Scheduled x) {R : ℕ → State Q H I Φ → Prop} {G : State Q H I Φ → Prop}
    (hs : ∀ {n s a s'}, Sound s → R n s → Effect s a s' →
      (R n s' ∧ s'.worker = s.worker) ∨ (∃ m < n, R m s') ∨ G s')
    (hw : ∀ {n s}, Sound s → R n s → s.worker ≠ .exited ∧
      (s.worker = .wait → s.notify = true ∨ s.raising ≠ 0)) (n : ℕ) : x.LeadsTo (R n) G := by
  refine LeadsTo.ranked (fun n => ?_) n
  have hup : x.LeadsTo (fun s => R n s ∧ (s.worker = .wait → s.notify = true))
      fun s => (∃ m < n, R m s) ∨ G s := by
    refine hx.worker.leadsTo (fun hr hp => ?_) (fun hA hr hp ha e => ?_) (fun hr hp ha e => ?_)
    · exact (sound hr).possible (hw (sound hr) hp.1).1 hp.2
    · have he := (sound hr).effect ha e
      exact (hs (sound hr) hp.1 he).resolve_left fun hsame => he.worker_ne hA hsame.2
    · have he := (sound hr).effect ha e
      exact (hs (sound hr) hp.1 he).imp_left fun hsame =>
        ⟨hsame.1, fun hw => he.notify hsame.2 (hp.2 (hsame.2.symm.trans hw))⟩
  -- Before the worker goes on, its event is raised.
  have hdown : x.LeadsTo (fun s => R n s ∧ s.worker = .wait ∧ s.notify = false)
      fun s => (R n s ∧ (s.worker = .wait → s.notify = true)) ∨ (∃ m < n, R m s) ∨ G s := by
    refine hx.raise.leadsTo (fun hr hp => ?_) (fun hr hp ha e => ?_) (fun hr hp ha e => ?_)
    · have hraise := ((hw (sound hr) hp.1).2 hp.2.1).resolve_left (by simp [hp.2.2])
      simp [step, (sound hr).fault, clientStep, hraise]
    · have he := (sound hr).effect ha e
      refine (hs (sound hr) hp.1 he).imp_left fun hsame => ⟨hsame.1, fun _ => ?_⟩
      cases he
      rfl
    · rcases hs (sound hr) hp.1 ((sound hr).effect ha e) with hsame | h
      · rcases Bool.eq_false_or_eq_true _ with hn | hn
        · exact .inr (.inl ⟨hsame.1, fun _ => hn⟩)
        · exact .inl ⟨hsame.1, hsame.2.trans hp.2.1, hn⟩
      · exact .inr (.inr h)
  intro k hk
  by_cases hsleep : (x.state k).worker = .wait ∧ (x.state k).notify = false
  · exact hdown.trans_or hup k ⟨hk, hsleep⟩
  · exact hup k ⟨hk, fun h => eq_true_of_ne_false fun hn => hsleep ⟨h, hn⟩⟩

/-! ## The worker exits -/

/-- How far the worker is from a look at the list, and one step more. -/
def Worker.back : Worker Q H I → ℕ
  | .exited => 0
  | .peek => 1
  | .clear | .ready .. => 2
  | .wait | .failed .. => 3
  | .cleared .. => 4
  | .unlinked .. => 5
  | .fulfill .. => 6
  | .lookup .. => 7

theorem Effect.back (he : Effect s a s') (hq : s.quit = true) :
    s'.quit = true ∧ (s'.worker = s.worker ∨ s'.worker.back < s.worker.back) := by
  cases he <;> simp_all [taskExec, Worker.back]

theorem Scheduled.exited (hx : Scheduled x) :
    x.LeadsTo (fun s => s.quit = true) fun s => s.worker = .exited := by
  have hback : ∀ n, x.LeadsTo (fun s => s.quit = true ∧ s.worker ≠ .exited ∧ s.worker.back = n)
      fun s => s.worker = .exited := by
    refine hx.ranked (fun {n s a s'} _ hR he => ?_) (fun hs hR => ?_)
    · obtain ⟨hq, hw, rfl⟩ := hR
      by_cases hw' : s'.worker = .exited
      · exact .inr (.inr hw')
      obtain ⟨hq', hsame | hlt⟩ := he.back hq
      · exact .inl ⟨⟨hq', hw', by rw [hsame]⟩, hsame⟩
      · exact .inr (.inl ⟨_, hlt, hq', hw', rfl⟩)
    · exact ⟨hR.2.1, fun hw => hs.awake hw (.inr hR.1)⟩
  intro k hk
  by_cases hw : (x.state k).worker = .exited
  · exact ⟨k, le_rfl, hw⟩
  · exact hback _ k ⟨hk, hw, rfl⟩

/-! ## A request goes from place to place -/

namespace Scheduled

theorem run_done (hx : Scheduled x) (q : Q) :
    x.LeadsTo (fun s => s.queued q ≠ 0) fun s => s.outstanding q = false := by
  refine (hx.run q).leadsTo (fun hr hp => ?_) (fun hr hp ha e => ?_) (fun hr hp ha e => ?_)
  · simp [step, (sound hr).fault, hp]
  · cases (sound hr).effect ha e
    simp
  · cases (sound hr).effect ha e with
    | run q' =>
      rcases eq_or_ne q q' with rfl | hne
      · exact .inr (by simp)
      · exact .inl (by simpa [hne] using hp)
    | cancelExec q' | exec q' =>
      left
      rcases eq_or_ne q q' with rfl | hne
      · simp [taskExec]
      · simpa [taskExec, hne] using hp
    | _ => exact .inl hp

theorem cancelExec_queued (hx : Scheduled x) (q : Q) :
    x.LeadsTo (fun s => s.cancelling q ≠ 0) fun s => s.queued q ≠ 0 := by
  refine (hx.cancelExec q).leadsTo (fun hr hp => ?_) (fun hr hp ha e => ?_) (fun hr hp ha e => ?_)
  · simp [step, (sound hr).fault, clientStep, hp]
  · cases (sound hr).effect ha e
    simp [taskExec]
  · cases (sound hr).effect ha e with
    | cancelExec q' =>
      rcases eq_or_ne q q' with rfl | hne
      · exact .inr (by simp [taskExec])
      · exact .inl (by simpa [taskExec, hne] using hp)
    | cancel q' =>
      left
      rcases eq_or_ne q q' with rfl | hne
      · simp
      · simpa [hne] using hp
    | _ => exact .inl hp

/-- What the worker has taken out of the list. -/
theorem source_queued (hx : Scheduled x) (q : Q) :
    x.LeadsTo (fun s => s.worker.source = some q) fun s => s.queued q ≠ 0 := by
  have hback : ∀ n, x.LeadsTo (fun s => s.worker.source = some q ∧ s.worker.back = n)
      fun s => s.queued q ≠ 0 := by
    refine hx.ranked (fun {n s a s'} _ hR he => ?_) (fun {n s} _ hR => ?_)
    · obtain ⟨hq, rfl⟩ := hR
      cases he <;> simp_all [Worker.source, Worker.back, taskExec]
    · cases hw : s.worker <;> simp_all [Worker.source]
  exact fun k hk => hback _ k ⟨hk, rfl⟩

end Scheduled

/-- How far the worker is from a lookup of the first request after which the list gets shorter. A
lookup of another request will be for nothing. -/
def Worker.turn (first : Links.Node Q) : Worker Q H I → ℕ
  | .exited => 0
  | .fulfill q .. => if first = .item q then 1 else 4
  | .lookup q .. => if first = .item q then 2 else 5
  | .peek => 3
  | .ready .. => 6
  | .failed .. => 7
  | .cleared .. => 8
  | .unlinked .. => 9
  | .clear => 10
  | .wait => 11

theorem Worker.turn_lt (w : Worker Q H I) (first : Links.Node Q) : w.turn first < 12 := by
  cases w with
  | lookup | fulfill =>
    simp only [Worker.turn]
    split_ifs <;> omega
  | _ => simp [Worker.turn]

omit [DecidableEq Q] in
theorem next_head_append {m m' : Links Q} {l₁ l₂ l₂' : List Q} (h : m.Holds (l₁ ++ q :: l₂))
    (h' : m'.Holds (l₁ ++ q :: l₂')) : m'.next .head = m.next .head := by
  rw [h.next_head, h'.next_head]
  cases l₁ <;> rfl

/-- Another request is removed from before `q` or from behind it. -/
theorem removed_cases {m m' : Links Q} {l₁ l₂ : List Q} {q' : Q} (h : m.Holds (l₁ ++ q :: l₂))
    (e : m.listRemove q' = some m') (hne : q' ≠ q) :
    (∃ l₂', m'.Holds (l₁ ++ q :: l₂')) ∨ ∃ l₁' l₂', l₁'.length < l₁.length ∧ m'.Holds (l₁' ++ q :: l₂') := by
  have hmem : q' ∈ l₁ ++ q :: l₂ := by
    by_contra hq
    cases (h.remove_of_not_mem hq).symm.trans e
  obtain ⟨m₁, e₁, h'⟩ := h.remove hmem
  obtain rfl := Option.some.inj (e₁.symm.trans e)
  by_cases hq : q' ∈ l₁
  · rw [List.erase_append_left _ hq] at h'
    have hlt : (l₁.erase q').length < l₁.length := by
      rw [List.length_erase_of_mem hq]
      exact Nat.sub_one_lt (List.length_pos_of_mem hq).ne'
    exact .inr ⟨_, _, hlt, h'⟩
  · rw [List.erase_append_right _ hq, List.erase_cons_tail (by simpa using hne.symm)] at h'
    exact .inl ⟨_, h'⟩

theorem Effect.turn {l₁ l₂ : List Q} (hs : Inv s l) (hh : s.requests.Holds (l₁ ++ q :: l₂))
    (he : Effect s a s') (hq : s'.quit = false) :
    (∃ l₂', s'.requests.Holds (l₁ ++ q :: l₂') ∧ (s'.worker = s.worker ∨
        s'.worker.turn (s.requests.next .head) < s.worker.turn (s.requests.next .head))) ∨
      (∃ l₁' l₂', l₁'.length < l₁.length ∧ s'.requests.Holds (l₁' ++ q :: l₂')) ∨
      s'.worker.source = some q ∨ s'.cancelling q ≠ 0 := by
  cases he with
  | askLock q' hb =>
    have hl : q' ∉ l := hs.only (p := .ask) (r := .list) (by simp [held, hb]) nofun
    have hq' : q' ∉ l₁ ++ q :: l₂ := by rwa [hh.mem_iff, ← hs.list.mem_iff]
    refine .inl ⟨l₂ ++ [q'], ?_, .inl rfl⟩
    simpa using hh.insert hq'
  | cancel q' requests removed =>
    rcases eq_or_ne q' q with rfl | hne
    · exact .inr (.inr (.inr (by simp)))
    · rcases removed_cases hh removed hne with ⟨l₂', h⟩ | h
      · exact .inl ⟨l₂', h, .inl rfl⟩
      · exact .inr (.inl h)
  | fulfill q' ask req ans requests at_ first removed =>
    rw [hh.next_head] at first
    cases l₁ with
    | nil =>
      obtain rfl : q = q' := by simpa using first
      exact .inr (.inr (.inl rfl))
    | cons q₁ l₁ =>
      obtain rfl : q₁ = q' := by simpa using first
      obtain ⟨m, e, h⟩ := hh.remove (q := q₁) (by simp)
      obtain rfl := Option.some.inj (e.symm.trans removed)
      exact .inr (.inl ⟨l₁, l₂, Nat.lt_succ_self _, by simpa using h⟩)
  | peekEmpty at_ quit none =>
    rw [hh.next_head] at none
    cases l₁ <;> simp at none
  | getaddrinfo q' ask req ans at_ =>
    refine .inl ⟨l₂, hh, .inr ?_⟩
    simp only [at_, Worker.turn]
    split_ifs <;> omega
  | _ => exact .inl ⟨l₂, hh, by simp_all [Worker.turn, taskExec]⟩

/-- A request that is in the list is taken out. -/
theorem Scheduled.list_out (hx : Scheduled x) (q : Q) :
    x.LeadsTo (fun s => s.quit = false ∧ ∃ l₁ l₂, s.requests.Holds (l₁ ++ q :: l₂))
      fun s => s.quit = true ∨ s.worker.source = some q ∨ s.cancelling q ≠ 0 := by
  have hturn : ∀ n, x.LeadsTo (fun s => s.quit = false ∧ ∃ l₁ l₂, s.requests.Holds (l₁ ++ q :: l₂) ∧
      12 * l₁.length + s.worker.turn (s.requests.next .head) = n)
      fun s => s.quit = true ∨ s.worker.source = some q ∨ s.cancelling q ≠ 0 := by
    refine hx.ranked (fun {n s a s'} hs hR he => ?_) (fun {n s} hs hR => ?_)
    · obtain ⟨hq, l₁, l₂, hh, rfl⟩ := hR
      rcases Bool.eq_false_or_eq_true s'.quit with hq' | hq'
      · exact .inr (.inr (.inl hq'))
      obtain ⟨l, hl⟩ := hs.inv
      rcases he.turn hl hh hq' with ⟨l₂', hh', hsame | hlt⟩ | ⟨l₁', l₂', hlt, hh'⟩ | h
      · exact .inl ⟨⟨hq', l₁, l₂', hh', by rw [hsame, next_head_append hh hh']⟩, hsame⟩
      · refine .inr (.inl ⟨_, ?_, hq', l₁, l₂', hh', rfl⟩)
        rw [next_head_append hh hh']
        omega
      · refine .inr (.inl ⟨_, ?_, hq', l₁', l₂', hh', rfl⟩)
        have := s'.worker.turn_lt (s'.requests.next .head)
        omega
      · exact .inr (.inr (.inr h))
    · obtain ⟨hq, l₁, l₂, hh, -⟩ := hR
      refine ⟨fun hw => by simp [hs.exited hw] at hq, fun hw => hs.awake hw (.inl ?_)⟩
      rw [hh.next_head]
      cases l₁ <;> simp
  rintro k ⟨hq, l₁, l₂, hh⟩
  exact hturn _ k ⟨hq, l₁, l₂, hh, rfl⟩

/-- A call of `adns_request_ask` goes on by itself only. -/
theorem Effect.ask_eq (he : Effect s a s') (h : s.ask q ≠ .idle) :
    s'.ask q = s.ask q ∨ a = .askBusy q ∨ a = .askLock q := by
  cases he with
  | ask q' _ _ idle =>
    refine .inl (Function.update_of_ne ?_ _ _)
    rintro rfl
    exact h idle
  | askBusy q' =>
    rcases eq_or_ne q q' with rfl | hne
    · exact .inr (.inl rfl)
    · exact .inl (Function.update_of_ne hne _ _)
  | askLock q' =>
    rcases eq_or_ne q q' with rfl | hne
    · exact .inr (.inr rfl)
    · exact .inl (Function.update_of_ne hne _ _)
  | _ => exact .inl rfl

/-- A request that is asked is put in the list. -/
theorem Scheduled.ask_list (hx : Scheduled x) (q : Q) :
    x.LeadsTo (fun s => s.ask q ≠ .idle) fun s => s.requests.next (.item q) ≠ .null := by
  have hlock : ∀ {s s' : State Q H I Φ}, Sound s → Effect s (.askLock q) s' →
      s'.requests.next (.item q) ≠ .null := by
    intro s s' hs he
    obtain ⟨l, hl⟩ := hs.inv
    cases he with
    | askLock _ hb =>
      have hql : q ∉ l := hl.only (p := .ask) (r := .list) (by simp [held, hb]) nofun
      exact (hl.list.insert hql).mem_iff.1 (by simp)
  have hbusy : x.LeadsTo (fun s => s.ask q = .busy) fun s => s.requests.next (.item q) ≠ .null := by
    refine (hx.askLock q).leadsTo (fun hr hp => ?_) (fun hr _ ha e => ?_) (fun hr hp ha e => ?_)
    · simp [step, (sound hr).fault, clientStep, hp]
    · exact hlock (sound hr) ((sound hr).effect ha e)
    · have he := (sound hr).effect ha e
      rcases he.ask_eq (q := q) (by simp [hp]) with h | rfl | rfl
      · exact .inl (h.trans hp)
      · cases he with
        | askBusy _ hst => simp [hp] at hst
      · exact .inr (hlock (sound hr) he)
  have hstored : x.LeadsTo (fun s => s.ask q = .stored) fun s => s.ask q = .busy := by
    have hset : ∀ {s s' : State Q H I Φ}, Effect s (.askBusy q) s' → s'.ask q = .busy := by
      rintro s s' ⟨⟩
      exact Function.update_self ..
    refine (hx.askBusy q).leadsTo (fun hr hp => ?_) (fun hr _ ha e => ?_) (fun hr hp ha e => ?_)
    · simp [step, (sound hr).fault, clientStep, hp]
    · exact hset ((sound hr).effect ha e)
    · have he := (sound hr).effect ha e
      rcases he.ask_eq (q := q) (by simp [hp]) with h | rfl | rfl
      · exact .inl (h.trans hp)
      · exact .inr (hset he)
      · cases he with
        | askLock _ hb => simp [hp] at hb
  intro k hk
  cases hq : (x.state k).ask q with
  | idle => exact absurd hq hk
  | stored => exact hstored.trans hbusy k hq
  | busy => exact hbusy k hq

/-! ## Runs -/

/-- What has left its call and the list is called back. -/
theorem Scheduled.out_called (hx : Scheduled x) (q : Q) :
    x.LeadsTo (fun s => s.outstanding q = true ∧ s.ask q = .idle ∧ s.requests.next (.item q) = .null)
      fun s => s.outstanding q = false := by
  rintro k ⟨ho, ha, hl⟩
  obtain ⟨l, hi⟩ := (sound (x.reached k)).inv
  obtain ⟨p, hp⟩ := hi.custody.cover ho
  cases p with
  | ask => exact absurd ha hp
  | list => exact absurd hl (hi.list.mem_iff.1 hp)
  | worker => exact ((hx.source_queued q).trans (hx.run_done q)) k hp
  | cancel => exact ((hx.cancelExec_queued q).trans (hx.run_done q)) k hp
  | queue => exact hx.run_done q k hp

/-- No thread is in the code of the resolver, the worker apart if it is asleep. -/
structure AtRest (s : State Q H I Φ) : Prop where
  worker : s.worker = .wait ∧ s.notify = false ∨ s.worker = .exited
  raising : s.raising = 0
  ask : ∀ q, s.ask q = .idle
  cancelling : ∀ q, s.cancelling q = 0
  queued : ∀ q, s.queued q = 0

theorem AtRest.worker_stuck (h : AtRest s) (ha : a.OfWorker) : step s a = none := by
  cases a with
  | ask | askBusy | askLock | raise | cancel | cancelExec | run | destroy => exact ha.elim
  | _ => rcases h.worker with ⟨hw, hn⟩ | hw <;> simp [step, workerStep, *]

/-- Given steps, and then rest. -/
theorem exists_scheduled {as : List (Act Q H I Φ)}
    (h : trace step (fun s a => Legal s a ∧ Safe s a) (State.init func) as = some s) (hs : AtRest s) :
    ∃ x : Execution step (fun s a => Legal s a ∧ Safe s a) (State.init func), Scheduled x ∧
      ∀ k, trace step (fun s a => Legal s a ∧ Safe s a) (State.init func) (as.take k) =
        some (x.state k) := by
  obtain ⟨x, hx, hend⟩ := exists_execution h
  have hrest : ∀ a, step s a = none → x.Fair a := fun a ha =>
    fair_of_rest (m := as.length) fun k hk => (hend k hk).symm ▸ ha
  refine ⟨x, ⟨fairFor_of_rest (m := as.length) fun k hk a ha => ?_, hrest _ ?_, fun q => hrest _ ?_,
    fun q => hrest _ ?_, fun q => hrest _ ?_, fun q => hrest _ ?_⟩, hx⟩
  · exact (hend k hk).symm ▸ hs.worker_stuck ha
  all_goals simp [step, clientStep, hs.raising, hs.ask, hs.cancelling, hs.queued]

/-- Every request that is asked is called back, unless the resolver is destroyed: in every execution
in which no thread stops in the code of the resolver, `getaddrinfo` returns and the run queue invokes
what is submitted, whatever else is asked and cancelled. -/
theorem run_called_back (hx : Scheduled x) (q : Q) :
    x.LeadsTo (fun s => s.outstanding q = true) fun s => s.outstanding q = false ∨ s.quit = true := by
  have hlist : x.LeadsTo (fun s => s.requests.next (.item q) ≠ .null)
      fun s => s.outstanding q = false ∨ s.quit = true := by
    intro k hk
    rcases Bool.eq_false_or_eq_true (x.state k).quit with hq | hq
    · exact ⟨k, le_rfl, .inr hq⟩
    obtain ⟨l, hi⟩ := (sound (x.reached k)).inv
    obtain ⟨l₁, l₂, rfl⟩ := List.append_of_mem (hi.list.mem_iff.2 hk)
    obtain ⟨j, hkj, hj⟩ := hx.list_out q k ⟨hq, l₁, l₂, hi.list⟩
    rcases hj with hj | hj | hj
    · exact ⟨j, hkj, .inr hj⟩
    · obtain ⟨i, hji, h⟩ := ((hx.source_queued q).trans (hx.run_done q)) j hj
      exact ⟨i, hkj.trans hji, .inl h⟩
    · obtain ⟨i, hji, h⟩ := ((hx.cancelExec_queued q).trans (hx.run_done q)) j hj
      exact ⟨i, hkj.trans hji, .inl h⟩
  intro k hk
  by_cases ha : (x.state k).ask q = .idle
  · by_cases hl : (x.state k).requests.next (.item q) = .null
    · obtain ⟨j, hkj, h⟩ := hx.out_called q k ⟨hk, ha, hl⟩
      exact ⟨j, hkj, .inl h⟩
    · exact hlist k hl
  · exact ((hx.ask_list q).trans hlist) k ha

/-- One request is answered and another one is cancelled during its lookup. -/
theorem run_called_back_two : ∃ x : Execution step (fun s a => Legal s a ∧ Safe s a)
    (State.init fun _ => () : State Bool Unit Unit Unit), (x.state 4).outstanding true = true ∧
      ∃ j, 4 ≤ j ∧ ((x.state j).outstanding true = false ∨ (x.state j).quit = true) := by
  let as : List (Act Bool Unit Unit Unit) :=
    [.ask false ⟨some [98], none, none⟩ (), .askBusy false, .askLock false,
      .ask true ⟨some [97], none, none⟩ (), .askBusy true, .askLock true, .raise, .peek, .cancel false,
      .cancelExec false, .getaddrinfo ⟨0, some ()⟩, .run false, .fulfill, .peek,
      .getaddrinfo ⟨0, some ()⟩, .fulfill, .clearBusy, .setError, .setResult, .exec, .run true, .peek,
      .wait, .clear, .peek]
  let T := trace step (fun s a => Legal s a ∧ Safe s a)
    (State.init fun _ => () : State Bool Unit Unit Unit)
  obtain ⟨s, hs⟩ : ∃ s, T as = some s := Option.isSome_iff_exists.1 (by decide +kernel)
  have hrest : AtRest s := by
    have h : (T as).map (fun s => decide ((s.worker = .wait ∧ s.notify = false) ∧ s.raising = 0 ∧
        (∀ q, s.ask q = .idle) ∧ (∀ q, s.cancelling q = 0) ∧ ∀ q, s.queued q = 0)) = some true := by
      decide +kernel
    rw [hs] at h
    obtain ⟨h₁, h₂, h₃, h₄, h₅⟩ := of_decide_eq_true (Option.some.inj h)
    exact ⟨.inl h₁, h₂, h₃, h₄, h₅⟩
  obtain ⟨x, hx, hk⟩ := exists_scheduled hs hrest
  have h4 : (x.state 4).outstanding true = true := by
    have h : (T (as.take 4)).map (·.outstanding true) = some true := by decide +kernel
    rw [show T (as.take 4) = some (x.state 4) from hk 4] at h
    exact Option.some.inj h
  exact ⟨x, h4, run_called_back hx true 4 h4⟩

/-- When the resolver is destroyed the worker exits, so that it can be joined. The callbacks of the
requests that are in neither the list nor a call of `adns_request_ask` still come. -/
theorem run_exited (hx : Scheduled x) :
    x.LeadsTo (fun s => s.quit = true) (fun s => s.worker = .exited) ∧
      ∀ q, x.LeadsTo
        (fun s => s.outstanding q = true ∧ s.ask q = .idle ∧ s.requests.next (.item q) = .null)
        fun s => s.outstanding q = false :=
  ⟨hx.exited, hx.out_called⟩

/-- The resolver is destroyed while the worker sleeps. -/
theorem run_exited_asleep : ∃ x : Execution step (fun s a => Legal s a ∧ Safe s a)
    (State.init fun _ => () : State Bool Unit Unit Unit),
      ((x.state 2).worker = .wait ∧ (x.state 2).quit = true) ∧
        ∃ j, 2 ≤ j ∧ (x.state j).worker = .exited := by
  let as : List (Act Bool Unit Unit Unit) := [.peek, .destroy, .raise, .wait, .clear, .peek]
  let T := trace step (fun s a => Legal s a ∧ Safe s a)
    (State.init fun _ => () : State Bool Unit Unit Unit)
  obtain ⟨s, hs⟩ : ∃ s, T as = some s := Option.isSome_iff_exists.1 (by decide +kernel)
  have hrest : AtRest s := by
    have h : (T as).map (fun s => decide (s.worker = .exited ∧ s.raising = 0 ∧
        (∀ q, s.ask q = .idle) ∧ (∀ q, s.cancelling q = 0) ∧ ∀ q, s.queued q = 0)) = some true := by
      decide +kernel
    rw [hs] at h
    obtain ⟨h₁, h₂, h₃, h₄, h₅⟩ := of_decide_eq_true (Option.some.inj h)
    exact ⟨.inr h₁, h₂, h₃, h₄, h₅⟩
  obtain ⟨x, hx, hk⟩ := exists_scheduled hs hrest
  have h2 : (x.state 2).worker = .wait ∧ (x.state 2).quit = true := by
    have h : (T (as.take 2)).map (fun s => decide (s.worker = .wait ∧ s.quit = true)) = some true := by
      decide +kernel
    rw [show T (as.take 2) = some (x.state 2) from hk 2] at h
    exact of_decide_eq_true (Option.some.inj h)
  exact ⟨x, h2, (run_exited hx).1 2 h2.2⟩

end Dlb.Adns
