import Mathlib.Logic.Relation
import Mathlib.Order.Basic
import Mathlib.Order.Nat
import Mathlib.Tactic.Tauto
import Dlb.Ioq.Code

/-!
# The dispatcher is woken up

A producer calls `ioq_notify` only if `mod_list` or `job_list` was empty or if its timer is the
first one, and `ioq_notify` only writes to the pipe if `intr_state` was not set. Between
the last `read` of `intr_ack` and the reset of `intr_state` a call has no effect; the dispatcher
has then still all of an iteration before it. `Awake` is the invariant which says, for every
kind of work, where the dispatcher may be without a call under way or noted in
`intr_state`.
-/

namespace Dlb.Ioq

variable {F T K C : Type} [DecidableEq F] [LinearOrder T] [DecidableEq C] {bgThreads : ℕ}
  {s s' : State F T K C} {a : Act F T K C}

/-! ## Runs -/

/-- A step that meets the condition `P`. -/
def Step (bgThreads : ℕ) (P : State F T K C → Act F T K C → Prop) (s s' : State F T K C) : Prop :=
  ∃ a, P s a ∧ step bgThreads s a = some s'

/-- A run of steps that meet the condition `P`, from the start. -/
def Run (bgThreads : ℕ) (P : State F T K C → Act F T K C → Prop) (s : State F T K C) : Prop :=
  Relation.ReflTransGen (Step bgThreads P) .init s

theorem Run.induction {P : State F T K C → Act F T K C → Prop} {Q : State F T K C → Prop}
    (hr : Run bgThreads P s) (h₀ : Q .init)
    (hs : ∀ s a s', Q s → P s a → step bgThreads s a = some s' → Q s') : Q s := by
  induction hr with
  | refl => exact h₀
  | tail _ hstep ih =>
    obtain ⟨a, ha, e⟩ := hstep
    exact hs _ a _ ih ha e

/-- The state after the steps `as`, if each of them meets the condition `P` and can be taken. -/
def trace (bgThreads : ℕ) (P : State F T K C → Act F T K C → Prop) [∀ s a, Decidable (P s a)] :
    State F T K C → List (Act F T K C) → Option (State F T K C)
  | s, [] => some s
  | s, a :: as => if P s a then (step bgThreads s a).bind (trace bgThreads P · as) else none

theorem steps_of_trace {P : State F T K C → Act F T K C → Prop} [∀ s a, Decidable (P s a)]
    {as : List (Act F T K C)} (e : trace bgThreads P s as = some s') :
    Relation.ReflTransGen (Step bgThreads P) s s' := by
  induction as generalizing s with
  | nil =>
    obtain rfl := Option.some.inj e
    exact .refl
  | cons a as ih =>
    simp only [Ioq.trace, Option.ite_none_right_eq_some, Option.bind_eq_some_iff] at e
    obtain ⟨ha, s₁, e₁, e⟩ := e
    exact .head ⟨a, ha, e₁⟩ (ih e)

theorem Run.trace {P : State F T K C → Act F T K C → Prop} [∀ s a, Decidable (P s a)]
    (hr : Run bgThreads P s) {as : List (Act F T K C)} (e : trace bgThreads P s as = some s') :
    Run bgThreads P s' :=
  hr.trans (steps_of_trace e)

/-- A step is one of a client, of `ioq_notify`, of a background thread or of the dispatcher. -/
theorem step_cases (e : step bgThreads s a = some s') :
    clientStep bgThreads s a = some s' ∨ noteStep s a = some s' ∨
      workerStep bgThreads s a = some s' ∨ s.note none = .none ∧
        (waitStep s a = some s' ∨ modStep bgThreads s a = some s' ∨
          runStep bgThreads s a = some s') := by
  simp only [step, Option.or_eq_some_iff, Option.ite_none_right_eq_some] at e
  tauto

/-! ## The invariant -/

namespace Disp

/-- In `intr_ack`, where the pipe is read and `intr_state` is not yet reset. -/
def Acking : Disp F T K → Prop
  | .drain _ | .ack _ => True
  | _ => False

/-- Before the end of `dispatch_mods`, in an iteration that has left `epoll_wait`. -/
def Modding : Disp F T K → Prop
  | .drain _ | .ack _ | .event _ | .eventLock _ _ | .dequeue | .held _ _ _ | .cancelled _ | .failed _
  | .added _ => True
  | _ => False

/-- Before or in `epoll_wait`. -/
def Resting : Disp F T K → Prop
  | .nextDeadline | .epollWait _ => True
  | _ => False

end Disp

/-- A call of `ioq_notify` is noted or about to be. -/
def Called (s : State F T K C) : Prop := s.intrState = true ∨ ∃ c, s.note c = .lock

/-- The timer `t` is earlier than the one from which the timeout of `epoll_wait` was computed. -/
def Earlier (s : State F T K C) (first : Option ℕ) (t : T) : Prop :=
  t ∈ s.waitingSet ∧ ∀ d ∈ first, s.deadline t < d

/-- The waiting set is sorted by the deadlines. -/
def Sorted (s : State F T K C) : Prop :=
  s.waitingSet.Pairwise fun t u => s.deadline t ≤ s.deadline u

structure Awake (s : State F T K C) : Prop where
  dispNote : s.note none ≠ .none → s.disp = .dequeue ∨ ∃ now, s.disp = .expire now
  clientNote : ∀ c, s.client c ≠ .idle → s.note (some c) = .none
  intr : s.intrState = true → 0 < s.pipe ∨ (∃ c, s.note c = .write) ∨ s.disp.Acking
  mods : s.modList ≠ [] → Called s ∨ s.disp.Modding
  jobs : s.jobList ≠ [] → Called s ∨ ¬s.disp.Resting
  timers : ∀ first, s.disp = .epollWait first → ∀ t, Earlier s first t → Called s
  sorted : Sorted s

omit [DecidableEq F] [LinearOrder T] [DecidableEq C] in
theorem awake_init : Awake (.init : State F T K C) := by
  constructor <;> simp [State.init, Sorted]

/-- What a client leaves alone before it calls `ioq_notify`. -/
structure Quiet (s s₁ : State F T K C) : Prop where
  disp : s₁.disp = s.disp
  note : s₁.note = s.note
  intrState : s₁.intrState = s.intrState
  pipe : s₁.pipe = s.pipe

omit [DecidableEq F] [LinearOrder T] [DecidableEq C] in
theorem Quiet.called {s₁ : State F T K C} (hq : Quiet s s₁) (h : Called s) : Called s₁ := by
  rw [Called, hq.intrState, hq.note]
  exact h

omit [DecidableEq F] [LinearOrder T] in
theorem called_wakeup {c : Option C} {need : Bool} (h : need = true ∨ Called s ∧ s.note c = .none) :
    Called (wakeup s c need) := by
  cases need with
  | true => exact .inr ⟨c, by simp [wakeup]⟩
  | false =>
    obtain ⟨h, -⟩ := h.resolve_left (by simp)
    exact h

omit [DecidableEq F] [LinearOrder T] in
/-- A client that is not in `ioq_notify` has made a change, and calls `ioq_notify` if there is now
    work where there was none. -/
theorem Awake.wakeup (h : Awake s) {s₁ : State F T K C} {c : C} {need : Bool} (hq : Quiet s s₁)
    (hc : s.note (some c) = .none) (hcl : ∀ c', s₁.client c' ≠ .idle → c' ≠ c ∧
      s.client c' ≠ .idle ∨ c' = c ∧ need = false)
    (hm : s₁.modList ≠ [] → s.modList ≠ [] ∨ need = true)
    (hj : s₁.jobList ≠ [] → s.jobList ≠ [] ∨ need = true)
    (ht : ∀ first t, Earlier s₁ first t → (∃ u, Earlier s first u) ∨ need = true)
    (hs : Sorted s₁) :
    Awake (wakeup s₁ (some c) need) := by
  have hw : (Ioq.wakeup s₁ (some c) need) = { s₁ with
      note := (Ioq.wakeup s₁ (some c) need).note } := by
    rw [Ioq.wakeup]
    split_ifs <;> rfl
  have hcall : need = true ∨ Called s → Called (Ioq.wakeup s₁ (some c) need) := by
    intro h'
    refine called_wakeup (h'.imp_right fun h' => ⟨hq.called h', ?_⟩)
    rw [hq.note]
    exact hc
  have hnote : ∀ c' ≠ some c, (Ioq.wakeup s₁ (some c) need).note c' = s.note c' := by
    intro c' hne
    rw [Ioq.wakeup, ← hq.note]
    split_ifs
    · simp [hne]
    · rfl
  constructor
  · rw [hnote none (by simp), hw]
    simpa only [hq.disp] using h.dispNote
  · intro c' hc'
    rw [hw] at hc'
    rcases hcl c' hc' with ⟨hne, hi⟩ | ⟨rfl, hneed⟩
    · rw [hnote (some c') (by simpa using hne)]
      exact h.clientNote c' hi
    · rw [hneed]
      exact (congrFun hq.note _).trans hc
  · intro hi
    rw [hw] at hi ⊢
    simp only [hq.disp, hq.pipe]
    refine (h.intr (hq.intrState ▸ hi)).imp_right (Or.imp_left ?_)
    rintro ⟨c', hc'⟩
    have hne : c' ≠ some c := by
      rintro rfl
      simp [hc] at hc'
    exact ⟨c', (hnote c' hne).trans hc'⟩
  · intro hne
    rw [hw] at hne
    have := hm hne
    rw [show (Ioq.wakeup s₁ (some c) need).disp = s.disp by rw [hw]; exact hq.disp]
    rcases this with h₁ | h₁
    · exact (h.mods h₁).imp_left fun h₂ => hcall (.inr h₂)
    · exact .inl (hcall (.inl h₁))
  · intro hne
    rw [hw] at hne
    have := hj hne
    rw [show (Ioq.wakeup s₁ (some c) need).disp = s.disp by rw [hw]; exact hq.disp]
    rcases this with h₁ | h₁
    · exact (h.jobs h₁).imp_left fun h₂ => hcall (.inr h₂)
    · exact .inl (hcall (.inl h₁))
  · intro first hd t he
    rw [hw] at hd he
    rcases ht first t he with ⟨u, hu⟩ | h₁
    · exact hcall (.inr (h.timers first (hq.disp ▸ hd) u hu))
    · exact hcall (.inl h₁)
  · rw [hw]
    exact hs

omit [DecidableEq F] [LinearOrder T] in
/-- The dispatcher calls `ioq_notify` itself only after `epoll_wait`, where it is not needed. -/
theorem Awake.wakeup_disp (h : Awake s) (hn : s.note none = .none)
    (hd : s.disp = .dequeue ∨ ∃ now, s.disp = .expire now) (need : Bool) :
    Awake (Ioq.wakeup s none need) := by
  cases need with
  | false => exact h
  | true =>
    have hcall : Called (Ioq.wakeup s none true) := called_wakeup (.inl rfl)
    refine ⟨fun _ => hd, fun c hc => ?_, fun hi => ?_, fun _ => .inl hcall, fun _ => .inl hcall,
      fun _ _ _ _ => hcall, h.sorted⟩
    · simpa [Ioq.wakeup] using h.clientNote c hc
    · refine (h.intr hi).imp_right (Or.imp_left ?_)
      rintro ⟨c, hc⟩
      have hne : c ≠ none := by
        rintro rfl
        simp [hn] at hc
      exact ⟨c, (Function.update_of_ne hne _ _).trans hc⟩

omit [DecidableEq F] [LinearOrder T] [DecidableEq C] in
/-- A step of the dispatcher. -/
theorem Awake.move (h : Awake s) (hn : s.note none = .none) (hnote : s'.note = s.note)
    (hclient : s'.client = s.client)
    (hintr : s'.intrState = true → s'.disp.Acking ∨
      s.intrState = true ∧ ¬s.disp.Acking ∧ s'.pipe = s.pipe)
    (hmods : s'.modList ≠ [] → s'.disp.Modding ∨
      s.modList ≠ [] ∧ ¬s.disp.Modding ∧ s'.intrState = s.intrState)
    (hjobs : s'.jobList ≠ [] → ¬s'.disp.Resting ∨
      s.jobList ≠ [] ∧ s.disp.Resting ∧ s'.intrState = s.intrState)
    (htimers : ∀ first, s'.disp = .epollWait first → ∀ t, ¬Earlier s' first t)
    (hsorted : Sorted s') : Awake s' := by
  have hcall : s'.intrState = s.intrState → Called s → Called s' := by
    intro hi hc
    rw [Called, hi, hnote]
    exact hc
  refine ⟨fun h' => absurd hn (hnote ▸ h'), ?_, fun hi => ?_, fun hm => ?_, fun hj => ?_,
    fun first hd t ht => absurd ht (htimers first hd t), hsorted⟩
  · rw [hclient, hnote]
    exact h.clientNote
  · rcases hintr hi with ha | ⟨hi', ha, hp⟩
    · exact .inr (.inr ha)
    · rw [hp, hnote]
      exact (h.intr hi').imp_right (Or.imp_right fun h' => absurd h' ha)
  · rcases hmods hm with hd | ⟨hm', hd, hi⟩
    · exact .inr hd
    · exact .inl (hcall hi ((h.mods hm').resolve_right hd))
  · rcases hjobs hj with hd | ⟨hj', hd, hi⟩
    · exact .inr hd
    · exact .inl (hcall hi ((h.jobs hj').resolve_right (not_not_intro hd)))

omit [DecidableEq F] [LinearOrder T] [DecidableEq C] in
/-- A step of the dispatcher outside of `intr_ack` that does not go to `epoll_wait`. -/
theorem Awake.pass (h : Awake s) (hn : s.note none = .none) (hnote : s'.note = s.note)
    (hclient : s'.client = s.client) (hintr : s'.intrState = s.intrState) (hpipe : s'.pipe = s.pipe)
    (ha : ¬s.disp.Acking) (hr : ¬s'.disp.Resting)
    (hmods : s'.modList ≠ [] → s'.disp.Modding ∨ s.modList ≠ [] ∧ ¬s.disp.Modding)
    (hsorted : Sorted s') : Awake s' := by
  refine h.move hn hnote hclient (fun hi => .inr ⟨hintr ▸ hi, ha, hpipe⟩)
    (fun hm => (hmods hm).imp_right fun ⟨hm', hd⟩ => ⟨hm', hd, hintr⟩) (fun _ => .inl hr)
    (fun first hd => ?_) hsorted
  rw [hd] at hr
  exact absurd trivial hr

/-! ## Steps -/

omit [LinearOrder T] [DecidableEq C] in
theorem quiet_modEnqueue (s : State F T K C) (f : F) : Quiet s (modEnqueue s f).2 := by
  rw [modEnqueue]
  split_ifs <;> exact ⟨rfl, rfl, rfl, rfl⟩

omit [LinearOrder T] [DecidableEq C] in
/-- Only `mod_list` and the flags are changed by `mod_enqueue_nolock`, which asks for a call if
    the list was empty. -/
theorem modEnqueue_spec (s : State F T K C) (f : F) :
    ((modEnqueue s f).2.modList ≠ [] → s.modList ≠ [] ∨ (modEnqueue s f).1 = true) ∧
      (modEnqueue s f).2.jobList = s.jobList ∧ (modEnqueue s f).2.client = s.client ∧
      (∀ first t, Earlier (modEnqueue s f).2 first t = Earlier s first t) ∧
      Sorted (modEnqueue s f).2 = Sorted s := by
  rw [modEnqueue]
  split_ifs
  · exact ⟨.inl, rfl, rfl, fun _ _ => rfl, rfl⟩
  · refine ⟨fun _ => ?_, rfl, rfl, fun _ _ => rfl, rfl⟩
    simpa using Classical.em (s.modList = []) |>.symm

theorem mem_wsetInsert {deadline : T → ℕ} {t u : T} {l : List T} :
    u ∈ wsetInsert deadline t l ↔ u = t ∨ u ∈ l := by
  induction l with
  | nil => simp [wsetInsert]
  | cons v l ih =>
    rw [wsetInsert]
    split_ifs
    · simp
    · simp only [List.mem_cons, ih]
      tauto

theorem pairwise_wsetInsert {deadline : T → ℕ} {t : T} {l : List T}
    (h : l.Pairwise fun t u => deadline t ≤ deadline u) :
    (wsetInsert deadline t l).Pairwise fun t u => deadline t ≤ deadline u := by
  induction l with
  | nil => simp [wsetInsert]
  | cons u l ih =>
    obtain ⟨hu, hl⟩ := List.pairwise_cons.1 h
    rw [wsetInsert]
    split_ifs with hb
    · have hle : deadline t ≤ deadline u := by
        simp only [before, decide_eq_true_eq] at hb
        omega
      refine List.pairwise_cons.2 ⟨fun v hv => ?_, h⟩
      rcases List.mem_cons.1 hv with rfl | hv
      · exact hle
      · exact Nat.le_trans hle (hu v hv)
    · have hle : deadline u ≤ deadline t := by
        simp only [before, decide_eq_true_eq] at hb
        omega
      refine List.pairwise_cons.2 ⟨fun v hv => ?_, ih hl⟩
      rcases mem_wsetInsert.1 hv with rfl | hv
      · exact hle
      · exact hu v hv

omit [LinearOrder T] [DecidableEq C] in
/-- The dispatcher appends to `mod_list` before the end of `dispatch_mods`. -/
theorem Awake.enqueue (h : Awake s) (hn : s.note none = .none) (ha : ¬s.disp.Acking)
    {s₁ : State F T K C} {f : F} {d : Disp F T K} (hq : Quiet s s₁) (hcl : s₁.client = s.client)
    (hs : Sorted s₁) (hm : d.Modding) (hr : ¬d.Resting) (he : ∀ first, d ≠ .epollWait first) :
    Awake { (modEnqueue s₁ f).2 with disp := d } := by
  have hq' := quiet_modEnqueue s₁ f
  obtain ⟨-, -, hcl', -, hs'⟩ := modEnqueue_spec s₁ f
  exact h.move hn (hq'.note.trans hq.note) (hcl'.trans hcl)
    (fun hi => .inr ⟨(hq'.intrState.trans hq.intrState) ▸ hi, ha, hq'.pipe.trans hq.pipe⟩)
    (fun _ => .inl hm) (fun _ => .inl hr) (fun first h' => absurd h' (he first)) (hs'.mpr hs)

/-- A timer that is not the first one has one before it. -/
theorem exists_le_of_head?_ne {deadline : T → ℕ} {t : T} {l : List T}
    (h : (wsetInsert deadline t l).head? ≠ some t) : ∃ u ∈ l, deadline u ≤ deadline t := by
  cases l with
  | nil => simp [wsetInsert] at h
  | cons u l =>
    rw [wsetInsert] at h
    split_ifs at h with hb
    · simp at h
    · simp only [before, decide_eq_true_eq] at hb
      exact ⟨u, by simp, by omega⟩

theorem Awake.client (h : Awake s) (e : clientStep 0 s a = some s') : Awake s' := by
  have hidle : ∀ {c need}, s.client c = .idle → ∀ c', s.client c' ≠ .idle →
      c' ≠ c ∧ s.client c' ≠ .idle ∨ c' = c ∧ need = false := by
    rintro c need hc c' hc'
    refine .inl ⟨?_, hc'⟩
    rintro rfl
    exact hc' hc
  have hupd : ∀ {c cl need}, (need = true → cl = .idle) → ∀ c',
      Function.update s.client c cl c' ≠ .idle →
        c' ≠ c ∧ s.client c' ≠ .idle ∨ c' = c ∧ need = false := by
    rintro c cl need hcl c' hc'
    rcases eq_or_ne c' c with rfl | hne
    · rw [Function.update_self] at hc'
      exact .inr ⟨rfl, by simpa using mt hcl hc'⟩
    · rw [Function.update_of_ne hne] at hc'
      exact .inl ⟨hne, hc'⟩
  cases a with
  | notify c =>
    simp only [clientStep, Option.ite_none_right_eq_some, Option.some.injEq] at e
    obtain ⟨⟨hc, hn⟩, rfl⟩ := e
    exact h.wakeup ⟨rfl, rfl, rfl, rfl⟩ hn (hidle hc) .inl .inl (fun _ t ht => .inl ⟨t, ht⟩) h.sorted
  | fdWait c f set =>
    simp only [clientStep, Option.ite_none_right_eq_some, Option.some.injEq] at e
    obtain ⟨⟨hc, hn⟩, rfl⟩ := e
    change Awake (Ioq.wakeup _ (some c) false)
    exact h.wakeup ⟨rfl, rfl, rfl, rfl⟩ hn (hupd (by simp)) .inl .inl (fun _ t ht => .inl ⟨t, ht⟩)
      h.sorted
  | fdWaitLock c =>
    simp only [clientStep] at e
    split at e
    · rename_i f hc
      obtain rfl := Option.some.inj e
      have hq := quiet_modEnqueue s f
      obtain ⟨hm, hj, -, ht, hs⟩ := modEnqueue_spec s f
      refine h.wakeup ⟨hq.disp, hq.note, hq.intrState, hq.pipe⟩ (h.clientNote c (by simp [hc]))
        (hupd fun _ => rfl) hm (fun h' => .inl (hj ▸ h')) (fun first t h' => .inl ⟨t, ?_⟩)
        (hs.mpr h.sorted)
      exact (ht first t).mp h'
    · cases e
  | fdWaitExec c =>
    simp only [clientStep] at e
    split at e
    · rename_i f hc
      obtain rfl := Option.some.inj e
      refine h.wakeup ⟨rfl, rfl, rfl, rfl⟩ (h.clientNote c (by simp [hc])) (hupd fun _ => rfl) .inl
        (fun _ => ?_) (fun _ t ht => .inl ⟨t, ht⟩) h.sorted
      simpa using Classical.em (s.jobList = []) |>.symm
    · cases e
  | fdRewait c f set =>
    simp only [clientStep, Option.ite_none_right_eq_some] at e
    obtain ⟨⟨hc, hn⟩, e⟩ := e
    split_ifs at e
    · obtain rfl := Option.some.inj e
      have hq := quiet_modEnqueue (s.setFd f ({ · with requested := set })) f
      obtain ⟨hm, hj, hcl, ht, hs⟩ := modEnqueue_spec (s.setFd f ({ · with requested := set })) f
      refine h.wakeup ⟨hq.disp, hq.note, hq.intrState, hq.pipe⟩ hn (hcl ▸ hidle hc) hm
        (fun h' => .inl (hj ▸ h')) (fun first t h' => .inl ⟨t, (ht first t).mp h'⟩)
        (hs.mpr h.sorted)
    · obtain rfl := Option.some.inj e
      exact h
  | taskExec c k =>
    simp only [clientStep, Option.ite_none_right_eq_some, Option.some.injEq] at e
    obtain ⟨⟨hc, hn⟩, rfl⟩ := e
    refine h.wakeup ⟨rfl, rfl, rfl, rfl⟩ hn (hidle hc) .inl (fun _ => ?_)
      (fun _ t ht => .inl ⟨t, ht⟩) h.sorted
    simpa using Classical.em (s.jobList = []) |>.symm
  | timerWait c t now interval =>
    simp only [clientStep, Option.ite_none_right_eq_some, Option.some.injEq] at e
    obtain ⟨⟨hc, hn, ht⟩, rfl⟩ := e
    obtain ⟨dl, hdl⟩ : ∃ dl, dl = Function.update s.deadline t ((now + interval) % 2 ^ 64) := ⟨_, rfl⟩
    have hsame : ∀ u ∈ s.waitingSet, dl u = s.deadline u := by
      intro u hu
      rw [hdl, Function.update_of_ne]
      rintro rfl
      exact ht hu
    have hsorted : s.waitingSet.Pairwise fun t u => dl t ≤ dl u :=
      h.sorted.imp_of_mem fun ha hb hle => by rwa [hsame _ ha, hsame _ hb]
    rw [← hdl]
    refine h.wakeup ⟨rfl, rfl, rfl, rfl⟩ hn (hidle hc) .inl .inl (fun first u hu => ?_)
      (pairwise_wsetInsert hsorted)
    rw [beq_iff_eq, or_iff_not_imp_right]
    intro hhead
    obtain ⟨hmem, hlt⟩ := hu
    rcases mem_wsetInsert.1 hmem with rfl | hmem
    · obtain ⟨v, hv, hle⟩ := exists_le_of_head?_ne hhead
      exact ⟨v, hv, fun d hd => Nat.lt_of_le_of_lt (hsame v hv ▸ hle) (hlt d hd)⟩
    · exact ⟨u, hmem, fun d hd => hsame u hmem ▸ hlt d hd⟩
  | _ => cases e

omit [DecidableEq F] [LinearOrder T] in
theorem Awake.note (h : Awake s) (e : noteStep s a = some s') : Awake s' := by
  cases a with
  | notifyLock c =>
    simp only [noteStep, Option.ite_none_right_eq_some, Option.some.injEq] at e
    obtain ⟨hc, rfl⟩ := e
    have hcall : ∀ n, Called { s with intrState := true, note := n } := fun _ => .inl rfl
    refine ⟨fun h' => h.dispNote fun h₀ => h' ?_, fun c' hc' => ?_, fun _ => ?_,
      fun _ => .inl (hcall _), fun _ => .inl (hcall _), fun _ _ _ _ => hcall _, h.sorted⟩
    · have hne : none ≠ c := by
        rintro rfl
        simp [hc] at h₀
      simpa [Function.update_of_ne hne] using h₀
    · have h₀ := h.clientNote c' hc'
      have hne : some c' ≠ c := by
        rintro rfl
        simp [hc] at h₀
      simpa [Function.update_of_ne hne] using h₀
    · cases hi : s.intrState with
      | false => exact .inr (.inl ⟨c, by simp⟩)
      | true =>
        refine (h.intr hi).imp_right (Or.imp_left ?_)
        rintro ⟨c', hc'⟩
        have hne : c' ≠ c := by
          rintro rfl
          simp [hc] at hc'
        exact ⟨c', by simpa [Function.update_of_ne hne] using hc'⟩
  | notifyWrite c =>
    simp only [noteStep, Option.ite_none_right_eq_some, Option.some.injEq] at e
    obtain ⟨hc, rfl⟩ := e
    have hcall : Called s → Called { s with
        pipe := s.pipe + 1, note := Function.update s.note c .none } := by
      refine Or.imp_right ?_
      rintro ⟨c', hc'⟩
      have hne : c' ≠ c := by
        rintro rfl
        simp [hc] at hc'
      exact ⟨c', by simpa [Function.update_of_ne hne] using hc'⟩
    refine ⟨fun h' => h.dispNote fun h₀ => h' ?_, fun c' hc' => ?_, fun _ => .inl (Nat.succ_pos _),
      fun h' => (h.mods h').imp_left hcall, fun h' => (h.jobs h').imp_left hcall,
      fun first hd t ht => hcall (h.timers first hd t ht), h.sorted⟩
    · rcases eq_or_ne none c with rfl | hne
      · simp
      · simpa [Function.update_of_ne hne] using h₀
    · have h₀ := h.clientNote c' hc'
      rcases eq_or_ne (some c') c with rfl | hne
      · simp
      · simpa [Function.update_of_ne hne] using h₀
  | _ => cases e

omit [LinearOrder T] [DecidableEq C] in
theorem Awake.wait (h : Awake s) (hn : s.note none = .none) (e : waitStep s a = some s') :
    Awake s' := by
  cases a with
  | nextDeadline =>
    simp only [waitStep] at e
    split at e
    · rename_i hd
      obtain rfl := Option.some.inj e
      refine h.move hn rfl rfl (fun hi => .inr ⟨hi, by simp [hd, Disp.Acking], rfl⟩)
        (fun hm => .inr ⟨hm, by simp [hd, Disp.Modding], rfl⟩)
        (fun hj => .inr ⟨hj, by simp [hd, Disp.Resting], rfl⟩) (fun first hf t => ?_) h.sorted
      -- The timeout is computed from the first timer of a sorted set.
      rintro ⟨hmem, hlt⟩
      cases hw : s.waitingSet with
      | nil => simp [hw] at hmem
      | cons u us =>
        have hs := h.sorted
        rw [Sorted, hw, List.pairwise_cons] at hs
        have hlt' : s.deadline t < s.deadline u := hlt _ (by simpa [hw] using (Disp.epollWait.inj hf).symm)
        rcases List.mem_cons.1 (hw ▸ hmem) with rfl | hmem
        · omega
        · have := hs.1 t hmem
          omega
    · cases e
  | epollReturn evts =>
    simp only [waitStep] at e
    split at e
    · obtain ⟨-, rfl⟩ := by simpa only [Option.ite_none_right_eq_some, Option.some.injEq] using e
      exact h.move hn rfl rfl (fun _ => .inl trivial) (fun _ => .inl trivial) (fun _ => .inl id)
        (by simp) h.sorted
    · cases e
  | epollInterrupted =>
    simp only [waitStep] at e
    split at e
    · rename_i hd
      obtain rfl := Option.some.inj e
      exact h.pass hn rfl rfl rfl rfl (by simp [hd, Disp.Acking]) id
        (fun _ => .inl trivial) h.sorted
    · cases e
  | epollError =>
    simp only [waitStep] at e
    split at e
    · rename_i hd
      obtain rfl := Option.some.inj e
      exact h.move hn rfl rfl (fun hi => .inr ⟨hi, by simp [hd, Disp.Acking], rfl⟩)
        (fun hm => .inr ⟨hm, by simp [hd, Disp.Modding], rfl⟩)
        (fun hj => .inr ⟨hj, by simp [hd, Disp.Resting], rfl⟩) (by simp) h.sorted
    · cases e
  | read =>
    simp only [waitStep] at e
    split at e
    · rename_i hd
      split_ifs at e <;> obtain rfl := Option.some.inj e
      · exact h.move hn rfl rfl (fun _ => .inl trivial) (fun _ => .inl trivial) (fun _ => .inl id)
          (by simp) h.sorted
      · exact h.move hn rfl rfl (fun _ => .inl (by simp [hd, Disp.Acking]))
          (fun _ => .inl (by simp [hd, Disp.Modding])) (fun _ => .inl (by simp [hd, Disp.Resting]))
          (by simp [hd]) h.sorted
    · cases e
  | ackLock =>
    simp only [waitStep] at e
    split at e
    · obtain rfl := Option.some.inj e
      exact h.move hn rfl rfl (by simp) (fun _ => .inl trivial) (fun _ => .inl id) (by simp) h.sorted
    · cases e
  | eventDel ok =>
    simp only [waitStep] at e
    split at e
    · rename_i hd
      obtain rfl := Option.some.inj e
      exact h.pass hn rfl rfl rfl rfl (by simp [hd, Disp.Acking]) id
        (fun _ => .inl trivial) h.sorted
    · cases e
  | eventLock =>
    simp only [waitStep] at e
    split at e
    · rename_i f evts hd
      obtain rfl := Option.some.inj e
      exact h.enqueue hn (by simp [hd, Disp.Acking]) ⟨rfl, rfl, rfl, rfl⟩ rfl h.sorted trivial id
        (by simp)
    · cases e
  | eventDone =>
    simp only [waitStep] at e
    split at e
    · rename_i hd
      obtain rfl := Option.some.inj e
      exact h.pass hn rfl rfl rfl rfl (by simp [hd, Disp.Acking]) id
        (fun _ => .inl trivial) h.sorted
    · cases e
  | _ => cases e

omit [LinearOrder T] in
theorem Awake.mod (h : Awake s) (hn : s.note none = .none) (e : modStep 0 s a = some s') :
    Awake s' := by
  cases a with
  | dequeue now =>
    simp only [modStep] at e
    split at e
    · rename_i hd hm
      obtain rfl := Option.some.inj e
      exact h.pass hn rfl rfl rfl rfl (by simp [hd, Disp.Acking]) id (absurd hm) h.sorted
    · rename_i f fs hd hm
      obtain rfl := Option.some.inj e
      exact h.pass hn rfl rfl rfl rfl (by simp [hd, Disp.Acking]) id
        (fun _ => .inl trivial) h.sorted
    · cases e
  | handle result =>
    simp only [modStep] at e
    split at e
    · rename_i f flags requested hd
      have hacking : ¬s.disp.Acking := by simp [hd, Disp.Acking]
      split at e
      · obtain rfl := Option.some.inj e
        rw [runqTaskExec]
        refine Awake.wakeup_disp ?_ (by exact hn) (.inl rfl) _
        exact h.pass hn rfl rfl rfl rfl hacking id (fun _ => .inl trivial) h.sorted
      -- The three cases of `epoll_ctl` differ in what they record of `f`.
      split at e
      · obtain rfl := Option.some.inj e
        exact h.pass hn rfl rfl rfl rfl hacking id (fun _ => .inl trivial) h.sorted
      split at e
      · obtain rfl := Option.some.inj e
        exact h.pass hn rfl rfl rfl rfl hacking id (fun _ => .inl trivial) h.sorted
      · obtain rfl := Option.some.inj e
        exact h.pass hn rfl rfl rfl rfl hacking id (fun _ => .inl trivial) h.sorted
    · cases e
  | handleLock =>
    simp only [modStep] at e
    split at e
    · rename_i f hd
      obtain rfl := Option.some.inj e
      exact h.enqueue hn (by simp [hd, Disp.Acking]) ⟨rfl, rfl, rfl, rfl⟩ rfl h.sorted trivial id
        (by simp)
    · rename_i f hd
      obtain rfl := Option.some.inj e
      exact h.enqueue hn (by simp [hd, Disp.Acking]) ⟨rfl, rfl, rfl, rfl⟩ rfl h.sorted trivial id
        (by simp)
    · rename_i f hd
      obtain rfl := Option.some.inj e
      exact h.pass hn rfl rfl rfl rfl (by simp [hd, Disp.Acking]) id
        (fun _ => .inl trivial) h.sorted
    · cases e
  | _ => cases e

omit [DecidableEq F] [LinearOrder T] [DecidableEq C] in
theorem beginTask_frame (s : State F T K C) [DecidableEq F] (task : Task F T K) :
    ∃ o, beginTask s task = { s with outstanding := o } := by
  cases task <;> exact ⟨_, rfl⟩

omit [LinearOrder T] in
theorem Awake.run (h : Awake s) (hn : s.note none = .none) (e : runStep 0 s a = some s') :
    Awake s' := by
  cases a with
  | expire =>
    simp only [runStep] at e
    split at e
    · rename_i now t ts hd hw
      have hm : s.modList ≠ [] → ¬s.disp.Modding := by simp [hd, Disp.Modding]
      split_ifs at e <;> obtain rfl := Option.some.inj e
      · exact h.pass hn rfl rfl rfl rfl (by simp [hd, Disp.Acking]) id
          (fun h' => .inr ⟨h', hm h'⟩) h.sorted
      · refine h.pass hn rfl rfl rfl rfl (by simp [hd, Disp.Acking]) id
          (fun h' => .inr ⟨h', hm h'⟩) ?_
        have hs := h.sorted
        rw [Sorted, hw] at hs
        exact hs.of_cons
    · rename_i now hd hw
      obtain rfl := Option.some.inj e
      exact h.pass hn rfl rfl rfl rfl (by simp [hd, Disp.Acking]) id
        (fun hm => .inr ⟨hm, by simp [hd, Disp.Modding]⟩) h.sorted
    · cases e
  | expired =>
    simp only [runStep] at e
    split at e
    · rename_i t now hd
      obtain rfl := Option.some.inj e
      rw [runqTaskExec]
      refine Awake.wakeup_disp ?_ (by exact hn) (.inr ⟨now, rfl⟩) _
      exact h.pass hn rfl rfl rfl rfl (by simp [hd, Disp.Acking]) id
        (fun hm => .inr ⟨hm, by simp [hd, Disp.Modding]⟩) h.sorted
    · cases e
  | run =>
    simp only [runStep] at e
    split at e
    · rename_i hd hj
      obtain rfl := Option.some.inj e
      exact h.move hn rfl rfl (fun hi => .inr ⟨hi, by simp [hd, Disp.Acking], rfl⟩)
        (fun h' => .inr ⟨h', by simp [hd, Disp.Modding], rfl⟩) (fun h' => absurd hj h') (by simp)
        h.sorted
    · rename_i task tasks hd hj
      obtain rfl := Option.some.inj e
      obtain ⟨o, ho⟩ := beginTask_frame s task
      rw [ho]
      exact h.pass hn rfl rfl rfl rfl (by simp [hd, Disp.Acking]) id
        (fun hm => .inr ⟨hm, by simp [hd, Disp.Modding]⟩) h.sorted
    · cases e
  | ran =>
    simp only [runStep] at e
    split at e
    · rename_i task hd
      obtain rfl := Option.some.inj e
      exact h.pass hn rfl rfl rfl rfl (by simp [hd, Disp.Acking]) id
        (fun hm => .inr ⟨hm, by simp [hd, Disp.Modding]⟩) h.sorted
    · cases e
  | _ => cases e

theorem Awake.step (h : Awake s) (e : step 0 s a = some s') : Awake s' := by
  rcases step_cases e with e | e | e | ⟨hn, e | e | e⟩
  · exact h.client e
  · exact h.note e
  · -- There are no background threads.
    cases a <;> simp [workerStep] at e
    split at e <;> simp at e
  · exact h.wait hn e
  · exact h.mod hn e
  · exact h.run hn e

/-! ## Every run -/

/-- With no background threads, if the dispatcher is at `epoll_wait` and there is work, then there
    is a byte in the pipe or a client is about to write one. -/
theorem run_never_sleeps (hr : Run 0 (fun _ _ => True) s) {first : Option ℕ}
    (hd : s.disp = .epollWait first)
    (hw : s.modList ≠ [] ∨ s.jobList ≠ [] ∨ ∃ t, Earlier s first t) :
    0 < s.pipe ∨ (∃ c : C, s.note (some c) = .write) ∨
      s.intrState = false ∧ ∃ c : C, s.note (some c) = .lock := by
  have h : Awake s := hr.induction awake_init fun _ _ _ h _ e => h.step e
  have hnone : s.note none = .none := by
    by_contra hne
    simpa [hd] using h.dispNote hne
  have hcall : Called s := by
    rcases hw with hw | hw | ⟨t, ht⟩
    · exact (h.mods hw).resolve_right (by simp [hd, Disp.Modding])
    · exact (h.jobs hw).resolve_right (by simp [hd, Disp.Resting])
    · exact h.timers first hd t ht
  -- The dispatcher is not in `ioq_notify`, so the call is that of a client.
  have hsome : ∀ {n c}, n ≠ Note.none → s.note c = n → ∃ c' : C, s.note (some c') = n := by
    intro n c hne hc
    cases c with
    | none => exact absurd (hc.symm.trans hnone) hne
    | some c' => exact ⟨c', hc⟩
  cases hi : s.intrState with
  | true =>
    rcases h.intr hi with hp | ⟨c, hc⟩ | ha
    · exact .inl hp
    · exact .inr (.inl (hsome (by simp) hc))
    · simp [hd, Disp.Acking] at ha
  | false =>
    obtain ⟨c, hc⟩ := hcall.resolve_left (by simp [hi])
    exact .inr (.inr ⟨rfl, hsome (by simp) hc⟩)

/-- A task is submitted while the dispatcher is at `epoll_wait`. -/
theorem run_never_sleeps_taskExec : ∃ s : State Unit ℕ Unit Unit,
    s.disp = .epollWait none ∧ s.jobList ≠ [] ∧
      (0 < s.pipe ∨ (∃ c : Unit, s.note (some c) = .write) ∨
        s.intrState = false ∧ ∃ c : Unit, s.note (some c) = .lock) := by
  obtain ⟨s, e, hd, hj⟩ : ∃ s : State Unit ℕ Unit Unit,
      trace 0 (fun _ _ => True) .init [.nextDeadline, .taskExec () ()] = some s ∧
        s.disp = .epollWait none ∧ s.jobList ≠ [] :=
    ⟨_, rfl, rfl, List.cons_ne_nil _ _⟩
  exact ⟨s, hd, hj, run_never_sleeps (Run.trace .refl e) hd (.inr (.inl hj))⟩

end Dlb.Ioq
