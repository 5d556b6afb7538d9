import Mathlib.Data.Fintype.Basic
import Dlb.Ioq.Wait

/-!
# One wait, one callback

A wait that was started by `ioq_fd_wait` ends in two passes through `mod_list`. In the first one
`IOQ_FLAG_WAITING` is reset, because an event was delivered, the wait was cancelled, or `epoll_ctl`
has failed; in the second one the task is submitted. `View.Valid` says in which of its phases a wait
may be, and with which flags.

The dispatcher ignores what `EPOLL_CTL_DEL` returns, and `ioq_fd_wait` sets the fields of the `ioq_fd`
before it takes the lock. `Legal` are the steps for which this is harmless.
-/

namespace Dlb.Ioq

variable {F T K C : Type} [DecidableEq F]

/-! ## The phases of a wait -/

namespace View

/-- There is no wait. -/
structure Idle (v : View) : Prop where
  flags : v.flags = ⟨false, false, false⟩
  registered : v.registered = false
  listed : v.listed = 0
  hand : v.hand = .none
  starting : ¬v.starting
  outstanding : v.outstanding = false
  submitted : v.submitted ≤ 1
  queued : v.queued = 0

/-- A client is in `ioq_fd_wait`, before the lock. -/
structure Starting (v : View) : Prop where
  flags : v.flags = ⟨false, false, true⟩
  registered : v.registered = false
  listed : v.listed = 0
  hand : v.hand = .none
  starting : v.starting
  outstanding : v.outstanding = false
  submitted : v.submitted = 0
  queued : v.queued = 0

/-- What the flag `IOQ_FLAG_EPOLL` and epoll know of an `ioq_fd` which waits. -/
def Known (v : View) : Prop :=
  match v.hand with
  | .none =>
    v.registered = v.flags.epoll ∧ (v.flags.epoll = true ∨ v.flags.modList = true)
  | .event => v.registered = true ∧ v.flags.epoll = true
  | .eventLock => v.registered = false
  | .held flags _ =>
    flags.waiting = true ∧ flags.epoll = v.flags.epoll ∧ v.registered = v.flags.epoll
  | .cancelled => v.registered = false
  | .failed => v.registered = v.flags.epoll
  | .added => v.registered = true

/-- The `ioq_fd` waits. -/
structure Active (v : View) : Prop where
  waiting : v.flags.waiting = true
  listed : v.listed = v.flags.modList.toNat
  known : v.Known
  starting : ¬v.starting
  outstanding : v.outstanding = true
  submitted : v.submitted = 0
  queued : v.queued = 0

/-- The wait is ended, and its task is not yet submitted. -/
structure Ending (v : View) : Prop where
  waiting : v.flags.waiting = false
  epoll : v.flags.epoll = false
  registered : v.registered = false
  listed : v.listed = v.flags.modList.toNat
  hand : v.flags.modList = true ∧ v.hand = .none ∨
    v.flags.modList = false ∧ ∃ flags requested, v.hand = .held flags requested ∧
      flags.waiting = false
  starting : ¬v.starting
  outstanding : v.outstanding = true
  submitted : v.submitted = 0
  queued : v.queued = 0

/-- The task is in the run queue. -/
structure Submitted (v : View) : Prop where
  flags : v.flags = ⟨false, false, false⟩
  registered : v.registered = false
  listed : v.listed = 0
  hand : v.hand = .none
  starting : ¬v.starting
  outstanding : v.outstanding = true
  submitted : v.submitted = 1
  queued : v.queued = 1

/-- The phases of a wait. -/
inductive Valid (v : View) : Prop
  | idle (h : v.Idle)
  | starting (h : v.Starting)
  | active (h : v.Active)
  | ending (h : v.Ending)
  | submitted (h : v.Submitted)

variable {v : View}

theorem Valid.submitted_le (h : v.Valid) : v.submitted ≤ 1 := by
  rcases h with h | h | h | h | h
  · exact h.submitted
  · exact h.submitted.trans_le (Nat.zero_le 1)
  · exact h.submitted.trans_le (Nat.zero_le 1)
  · exact h.submitted.trans_le (Nat.zero_le 1)
  · exact h.submitted.le

theorem Valid.listed_eq (h : v.Valid) : v.listed = v.flags.modList.toNat := by
  rcases h with h | h | h | h | h
  · rw [h.listed, h.flags, Bool.toNat_false]
  · rw [h.listed, h.flags, Bool.toNat_false]
  · exact h.listed
  · exact h.listed
  · rw [h.listed, h.flags, Bool.toNat_false]

/-- While a wait is outstanding and its task not submitted, it is found in one of three places. -/
theorem Valid.of_outstanding (h : v.Valid) (ho : v.outstanding = true) (hs : v.submitted = 0) :
    v.flags.modList = true ∨ (v.hand ≠ .none ∧ v.hand ≠ .event) ∨
      v.registered = true ∧ v.flags.epoll = true := by
  rcases h with h | h | h | h | h
  · simp [h.outstanding] at ho
  · simp [h.outstanding] at ho
  · have hk := h.known
    simp only [Known] at hk
    split at hk
    · obtain ⟨hr, he | hm⟩ := hk
      · exact .inr (.inr ⟨hr.trans he, he⟩)
      · exact .inl hm
    · exact .inr (.inr hk)
    all_goals
      rename_i hh
      exact .inr (.inl (by simp [hh]))
  · rcases h.hand with ⟨hm, -⟩ | ⟨-, _, _, hh, -⟩
    · exact .inl hm
    · exact .inr (.inl (by simp [hh]))
  · simp [h.submitted] at hs

theorem Valid.of_starting (h : v.Valid) (hs : v.starting) : v.Starting := by
  rcases h with h | h | h | h | h
  · exact absurd hs h.starting
  · exact h
  · exact absurd hs h.starting
  · exact absurd hs h.starting
  · exact absurd hs h.starting

/-- An `ioq_fd` with `IOQ_FLAG_WAITING`, once `ioq_fd_wait` has taken the lock. -/
theorem Valid.of_waiting (h : v.Valid) (hw : v.flags.waiting = true) (hs : ¬v.starting) :
    v.Active := by
  rcases h with h | h | h | h | h
  · simp [h.flags] at hw
  · exact absurd h.starting hs
  · exact h
  · simp [h.waiting] at hw
  · simp [h.flags] at hw

/-- An `ioq_fd` that the dispatcher has in its hands waits, or is to be submitted. -/
theorem Valid.of_hand (h : v.Valid) (hh : v.hand ≠ .none) :
    v.Active ∨ v.Ending ∧ v.flags.modList = false ∧
      ∃ flags requested, v.hand = .held flags requested ∧ flags.waiting = false := by
  rcases h with h | h | h | h | h
  · exact absurd h.hand hh
  · exact absurd h.hand hh
  · exact .inl h
  · exact .inr ⟨h, h.hand.resolve_left fun h' => hh h'.2⟩
  · exact absurd h.hand hh

/-- An `ioq_fd` that is ended is not in the dispatcher's hands, unless it was dequeued. -/
theorem Valid.of_hand_eq {hand : Hand} (h : v.Valid) (hh : v.hand = hand)
    (hn : hand ≠ .none ∧ ∀ flags requested, flags.waiting = false → hand ≠ .held flags requested) :
    v.Active := by
  rcases h.of_hand (hh.trans_ne hn.1) with h | ⟨-, -, _, _, hh', hw⟩
  · exact h
  · exact absurd (hh.symm.trans hh') (hn.2 _ _ hw)

theorem Valid.of_registered (h : v.Valid) (hr : v.registered = true) (hh : v.hand = .none) :
    Active { v with hand := .event } := by
  rcases h with h | h | h | h | h
  · simp [h.registered] at hr
  · simp [h.registered] at hr
  · have hk := h.known
    simp only [Known, hh] at hk
    exact ⟨h.waiting, h.listed, ⟨hr, hk.1 ▸ hr⟩, h.starting, h.outstanding, h.submitted, h.queued⟩
  · simp [h.registered] at hr
  · simp [h.registered] at hr

theorem Active.enqueue (h : v.Active) : v.enqueue.Active := by
  refine ⟨h.waiting, ?_, ?_, h.starting, h.outstanding, h.submitted, h.queued⟩
  · simp only [View.enqueue, h.listed]
    cases v.flags.modList <;> rfl
  · have hk := h.known
    simp only [Known, View.enqueue] at hk ⊢
    split at hk
    · exact ⟨hk.1, .inr trivial⟩
    all_goals exact hk

theorem Active.endWait (h : v.Active) (hr : v.registered = false) :
    Ending { v.endWait with hand := .none } := by
  refine ⟨rfl, rfl, hr, ?_, .inl ⟨rfl, rfl⟩, h.starting, h.outstanding, h.submitted, h.queued⟩
  simp only [View.endWait, View.enqueue, h.listed]
  cases v.flags.modList <;> rfl

theorem Starting.enqueue (h : v.Starting) :
    Active { v.enqueue with starting := False, outstanding := true } := by
  refine ⟨?_, ?_, ?_, id, rfl, h.submitted, h.queued⟩
  · simp [View.enqueue, h.flags]
  · simp [View.enqueue, h.flags, h.listed]
  · simp [Known, View.enqueue, h.hand, h.flags, h.registered]

/-- `mod_dequeue`. -/
theorem Valid.dequeue (h : v.Valid) (hl : 0 < v.listed) (hh : v.hand = .none) (requested : UInt32) :
    Valid { v with
      flags := { v.flags with modList := false }
      listed := v.listed - 1
      hand := .held { v.flags with modList := false } requested } := by
  have hm : v.flags.modList = true := by
    rw [h.listed_eq] at hl
    cases hm : v.flags.modList with
    | true => rfl
    | false => simp [hm] at hl
  rcases h with h | h | h | h | h
  · simp [h.listed] at hl
  · simp [h.listed] at hl
  · have hk := h.known
    simp only [Known, hh] at hk
    exact .active ⟨h.waiting, by simp [h.listed, hm], ⟨h.waiting, rfl, hk.1⟩, h.starting,
      h.outstanding, h.submitted, h.queued⟩
  · exact .ending ⟨h.waiting, h.epoll, h.registered, by simp [h.listed, hm],
      .inr ⟨rfl, _, _, rfl, h.waiting⟩, h.starting, h.outstanding, h.submitted, h.queued⟩
  · simp [h.listed] at hl

/-- The task is submitted. -/
theorem Ending.submit (h : v.Ending) (hm : v.flags.modList = false) :
    Submitted { v with
      hand := .none, submitted := v.submitted + 1, queued := v.queued + 1 } := by
  refine ⟨?_, h.registered, ?_, rfl, h.starting, h.outstanding, ?_, ?_⟩
  · calc
      v.flags = ⟨v.flags.modList, v.flags.epoll, v.flags.waiting⟩ := rfl
      _ = ⟨false, false, false⟩ := by rw [hm, h.epoll, h.waiting]
  · simp [h.listed, hm]
  · simp [h.submitted]
  · simp [h.queued]

/-- The callback begins. -/
theorem Valid.begin (h : v.Valid) (hq : 0 < v.queued) :
    Idle { v with outstanding := false, queued := v.queued - 1 } := by
  rcases h with h | h | h | h | h
  · simp [h.queued] at hq
  · simp [h.queued] at hq
  · simp [h.queued] at hq
  · simp [h.queued] at hq
  · exact ⟨h.flags, h.registered, h.listed, h.hand, h.starting, rfl, h.submitted.le,
      by simp [h.queued]⟩

/-- What the dispatcher does with an `ioq_fd` that waits. -/
theorem Active.move {v : View} (h : v.Active) {registered : Bool} {hand : Hand}
    (hk : Known { v with registered := registered, hand := hand }) :
    Active { v with registered := registered, hand := hand } :=
  ⟨h.waiting, h.listed, hk, h.starting, h.outstanding, h.submitted, h.queued⟩

/-- The dispatcher has dequeued an `ioq_fd` that waits. -/
theorem Valid.of_held {v : View} {flags : Flags} {requested : UInt32} (h : v.Valid)
    (hh : v.hand = .held flags requested) (hw : flags.waiting = true) :
    v.Active ∧ flags.epoll = v.flags.epoll ∧ v.registered = v.flags.epoll := by
  have ha : v.Active := by
    refine h.of_hand_eq hh ⟨by simp, ?_⟩
    rintro flags' requested' hw' heq
    obtain ⟨rfl, -⟩ := Hand.held.inj heq
    simp [hw'] at hw
  have hk := ha.known
  simp only [Known, hh] at hk
  exact ⟨ha, hk.2⟩

/-- The dispatcher has dequeued an `ioq_fd` the wait of which is ended. -/
theorem Valid.of_held_ended {v : View} {flags : Flags} {requested : UInt32} (h : v.Valid)
    (hh : v.hand = .held flags requested) (hw : flags.waiting = false) :
    v.Ending ∧ v.flags.modList = false := by
  rcases h.of_hand (by simp [hh]) with ha | ⟨hend, hm, -⟩
  · have hk := ha.known
    simp only [Known, hh] at hk
    simp [hk.1] at hw
  · exact ⟨hend, hm⟩

theorem Valid.idle_of_free (h : v.Valid) (hs : ¬v.starting) (ho : v.outstanding = false) :
    v.Idle := by
  rcases h with h | h | h | h | h
  · exact h
  · exact absurd h.starting hs
  · simp [h.outstanding] at ho
  · simp [h.outstanding] at ho
  · simp [h.outstanding] at ho

/-- Nothing is left of the last wait but its flags. -/
structure Rest (v : View) : Prop where
  registered : v.registered = false
  listed : v.listed = 0
  hand : v.hand = .none
  outstanding : v.outstanding = false
  queued : v.queued = 0

theorem Idle.rest (h : v.Idle) : v.Rest :=
  ⟨h.registered, h.listed, h.hand, h.outstanding, h.queued⟩

/-- `ioq_fd_wait` is called. -/
theorem Rest.start (h : v.Rest) :
    Starting { v with flags := ⟨false, false, true⟩, starting := True, submitted := 0 } :=
  ⟨rfl, h.registered, h.listed, h.hand, trivial, h.outstanding, rfl, h.queued⟩

end View

/-! ## The invariant -/

/-- A step of the machine leads from one phase to the next one, or to the same, unless the wait is
    with the empty set. -/
theorem Wait.Step.valid {l : Label} {w w' : Wait} (hstep : Wait.Step l w w') (h : w.Valid)
    (hx : ¬w.executing) (hl : l ≠ .wait 0) : w'.Valid ∧ ¬w'.executing := by
  cases hstep with
  | same => exact ⟨h, hx⟩
  | start hset hfree =>
    have hi := h.idle_of_free hfree.starting hfree.outstanding
    exact ⟨.starting hi.rest.start, hx⟩
  | immediate => exact absurd rfl hl
  | lock hs => exact ⟨.active (h.of_starting hs).enqueue, hx⟩
  | exec hx' => exact absurd hx' hx
  | rewait hs hw => exact ⟨.active (h.of_waiting hw hs).enqueue, hx⟩
  | ignored => exact ⟨h, hx⟩
  | deliver hr hh => exact ⟨.active (h.of_registered hr hh), hx⟩
  | delete hh =>
    have ha := h.of_hand_eq hh (by simp)
    exact ⟨.active (ha.move (by simp [View.Known])), hx⟩
  | ready hh =>
    have ha := h.of_hand_eq hh (by simp)
    have hr : w.registered = false := by simpa [View.Known, hh] using ha.known
    exact ⟨.ending (ha.endWait hr), hx⟩
  | dequeue requested hl hh => exact ⟨h.dequeue hl hh requested, hx⟩
  | submit hh hw =>
    obtain ⟨hend, hm⟩ := h.of_held_ended hh hw
    exact ⟨.submitted (hend.submit hm), hx⟩
  | cancel hh hw =>
    obtain ⟨ha, he, hr⟩ := h.of_held hh hw
    exact ⟨.active (ha.move (by simp [View.Known, he, hr])), hx⟩
  | add hh hw =>
    obtain ⟨ha, -⟩ := h.of_held hh hw
    exact ⟨.active (ha.move (by simp [View.Known])), hx⟩
  | fail hh hw =>
    obtain ⟨ha, -, hr⟩ := h.of_held hh hw
    exact ⟨.active (ha.move (by simpa [View.Known] using hr)), hx⟩
  | cancelled hh =>
    have ha := h.of_hand_eq hh (by simp)
    have hr : w.registered = false := by simpa [View.Known, hh] using ha.known
    exact ⟨.ending (ha.endWait hr), hx⟩
  | failed hh =>
    have ha := h.of_hand_eq hh (by simp)
    have hr : w.registered = w.flags.epoll := by simpa [View.Known, hh] using ha.known
    exact ⟨.active (ha.enqueue.move ⟨hr, .inr rfl⟩), hx⟩
  | added hh =>
    have ha := h.of_hand_eq hh (by simp)
    have hr : w.registered = true := by simpa [View.Known, hh] using ha.known
    refine ⟨.active ⟨ha.waiting, ha.listed, ?_, ha.starting, ha.outstanding, ha.submitted,
      ha.queued⟩, hx⟩
    simp [View.Known, hr]
  | begin hq => exact ⟨.idle (h.begin hq), hx⟩

/-- The steps that the header of the IO queue allows, with a set of events that is not empty, and
    for which `EPOLL_CTL_DEL` of a descriptor which is registered does not fail. -/
def Legal (s : State F T K C) : Act F T K C → Prop
  | .fdWait _ f set => set ≠ 0 ∧ s.outstanding f = false ∧ ∀ c, s.client c ≠ .fdWait f
  | .fdRewait _ f _ => ∀ c, s.client c ≠ .fdWait f
  | .eventDel ok => ok = true
  | .handle result => ∀ f flags, s.disp = .held f flags 0 → flags.waiting = true →
      flags.epoll = true → result = 0
  | _ => True

structure Valid (s : State F T K C) : Prop where
  view : ∀ f, (s.view f).Valid
  unique : ∀ c c' f, s.client c = .fdWait f → s.client c' = .fdWait f → c = c'
  noExec : ∀ c f, s.client c ≠ .fdExec f
  evts : s.disp.evts.Nodup

theorem valid_init : Valid (.init : State F T K C) := by
  refine ⟨fun f => .idle ⟨rfl, rfl, rfl, rfl, ?_, rfl, Nat.zero_le 1, rfl⟩, ?_, ?_, ?_⟩
  · simp [State.view, State.init]
  · simp [State.init]
  · simp [State.init]
  · simp [State.init, Disp.evts]

section Step

variable {s s' : State F T K C} {a : Act F T K C}

/-- Only `ioq_fd_wait` with the empty set is at `runq_task_exec`. -/
theorem Valid.waits_iff (h : Valid s) {c : C} {f : F} :
    (s.client c).Waits f ↔ s.client c = .fdWait f := by
  rw [Client.waits_iff, or_iff_left (h.noExec c f)]

theorem Valid.sane (h : Valid s) : Sane s := by
  refine ⟨fun c c' f hc hc' => ?_, h.evts⟩
  exact h.unique c c' f (h.waits_iff.1 hc) (h.waits_iff.1 hc')

theorem Valid.allowed (h : Valid s) (hl : Legal s a) : Allowed s a := by
  cases a with
  | fdWait c f set => exact ⟨hl.2.1, fun c' hc' => hl.2.2 c' (h.waits_iff.1 hc')⟩
  | fdRewait c f set => exact fun c' hc' => hl c' (h.waits_iff.1 hc')
  | eventDel ok => exact hl
  | handle result =>
    simp only [Allowed]
    cases hd : s.disp with
    | held f flags requested =>
      rintro ⟨hw, rfl, he⟩
      exact hl f flags hd hw he
    | _ => trivial
  | _ => trivial

theorem Valid.step [LinearOrder T] [DecidableEq C] {bgThreads : ℕ} (h : Valid s) (hl : Legal s a)
    (e : step bgThreads s a = some s') : Valid s' := by
  have hal := h.allowed hl
  have hs' : Sane s' := h.sane.step hal e
  have hview : ∀ f, (s'.view f).Valid ∧ ¬∃ c, s'.client c = .fdExec f := by
    intro f
    refine (wait_step h.sane hal e f).valid (h.view f) ?_ ?_
    · rintro ⟨c, hc⟩
      exact h.noExec c f hc
    · cases a with
      | fdWait c g set =>
        simp only [Act.label]
        split_ifs
        · simpa using hl.1
        · simp
      | fdRewait c g set =>
        simp only [Act.label]
        split_ifs <;> simp
      | _ => simp [Act.label]
  refine ⟨fun f => (hview f).1, fun c c' f hc hc' => ?_, fun c f hc => (hview f).2 ⟨c, hc⟩, hs'.evts⟩
  exact hs'.alone c c' f (hc ▸ rfl) (hc' ▸ rfl)

end Step

/-! ## Every run -/

/-- The dispatcher holds `f`. -/
def Disp.Holds (f : F) : Disp F T K → Prop
  | .eventLock g _ | .held g _ _ | .cancelled g | .failed g | .added g => f = g
  | _ => False

theorem holds_of_hand {f : F} {d : Disp F T K} (h : d.hand f ≠ .none) (he : d.hand f ≠ .event) :
    d.Holds f := by
  cases d <;> simp only [Disp.hand, Disp.Holds] at * <;> grind

/-- In a run of legal steps a wait is submitted at most once, no `ioq_fd` is twice in `mod_list`, and
    no wait is lost. -/
theorem run_one_callback [LinearOrder T] [DecidableEq C] {bgThreads : ℕ} {s : State F T K C}
    (hr : Run bgThreads Legal s) :
    s.modList.Nodup ∧ ∀ f, s.submitted f ≤ 1 ∧
      (s.outstanding f = true → s.submitted f = 0 →
        f ∈ s.modList ∨ s.disp.Holds f ∨ s.registered f = true ∧ (s.fds f).flags.epoll = true) := by
  have h : Valid s := hr.induction valid_init fun _ _ _ h hl e => h.step hl e
  refine ⟨List.nodup_iff_count_le_one.2 fun f => ?_, fun f => ⟨(h.view f).submitted_le, ?_⟩⟩
  · exact (h.view f).listed_eq.trans_le (Bool.toNat_le _)
  · intro ho hs
    rcases (h.view f).of_outstanding ho hs with hm | ⟨hh, he⟩ | hr
    · have hcount : (s.view f).listed = 1 := by rw [(h.view f).listed_eq, hm, Bool.toNat_true]
      exact .inl (List.count_pos_iff.1 (Nat.lt_of_lt_of_eq Nat.one_pos hcount.symm))
    · exact .inr (.inl (holds_of_hand hh he))
    · exact .inr (.inr hr)

/-- A wait is started, and is in `mod_list`. -/
theorem run_one_callback_fdWait : ∃ s : State Unit ℕ Unit Unit,
    s.outstanding () = true ∧ s.submitted () = 0 ∧ s.modList.Nodup ∧
      (() ∈ s.modList ∨ s.disp.Holds () ∨
        s.registered () = true ∧ (s.fds ()).flags.epoll = true) := by
  obtain ⟨s, hr, ho, hs⟩ : ∃ s : State Unit ℕ Unit Unit, Run 0 Legal s ∧
      s.outstanding () = true ∧ s.submitted () = 0 := by
    refine ⟨_, .tail (.tail .refl ⟨.fdWait () () 1, ?_, rfl⟩) ⟨.fdWaitLock (), trivial, rfl⟩, rfl, rfl⟩
    exact ⟨by decide, rfl, fun _ => by simp [State.init]⟩
  obtain ⟨hnd, h⟩ := run_one_callback hr
  exact ⟨s, ho, hs, hnd, (h ()).2 ho hs⟩

/-- At most one wait of an `ioq_fd` is outstanding, with a set of events that is not empty. -/
def OneWait (s : State F T K C) : Act F T K C → Prop
  | .fdWait _ f set => set ≠ 0 ∧ s.outstanding f = false ∧ ∀ c, s.client c ≠ .fdWait f
  | _ => True

instance [Fintype C] (s : State F T K C) (a : Act F T K C) : Decidable (OneWait s a) := by
  cases a with
  | fdWait c f set =>
    exact inferInstanceAs
      (Decidable (set ≠ 0 ∧ s.outstanding f = false ∧ ∀ c, s.client c ≠ .fdWait f))
  | _ => exact .isTrue trivial

/-- A task is submitted twice if `EPOLL_CTL_DEL` fails, as there may be another event, and if
    `ioq_fd_cancel` is called while `ioq_fd_wait` has not taken the lock. -/
theorem submitted_twice :
    (∃ s : State Unit ℕ Unit Unit, Run 1 OneWait s ∧ s.submitted () = 2) ∧
      ∃ s : State Unit ℕ Unit Bool, Run 1 OneWait s ∧ s.submitted () = 2 := by
  constructor
  · obtain ⟨s, e, hs⟩ := Option.map_eq_some_iff.1 (show (trace 1 OneWait
        (.init : State Unit ℕ Unit Unit)
        [.fdWait () () 1, .fdWaitLock (), .nextDeadline, .epollInterrupted, .dequeue 0, .handle 0,
          .handleLock, .dequeue 0, .expire, .run, .nextDeadline, .epollReturn [((), 1)], .read,
          .ackLock, .eventDel false, .eventLock, .eventDone, .dequeue 0, .handle 0, .dequeue 0,
          .expire, .workerRun, .run, .nextDeadline, .epollReturn [((), 1)], .read, .ackLock,
          .eventDel false, .eventLock, .eventDone, .dequeue 0, .handle 0]).map (·.submitted ()) =
        some 2 by decide +kernel)
    exact ⟨s, Run.trace .refl e, hs⟩
  · obtain ⟨s, e, hs⟩ := Option.map_eq_some_iff.1 (show (trace 1 OneWait
        (.init : State Unit ℕ Unit Bool)
        [.fdWait false () 1, .fdRewait true () 0, .nextDeadline, .epollInterrupted, .dequeue 0,
          .handle 0, .handleLock, .dequeue 0, .handle 0, .fdWaitLock false, .dequeue 0,
          .handle 0]).map (·.submitted ()) = some 2 by decide +kernel)
    exact ⟨s, Run.trace .refl e, hs⟩

end Dlb.Ioq
