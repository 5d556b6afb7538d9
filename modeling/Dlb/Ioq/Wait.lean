import Mathlib.Data.List.Nodup
import Dlb.Ioq.Wakeup

/-!
# The wait of one `ioq_fd`

A step of a thread is for one `ioq_fd` a step of a small machine, or it does not concern it. `Wait`
is the state of this machine, what the threads know of the `ioq_fd`, and `Wait.Step` are its
steps. They are those of the code for `Allowed` calls and an `EPOLL_CTL_DEL` that does not
fail: `wait_step`.
-/

namespace Dlb.Ioq

variable {F T K C : Type} [DecidableEq F]

/-! ## The view of one `ioq_fd` -/

/-- What the dispatcher does with an `ioq_fd`. -/
inductive Hand
  | none
  /-- It is one of the events that `epoll_wait` has returned. -/
  | event
  | eventLock
  | held (flags : Flags) (requested : UInt32)
  | cancelled
  | failed
  | added

/-- What the dispatcher, in `d`, does with `f`. -/
def Disp.hand (f : F) : Disp F T K → Hand
  | .drain evts | .ack evts | .event evts => if f ∈ evts.map Prod.fst then .event else .none
  | .eventLock g evts =>
    if f = g then .eventLock else if f ∈ evts.map Prod.fst then .event else .none
  | .held g flags requested => if f = g then .held flags requested else .none
  | .cancelled g => if f = g then .cancelled else .none
  | .failed g => if f = g then .failed else .none
  | .added g => if f = g then .added else .none
  | _ => .none

/-- The events that the dispatcher has still to handle. -/
def Disp.evts : Disp F T K → List F
  | .drain evts | .ack evts | .event evts => evts.map Prod.fst
  | .eventLock g evts => g :: evts.map Prod.fst
  | _ => []

/-- The task is that of `f`. -/
def Task.isFd (f : F) : Task F T K → Bool
  | .fd g => f = g
  | _ => false

structure View where
  flags : Flags
  registered : Bool
  /-- How often the `ioq_fd` is in `mod_list`. -/
  listed : ℕ
  hand : Hand
  /-- A client is in `ioq_fd_wait`, before the lock. -/
  starting : Prop
  outstanding : Bool
  submitted : ℕ
  /-- How often the task is in the run queue. -/
  queued : ℕ

/-- The view of `f`. -/
def State.view (s : State F T K C) (f : F) : View where
  flags := (s.fds f).flags
  registered := s.registered f
  listed := s.modList.count f
  hand := s.disp.hand f
  starting := ∃ c, s.client c = .fdWait f
  outstanding := s.outstanding f
  submitted := s.submitted f
  queued := s.jobList.countP (Task.isFd f)

namespace View

/-- What `mod_enqueue_nolock` does. -/
def enqueue (v : View) : View :=
  { v with
    flags := { v.flags with modList := true }
    listed := if v.flags.modList then v.listed else v.listed + 1 }

/-- What `endWait` does. -/
def endWait (v : View) : View :=
  enqueue { v with flags := { v.flags with epoll := false, waiting := false } }

theorem enqueue_of_modList {v : View} (hm : v.flags.modList = true) : v.enqueue = v := by
  obtain ⟨⟨m, e, w⟩, r, l, h, st, o, n, q⟩ := v
  obtain rfl : m = true := hm
  rfl

end View

/-! ## The machine -/

/-- The client is in `ioq_fd_wait` for `f`. -/
def Client.Waits (f : F) : Client F → Prop
  | .idle => False
  | .fdWait g | .fdExec g => f = g

omit [DecidableEq F] in
theorem Client.waits_iff {f : F} {cl : Client F} :
    cl.Waits f ↔ cl = .fdWait f ∨ cl = .fdExec f := by
  cases cl <;> simp [Waits, eq_comm]

instance (f : F) (cl : Client F) : Decidable (cl.Waits f) := by
  cases cl with
  | idle => exact .isFalse id
  | fdWait g | fdExec g => exact inferInstanceAs (Decidable (f = g))

/-- What a step is for one `ioq_fd`: a call of `ioq_fd_wait` or of `ioq_fd_rewait`, or any other. -/
inductive Label
  | wait (set : UInt32)
  | rewait
  | other
  deriving DecidableEq

/-- What the step `a` is for `f`. -/
def Act.label (f : F) : Act F T K C → Label
  | .fdWait _ g set => if f = g then .wait set else .other
  | .fdRewait _ g _ => if f = g then .rewait else .other
  | _ => .other

structure Wait extends View where
  /-- A client is in `ioq_fd_wait` with the empty set, before `runq_task_exec`. -/
  executing : Prop

/-- The wait of `f`. -/
def State.wait (s : State F T K C) (f : F) : Wait where
  toView := s.view f
  executing := ∃ c, s.client c = .fdExec f

namespace Wait

/-- No wait is in progress. -/
structure Free (w : Wait) : Prop where
  starting : ¬w.starting
  executing : ¬w.executing
  outstanding : w.outstanding = false

inductive Step : Label → Wait → Wait → Prop
  | same {w} : Step .other w w
  /-- `ioq_fd_wait` up to the lock. -/
  | start {w set} : set ≠ 0 → w.Free →
      Step (.wait set) w
        { w with flags := ⟨false, false, true⟩, starting := True, submitted := 0 }
  /-- `ioq_fd_wait` with the empty set, up to `runq_task_exec`. -/
  | immediate {w} : w.Free →
      Step (.wait 0) w
        { w with flags := ⟨false, false, true⟩, submitted := 0, executing := True }
  | lock {w} : w.starting →
      Step .other w
        { w with toView := { w.enqueue with starting := False, outstanding := true } }
  | exec {w} : w.executing →
      Step .other w
        { w with
          outstanding := true
          submitted := w.submitted + 1
          queued := w.queued + 1
          executing := False }
  | rewait {w} : ¬w.starting → w.flags.waiting = true →
      Step .rewait w { w with toView := w.enqueue }
  | ignored {w} : w.flags.waiting = false → Step .rewait w w
  /-- The `ioq_fd` is one of the events that `epoll_wait` returns. -/
  | deliver {w} : w.registered = true → w.hand = .none → Step .other w { w with hand := .event }
  | delete {w} : w.hand = .event →
      Step .other w { w with registered := false, hand := .eventLock }
  | ready {w} : w.hand = .eventLock →
      Step .other w { w with toView := { w.endWait with hand := .none } }
  | dequeue {w} (requested) : 0 < w.listed → w.hand = .none →
      Step .other w
        { w with
          flags := { w.flags with modList := false }
          listed := w.listed - 1
          hand := .held { w.flags with modList := false } requested }
  | submit {w flags requested} : w.hand = .held flags requested → flags.waiting = false →
      Step .other w
        { w with hand := .none, submitted := w.submitted + 1, queued := w.queued + 1 }
  | cancel {w flags} : w.hand = .held flags 0 → flags.waiting = true →
      Step .other w { w with registered := w.registered && !flags.epoll, hand := .cancelled }
  | add {w flags requested} : w.hand = .held flags requested → flags.waiting = true →
      Step .other w { w with registered := true, hand := .added }
  | fail {w flags requested} : w.hand = .held flags requested → flags.waiting = true →
      Step .other w { w with hand := .failed }
  | cancelled {w} : w.hand = .cancelled →
      Step .other w { w with toView := { w.endWait with hand := .none } }
  | failed {w} : w.hand = .failed →
      Step .other w { w with toView := { w.enqueue with hand := .none } }
  | added {w} : w.hand = .added →
      Step .other w { w with flags := { w.flags with epoll := true }, hand := .none }
  /-- The callback begins. -/
  | begin {w} : 0 < w.queued →
      Step .other w { w with outstanding := false, queued := w.queued - 1 }

end Wait

/-! ## The views after a step -/

section View

variable {s s₁ : State F T K C} {f : F}

theorem view_setFd {u : Fd → Fd} (hu : ∀ x, (u x).flags = x.flags) : (s.setFd f u).view = s.view := by
  funext g
  rcases eq_or_ne g f with rfl | hne
  · simp [State.view, State.setFd, hu]
  · simp [State.view, State.setFd, hne]

theorem view_setFd_eq_update {u : Fd → Fd} (hu : ∀ x, (u x).flags = x.flags) :
    (s.setFd f u).view = Function.update s.view f (s.view f) := by
  rw [Function.update_eq_self, view_setFd hu]

theorem view_setFlags {u : Flags → Flags} :
    (s.setFd f (.setFlags u)).view =
      Function.update s.view f { s.view f with flags := u (s.view f).flags } := by
  funext g
  rcases eq_or_ne g f with rfl | hne
  · simp [State.view, State.setFd, Fd.setFlags]
  · simp [State.view, State.setFd, hne]

theorem view_modEnqueue :
    (modEnqueue s f).2.view = Function.update s.view f (s.view f).enqueue := by
  rw [modEnqueue]
  funext g
  rcases eq_or_ne g f with rfl | hne
  · split_ifs with hm
    · rw [Function.update_self]
      exact (View.enqueue_of_modList hm).symm
    · simp [State.view, View.enqueue, State.setFd, Fd.setFlags, hm]
  · split_ifs
    · rw [Function.update_of_ne hne]
    · simp [State.view, State.setFd, hne, hne.symm]

theorem view_endWait :
    (endWait s f).view = Function.update s.view f (s.view f).endWait := by
  rw [endWait, view_modEnqueue, view_setFlags, Function.update_idem, Function.update_self]
  rfl

theorem view_registered {b : Bool} :
    { s with registered := Function.update s.registered f b }.view =
      Function.update s.view f { s.view f with registered := b } := by
  funext g
  rcases eq_or_ne g f with rfl | hne
  · simp [State.view]
  · simp [State.view, hne]

theorem view_ctl {u : Fd → Fd} (hu : ∀ x, (u x).flags = x.flags) {b : Bool} :
    { s.setFd f u with registered := Function.update s.registered f b }.view =
      Function.update s.view f { s.view f with registered := b } := by
  rw [← view_setFd (s := s) (f := f) hu]
  exact view_registered

/-- The dispatcher goes to `d`, and what it has in its hands is the same but for `f`. -/
theorem view_disp {d : Disp F T K} {v : View} (hv : s₁.view = Function.update s.view f v)
    (hd : ∀ g ≠ f, d.hand g = s.disp.hand g) :
    { s₁ with disp := d }.view = Function.update s.view f { v with hand := d.hand f } := by
  funext g
  change { s₁.view g with hand := d.hand g } = _
  rcases eq_or_ne g f with rfl | hne
  · rw [hv, Function.update_self, Function.update_self]
  · rw [hv, Function.update_of_ne hne, Function.update_of_ne hne, hd g hne]
    rfl

theorem view_client {cl : C → Client F} {o : F → Bool} {g : F} :
    { s with client := cl, outstanding := o }.view g =
      { s.view g with starting := ∃ c, cl c = .fdWait g, outstanding := o g } := rfl

theorem view_jobList {task : Task F T K} {g : F} :
    { s with jobList := s.jobList ++ [task] }.view g =
      { s.view g with queued := (s.view g).queued + if task.isFd g then 1 else 0 } := by
  simp [State.view, List.countP_append, List.countP_cons]

end View

/-! ## The steps of the threads -/

/-- If `dispatch_mods` calls `EPOLL_CTL_DEL`, it succeeds. -/
def Disp.Deletes (result : ℤ) : Disp F T K → Prop
  | .held _ flags requested =>
    flags.waiting = true ∧ requested = 0 ∧ flags.epoll = true → result = 0
  | _ => True

/-- The steps that the header of the IO queue allows, and for which `EPOLL_CTL_DEL` of a descriptor
    which is registered does not fail. -/
def Allowed (s : State F T K C) : Act F T K C → Prop
  | .fdWait _ f _ => s.outstanding f = false ∧ ∀ c, ¬(s.client c).Waits f
  | .fdRewait _ f _ => ∀ c, ¬(s.client c).Waits f
  | .eventDel ok => ok = true
  | .handle result => s.disp.Deletes result
  | _ => True

structure Sane (s : State F T K C) : Prop where
  /-- At most one client is in `ioq_fd_wait` for an `ioq_fd`. -/
  alone : ∀ c c' f, (s.client c).Waits f → (s.client c').Waits f → c = c'
  evts : s.disp.evts.Nodup

omit [DecidableEq F] in
theorem sane_init : Sane (.init : State F T K C) :=
  ⟨fun _ _ _ h => h.elim, .nil⟩

section Step

variable [LinearOrder T] [DecidableEq C] {bgThreads : ℕ} {s s' : State F T K C} {a : Act F T K C}

omit [LinearOrder T] [DecidableEq C] in
/-- A step that changes no view. -/
theorem wait_same {f : F} (hv : s'.view = s.view) (hc : s'.client = s.client) :
    Wait.Step .other (s.wait f) (s'.wait f) := by
  have hw : s'.wait f = s.wait f := by simp only [State.wait, hv, hc]
  exact hw ▸ .same

omit [LinearOrder T] [DecidableEq C] in
/-- A step that changes the view of `f` only. -/
theorem wait_set {f g : F} {v : View} (hv : s'.view = Function.update s.view f v)
    (hc : s'.client = s.client)
    (hf : Wait.Step .other (s.wait f) { s.wait f with toView := v }) :
    Wait.Step .other (s.wait g) (s'.wait g) := by
  have hw : s'.wait g = { s.wait g with toView := Function.update s.view f v g } := by
    simp only [State.wait, hv, hc]
  rw [hw]
  rcases eq_or_ne g f with rfl | hne
  · rw [Function.update_self]
    exact hf
  · rw [Function.update_of_ne hne]
    exact .same

omit [LinearOrder T] in
theorem wait_wakeup (c : Option C) (need : Bool) : (wakeup s c need).wait = s.wait := by
  rw [wakeup]
  split_ifs <;> rfl

/-! ### Clients -/

omit [LinearOrder T] [DecidableEq F] in
/-- Whether a client is at `x`, after a step of a client to which `x` does not matter. -/
theorem exists_client_update {c : C} (cl x : Client F) (h : s.client c ≠ x) (hcl : cl ≠ x) :
    (∃ c', Function.update s.client c cl c' = x) ↔ ∃ c', s.client c' = x := by
  refine exists_congr fun c' => ?_
  rcases eq_or_ne c' c with rfl | hne
  · simp [h, hcl]
  · rw [Function.update_of_ne hne]

omit [LinearOrder T] [DecidableEq F] in
/-- A client has left `ioq_fd_wait` for `f`, and no other is in it. -/
theorem Sane.not_exists (h : Sane s) {c : C} {f : F} (hc : (s.client c).Waits f) {x : Client F}
    (hx : x.Waits f) : ¬∃ c', Function.update s.client c .idle c' = x := by
  rintro ⟨c', rfl⟩
  rcases eq_or_ne c' c with rfl | hne
  · rw [Function.update_self] at hx
    exact hx
  · rw [Function.update_of_ne hne] at hx
    exact hne (h.alone c' c f hx hc)

omit [LinearOrder T] in
/-- A client goes on to `cl`, which has nothing to do with `f`. -/
theorem wait_eq {f : F} {c : C} {cl : Client F} (h : ¬(s.client c).Waits f) (hcl : ¬cl.Waits f)
    (hc : s'.client = Function.update s.client c cl)
    (hv : s'.view f = { s.view f with starting := ∃ c', s'.client c' = .fdWait f }) :
    s'.wait f = s.wait f := by
  have hiff : ∀ {x : Client F}, x.Waits f →
      ((∃ c', s'.client c' = x) ↔ ∃ c', s.client c' = x) := by
    intro x hx
    rw [hc]
    refine exists_client_update cl x ?_ ?_
    · rintro rfl
      exact h hx
    · rintro rfl
      exact hcl hx
  have hview : s'.view f = s.view f := by
    rw [hv, hiff (x := .fdWait f) rfl]
    rfl
  simp only [State.wait, hview, hiff (x := .fdExec f) rfl]

omit [LinearOrder T] in
theorem wait_fdWait {c : C} {g : F} {set : UInt32} (hc : s.client c = .idle)
    (hl : Allowed s (.fdWait c g set)) (f : F) :
    Wait.Step (Act.label f (.fdWait c g set : Act F T K C)) (s.wait f)
      ({ fdWait s g set with
        client := Function.update s.client c (if set = 0 then .fdExec g else .fdWait g) }.wait f) := by
  obtain ⟨ho, hcl⟩ := hl
  simp only [Act.label]
  rcases eq_or_ne f g with rfl | hne
  · -- No client is in `ioq_fd_wait` for `f`, and `c` goes there.
    have hfree : (s.wait f).Free := by
      refine ⟨?_, ?_, ho⟩
      · rintro ⟨c', hc'⟩
        exact hcl c' (hc' ▸ rfl)
      · rintro ⟨c', hc'⟩
        exact hcl c' (hc' ▸ rfl)
    rw [if_pos rfl]
    split_ifs with hset
    · subst hset
      convert Wait.Step.immediate hfree using 1
      have hst := exists_client_update (s := s) (c := c) (.fdExec f) (.fdWait f)
        (by simp [hc]) (by simp)
      simp only [State.wait, State.view, fdWait, State.setFd, Function.update_self, hst,
        Wait.mk.injEq, true_and, eq_iff_iff, iff_true]
      exact ⟨c, Function.update_self ..⟩
    · convert Wait.Step.start hset hfree using 1
      have hex := exists_client_update (s := s) (c := c) (.fdWait f) (.fdExec f)
        (by simp [hc]) (by simp)
      simp only [State.wait, State.view, fdWait, State.setFd, Function.update_self, hex,
        Wait.mk.injEq, View.mk.injEq, true_and, and_true, eq_iff_iff, iff_true]
      exact ⟨c, Function.update_self ..⟩
  · rw [if_neg hne]
    have hw : { fdWait s g set with
        client := Function.update s.client c (if set = 0 then .fdExec g else .fdWait g) }.wait f =
          s.wait f := by
      refine wait_eq (c := c) (by simp [hc, Client.Waits]) ?_ rfl ?_
      · split_ifs
        · exact hne
        · exact hne
      · simp [State.view, fdWait, State.setFd, hne]
    rw [hw]
    exact .same

omit [LinearOrder T] in
theorem wait_fdWaitLock (h : Sane s) {c : C} {g : F} (hc : s.client c = .fdWait g) (f : F) :
    Wait.Step .other (s.wait f)
      ({ (modEnqueue s g).2 with
        client := Function.update s.client c .idle
        outstanding := Function.update s.outstanding g true }.wait f) := by
  rcases eq_or_ne f g with rfl | hne
  · convert Wait.Step.lock (w := s.wait f) ⟨c, hc⟩ using 1
    have hex := exists_client_update (s := s) (c := c) .idle (.fdExec f)
      (by simp [hc]) (by simp)
    have hst := eq_false (h.not_exists (x := .fdWait f) (f := f) (by rw [hc]; rfl) rfl)
    simp only [State.wait, view_client, view_modEnqueue, Function.update_self, hst, hex]
  · have hw : { (modEnqueue s g).2 with
        client := Function.update s.client c .idle
        outstanding := Function.update s.outstanding g true }.wait f = s.wait f := by
      refine wait_eq (c := c) (by simpa [hc, Client.Waits] using hne) id rfl ?_
      rw [view_client, view_modEnqueue, Function.update_of_ne hne, Function.update_of_ne hne]
      rfl
    rw [hw]
    exact .same

omit [LinearOrder T] in
theorem wait_fdWaitExec (h : Sane s) {c : C} {g : F} (hc : s.client c = .fdExec g) (f : F) :
    Wait.Step .other (s.wait f)
      ({ s with
        jobList := s.jobList ++ [Task.fd g]
        client := Function.update s.client c .idle
        outstanding := Function.update s.outstanding g true
        submitted := Function.update s.submitted g (s.submitted g + 1) }.wait f) := by
  rcases eq_or_ne f g with rfl | hne
  · convert Wait.Step.exec (w := s.wait f) ⟨c, hc⟩ using 1
    have hst := exists_client_update (s := s) (c := c) .idle (.fdWait f)
      (by simp [hc]) (by simp)
    have hex := eq_false (h.not_exists (x := .fdExec f) (f := f) (by rw [hc]; rfl) rfl)
    simp only [State.wait, State.view, Function.update_self, hst, hex, List.countP_append]
    simp [Task.isFd]
  · have hw : { s with
        jobList := s.jobList ++ [Task.fd g]
        client := Function.update s.client c .idle
        outstanding := Function.update s.outstanding g true
        submitted := Function.update s.submitted g (s.submitted g + 1) }.wait f = s.wait f := by
      refine wait_eq (c := c) (by simpa [hc, Client.Waits] using hne) id rfl ?_
      simp [State.view, hne, List.countP_append, Task.isFd]
    rw [hw]
    exact .same

omit [LinearOrder T] [DecidableEq C] in
theorem wait_fdRewait {c : C} {g : F} {set : UInt32} (hl : Allowed s (.fdRewait c g set))
    (hw : (s.fds g).flags.waiting = true) (f : F) :
    Wait.Step (Act.label f (.fdRewait c g set : Act F T K C)) (s.wait f)
      ((modEnqueue (s.setFd g ({ · with requested := set })) g).2.wait f) := by
  have hwait : (modEnqueue (s.setFd g ({ · with requested := set })) g).2.wait f =
      { s.wait f with toView := Function.update s.view g (s.view g).enqueue f } := by
    have hc : (modEnqueue (s.setFd g ({ · with requested := set })) g).2.client = s.client :=
      (modEnqueue_spec _ g).2.2.1
    have hv := view_setFd (s := s) (f := g) (u := ({ · with requested := set })) fun _ => rfl
    simp only [State.wait, view_modEnqueue, hv, hc]
  rw [hwait]
  simp only [Act.label]
  rcases eq_or_ne f g with rfl | hne
  · rw [if_pos rfl, Function.update_self]
    refine .rewait ?_ hw
    rintro ⟨c', hc'⟩
    exact hl c' (hc' ▸ rfl)
  · rw [if_neg hne, Function.update_of_ne hne]
    exact .same

theorem wait_client (h : Sane s) (hl : Allowed s a) (e : clientStep bgThreads s a = some s')
    (f : F) : Wait.Step (a.label f) (s.wait f) (s'.wait f) := by
  cases a with
  | notify c =>
    simp only [clientStep, Option.ite_none_right_eq_some, Option.some.injEq] at e
    obtain ⟨-, rfl⟩ := e
    rw [wait_wakeup]
    exact .same
  | fdWait c g set =>
    simp only [clientStep, Option.ite_none_right_eq_some, Option.some.injEq] at e
    obtain ⟨⟨hc, -⟩, rfl⟩ := e
    exact wait_fdWait hc hl f
  | fdWaitLock c =>
    simp only [clientStep] at e
    split at e
    · rename_i g hc
      obtain rfl := Option.some.inj e
      rw [wait_wakeup]
      exact wait_fdWaitLock h hc f
    · cases e
  | fdWaitExec c =>
    simp only [clientStep] at e
    split at e
    · rename_i g hc
      obtain rfl := Option.some.inj e
      rw [runqTaskExec, wait_wakeup]
      exact wait_fdWaitExec h hc f
    · cases e
  | fdRewait c g set =>
    simp only [clientStep, Option.ite_none_right_eq_some] at e
    obtain ⟨-, e⟩ := e
    split_ifs at e with hw <;> obtain rfl := Option.some.inj e
    · rw [wait_wakeup]
      exact wait_fdRewait hl hw f
    · simp only [Act.label]
      split_ifs with hfg
      · obtain rfl := hfg
        exact .ignored (eq_false_of_ne_true hw)
      · exact .same
  | taskExec c k =>
    simp only [clientStep, Option.ite_none_right_eq_some, Option.some.injEq] at e
    obtain ⟨-, rfl⟩ := e
    rw [runqTaskExec, wait_wakeup]
    have hv : { s with jobList := s.jobList ++ [Task.other k] }.view = s.view :=
      funext fun g => view_jobList
    exact wait_same hv rfl
  | timerWait c t now interval =>
    simp only [clientStep, Option.ite_none_right_eq_some, Option.some.injEq] at e
    obtain ⟨-, rfl⟩ := e
    rw [wsetAdd, wait_wakeup]
    exact wait_same rfl rfl
  | _ => cases e

/-! ### The dispatcher and the background threads -/

omit [LinearOrder T] in
theorem wait_note (e : noteStep s a = some s') (f : F) :
    Wait.Step (a.label f) (s.wait f) (s'.wait f) := by
  cases a with
  | notifyLock c =>
    simp only [noteStep, Option.ite_none_right_eq_some, Option.some.injEq] at e
    obtain ⟨-, rfl⟩ := e
    exact wait_same rfl rfl
  | notifyWrite c =>
    simp only [noteStep, Option.ite_none_right_eq_some, Option.some.injEq] at e
    obtain ⟨-, rfl⟩ := e
    exact wait_same rfl rfl
  | _ => cases e

omit [LinearOrder T] [DecidableEq C] in
/-- A task is taken from the run queue. -/
theorem wait_beginTask {task : Task F T K} {tasks : List (Task F T K)}
    (hj : s.jobList = task :: tasks) (f : F) :
    Wait.Step .other (s.wait f) ({ beginTask s task with jobList := tasks }.wait f) := by
  cases task with
  | fd g =>
    have hq : 0 < (s.view g).queued := by simp [State.view, hj, Task.isFd]
    refine wait_set (f := g) ?_ rfl (.begin hq)
    funext f
    rcases eq_or_ne f g with rfl | hne
    · simp [State.view, State.wait, Ioq.beginTask, hj, Task.isFd]
    · simp [State.view, Ioq.beginTask, hj, Task.isFd, hne]
  | timer t =>
    refine wait_same (funext fun f => ?_) rfl
    simp [State.view, Ioq.beginTask, hj, Task.isFd]
  | other k =>
    refine wait_same (funext fun f => ?_) rfl
    simp [State.view, Ioq.beginTask, hj, Task.isFd]

omit [LinearOrder T] [DecidableEq C] in
/-- The dispatcher goes on with the same `ioq_fd`s in its hands. -/
theorem wait_disp {d : Disp F T K} {f : F} (hd : ∀ g, d.hand g = s.disp.hand g) :
    Wait.Step .other (s.wait f) ({ s with disp := d }.wait f) :=
  wait_same (funext fun g => by simp only [State.view, hd]) rfl

omit [LinearOrder T] [DecidableEq C] in
/-- The dispatcher has changed the view of `f`, and now has `f` in its hands as `hand`. -/
theorem wait_hand {d : Disp F T K} {f : F} {v : View} {hand : Hand}
    (hv : s'.view = Function.update s.view f v) (hc : s'.client = s.client)
    (hd : ∀ g ≠ f, d.hand g = s.disp.hand g) (hh : d.hand f = hand)
    (hf : Wait.Step .other (s.wait f) { s.wait f with toView := { v with hand := hand } }) (g : F) :
    Wait.Step .other (s.wait g) ({ s' with disp := d }.wait g) := by
  refine wait_set (view_disp hv hd) hc ?_
  rwa [hh]

omit [LinearOrder T] [DecidableEq C] in
theorem wait_wait (h : Sane s) (hl : Allowed s a) (e : waitStep s a = some s') (f : F) :
    Wait.Step (a.label f) (s.wait f) (s'.wait f) := by
  cases a with
  | nextDeadline =>
    simp only [waitStep] at e
    split at e
    · rename_i hd
      obtain rfl := Option.some.inj e
      exact wait_disp (fun g => by simp [hd, Disp.hand])
    · cases e
  | epollReturn evts =>
    simp only [waitStep] at e
    split at e
    · rename_i first hd
      simp only [Option.ite_none_right_eq_some, Option.some.injEq] at e
      obtain ⟨⟨-, -, hreg⟩, rfl⟩ := e
      have hhand : (s.view f).hand = .none := by simp [State.view, hd, Disp.hand]
      change Wait.Step .other _ _
      -- The events are those of registered descriptors.
      by_cases hmem : f ∈ evts.map Prod.fst
      · obtain ⟨ev, hev, rfl⟩ := List.mem_map.1 hmem
        convert Wait.Step.deliver (w := s.wait ev.1) (hreg ev hev) hhand using 1
        simp only [State.wait, State.view, Disp.hand, if_pos hmem]
      · convert Wait.Step.same (w := s.wait f) using 1
        simp only [State.wait, State.view, Disp.hand, if_neg hmem, hd]
    · cases e
  | epollInterrupted =>
    simp only [waitStep] at e
    split at e
    · rename_i hd
      obtain rfl := Option.some.inj e
      exact wait_disp (fun g => by simp [hd, Disp.hand])
    · cases e
  | epollError =>
    simp only [waitStep] at e
    split at e
    · rename_i hd
      obtain rfl := Option.some.inj e
      exact wait_disp (fun g => by simp [hd, Disp.hand])
    · cases e
  | read =>
    simp only [waitStep] at e
    split at e
    · rename_i evts hd
      split_ifs at e <;> obtain rfl := Option.some.inj e
      · exact wait_disp (fun g => by simp [hd, Disp.hand])
      · exact wait_same rfl rfl
    · cases e
  | ackLock =>
    simp only [waitStep] at e
    split at e
    · rename_i evts hd
      obtain rfl := Option.some.inj e
      exact wait_disp (d := .event evts) (fun g => by simp [hd, Disp.hand])
    · cases e
  | eventDel ok =>
    obtain rfl : ok = true := hl
    simp only [waitStep] at e
    split at e
    · rename_i g events evts hd
      obtain rfl := Option.some.inj e
      have hhand : (s.view g).hand = .event := by simp [State.view, hd, Disp.hand]
      rw [if_true]
      refine wait_hand (view_ctl (u := ({ · with ready := events })) fun _ => rfl) rfl
        (fun g' hne => ?_) (by simp [Disp.hand]) (.delete hhand) f
      simp only [Disp.hand, hd, hne, if_false, List.map_cons, List.mem_cons, false_or]
    · cases e
  | eventLock =>
    simp only [waitStep] at e
    split at e
    · rename_i g evts hd
      have hev := h.evts
      rw [hd] at hev
      -- There is no other event of `g`, so it is out of the dispatcher's hands.
      obtain ⟨hg, -⟩ := List.nodup_cons.1 hev
      obtain rfl := Option.some.inj e
      have hhand : (s.view g).hand = .eventLock := by simp [State.view, hd, Disp.hand]
      refine wait_hand view_endWait (modEnqueue_spec _ g).2.2.1 (fun g' hne => ?_) ?_
        (.ready hhand) f
      · simp [Disp.hand, hd, hne]
      · simp [Disp.hand, hg]
    · cases e
  | eventDone =>
    simp only [waitStep] at e
    split at e
    · rename_i hd
      obtain rfl := Option.some.inj e
      exact wait_disp (fun g => by simp [hd, Disp.hand])
    · cases e
  | _ => cases e

omit [LinearOrder T] in
theorem wait_mod (hl : Allowed s a) (e : modStep bgThreads s a = some s') (f : F) :
    Wait.Step (a.label f) (s.wait f) (s'.wait f) := by
  cases a with
  | dequeue now =>
    simp only [modStep] at e
    split at e
    · rename_i hd hm
      obtain rfl := Option.some.inj e
      exact wait_disp (fun g => by simp [hd, Disp.hand])
    · rename_i g gs hd hm
      obtain rfl := Option.some.inj e
      have hhand : (s.view g).hand = .none := by simp [State.view, hd, Disp.hand]
      have hlisted : 0 < (s.view g).listed := by simp [State.view, hm]
      refine wait_set (f := g) ?_ rfl (.dequeue (s.fds g).requested hlisted hhand)
      funext g'
      rcases eq_or_ne g' g with rfl | hne
      · simp [State.wait, State.view, State.setFd, Fd.setFlags, hm, Disp.hand]
      · simp [State.view, State.setFd, hm, hd, Disp.hand, hne, hne.symm]
    · cases e
  | handle result =>
    simp only [modStep] at e
    split at e
    · rename_i g flags requested hd
      have hhand : (s.view g).hand = .held flags requested := by simp [State.view, hd, Disp.hand]
      split at e
      · rename_i hw
        obtain rfl := Option.some.inj e
        rw [runqTaskExec, wait_wakeup]
        refine wait_set (f := g) ?_ rfl (.submit hhand (by simpa using hw))
        funext g'
        rcases eq_or_ne g' g with rfl | hne
        · simp [State.wait, State.view, Disp.hand, Task.isFd]
        · simp [State.view, Disp.hand, Task.isFd, hd, hne]
      · rename_i hw
        rw [Bool.not_eq_true, Bool.not_eq_false'] at hw
        split at e
        · rename_i hr
          obtain rfl := Option.some.inj e
          subst hr
          have hok : flags.epoll = true → result = 0 := by
            intro hep
            simp only [Allowed, hd] at hl
            exact hl ⟨hw, rfl, hep⟩
          -- `EPOLL_CTL_DEL` is called only if the flag is set, and then it does not fail.
          have hreg : (if flags.epoll ∧ result = 0 then Function.update s.registered g false
              else s.registered) =
                Function.update s.registered g (s.registered g && !flags.epoll) := by
            cases hep : flags.epoll with
            | true => rw [if_pos ⟨rfl, hok hep⟩, Bool.not_true, Bool.and_false]
            | false => simp
          rw [hreg]
          refine wait_hand (view_ctl (u := ({ · with ready := 0 })) fun _ => rfl) rfl
            (fun g' hne => ?_) (by simp [Disp.hand]) (.cancel hhand hw) f
          simp [Disp.hand, hd, hne]
        split at e
        · obtain rfl := Option.some.inj e
          refine wait_hand view_registered rfl (fun g' hne => ?_) (by simp [Disp.hand])
            (.add hhand hw) f
          simp [Disp.hand, hd, hne]
        · obtain rfl := Option.some.inj e
          refine wait_hand (view_setFd_eq_update (u := ({ · with err := result })) fun _ => rfl) rfl
            (fun g' hne => ?_) (by simp [Disp.hand]) (.fail hhand hw) f
          simp [Disp.hand, hd, hne]
    · cases e
  | handleLock =>
    simp only [modStep] at e
    split at e
    · rename_i g hd
      obtain rfl := Option.some.inj e
      have hhand : (s.view g).hand = .cancelled := by simp [State.view, hd, Disp.hand]
      refine wait_hand view_endWait (modEnqueue_spec _ g).2.2.1 (fun g' hne => ?_) rfl
        (.cancelled hhand) f
      simp [Disp.hand, hd, hne]
    · rename_i g hd
      obtain rfl := Option.some.inj e
      have hhand : (s.view g).hand = .failed := by simp [State.view, hd, Disp.hand]
      have hview : (modEnqueue (s.setFd g ({ · with requested := 0 })) g).2.view =
          Function.update s.view g (s.view g).enqueue := by
        rw [view_modEnqueue, view_setFd]
        exact fun _ => rfl
      refine wait_hand hview (modEnqueue_spec _ g).2.2.1 (fun g' hne => ?_) rfl (.failed hhand) f
      simp [Disp.hand, hd, hne]
    · rename_i g hd
      obtain rfl := Option.some.inj e
      have hhand : (s.view g).hand = .added := by simp [State.view, hd, Disp.hand]
      refine wait_hand view_setFlags rfl (fun g' hne => ?_) rfl (.added hhand) f
      simp [Disp.hand, hd, hne]
    · cases e
  | _ => cases e

omit [LinearOrder T] in
theorem wait_run (e : runStep bgThreads s a = some s') (f : F) :
    Wait.Step (a.label f) (s.wait f) (s'.wait f) := by
  cases a with
  | expire =>
    simp only [runStep] at e
    split at e
    · rename_i now t ts hd hw
      split_ifs at e <;> obtain rfl := Option.some.inj e
      · exact wait_disp (fun g => by simp [hd, Disp.hand])
      · exact wait_disp (d := .expired t now) (fun g => by simp [hd, Disp.hand])
    · rename_i now hd hw
      obtain rfl := Option.some.inj e
      exact wait_disp (fun g => by simp [hd, Disp.hand])
    · cases e
  | expired =>
    simp only [runStep] at e
    split at e
    · rename_i t now hd
      obtain rfl := Option.some.inj e
      rw [runqTaskExec, wait_wakeup]
      refine wait_same (funext fun g => ?_) rfl
      simp [State.view, Disp.hand, Task.isFd, hd]
    · cases e
  | run =>
    simp only [runStep] at e
    split at e
    · rename_i hd hj
      obtain rfl := Option.some.inj e
      exact wait_disp (fun g => by simp [hd, Disp.hand])
    · rename_i task tasks hd hj
      obtain rfl := Option.some.inj e
      have hd' : (beginTask s task).disp = .run := by
        cases task <;> exact hd
      change Wait.Step .other _ _
      convert wait_beginTask hj f using 1
      simp [State.wait, State.view, Disp.hand, hd']
    · cases e
  | ran =>
    simp only [runStep] at e
    split at e
    · rename_i task hd
      obtain rfl := Option.some.inj e
      exact wait_disp (fun g => by simp [hd, Disp.hand])
    · cases e
  | _ => cases e

omit [LinearOrder T] [DecidableEq C] in
theorem wait_worker (e : workerStep bgThreads s a = some s') (f : F) :
    Wait.Step (a.label f) (s.wait f) (s'.wait f) := by
  cases a with
  | workerRun =>
    simp only [workerStep] at e
    split at e
    · cases e
    · rename_i task tasks hj
      simp only [Option.ite_none_left_eq_some, Option.some.injEq] at e
      obtain ⟨-, rfl⟩ := e
      exact wait_beginTask hj f
  | _ => cases e

/-- A step of the system is a step of the machine of each `ioq_fd`. -/
theorem wait_step (h : Sane s) (hl : Allowed s a) (e : step bgThreads s a = some s') (f : F) :
    Wait.Step (a.label f) (s.wait f) (s'.wait f) := by
  rcases step_cases e with e | e | e | ⟨-, e | e | e⟩
  · exact wait_client h hl e f
  · exact wait_note e f
  · exact wait_worker e f
  · exact wait_wait h hl e f
  · exact wait_mod hl e f
  · exact wait_run e f

/-! ### What holds in every run -/

omit [DecidableEq F] [LinearOrder T] in
/-- A client has come to `cl`. -/
theorem Sane.update (h : Sane s) {c : C} (cl : Client F)
    (hc : s'.client = Function.update s.client c cl)
    (hcl : ∀ f, cl.Waits f → ∀ c', ¬(s.client c').Waits f) (he : s'.disp.evts.Nodup) : Sane s' := by
  refine ⟨fun c₁ c₂ f h₁ h₂ => ?_, he⟩
  rw [hc, Function.update_apply] at h₁ h₂
  split_ifs at h₁ h₂ with hc₁ hc₂ hc₂
  · rw [hc₁, hc₂]
  · exact absurd h₂ (hcl f h₁ c₂)
  · exact absurd h₁ (hcl f h₂ c₁)
  · exact h.alone c₁ c₂ f h₁ h₂

omit [DecidableEq F] [LinearOrder T] [DecidableEq C] in
theorem Sane.same (h : Sane s) (hc : s'.client = s.client) (he : s'.disp.evts.Nodup) : Sane s' :=
  ⟨hc ▸ h.alone, he⟩

theorem clientStep_disp (e : clientStep bgThreads s a = some s') : s'.disp = s.disp := by
  cases a <;> grind [clientStep, fdWait, State.setFd, runqTaskExec, wakeup, modEnqueue, wsetAdd]

theorem Sane.client (h : Sane s) (hl : Allowed s a) (e : clientStep bgThreads s a = some s') :
    Sane s' := by
  have he : s'.disp.evts.Nodup := clientStep_disp e ▸ h.evts
  cases a with
  | fdWait c f set =>
    simp only [clientStep, Option.ite_none_right_eq_some, Option.some.injEq] at e
    obtain ⟨-, rfl⟩ := e
    refine h.update _ rfl (fun g hg => ?_) he
    have hgf : g = f := by
      split_ifs at hg
      · exact hg
      · exact hg
    exact hgf ▸ hl.2
  | fdWaitLock c =>
    simp only [clientStep] at e
    split at e
    · rename_i f hc
      obtain rfl := Option.some.inj e
      have hcl : (wakeup { (modEnqueue s f).2 with
          client := Function.update s.client c .idle
          outstanding := Function.update s.outstanding f true } (some c) (modEnqueue s f).1).client =
            Function.update s.client c .idle := by
        rw [wakeup]
        split_ifs <;> rfl
      exact h.update _ hcl (fun _ hg => hg.elim) he
    · cases e
  | fdWaitExec c =>
    simp only [clientStep] at e
    split at e
    · rename_i f hc
      obtain rfl := Option.some.inj e
      refine h.update .idle (c := c) ?_ (fun _ hg => hg.elim) he
      rw [runqTaskExec, wakeup]
      split_ifs <;> rfl
    · cases e
  | notify | fdRewait | taskExec | timerWait =>
    refine h.same ?_ he
    grind [clientStep, State.setFd, runqTaskExec, wakeup, modEnqueue, wsetAdd]
  | _ => cases e

omit [LinearOrder T] [DecidableEq C] in
theorem beginTask_client (s : State F T K C) (task : Task F T K) :
    (beginTask s task).client = s.client := by
  cases task <;> rfl

omit [LinearOrder T] [DecidableEq C] in
theorem beginTask_disp (s : State F T K C) (task : Task F T K) :
    (beginTask s task).disp = s.disp := by
  cases task <;> rfl

omit [DecidableEq F] [LinearOrder T] in
theorem noteStep_frame (e : noteStep s a = some s') :
    s'.client = s.client ∧ s'.disp = s.disp := by
  cases a <;> grind [noteStep]

omit [LinearOrder T] [DecidableEq C] in
theorem workerStep_frame (e : workerStep bgThreads s a = some s') :
    s'.client = s.client ∧ s'.disp = s.disp := by
  cases a <;> grind [workerStep, beginTask_client, beginTask_disp]

omit [LinearOrder T] [DecidableEq C] in
theorem waitStep_frame (e : waitStep s a = some s') :
    s'.client = s.client ∧ (s.disp.evts.Nodup → s'.disp.evts.Nodup) := by
  cases a <;> grind [waitStep, State.setFd, endWait, modEnqueue, Disp.evts]

omit [LinearOrder T] in
theorem modStep_frame (e : modStep bgThreads s a = some s') :
    s'.client = s.client ∧ s'.disp.evts = [] := by
  cases a <;> grind [modStep, State.setFd, endWait, modEnqueue, runqTaskExec, wakeup, Disp.evts]

omit [LinearOrder T] in
theorem runStep_frame (e : runStep bgThreads s a = some s') :
    s'.client = s.client ∧ s'.disp.evts = [] := by
  cases a <;> grind [runStep, runqTaskExec, wakeup, Disp.evts, beginTask_client]

theorem Sane.step (h : Sane s) (hl : Allowed s a) (e : step bgThreads s a = some s') :
    Sane s' := by
  rcases step_cases e with e | e | e | ⟨-, e | e | e⟩
  · exact h.client hl e
  · obtain ⟨hc, hd⟩ := noteStep_frame e
    exact h.same hc (hd ▸ h.evts)
  · obtain ⟨hc, hd⟩ := workerStep_frame e
    exact h.same hc (hd ▸ h.evts)
  · obtain ⟨hc, hd⟩ := waitStep_frame e
    exact h.same hc (hd h.evts)
  · obtain ⟨hc, hd⟩ := modStep_frame e
    exact h.same hc (hd ▸ .nil)
  · obtain ⟨hc, hd⟩ := runStep_frame e
    exact h.same hc (hd ▸ .nil)

end Step

end Dlb.Ioq
