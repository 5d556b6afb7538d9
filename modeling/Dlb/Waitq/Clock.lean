import Dlb.Waitq.Dispatch
import Dlb.Waitq.Wakeup

/-!
# The clock

Timers that are set for intervals which are not negative, with a clock that does not go back. The
deadline of a timer in the waiting set is less than `2 ^ 31` ahead of the clock then, also if the sum
has wrapped around. So `waitq_next_deadline` returns the time that is left as an `int` without losing
anything.

* `run_dispatch`: what `waitq_dispatch` and `waitq_next_deadline` do in every state that is reached.
-/

namespace Dlb.Waitq

open Machine Rbt

variable {T Θ Φ : Type}

/-- `waitq_next_deadline` -/
def waitqNextDeadline (fuel : ℕ) (s : State T Θ Φ) (now : UInt64) : Option Int32 :=
  ((rbtIterFirst fuel).run s.mem).map fun r =>
    match r.1 with
    | none => -1
    | some n => if s.deadline n < now then 0 else (s.deadline n - now).toUInt32.toInt32

/-! ## Runs with a clock -/

/-- A state with the last value that was read from the clock. -/
structure Clocked (T Θ Φ : Type) where
  state : State T Θ Φ
  clock : UInt64

/-- The value of the clock that a step reads. -/
def Act.clock : Act T Θ Φ → Option UInt64
  | .setDeadline _ now _ | .dispatch _ _ now => some now
  | .wait .. | .add _ | .reschedule .. | .cancel .. | .cancelDeadline _ | .cancelExec _ | .expire _
  | .expireExec _ | .run _ => none

/-- The interval that a timer is set for is not negative. -/
def Act.Forward : Act T Θ Φ → Prop
  | .setDeadline _ _ interval => 0 ≤ interval
  | .wait .. | .add _ | .reschedule .. | .cancel .. | .cancelDeadline _ | .cancelExec _
  | .dispatch .. | .expire _ | .expireExec _ | .run _ => True

/-- A legal step for which the clock does not go back. -/
def Forward (x : Clocked T Θ Φ) (a : ℕ × Act T Θ Φ) : Prop :=
  Legal x.state a ∧ a.2.Forward ∧ ∀ now ∈ a.2.clock, x.clock ≤ now

variable [LinearOrder T] [DecidableEq Θ]

def Clocked.step (x : Clocked T Θ Φ) (a : ℕ × Act T Θ Φ) : Option (Clocked T Θ Φ) :=
  (Waitq.step x.state a).map fun s => ⟨s, a.2.clock.getD x.clock⟩

/-! ## Deadlines -/

/-- The deadline is less than `2 ^ 31` ahead of the clock. -/
def Near (deadline clock : UInt64) : Prop := deadline.toNat < clock.toNat + 2 ^ 31

theorem near_deadlineOf {now : UInt64} {interval : Int32} (h : 0 ≤ interval) :
    Near (deadlineOf now interval) now := by
  have h₀ : 0 ≤ interval.toInt := Int32.le_iff_toInt_le.1 h
  have h₁ := interval.toInt_lt
  have h64 : interval.toInt64.toUInt64.toNat = interval.toInt.toNat := by
    rw [Int64.toNat_toUInt64_of_le]
    · exact congrArg Int.toNat interval.toInt_toInt64
    · rw [Int64.le_iff_toInt_le, Int32.toInt_toInt64]
      exact h₀
  -- If the sum wraps around, it is less than the interval.
  have := Nat.mod_le (now.toNat + interval.toInt.toNat) (2 ^ 64)
  rw [Near, deadlineOf, UInt64.toNat_add, h64]
  omega

theorem Near.mono {deadline clock clock' : UInt64} (h : Near deadline clock) (hle : clock ≤ clock') :
    Near deadline clock' :=
  Nat.lt_of_lt_of_le h (Nat.add_le_add_right (UInt64.le_iff_toNat_le.1 hle) _)

/-- What is left until a deadline that is near fits in an `int`. -/
theorem toInt_sub_of_near {deadline now : UInt64} (h : Near deadline now) (hle : now ≤ deadline) :
    (deadline - now).toUInt32.toInt32.toInt = (deadline.toNat : ℤ) - now.toNat := by
  rw [Near] at h
  have hsub : (deadline - now).toUInt32.toNat = deadline.toNat - now.toNat := by
    rw [UInt64.toNat_toUInt32, UInt64.toNat_sub_of_le _ _ hle]
    exact Nat.mod_eq_of_lt (by omega)
  have hof : (deadline - now).toUInt32 = UInt32.ofNat (deadline.toNat - now.toNat) := by
    rw [← hsub, UInt32.ofNat_toNat]
  have hle := UInt64.le_iff_toNat_le.1 hle
  rw [hof, UInt32.toInt32_ofNat', Int32.toInt_ofNat_of_lt (by omega)]
  omega

variable {s s' : State T Θ Φ} {tr : Tree (Cell T)} {t : T} {fuel : ℕ}

/-- The timer is in the waiting set, or is about to be inserted. -/
def Timed (s : State T Θ Φ) (t : T) : Prop := Reach s.mem t ∨ ∃ θ, s.call θ = .add t

section

omit [DecidableEq Θ]

theorem wsetAdd_reach (h : Holds s.tree tr) (ht : t ∉ order tr) (e : wsetAdd fuel s t = some s')
    (t' : T) (ht' : Reach s'.mem t') : t' = t ∨ Reach s.mem t' := by
  obtain ⟨m, tr', xs, ys, hret, h', ho, ho'⟩ := addSection_spec h ht
  obtain rfl := hret.map_eq (fuelled_addSection s t) e
  obtain ⟨n, hn⟩ := wake_frame { s with mem := m } xs.isEmpty
  rw [hn] at ht'
  have := (reach_iff h').1 ht'
  rw [reach_iff h, ho]
  simp only [ho', List.mem_append, List.mem_cons] at this ⊢
  tauto

theorem wsetRemove_reach (h : Holds s.tree tr) {r : Bool × State T Θ Φ}
    (e : wsetRemove fuel s t = some r) (t' : T) (ht' : Reach r.2.mem t') : Reach s.mem t' := by
  by_cases ht : t ∈ order tr
  · obtain ⟨m, tr', xs, ys, hret, h', ho, ho'⟩ := removeSection_mem h ht
    obtain rfl := hret.map_eq (fuelled_removeSection s t) e
    obtain ⟨n, hn⟩ := wake_frame { s with mem := m } (decide (s.mem.root = some t ∧ xs = []))
    dsimp only at ht'
    rw [hn] at ht'
    have := (reach_iff h').1 ht'
    rw [reach_iff h, ho]
    simp only [ho', List.mem_append, List.mem_cons] at this ⊢
    tauto
  · obtain rfl := (removeSection_not_mem h ht).map_eq (fuelled_removeSection s t) e
    exact ht'

theorem expireOne_reach (h : Holds s.tree tr) {now : UInt64} {r : Option T × State T Θ Φ}
    (e : expireOne fuel s now = some r) (t' : T) (ht' : Reach r.2.mem t') : Reach s.mem t' := by
  rcases expireSection_spec h now with ⟨hret, -⟩ | ⟨t, m, tr', ys, hret, -, h', ho, ho'⟩
  · obtain rfl := hret.map_eq (fuelled_expireSection s now) e
    exact ht'
  · obtain rfl := hret.map_eq (fuelled_expireSection s now) e
    have := (reach_iff h').1 ht'
    rw [reach_iff h, ho]
    exact List.mem_cons_of_mem _ (ho' ▸ this)

end

omit [LinearOrder T] [DecidableEq Θ] in
theorem Timed.of_le (h : Timed s' t) (hm : ∀ t, Reach s'.mem t → Reach s.mem t)
    (hc : s'.call = s.call) : Timed s t := by
  rw [Timed, hc] at h
  exact h.imp_left (hm t)

omit [DecidableEq Θ] in
theorem Timed.of_wsetRemove (h : Holds s.tree tr) {t' : T} {r : Bool × State T Θ Φ}
    (e : wsetRemove fuel s t' = some r) (ht : Timed r.2 t) :
    Timed s t ∧ r.2.deadline t = s.deadline t := by
  have hreach := wsetRemove_reach h e
  obtain ⟨b, s₁⟩ := r
  obtain ⟨m, n, rfl⟩ : ∃ m n, s₁ = _ := wsetRemove_frame e
  exact ⟨ht.of_le hreach rfl, rfl⟩

omit [DecidableEq Θ] in
theorem Timed.of_expireOne (h : Holds s.tree tr) {now : UInt64} {r : Option T × State T Θ Φ}
    (e : expireOne fuel s now = some r) (ht : Timed r.2 t) :
    Timed s t ∧ r.2.deadline t = s.deadline t := by
  have hreach := expireOne_reach h e
  obtain ⟨b, s₁⟩ := r
  obtain ⟨m, rfl⟩ : ∃ m, s₁ = _ := expireOne_frame e
  exact ⟨ht.of_le hreach rfl, rfl⟩

omit [LinearOrder T] in
theorem Timed.goto {θ : Θ} {c : Call T} (h : Timed (s.goto θ c) t) (hc : c ≠ .add t) :
    Timed s t := by
  rcases h with h | ⟨θ', hθ'⟩
  · exact .inl h
  · rcases eq_or_ne θ' θ with rfl | hne
    · exact absurd (by simpa [State.goto] using hθ') hc
    · exact .inr ⟨θ', by simpa [State.goto, hne] using hθ'⟩

/-- A timer that is in the set or about to be inserted was so before, with the same deadline, or a
thread has just set its deadline. -/
theorem timed_of_step (h : Inv s tr) {a : ℕ × Act T Θ Φ} (e : step s a = some s')
    (ht : Timed s' t) : Timed s t ∧ s'.deadline t = s.deadline t ∨ s'.deadline t = 0 ∨
      ∃ θ now interval, a.2 = .setDeadline θ now interval ∧
        s'.deadline t = deadlineOf now interval := by
  obtain ⟨fuel, a⟩ := a
  cases a with
  | wait θ t' func =>
    simp only [step, timerStep, Option.ite_none_right_eq_some, Option.some.injEq] at e
    obtain ⟨-, rfl⟩ := e
    exact .inl ⟨Timed.goto ht (by simp), rfl⟩
  | setDeadline θ now interval =>
    -- The same for a wait and for a reschedule.
    have key : ∀ t', s' = (s.setDeadline t' (deadlineOf now interval)).goto θ (.add t') →
        Timed s t ∧ s'.deadline t = s.deadline t ∨ s'.deadline t = deadlineOf now interval := by
      rintro t' rfl
      rcases eq_or_ne t t' with rfl | hne
      · exact .inr (Function.update_self _ _ _)
      · exact .inl ⟨Timed.goto ht (by simpa using hne.symm), Function.update_of_ne hne _ _⟩
    simp only [step, timerStep] at e
    split at e <;> cases e
    all_goals exact (key _ rfl).imp_right fun hd => .inr ⟨θ, now, interval, rfl, hd⟩
  | add θ =>
    simp only [step, timerStep] at e
    split at e
    · rename_i t' hθ
      obtain ⟨s₁, hadd, rfl⟩ := Option.map_eq_some_iff.1 e
      have hmem : t' ∉ order tr := h.not_mem (θ := θ) (by simp [hθ, Call.timer])
      have hreach := wsetAdd_reach h.tree hmem hadd
      obtain ⟨m, n, rfl⟩ := wsetAdd_frame hadd
      refine .inl ⟨?_, rfl⟩
      -- The timer that is inserted was about to be.
      rcases Timed.goto ht (by simp) with hr | ⟨θ', hθ'⟩
      · rcases hreach _ hr with rfl | hr
        · exact .inr ⟨θ, hθ⟩
        · exact .inl hr
      · exact .inr ⟨θ', hθ'⟩
    · cases e
  | reschedule θ t' =>
    simp only [step, timerStep, Option.ite_none_right_eq_some, Option.map_eq_some_iff] at e
    obtain ⟨-, r, hr, rfl⟩ := e
    split_ifs at ht ⊢
    · exact .inl (Timed.of_wsetRemove h.tree hr (Timed.goto ht (by simp)))
    · exact .inl (Timed.of_wsetRemove h.tree hr ht)
  | cancel θ t' =>
    simp only [step, timerStep, Option.ite_none_right_eq_some, Option.map_eq_some_iff] at e
    obtain ⟨-, r, hr, rfl⟩ := e
    -- A cancellation that comes too late is only counted.
    split_ifs at ht ⊢
    · exact .inl (Timed.of_wsetRemove h.tree hr (Timed.goto ht (by simp)))
    · exact .inl (Timed.of_wsetRemove h.tree hr ht)
    · exact .inl (Timed.of_wsetRemove h.tree hr ht)
  | cancelDeadline θ =>
    simp only [step, timerStep] at e
    split at e <;> cases e
    rename_i t' hθ
    rcases eq_or_ne t t' with rfl | hne
    · exact .inr (.inl (Function.update_self _ _ _))
    · exact .inl ⟨Timed.goto ht (by simp), Function.update_of_ne hne _ _⟩
  | cancelExec θ =>
    simp only [step, timerStep] at e
    split at e <;> cases e
    exact .inl ⟨Timed.goto ht (by simp), rfl⟩
  | dispatch θ limit now =>
    simp only [step, dispatchStep, Option.ite_none_right_eq_some, Option.some.injEq] at e
    obtain ⟨-, rfl⟩ := e
    exact .inl ⟨Timed.goto ht (by simp), rfl⟩
  | expire θ =>
    simp only [step, dispatchStep] at e
    split at e
    · split_ifs at e
      · obtain ⟨⟨r, s₁⟩, hexp, rfl⟩ := Option.map_eq_some_iff.1 e
        cases r with
        | none => exact .inl (Timed.of_expireOne h.tree hexp (Timed.goto ht (by simp)))
        | some t' => exact .inl (Timed.of_expireOne h.tree hexp (Timed.goto ht (by simp)))
      · obtain rfl := Option.some.inj e
        exact .inl ⟨Timed.goto ht (by simp), rfl⟩
    · cases e
  | expireExec θ =>
    simp only [step, dispatchStep] at e
    split at e <;> cases e
    exact .inl ⟨Timed.goto ht (by simp), rfl⟩
  | run t' =>
    simp only [step, Option.ite_none_right_eq_some, Option.some.injEq] at e
    obtain ⟨-, rfl⟩ := e
    exact .inl ⟨ht, rfl⟩

/-- In every run with a clock, the deadlines in the set are near. -/
theorem exists_near {mem : Rbt.Mem T} {wakeup : Bool} {deadline : T → UInt64} {func : T → Φ}
    {clock : UInt64} {x : Clocked T Θ Φ}
    (hr : Reached Clocked.step Forward ⟨State.init mem wakeup deadline func, clock⟩ x) :
    ∃ tr, Inv x.state tr ∧ ∀ t, Timed x.state t → Near (x.state.deadline t) x.clock := by
  refine hr.invariant (I := fun x =>
    ∃ tr, Inv x.state tr ∧ ∀ t, Timed x.state t → Near (x.state.deadline t) x.clock) ?_ ?_
  · have h : Inv (State.init mem wakeup deadline func : State T Θ Φ) .nil := inv_init ..
    refine ⟨.nil, h, fun t ht => ?_⟩
    rcases ht with ht | ⟨θ, hθ⟩
    · have := (reach_iff h.tree).1 ht
      simp at this
    · cases hθ
  · rintro x a x' ⟨tr, h, hnear⟩ ⟨hl, hforward, hclock⟩ e
    obtain ⟨s', hs, rfl⟩ := Option.map_eq_some_iff.1 e
    obtain ⟨tr', h'⟩ := h.step hl hs
    have hle : x.clock ≤ a.2.clock.getD x.clock := by
      cases ha : a.2.clock with
      | none => exact UInt64.le_refl _
      | some now => exact hclock now ha
    refine ⟨tr', h', fun t ht => ?_⟩
    rcases timed_of_step h hs ht with ⟨ht, hd⟩ | hd | ⟨θ, now, interval, ha, hd⟩
    · rw [hd]
      exact (hnear t ht).mono hle
    · rw [hd, Near]
      exact Nat.add_pos_right _ (Nat.two_pow_pos 31)
    · -- The clock was read for this deadline.
      rw [ha] at hforward
      simp only [hd, ha]
      exact near_deadlineOf hforward

/-! ## The next deadline -/

omit [DecidableEq Θ] in
theorem waitqNextDeadline_spec (h : Holds s.tree tr) (now : UInt64)
    (hnear : ∀ t ∈ order tr, Near (s.deadline t) now) :
    ∃ r, Yields (fun fuel => waitqNextDeadline fuel s now) r ∧ (r = -1 ↔ order tr = []) ∧
      ∀ d ∈ earliest s, r.toInt = max 0 ((d.toNat : ℤ) - now.toNat) := by
  refine ⟨_, h.first.yields _, ?_⟩
  cases ho : order tr with
  | nil =>
    rw [earliest_nil h ho]
    exact ⟨by simp, by simp⟩
  | cons t l =>
    have hval : (if s.deadline t < now then 0
        else (s.deadline t - now).toUInt32.toInt32 : Int32).toInt =
          max 0 (((s.deadline t).toNat : ℤ) - now.toNat) := by
      split
      · rename_i hlt
        rw [UInt64.lt_iff_toNat_lt] at hlt
        rw [Int32.toInt_zero]
        omega
      · rename_i hle
        rw [toInt_sub_of_near (hnear t (by simp [ho])) (UInt64.not_lt.1 hle)]
        rw [UInt64.lt_iff_toNat_lt] at hle
        omega
    rw [earliest_cons h ho]
    refine ⟨iff_of_false (fun hr => ?_) (by simp), fun d hd => hd ▸ hval⟩
    have hneg : max 0 (((s.deadline t).toNat : ℤ) - now.toNat) = -1 :=
      hval.symm.trans (congrArg Int32.toInt hr)
    have := le_max_left 0 (((s.deadline t).toNat : ℤ) - now.toNat)
    omega

/-! ## Any number of timers -/

/-- Any number of timers may be in the set, all of them expired. -/
theorem exists_expired (n : ℕ) : ∃ (s : State ℕ Unit Unit) (tr : Tree (Cell ℕ)),
    Reached Clocked.step Forward ⟨State.init ⟨fun _ => ⟨⟨false, false⟩, none, none, none⟩, none⟩
      false (fun _ => 0) fun _ => (), 0⟩ ⟨s, 0⟩ ∧
    Inv s tr ∧ (order tr).length = n ∧ (∀ t, s.deadline t = 0) ∧ s.call () = .idle ∧
      ∀ t, n ≤ t → s.outstanding t = false := by
  induction n with
  | zero => exact ⟨_, .nil, .refl, inv_init .., rfl, fun _ => rfl, rfl, fun _ _ => rfl⟩
  | succ n ih =>
    obtain ⟨s, tr, hr, h, hlen, hd, hcall, hout⟩ := ih
    -- The next timer is inserted, with the deadline 0.
    let s₁ := { s with
      func := Function.update s.func n ()
      outstanding := Function.update s.outstanding n true
      waits := Function.update s.waits n (s.waits n + 1) }.goto () (.wait n)
    let s₂ := (s₁.setDeadline n (deadlineOf 0 0)).goto () (.add n)
    have e₁ : step s (0, .wait () n ()) = some s₁ := by
      simp only [step, timerStep, hcall, if_true]
      rfl
    have e₂ : step s₁ (0, .setDeadline () 0 0) = some s₂ := rfl
    have hθ₁ : (s₁.call ()).timer = some n := rfl
    have h₁ : Inv s₁ tr := h.wait (by simp [hcall]) (hout n le_rfl)
    have h₂ : Inv s₂ tr := (h₁.setDeadline (h₁.not_mem hθ₁) _).goto rfl
    obtain ⟨m, tr', xs, ys, hret, h', ho, ho'⟩ :=
      addSection_spec h₂.tree (h₂.not_mem (θ := ()) (t := n) rfl)
    obtain ⟨k, hk⟩ := wake_frame { s₂ with mem := m } xs.isEmpty
    obtain ⟨fuel, hfuel⟩ := hret.yields fun r => { s₂ with mem := r.2 }.wake r.1
    have e₃ : step s₂ (fuel, .add ()) = some ({ s₂ with mem := m, wakeups := k }.goto () .idle) := by
      have hadd : wsetAdd fuel s₂ n = some { s₂ with mem := m, wakeups := k } :=
        (hfuel fuel le_rfl).trans (congrArg some hk)
      simp only [step, timerStep, show s₂.call () = .add n from rfl, hadd, Option.map_some]
    have h₃ : Inv ({ s₂ with mem := m, wakeups := k }.goto () .idle) tr' := by
      have := (h₂.put (θ := ()) rfl h' ho ho').wake xs.isEmpty
      rwa [← goto_wake, hk] at this
    have hr₁ : Reached Clocked.step Forward _ ⟨s₁, 0⟩ :=
      hr.next (a := (0, .wait () n ())) ⟨hout n le_rfl, trivial, by simp [Act.clock]⟩
        (congrArg (Option.map fun s => Clocked.mk s 0) e₁)
    have hr₂ : Reached Clocked.step Forward _ ⟨s₂, 0⟩ :=
      hr₁.next (a := (0, .setDeadline () 0 0)) ⟨trivial, show (0 : Int32) ≤ 0 by decide, by simp [Act.clock]⟩
        (congrArg (Option.map fun s => Clocked.mk s 0) e₂)
    refine ⟨_, tr', hr₂.next (a := (fuel, .add ())) ⟨trivial, trivial, by simp [Act.clock]⟩
      (congrArg (Option.map fun s => Clocked.mk s 0) e₃), h₃, ?_, fun t => ?_, rfl, fun t ht => ?_⟩
    · rw [ho] at hlen
      simp only [ho', List.length_append, List.length_cons] at hlen ⊢
      omega
    · rcases eq_or_ne t n with rfl | hne
      · exact Function.update_self _ _ _
      · exact (Function.update_of_ne hne _ _).trans (hd t)
    · exact (Function.update_of_ne (by omega) _ _).trans (hout t (by omega))

/-! ## Every run -/

/-- In every state that is reached with a clock that does not go back and intervals that are not
negative:
* `waitq_dispatch` submits, in the order of the deadlines and the addresses, the tasks of as many of
  the expired timers as the limit allows, and takes them out of the set; it returns their number,
  unless there is no limit and there are `2 ^ 32` of them or more; what it does are steps of the
  thread;
* `waitq_next_deadline` returns -1 if the set is empty, and otherwise what is left until the
  earliest deadline. -/
theorem run_dispatch {mem : Rbt.Mem T} {wakeup : Bool} {deadline : T → UInt64} {func : T → Φ}
    {clock : UInt64} {x : Clocked T Θ Φ}
    (hr : Reached Clocked.step Forward ⟨State.init mem wakeup deadline func, clock⟩ x) :
    ∃ l, Inorder x.state.mem x.state.mem.root l ∧ (∀ t, t ∈ l ↔ Reach x.state.mem t) ∧
      l.Pairwise (fun t t' => x.state.deadline t < x.state.deadline t' ∨
        x.state.deadline t = x.state.deadline t' ∧ t < t') ∧
      (∀ limit now, ∃ d, Yields (fun fuel => waitqDispatch fuel x.state limit now) d ∧
        Dispatches x.state limit now l d ∧
        (d.count.toNat = d.submitted.length ↔
          limit ≠ 0 ∨ (expired x.state now l).length < 2 ^ 32) ∧
        ∀ θ, x.state.call θ = .idle → Reached step (Alone θ) x.state d.state) ∧
      ∀ now, x.clock ≤ now → ∃ r, Yields (fun fuel => waitqNextDeadline fuel x.state now) r ∧
        (r = -1 ↔ ∀ t, ¬Reach x.state.mem t) ∧
        ∀ d ∈ earliest x.state, r.toInt = max 0 ((d.toNat : ℤ) - now.toNat) := by
  obtain ⟨tr, h, hnear⟩ := exists_near hr
  have hroot : x.state.mem.root = ptr tr := h.tree.mem.ctx
  refine ⟨order tr, hroot ▸ h.tree.mem.tree.inorder, fun t => (reach_iff h.tree).symm, ?_,
    fun limit now => ?_, fun now hnow => ?_⟩
  · exact (List.pairwise_map.1 h.tree.keys).imp fun hk => key_lt_iff.1 hk
  · obtain ⟨d, hy, hd, hcount⟩ := waitqDispatch_spec h.tree limit now
    refine ⟨d, hy, hd, ?_, fun θ hθ => ?_⟩
    · rw [hcount, hd.submitted]
      exact count_due_iff ..
    · obtain ⟨N, hN⟩ := hy
      exact waitqDispatch_reached hθ (hN N (Nat.le_refl N)) hd
  · obtain ⟨r, hy, hempty, hd⟩ := waitqNextDeadline_spec h.tree now fun t ht =>
      (hnear t (.inl ((reach_iff h.tree).2 ht))).mono hnow
    refine ⟨r, hy, ?_, hd⟩
    rw [hempty, List.eq_nil_iff_forall_not_mem]
    simp only [reach_iff h.tree]

/-- One timer is in the set, and the limit is 1. -/
theorem run_dispatch_one : ∃ (s : State ℕ Unit Unit) (l : List ℕ) (d : Dispatched ℕ Unit Unit),
    Reached Clocked.step Forward ⟨State.init ⟨fun _ => ⟨⟨false, false⟩, none, none, none⟩, none⟩
      false (fun _ => 0) fun _ => (), 0⟩ ⟨s, 0⟩ ∧ (∃ t, Reach s.mem t) ∧
    Yields (fun fuel => waitqDispatch fuel s 1 0) d ∧ Dispatches s 1 0 l d ∧
    d.count.toNat = d.submitted.length := by
  obtain ⟨s, tr, hr, h, hlen, -⟩ := exists_expired 1
  obtain ⟨t, ht⟩ := List.exists_mem_of_length_pos (hlen ▸ Nat.one_pos : 0 < (order tr).length)
  obtain ⟨l, -, -, -, hdisp, -⟩ := run_dispatch hr
  obtain ⟨d, hy, hd, hcount, -⟩ := hdisp 1 0
  exact ⟨s, l, d, hr, ⟨t, (reach_iff h.tree).2 ht⟩, hy, hd, hcount.2 (.inl (by decide))⟩

/-- The number that is returned wraps around. -/
theorem dispatch_count_wraps : ∃ (s : State ℕ Unit Unit) (l : List ℕ) (d : Dispatched ℕ Unit Unit),
    Reached Clocked.step Forward ⟨State.init ⟨fun _ => ⟨⟨false, false⟩, none, none, none⟩, none⟩
      false (fun _ => 0) fun _ => (), 0⟩ ⟨s, 0⟩ ∧
    Inorder s.mem s.mem.root l ∧ l.length = 2 ^ 32 ∧ (∀ t ∈ l, s.deadline t = 0) ∧
    Yields (fun fuel => waitqDispatch fuel s 0 0) d ∧ d.submitted = l ∧ d.count = 0 := by
  obtain ⟨s, tr, hr, h, hlen, hd, -⟩ := exists_expired (2 ^ 32)
  obtain ⟨d, hy, hdisp, hcount⟩ := waitqDispatch_spec h.tree 0 0
  have hsub : d.submitted = order tr := by
    rw [hdisp.submitted, due, if_pos rfl, expired, List.filter_eq_self]
    simp [hd]
  have hroot : s.mem.root = ptr tr := h.tree.mem.ctx
  refine ⟨s, order tr, d, hr, hroot ▸ h.tree.mem.tree.inorder, hlen, fun t _ => hd t, hy, hsub, ?_⟩
  rw [hcount, hsub, hlen]
  rfl

end Dlb.Waitq
