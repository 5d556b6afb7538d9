import Mathlib.Data.Set.Subsingleton
import Dlb.Machine
import Dlb.Thr.Code

/-!
# Events are atomic, and wake their only waiter

What the threads see of an event is a flag that is set, cleared and waited for in one step each. A
thread that raises it signals when the flag was not set before, and `pthread_cond_signal` need not
wake more than one thread. So nobody is left asleep beside a raised event as long as one thread waits
for it, and somebody may be as soon as two do.

* `Event`: the flag, and what each thread has called;
* `Inv`: the mutex keeps the threads apart;
* `Stranded`: a thread is asleep, the event is raised, and nobody is about to signal.
-/

namespace Dlb.Thr

open Machine

variable {T : Type} [DecidableEq T] {W : Set T} {s s' : State T} {a : Act T} {th th' : T}

/-! ## The event as its users see it -/

inductive Call
  | idle
  | called (op : Op)
  | done (result : ℤ)
  deriving DecidableEq

structure Event (T : Type) where
  raised : Bool
  pc : T → Call

namespace Event

inductive Act (T : Type)
  | call (th : T) (op : Op)
  | take (th : T)
  | expire (th : T)

def init : Event T := ⟨false, fun _ => .idle⟩

def goto (e : Event T) (th : T) (pc : Call) : Event T :=
  { e with pc := Function.update e.pc th pc }

def step (e : Event T) : Act T → Option (Event T)
  | .call th op =>
    match e.pc th with
    | .called _ => none
    | _ => some (e.goto th (.called op))
  | .take th =>
    match e.pc th with
    | .called .raise => some ({ e with raised := true }.goto th (.done 0))
    | .called .clear => some ({ e with raised := false }.goto th (.done 0))
    | .called (.wait _) => if e.raised then some (e.goto th (.done 0)) else none
    | _ => none
  | .expire th =>
    match e.pc th with
    | .called (.wait true) => some (e.goto th (.done (-1)))
    | _ => none

end Event

/-- What a thread has called, as long as it has not taken effect. -/
def Pc.call : Pc → Call
  | .idle => .idle
  | .raiseLock | .raiseOld | .raiseSet _ => .called .raise
  | .clearLock | .clearSet => .called .clear
  | .waitLock timed | .waitTest timed | .waitCond timed | .asleep timed | .woken timed =>
    .called (.wait timed)
  | .raiseUnlock _ | .raiseSignal | .clearUnlock => .done 0
  | .expired => .done (-1)
  | .waitUnlock result | .returned result => .done result

def State.event (s : State T) : Event T := ⟨s.raised, fun th => (s.pc th).call⟩

/-! ## The mutex -/

/-- The thread has the mutex. -/
def Pc.Holds : Pc → Prop
  | .raiseOld | .raiseSet _ | .raiseUnlock _ | .clearSet | .clearUnlock | .waitTest _ | .waitCond _
  | .waitUnlock _ => True
  | _ => False

/-- What a thread that has the mutex knows about the flag. -/
def Pc.Knows (raised : Bool) : Pc → Prop
  | .raiseSet old => old = raised
  | .waitCond _ => raised = false
  | _ => True

/-- The thread is in a wait. -/
def Pc.Waits : Pc → Prop
  | .waitLock _ | .waitTest _ | .waitCond _ | .asleep _ | .woken _ | .expired | .waitUnlock _ => True
  | _ => False

structure Inv (W : Set T) (s : State T) : Prop where
  holds : ∀ th, (s.pc th).Holds ↔ s.lock = some th
  knows : ∀ th, (s.pc th).Knows s.raised
  waits : ∀ th, (s.pc th).Waits → th ∈ W

omit [DecidableEq T] in
theorem inv_init : Inv W (State.init : State T) :=
  ⟨by simp [State.init, Pc.Holds], fun _ => trivial, fun _ h => h.elim⟩

/-- A thread goes on, and the mutex and the flag with it. -/
theorem Inv.goto (h : Inv W s) (pc : Pc) {lock : Option T} {raised : Bool}
    (hl : pc.Holds ↔ lock = some th) (ho : ∀ th', th' ≠ th → (lock = some th' ↔ s.lock = some th'))
    (hk : pc.Knows raised) (hr : raised = s.raised ∨ s.lock = some th)
    (hw : pc.Waits → th ∈ W) :
    Inv W ({ s with lock := lock, raised := raised }.goto th pc) := by
  refine ⟨fun u => ?_, fun u => ?_, fun u hu => ?_⟩ <;> rcases eq_or_ne u th with rfl | hne
  · simpa [State.goto] using hl
  · simpa [State.goto, hne, ho u hne] using h.holds u
  · simpa [State.goto] using hk
  · -- No other thread that has the mutex knows about the flag when it changes.
    simp only [State.goto, Function.update_of_ne hne]
    rcases hr with rfl | hr
    · exact h.knows u
    · have hnot : ¬ (s.pc u).Holds := by
        rw [h.holds u, hr]
        simpa using hne.symm
      cases hpc : s.pc u <;> simp_all [Pc.Knows, Pc.Holds]
  · exact hw (by simpa [State.goto] using hu)
  · exact h.waits u (by simpa [State.goto, hne] using hu)

/-! ## What a step shows -/

/-- The step is one of the event, or does not show. -/
def Shows (s s' : State T) : Prop :=
  s'.event = s.event ∨ ∃ b, s.event.step b = some s'.event

theorem event_goto (s : State T) (th : T) (pc : Pc) :
    (s.goto th pc).event = s.event.goto th pc.call := by
  simp only [State.event, State.goto, Event.goto, Event.mk.injEq, true_and]
  funext u
  rcases eq_or_ne u th with rfl | hne
  · simp
  · simp [hne]

theorem shows_goto {pc : Pc} (lock : Option T) (hp : pc.call = (s.pc th).call) :
    Shows s (State.goto ⟨lock, s.raised, s.pc⟩ th pc) := by
  left
  rw [event_goto, hp]
  simp [Event.goto, State.event]

/-- A step of the thread that has the mutex, or takes it, or has no need of it. -/
theorem Inv.run (h : Inv W s) (e : s.run th = some s') : Inv W s' ∧ Shows s s' := by
  have hh := h.holds th
  have hk := h.knows th
  have hw := h.waits th
  have hcall : s.event.pc th = (s.pc th).call := rfl
  -- The mutex is taken.
  have hacq : ∀ {pc : Pc}, s.acquire th pc = some s' → pc.Holds → pc.Knows s.raised →
      (pc.Waits → th ∈ W) → pc.call = (s.pc th).call → Inv W s' ∧ Shows s s' := by
    intro pc e hl hk hw hc
    simp only [State.acquire, Option.ite_none_right_eq_some, Option.some.injEq] at e
    obtain ⟨hfree, rfl⟩ := e
    refine ⟨h.goto pc (by simp [hl]) (fun u hu => ?_) hk (.inl rfl) hw, shows_goto _ hc⟩
    simp [hfree, hu.symm]
  -- The mutex is given up.
  have hrel : ∀ {pc : Pc}, s.release th pc = s' → (s.pc th).Holds → ¬ pc.Holds →
      (∀ b, pc.Knows b) → (pc.Waits → th ∈ W) → pc.call = (s.pc th).call →
        Inv W s' ∧ Shows s s' := by
    rintro pc rfl hp hl hk hw hc
    refine ⟨h.goto pc (by simp [hl]) (fun u hu => ?_) (hk _) (.inl rfl) hw, shows_goto _ hc⟩
    simp [hh.1 hp, hu.symm]
  -- The thread goes on with the mutex.
  have hgo : ∀ {pc : Pc} {b : Bool}, (s.pc th).Holds → pc.Holds → pc.Knows b →
      (pc.Waits → th ∈ W) → Inv W ({ s with raised := b }.goto th pc) :=
    fun hp hl hk hw => h.goto _ (by simp [hl, hh.1 hp]) (fun _ _ => Iff.rfl) hk (.inr (hh.1 hp)) hw
  unfold State.run at e
  cases hpc : s.pc th with
  | raiseLock | clearLock =>
    rw [hpc] at e
    exact hacq e trivial trivial (fun h => h.elim) (by rw [hpc]; rfl)
  | waitLock timed | woken timed | expired =>
    rw [hpc] at e hw
    exact hacq e trivial trivial (fun _ => hw trivial) (by rw [hpc]; rfl)
  | raiseOld =>
    rw [hpc] at e hgo
    obtain rfl := Option.some.inj e
    exact ⟨hgo trivial trivial rfl (fun h => h.elim), shows_goto _ (by rw [hpc]; rfl)⟩
  | raiseSet old =>
    rw [hpc] at e hgo hcall
    obtain rfl := Option.some.inj e
    refine ⟨hgo trivial trivial trivial (fun h => h.elim), .inr ⟨.take th, ?_⟩⟩
    simp only [event_goto, Event.step, hcall]
    rfl
  | clearSet =>
    rw [hpc] at e hgo hcall
    obtain rfl := Option.some.inj e
    refine ⟨hgo trivial trivial trivial (fun h => h.elim), .inr ⟨.take th, ?_⟩⟩
    simp only [event_goto, Event.step, hcall]
    rfl
  | raiseUnlock old =>
    rw [hpc] at e hrel
    cases old <;>
      exact hrel (Option.some.inj e) trivial id (fun _ => trivial) (fun h => h.elim) rfl
  | clearUnlock =>
    rw [hpc] at e hrel
    exact hrel (Option.some.inj e) trivial id (fun _ => trivial) (fun h => h.elim) rfl
  | waitTest timed =>
    rw [hpc] at e hgo hcall hw
    obtain rfl := Option.some.inj e
    cases hr : s.raised with
    | true =>
      refine ⟨hgo (b := s.raised) trivial trivial trivial fun _ => hw trivial,
        .inr ⟨.take th, ?_⟩⟩
      have hr' : s.event.raised = true := hr
      simp only [event_goto, Event.step, hcall, Pc.call, hr', if_true]
    | false =>
      refine ⟨hgo (b := s.raised) trivial trivial hr fun _ => hw trivial, shows_goto _ ?_⟩
      rw [hpc]
      rfl
  | waitCond timed =>
    rw [hpc] at e hrel hw
    exact hrel (Option.some.inj e) trivial id (fun _ => trivial) (fun _ => hw trivial) rfl
  | waitUnlock result =>
    rw [hpc] at e hrel
    exact hrel (Option.some.inj e) trivial id (fun _ => trivial) (fun h => h.elim) rfl
  | _ =>
    rw [hpc] at e
    cases e

/-- A thread goes on that neither had the mutex nor has it afterwards. -/
theorem Inv.quiet (h : Inv W s) {pc : Pc} (hp : ¬ (s.pc th).Holds) (hl : ¬ pc.Holds)
    (hk : ∀ b, pc.Knows b) (hw : pc.Waits → th ∈ W) : Inv W (s.goto th pc) :=
  h.goto pc (by simp [hl, ← h.holds, hp]) (fun _ _ => Iff.rfl) (hk _) (.inl rfl) hw

theorem Inv.step (h : Inv W s) (hl : Legal W s a) (e : step s a = some s') :
    Inv W s' ∧ Shows s s' := by
  cases a with
  | run th => exact h.run e
  | call th op =>
    have hcall : s.event.pc th = (s.pc th).call := rfl
    have hok : (∀ op', (s.pc th).call ≠ .called op') → ¬ (s.pc th).Holds → s.goto th op.start = s' →
        Inv W s' ∧ Shows s s' := by
      rintro hne hp rfl
      refine ⟨h.quiet hp ?_ ?_ ?_, .inr ⟨.call th op, ?_⟩⟩
      · cases op <;> exact id
      · cases op <;> exact fun _ => trivial
      · cases op with
        | wait timed => exact fun _ => hl
        | _ => exact fun hw => hw.elim
      · have hstart : op.start.call = .called op := by cases op <;> rfl
        rw [event_goto, hstart]
        cases hc : (s.pc th).call with
        | called op' => exact absurd hc (hne op')
        | _ => simp only [Event.step, hcall, hc]
    unfold Thr.step at e
    cases hpc : s.pc th <;> simp only [hpc, Option.some.injEq, reduceCtorEq] at e
    · exact hok (by simp [hpc, Pc.call]) (by simp [hpc, Pc.Holds]) e
    · exact hok (by simp [hpc, Pc.call]) (by simp [hpc, Pc.Holds]) e
  | signal th u =>
    unfold Thr.step at e
    cases hpc : s.pc th <;> simp only [hpc, reduceCtorEq] at e
    have hend : ∀ {s₁ : State T}, Inv W s₁ → s₁.pc th = .raiseSignal →
        Inv W (s₁.goto th (.returned 0)) ∧ Shows s₁ (s₁.goto th (.returned 0)) := fun h₁ hp =>
      ⟨h₁.quiet (by simp [hp, Pc.Holds]) id (fun _ => trivial) fun hw => hw.elim,
        shows_goto _ (by rw [hp]; rfl)⟩
    cases u with
    | none =>
      obtain rfl := Option.some.inj e
      exact hend h hpc
    | some u =>
      cases hu : s.pc u <;> simp only [hu, Option.some.injEq, reduceCtorEq] at e
      subst e
      rename_i timed
      have hne : th ≠ u := by
        rintro rfl
        simp [hpc] at hu
      have h₁ : Inv W (s.goto u (.woken timed)) :=
        h.quiet (by simp [hu, Pc.Holds]) id (fun _ => trivial) fun _ =>
          h.waits u (by simp [hu, Pc.Waits])
      obtain ⟨h₂, hs⟩ := hend h₁ (by simp [State.goto, hne, hpc])
      refine ⟨h₂, ?_⟩
      have hs₁ : (s.goto u (.woken timed)).event = s.event := by
        rw [event_goto]
        simp [Event.goto, State.event, hu, Pc.call]
      unfold Shows at hs ⊢
      rwa [hs₁] at hs
  | wake th =>
    unfold Thr.step at e
    cases hpc : s.pc th <;> simp only [hpc, Option.some.injEq, reduceCtorEq] at e
    subst e
    refine ⟨h.quiet (by simp [hpc, Pc.Holds]) id (fun _ => trivial) fun _ => ?_, shows_goto _ ?_⟩
    · exact h.waits th (by simp [hpc, Pc.Waits])
    · rw [hpc]
      rfl
  | expire th =>
    have hcall : s.event.pc th = (s.pc th).call := rfl
    unfold Thr.step at e
    cases hpc : s.pc th with
    | asleep timed =>
      cases timed <;> simp only [hpc, Option.some.injEq, reduceCtorEq] at e
      subst e
      refine ⟨h.quiet (by simp [hpc, Pc.Holds]) id (fun _ => trivial) fun _ => ?_,
        .inr ⟨.expire th, ?_⟩⟩
      · exact h.waits th (by simp [hpc, Pc.Waits])
      · simp only [event_goto, Event.step, hcall, hpc]
        rfl
    | _ => simp [hpc] at e

/-! ## Whom a signal wakes -/

/-- The thread has found the event not raised, and is about to signal. -/
def Pc.Signals (pc : Pc) : Prop := pc = .raiseUnlock false ∨ pc = .raiseSignal

def Asleep (s : State T) (th : T) : Prop := ∃ timed, s.pc th = .asleep timed

/-- A thread is asleep beside the raised event, and nobody is about to wake it. -/
def Stranded (s : State T) : Prop :=
  s.raised = true ∧ (∃ th, Asleep s th) ∧ ∀ th, ¬ (s.pc th).Signals

omit [DecidableEq T] in
theorem not_stranded_init : ¬ Stranded (State.init : State T) := fun h => by cases h.1

/-- A thread goes on, and nobody is stranded by it: it signals when it raises the event, it falls
asleep beside an event that is not raised, and it has signalled when nobody is asleep. -/
theorem not_stranded_goto (h : ¬ Stranded s) (pc : Pc) (lock : Option T) {raised : Bool}
    (hr : raised = true → s.raised = true ∨ pc.Signals) (hs : ∀ timed, pc = .asleep timed → raised = false)
    (hd : (s.pc th).Signals → pc.Signals ∨ ∀ u, u ≠ th → ¬ Asleep s u) :
    ¬ Stranded (State.goto ⟨lock, raised, s.pc⟩ th pc) := by
  rintro ⟨hraised, ⟨u, timed, hu⟩, hno⟩
  have hpc : ¬ pc.Signals := by simpa [State.goto] using hno th
  have hne : u ≠ th := by
    rintro rfl
    have hf := hs timed (by simpa [State.goto] using hu)
    exact absurd (hf.symm.trans hraised) (by decide)
  have hold : Asleep s u := ⟨timed, by simpa [State.goto, hne] using hu⟩
  refine h ⟨(hr hraised).resolve_right hpc, ⟨u, hold⟩, fun v hv => ?_⟩
  rcases eq_or_ne v th with rfl | hvt
  · exact ((hd hv).resolve_left hpc) u hne hold
  · exact hno v (by simpa [State.goto, hvt] using hv)

theorem not_stranded_run (h : Inv W s) (hn : ¬ Stranded s) (e : s.run th = some s') :
    ¬ Stranded s' := by
  have hk := h.knows th
  -- A thread that goes on in a quiet way.
  have hq : ∀ {pc : Pc} {lock : Option T}, ¬ (s.pc th).Signals → (∀ timed, pc ≠ .asleep timed) →
      ¬ Stranded (State.goto ⟨lock, s.raised, s.pc⟩ th pc) := fun hp hpc =>
    not_stranded_goto hn _ _ .inl (fun _ e => absurd e (hpc _)) fun hs => absurd hs hp
  have hacq : ∀ {pc : Pc}, s.acquire th pc = some s' → ¬ (s.pc th).Signals →
      (∀ timed, pc ≠ .asleep timed) → ¬ Stranded s' := by
    intro pc e hp hpc
    simp only [State.acquire, Option.ite_none_right_eq_some, Option.some.injEq] at e
    obtain ⟨-, rfl⟩ := e
    exact hq hp hpc
  unfold State.run at e
  cases hpc : s.pc th with
  | raiseLock | clearLock | waitLock timed | woken timed | expired =>
    rw [hpc] at e hacq
    exact hacq e (by simp [Pc.Signals]) (by simp)
  | raiseOld =>
    rw [hpc] at e hq
    obtain rfl := Option.some.inj e
    exact hq (by simp [Pc.Signals]) (by simp)
  | raiseSet old =>
    rw [hpc] at e hk
    obtain rfl := Option.some.inj e
    obtain rfl : old = s.raised := hk
    refine not_stranded_goto hn _ _ (fun _ => ?_) (by simp) (by simp [hpc, Pc.Signals])
    cases hr : s.raised with
    | true => exact .inl rfl
    | false => exact .inr (.inl rfl)
  | raiseUnlock old =>
    rw [hpc] at e hq
    obtain rfl := Option.some.inj e
    cases old with
    | true => exact hq (by simp [Pc.Signals]) (by simp)
    | false =>
      exact not_stranded_goto hn _ _ .inl (by simp) fun _ => .inl (.inr (by simp))
  | clearSet =>
    rw [hpc] at e
    obtain rfl := Option.some.inj e
    exact not_stranded_goto hn _ _ (by simp) (by simp) (by simp [hpc, Pc.Signals])
  | clearUnlock | waitUnlock =>
    rw [hpc] at e hq
    obtain rfl := Option.some.inj e
    exact hq (by simp [Pc.Signals]) (by simp)
  | waitTest timed =>
    rw [hpc] at e hq
    obtain rfl := Option.some.inj e
    exact hq (by simp [Pc.Signals]) (by intro t; split <;> simp)
  | waitCond timed =>
    rw [hpc] at e hk
    obtain rfl := Option.some.inj e
    exact not_stranded_goto hn _ _ .inl (fun _ _ => hk) (by simp [hpc, Pc.Signals])
  | _ =>
    rw [hpc] at e
    cases e

theorem not_stranded_step (hW : W.Subsingleton) (h : Inv W s) (hn : ¬ Stranded s)
    (hl : Legal W s a) (e : step s a = some s') : ¬ Stranded s' := by
  have hq : ∀ {th pc}, ¬ (s.pc th).Signals → (∀ timed, pc ≠ .asleep timed) →
      ¬ Stranded (s.goto th pc) := fun hp hpc =>
    not_stranded_goto hn _ _ .inl (fun _ e => absurd e (hpc _)) fun hs => absurd hs hp
  cases a with
  | run th => exact not_stranded_run h hn e
  | call th op =>
    unfold step at e
    cases hpc : s.pc th <;> simp only [hpc, Option.some.injEq, reduceCtorEq] at e <;> subst e
    all_goals exact hq (by simp [hpc, Pc.Signals]) (by cases op <;> simp [Op.start])
  | signal th u =>
    unfold step at e
    cases hpc : s.pc th <;> simp only [hpc, reduceCtorEq] at e
    cases u with
    | none =>
      obtain rfl := Option.some.inj e
      exact not_stranded_goto hn _ _ .inl (by simp) fun _ => .inr fun u _ ⟨timed, hu⟩ => hl u timed hu
    | some u =>
      cases hu : s.pc u <;> simp only [hu, Option.some.injEq, reduceCtorEq] at e
      subst e
      rename_i timed
      have h₁ : ¬ Stranded (s.goto u (.woken timed)) := hq (by simp [hu, Pc.Signals]) (by simp)
      refine not_stranded_goto h₁ _ _ .inl (by simp) fun _ => .inr ?_
      -- The thread that was woken is the only one that may have been asleep.
      rintro v - ⟨timed', hv⟩
      have huv : v ≠ u := by
        rintro rfl
        simp [State.goto] at hv
      have hv' : s.pc v = .asleep timed' := by simpa [State.goto, huv] using hv
      exact huv (hW (h.waits v (by simp [hv', Pc.Waits])) (h.waits u (by simp [hu, Pc.Waits])))
  | wake th =>
    unfold step at e
    cases hpc : s.pc th <;> simp only [hpc, Option.some.injEq, reduceCtorEq] at e
    subst e
    exact hq (by simp [hpc, Pc.Signals]) (by simp)
  | expire th =>
    unfold step at e
    cases hpc : s.pc th with
    | asleep timed =>
      cases timed <;> simp only [hpc, Option.some.injEq, reduceCtorEq] at e
      subst e
      exact hq (by simp [hpc, Pc.Signals]) (by simp)
    | _ => simp [hpc] at e

/-! ### Two threads that wait -/

/-- A thread that waits for an event that is not raised falls asleep. -/
theorem reached_asleep (hr : Reached step (Legal W) State.init s) (hw : th ∈ W)
    (hf : s.lock = none) (hn : s.raised = false) (hi : s.pc th = .idle) :
    Reached step (Legal W) State.init (s.goto th (.asleep false)) := by
  have h₁ : Reached step (Legal W) State.init (s.goto th (.waitLock false)) :=
    hr.next (show Legal W s (.call th (.wait false)) from hw) (by simp [step, hi, Op.start])
  have h₂ : Reached step (Legal W) State.init
      ({ s with lock := some th }.goto th (.waitTest false)) :=
    h₁.next (a := .run th) trivial (by simp [step, State.run, State.acquire, State.goto, hf])
  have h₃ : Reached step (Legal W) State.init
      ({ s with lock := some th }.goto th (.waitCond false)) :=
    h₂.next (a := .run th) trivial (by simp [step, State.run, State.goto, hn])
  exact h₃.next (a := .run th) trivial (by simp [step, State.run, State.release, State.goto, hf])

/-- A thread raises the event, and is about to signal. -/
theorem reached_signal (th : T) (hr : Reached step (Legal W) State.init s) (hf : s.lock = none)
    (hn : s.raised = false) (hi : s.pc th = .idle) :
    Reached step (Legal W) State.init ({ s with raised := true }.goto th .raiseSignal) := by
  have h₁ : Reached step (Legal W) State.init (s.goto th .raiseLock) :=
    hr.next (a := .call th .raise) trivial (by simp [step, hi, Op.start])
  have h₂ : Reached step (Legal W) State.init ({ s with lock := some th }.goto th .raiseOld) :=
    h₁.next (a := .run th) trivial (by simp [step, State.run, State.acquire, State.goto, hf])
  have h₃ : Reached step (Legal W) State.init
      ({ s with lock := some th }.goto th (.raiseSet false)) :=
    h₂.next (a := .run th) trivial (by simp [step, State.run, State.goto, hn])
  have h₄ : Reached step (Legal W) State.init
      (State.goto ⟨some th, true, s.pc⟩ th (.raiseUnlock false)) :=
    h₃.next (a := .run th) trivial (by simp [step, State.run, State.goto])
  exact h₄.next (a := .run th) trivial (by simp [step, State.run, State.release, State.goto, hf])

/-- The signal of a thread that does not wait itself wakes one of two waiters, and leaves the other
one asleep. -/
theorem exists_stranded {u v w : T} (hu : u ∈ W) (hv : v ∈ W) (huv : u ≠ v) (hw : w ∉ W) :
    ∃ s, Reached step (Legal W) State.init s ∧ Stranded s := by
  have hwu : w ≠ u := fun e => hw (e ▸ hu)
  have hwv : w ≠ v := fun e => hw (e ▸ hv)
  have h₁ := reached_asleep .refl hu rfl rfl rfl
  have h₂ := reached_asleep h₁ hv rfl rfl (by simp [State.goto, State.init, huv.symm])
  have h₃ := reached_signal w h₂ rfl rfl (by simp [State.goto, State.init, hwu, hwv])
  refine ⟨_, h₃.next (a := .signal w (some u)) trivial
    (by simp [step, State.goto, hwu.symm, huv]; rfl), rfl, ⟨v, false, ?_⟩, fun x => ?_⟩
  · simp [huv.symm, hwv.symm]
  · by_cases hxw : x = w <;> by_cases hxv : x = v <;> by_cases hxu : x = u <;>
      simp_all [State.goto, State.init, Pc.Signals]

/-! ## All runs -/

/-- As long as there is a thread that does not wait, and may raise the event: no thread is ever left
asleep beside the raised event, whatever the order of the steps, if and only if no two threads wait
for it. -/
theorem not_stranded_iff {w : T} (hw : w ∉ W) :
    (∀ s, Reached step (Legal W) State.init s → ¬ Stranded s) ↔ W.Subsingleton := by
  constructor
  · intro h u hu v hv
    by_contra hne
    obtain ⟨s, hr, hs⟩ := exists_stranded hu hv hne hw
    exact h s hr hs
  · intro hW s hr
    have h : Inv W s ∧ ¬ Stranded s :=
      hr.invariant (I := fun s => Inv W s ∧ ¬ Stranded s) ⟨inv_init, not_stranded_init⟩
        fun h hl e => ⟨(h.1.step hl e).1, not_stranded_step hW h.1 h.2 hl e⟩
    exact h.2

/-- One of two threads that wait may be left asleep. -/
theorem not_stranded_iff_two :
    ∃ s : State ℕ, Reached step (Legal {1, 2}) State.init s ∧ Stranded s := by
  by_contra h
  have hall : ∀ s : State ℕ, Reached step (Legal {1, 2}) State.init s → ¬ Stranded s :=
    fun s hr hs => h ⟨s, hr, hs⟩
  have hsub := (not_stranded_iff (w := 0) (by simp)).1 hall
  have h12 : 1 = 2 := hsub (by simp) (by simp)
  omega

end Dlb.Thr
