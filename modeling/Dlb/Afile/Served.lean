import Mathlib.Tactic.Common
import Dlb.Machine
import Dlb.Afile.Code

/-!
# No file operation is stranded

`afile_read` and `afile_write` start a wait only if `flags` is zero, so a wait should be
outstanding whenever it is not. `afile_cancel` sets a flag without starting a wait: called
while nothing is outstanding, it makes the next operation wait for a callback that never
comes. Otherwise `flags` and the wait go together.
-/

namespace Dlb.Afile

open Machine

variable {Φ B T : Type} [DecidableEq T] {s s' : State Φ B T} {a : Act Φ B T}

/-- A wait is outstanding, or a callback is running that will perform the operation. -/
def Served (s : State Φ B T) (op : Flags → Bool) : Prop :=
  s.file.fd.Outstanding ∨ ∃ th c, s.cb th = some c ∧ op c.perform = true

/-- The operation is noted in `flags`, or a callback is running that will perform it. -/
def Noted (s : State Φ B T) (op : Flags → Bool) : Prop :=
  op s.file.flags = true ∨ ∃ th c, s.cb th = some c ∧ op c.perform = true

/-- `afile_cancel` is not called while `flags` is zero. -/
def CancelsWait (s : State Φ B T) : Act Φ B T → Prop
  | .cancel => s.file.flags ≠ .none
  | .read .. | .readLock | .write .. | .writeLock | .finish .. | .endWait _ | .performRead ..
  | .performWrite .. | .cbReturn _ => True

instance (s : State Φ B T) : DecidablePred (CancelsWait s)
  | .cancel => inferInstanceAs (Decidable (s.file.flags ≠ .none))
  | .read .. | .readLock | .write .. | .writeLock | .finish .. | .endWait _ | .performRead ..
  | .performWrite .. | .cbReturn _ => .isTrue trivial

/-- The invariant. -/
structure Inv (s : State Φ B T) : Prop where
  wait : s.file.flags ≠ .none ↔ s.file.fd.Outstanding
  proper : s.file.fd.misused = false
  reading : s.reading = .requested → Noted s Flags.read
  writing : s.writing = .requested → Noted s Flags.write

omit [DecidableEq T] in
theorem inv_init (func : Φ) (buffer : B) : Inv (State.init func buffer : State Φ B T) := by
  constructor <;> simp [State.init, afileInit, IoqFd.ioqFdInit, IoqFd.Outstanding]

/-- A flag is set and a wait is outstanding after the section of a request. -/
theorem startWait_spec {f : Afile Φ B} (hw : f.flags ≠ .none ↔ f.fd.Outstanding)
    (hp : f.fd.misused = false) (event : UInt32) :
    (startWait f event).Outstanding ∧ (startWait f event).misused = false := by
  by_cases hf : f.flags = .none
  · simp only [startWait, hf, ne_eq, not_true_eq_false, ↓reduceIte]
    exact ⟨by simp, IoqFd.misused_ioqFdWait hp (hw.not.1 (by simp [hf]))⟩
  · simpa [startWait, hf] using ⟨hw.1 hf, hp⟩

/-- What is still wanted is waited for. -/
theorem chooseActions_spec (flags : Flags) (hc : flags.cancel = false) (ready : UInt32) :
    ((chooseActions flags ready).2.2 ≠ .none ↔ (chooseActions flags ready).2.1 ≠ 0) ∧
      (flags.read = true → (chooseActions flags ready).1.read = true ∨
        (chooseActions flags ready).2.2.read = true) ∧
      (flags.write = true → (chooseActions flags ready).1.write = true ∨
        (chooseActions flags ready).2.2.write = true) := by
  obtain ⟨r, w, c⟩ := flags
  obtain rfl : c = false := hc
  simp only [chooseActions]
  -- Of the events only these two tests matter.
  generalize decide (ready &&& (IoqFd.eventOut ||| IoqFd.eventErr ||| IoqFd.eventHup) ≠ 0) = out
  generalize decide (ready &&& (IoqFd.eventIn ||| IoqFd.eventErr ||| IoqFd.eventHup) ≠ 0) = inp
  revert r w out inp
  decide

/-- The section of `end_wait` after the callback was invoked. -/
theorem endWait_spec {f : Afile Φ B} (ho : ¬f.fd.Outstanding) (hp : f.fd.misused = false) :
    ((endWait f).2.2.flags ≠ .none ↔ (endWait f).2.2.fd.Outstanding) ∧
      (endWait f).2.2.fd.misused = false ∧
      (f.flags.read = true → (endWait f).1.read = true ∨ (endWait f).2.2.flags.read = true) ∧
      (f.flags.write = true → (endWait f).1.write = true ∨ (endWait f).2.2.flags.write = true) := by
  rw [endWait]
  split_ifs with he hc
  · exact ⟨by simp [ho], hp, fun h => .inl h, fun h => .inl h⟩
  · exact ⟨by simp [ho], hp, fun h => .inl h, fun h => .inl h⟩
  · obtain ⟨hw, hr⟩ := chooseActions_spec f.flags (by simpa using hc) f.fd.ready
    refine ⟨hw.trans ?_, ?_, hr⟩
    · dsimp only
      split_ifs with hm <;> simp [hm, ho]
    · dsimp only
      split_ifs
      · exact IoqFd.misused_ioqFdWait hp ho
      · exact hp

omit [DecidableEq T] in
/-- A step that leaves the callbacks alone. -/
theorem Noted.same {op : Flags → Bool} (h : Noted s op) (hcb : s'.cb = s.cb)
    (hf : op s.file.flags = true → op s'.file.flags = true) : Noted s' op := by
  rw [Noted, hcb]
  exact h.imp_left hf

/-- A step of one callback. -/
theorem Noted.update {op : Flags → Bool} (h : Noted s op) {th : T} {x : Option Cb}
    (hcb : s'.cb = Function.update s.cb th x)
    (hf : op s.file.flags = true →
      op s'.file.flags = true ∨ ∃ c, x = some c ∧ op c.perform = true)
    (hx : ∀ c, s.cb th = some c → op c.perform = true → ∃ c', x = some c' ∧ op c'.perform = true) :
    Noted s' op := by
  have hself : (∃ c, x = some c ∧ op c.perform = true) → Noted s' op :=
    fun ⟨c, hc, hp⟩ => .inr ⟨th, c, by rw [hcb, Function.update_self, hc], hp⟩
  rcases h with h | ⟨th', c, hc, hp⟩
  · rcases hf h with h | h
    · exact .inl h
    · exact hself h
  · rcases eq_or_ne th' th with rfl | hne
    · exact hself (hx c hc hp)
    · exact .inr ⟨th', c, by rw [hcb, Function.update_of_ne hne, hc], hp⟩

/-- The callback is invoked. -/
theorem Inv.endWait (h : Inv s) {th : T} (hcb : s.cb th = none) {fd : IoqFd}
    (e : s.file.fd.deliver = some fd) :
    Inv { s with
      file := (endWait { s.file with fd := fd }).2.2
      cb := Function.update s.cb th (some ⟨(Afile.endWait { s.file with fd := fd }).1,
        (Afile.endWait { s.file with fd := fd }).2.1⟩) } := by
  obtain ⟨-, ho, hp⟩ := IoqFd.deliver_spec e
  obtain ⟨hw, hp', hread, hwrite⟩ :=
    endWait_spec (f := { s.file with fd := fd }) ho (hp.trans h.proper)
  refine ⟨hw, hp', fun hr => (h.reading hr).update rfl (fun hf => ?_) ?_,
    fun hr => (h.writing hr).update rfl (fun hf => ?_) ?_⟩
  · exact (hread hf).symm.imp_right fun h => ⟨_, rfl, h⟩
  · simp [hcb]
  · exact (hwrite hf).symm.imp_right fun h => ⟨_, rfl, h⟩
  · simp [hcb]

theorem Inv.step (h : Inv s) (ha : CancelsWait s a) (e : step s a = some s') : Inv s' := by
  cases a with
  | read data len func =>
    obtain rfl := Option.some.inj e
    exact ⟨h.wait, h.proper, (fun hr => by cases hr), fun hr => (h.writing hr).same rfl id⟩
  | write data len func =>
    obtain rfl := Option.some.inj e
    exact ⟨h.wait, h.proper, fun hr => (h.reading hr).same rfl id, (fun hr => by cases hr)⟩
  | readLock =>
    simp only [Afile.step, Option.ite_none_right_eq_some, Option.some.injEq] at e
    obtain ⟨-, rfl⟩ := e
    obtain ⟨ho, hp⟩ := startWait_spec h.wait h.proper IoqFd.eventIn
    refine ⟨iff_of_true ?_ ho, hp, fun _ => .inl rfl, fun hr => (h.writing hr).same rfl id⟩
    simp [afileReadLock, Flags.none]
  | writeLock =>
    simp only [Afile.step, Option.ite_none_right_eq_some, Option.some.injEq] at e
    obtain ⟨-, rfl⟩ := e
    obtain ⟨ho, hp⟩ := startWait_spec h.wait h.proper IoqFd.eventOut
    refine ⟨iff_of_true ?_ ho, hp, fun hr => (h.reading hr).same rfl id, fun _ => .inl rfl⟩
    simp [afileWriteLock, Flags.none]
  | cancel =>
    obtain rfl := Option.some.inj e
    -- The flag is set in any case; that a wait is outstanding is what the call has to see to.
    refine ⟨iff_of_true ?_ ?_, ?_, fun hr => (h.reading hr).same rfl id,
      fun hr => (h.writing hr).same rfl id⟩
    · simp [afileCancel, Flags.none]
    · simpa [afileCancel, IoqFd.ioqFdCancel] using h.wait.1 ha
    · simpa [afileCancel, IoqFd.ioqFdCancel] using h.proper
  | finish ready err =>
    simp only [Afile.step, Option.map_eq_some_iff] at e
    obtain ⟨fd, e, rfl⟩ := e
    obtain ⟨ho, ho', hp⟩ := IoqFd.finish_spec e
    exact ⟨iff_of_true (h.wait.2 ho) ho', hp.trans h.proper, fun hr => (h.reading hr).same rfl id,
      fun hr => (h.writing hr).same rfl id⟩
  | endWait th =>
    simp only [Afile.step] at e
    split at e
    · simp only [Option.map_eq_some_iff] at e
      obtain ⟨fd, e, rfl⟩ := e
      exact h.endWait ‹_› e
    · cases e
  | performRead th ans =>
    simp only [Afile.step] at e
    split at e
    · rename_i w cancel error hcb
      obtain rfl := Option.some.inj e
      have hfile : ∀ f : Afile Φ B, (performRead f cancel error ans).fd = f.fd ∧
          (performRead f cancel error ans).flags = f.flags := by
        intro f
        rw [performRead]
        split <;> exact ⟨rfl, rfl⟩
      refine ⟨by simpa [hfile] using h.wait, by simpa [hfile] using h.proper,
        (fun hr => by cases hr), fun hr => (h.writing hr).update rfl ?_ ?_⟩
      · simpa [hfile] using Or.inl
      · simp [hcb]
    · cases e
  | performWrite th ans =>
    simp only [Afile.step] at e
    split at e
    · rename_i cancel error hcb
      obtain rfl := Option.some.inj e
      have hfile : ∀ f : Afile Φ B, (performWrite f cancel error ans).fd = f.fd ∧
          (performWrite f cancel error ans).flags = f.flags := by
        intro f
        rw [performWrite]
        split <;> exact ⟨rfl, rfl⟩
      refine ⟨by simpa [hfile] using h.wait, by simpa [hfile] using h.proper,
        fun hr => (h.reading hr).update rfl ?_ ?_, (fun hr => by cases hr)⟩
      · simp [hfile]
      · simp [hcb]
    · cases e
  | cbReturn th =>
    simp only [Afile.step] at e
    split at e
    · rename_i cancel error hcb
      obtain rfl := Option.some.inj e
      refine ⟨h.wait, h.proper, fun hr => (h.reading hr).update rfl .inl ?_,
        fun hr => (h.writing hr).update rfl .inl ?_⟩
      · simp [hcb]
      · simp [hcb]
    · cases e

/-- In every run in which `afile_cancel` is never called while `flags` is zero, a wait is outstanding
while an operation is requested, or a callback is running that will perform it. -/
theorem run_served {func : Φ} {buffer : B}
    (hr : Reached step (fun s a => Legal s a ∧ CancelsWait s a) (State.init func buffer) s) :
    (s.reading = .requested → Served s Flags.read) ∧
      (s.writing = .requested → Served s Flags.write) ∧ s.file.fd.misused = false := by
  have h : Inv s := hr.invariant (inv_init func buffer) fun h ha e => h.step ha.2 e
  refine ⟨fun hq => (h.reading hq).imp_left fun hf => h.wait.1 ?_,
    fun hq => (h.writing hq).imp_left fun hf => h.wait.1 ?_, h.proper⟩
  · intro hn
    simp [hn, Flags.none] at hf
  · intro hn
    simp [hn, Flags.none] at hf

/-- A read that is cancelled while a write is performed. -/
theorem run_served_cancel : ∃ s : State Unit Unit Unit,
    Reached step (fun s a => Legal s a ∧ CancelsWait s a) (State.init () ()) s ∧
      s.reading = .requested ∧ Served s Flags.read := by
  obtain ⟨s, hr, hb⟩ := exists_reached step
    (fun (s : State Unit Unit Unit) a => Legal s a ∧ CancelsWait s a)
    (State.init () ())
    [.write () 8 (), .writeLock, .read () 8 (), .finish IoqFd.eventOut 0, .readLock, .endWait (),
      .performWrite () ⟨8, 0⟩, .cancel]
    (fun s => decide (s.reading = .requested)) (by decide +kernel)
  have hs := of_decide_eq_true hb
  exact ⟨s, hr, hs, (run_served hr).1 hs⟩

/-- A read after a cancellation for which there was nothing to cancel. -/
theorem cancel_strands : ∃ s : State Unit Unit Unit, Reached step Legal (State.init () ()) s ∧
    s.reading = .requested ∧ ¬Served s Flags.read := by
  obtain ⟨s, hr, hb⟩ := exists_reached step
    (fun (s : State Unit Unit Unit) a => Legal s a) (State.init () ())
    [.cancel, .read () 8 (), .readLock]
    (fun s => decide (s.reading = .requested ∧ s.file.fd.phase = .idle) && (s.cb ()).isNone)
    (by decide +kernel)
  simp only [Bool.and_eq_true, decide_eq_true_eq, Option.isNone_iff_eq_none] at hb
  obtain ⟨⟨hs, hfd⟩, hcb⟩ := hb
  refine ⟨s, hr, hs, ?_⟩
  rintro (ho | ⟨th, c, hc, -⟩)
  · exact ho hfd
  · simp [hcb] at hc

end Dlb.Afile
