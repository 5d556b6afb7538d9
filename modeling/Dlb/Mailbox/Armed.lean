import Mathlib.Tactic.SplitIfs
import Dlb.Machine
import Dlb.Mailbox.Code

/-!
# A wait that is armed can be completed

A wait for any of the flags in the empty set is armed and can never be completed; and a
wait for all flags of the empty set, which completes immediately, leaves a wait for any flags armed
that was so before, but with the empty set. Without these two calls the mailbox
never waits for a flag of the empty set.
-/

namespace Dlb.Mailbox

open Machine

variable {Φ : Type} {m m' : Mailbox Φ} {op : Op Φ}

/-- The mailbox after an operation. -/
def callStep (m : Mailbox Φ) (op : Op Φ) : Option (Mailbox Φ) := some (call m op).2

/-- Raising all flags submits the callback, if a wait is armed. -/
def Completable (m : Mailbox Φ) : Prop := m.mode ≠ .none → (call m (.raise allFlags)).1 = some m.func

/-- The operation does not wait for the empty set, except for all of its flags, and then no wait
for any flag is armed. -/
def Waits (m : Mailbox Φ) : Op Φ → Prop
  | .wait set _ => set ≠ 0
  | .waitAll set _ => set = 0 → m.mode ≠ .any
  | .take _ | .raise _ => True

instance (m : Mailbox Φ) : DecidablePred (Waits m)
  | .wait set _ => inferInstanceAs (Decidable (set ≠ 0))
  | .waitAll set _ => inferInstanceAs (Decidable (set = 0 → m.mode ≠ .any))
  | .take _ | .raise _ => .isTrue trivial

theorem or_allFlags (x : Flags) : x ||| allFlags = allFlags := by
  rw [BitVec.or_comm]
  exact BitVec.allOnes_or

theorem and_allFlags (x : Flags) : x &&& allFlags = x := BitVec.and_allOnes

/-- The only set that can keep a wait from its completion is the empty one. -/
theorem completable_iff : Completable m ↔ (m.mode = .any → m.expected ≠ 0) := by
  simp only [Completable, call, locked, mailboxRaise, fires, or_allFlags, and_allFlags]
  cases hm : m.mode with
  | none | all => simp
  | any =>
    by_cases he : m.expected = 0#32
    · simp [he]
    · simp [he]

theorem expected_call (h : m.mode = .any → m.expected ≠ 0) (hw : Waits m op)
    (hm : (call m op).2.mode = .any) : (call m op).2.expected ≠ 0 := by
  cases op with
  | take clearMask => exact h hm
  | raise setMask =>
    simp only [call, locked, mailboxRaise] at hm ⊢
    split_ifs at hm ⊢ with hf
    exact h hm
  | wait set cb =>
    simp only [call, locked, mailboxWait]
    split <;> exact hw
  | waitAll set cb =>
    simp only [call, locked, mailboxWaitAll] at hm ⊢
    split_ifs at hm ⊢ with hf
    exact fun hset => hw hset hm

/-- Every other call leaves a wait that hangs. -/
theorem not_completable_call (hw : ¬Waits m op) : ¬Completable (call m op).2 := by
  rw [completable_iff]
  cases op with
  | take | raise => exact absurd trivial hw
  | wait set cb =>
    obtain rfl : set = 0 := not_not.1 hw
    simp [call, locked, mailboxWait]
  | waitAll set cb =>
    obtain ⟨rfl, hm⟩ : set = 0 ∧ m.mode = .any := by simpa [Waits] using hw
    simp [call, locked, mailboxWaitAll, hm]

/-- In every run whose calls are as in `Waits`, a wait that is armed is completed when all flags are
raised. -/
theorem run_completable {func : Φ} (hr : Reached callStep Waits (mailboxInit func) m) :
    Completable m := by
  rw [completable_iff]
  refine hr.invariant (I := fun m => m.mode = .any → m.expected ≠ 0) (fun h => by cases h) ?_
  intro m op m' h hw e
  obtain rfl := Option.some.inj e
  exact expected_call h hw

theorem run_completable_wait : ∃ m : Mailbox ℕ, Reached callStep Waits (mailboxInit 0) m ∧
    m.mode = .any ∧ (call m (.raise allFlags)).1 = some 1 := by
  obtain ⟨m, hr, hb⟩ := exists_reached callStep (fun m op => Waits (m : Mailbox ℕ) op)
    (mailboxInit 0) [.raise 1, .waitAll 0 0, .take 1, .wait 3 1]
    (fun m => decide (m.mode = .any ∧ m.func = 1)) (by decide +kernel)
  obtain ⟨hm, hf⟩ := of_decide_eq_true hb
  exact ⟨m, hr, hm, by rw [run_completable hr (by simp [hm]), hf]⟩

/-- A wait for the empty set hangs. -/
theorem wait_empty_hangs : ∃ m : Mailbox ℕ, Reached callStep (fun _ _ => True) (mailboxInit 0) m ∧
    ¬Completable m := by
  obtain ⟨m, hr, hb⟩ := exists_reached callStep (fun _ _ => True)
    (mailboxInit 0 : Mailbox ℕ) [.wait 0 1]
    (fun m => decide (m.mode = .any ∧ m.expected = 0)) (by decide +kernel)
  obtain ⟨hm, he⟩ := of_decide_eq_true hb
  exact ⟨m, hr, fun h => completable_iff.1 h hm he⟩

end Dlb.Mailbox
