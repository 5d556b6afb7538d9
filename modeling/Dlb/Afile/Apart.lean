import Mathlib.Tactic.Common
import Dlb.Machine
import Dlb.Afile.Code

/-!
# Reads and writes apart

A read and a write may be outstanding at the same time, and one run of `ioq_cb` may complete both. The
result of each should be recorded in its own fields. The result of `write` is recorded in
those of the read: this does no harm only where both have the result already.
-/

namespace Dlb.Afile

variable {Φ B : Type} {a : Afile Φ B} {call : Φ → Afile Φ B → Afile Φ B} {rd wr ans : Answer}
  {x : ℕ × ℤ}

/-- All operations fail, as the wait ended with an error or as they are cancelled. -/
def Fails (a : Afile Φ B) : Prop := a.fd.err ≠ 0 ∨ a.flags.cancel = true

instance (a : Afile Φ B) : Decidable (Fails a) := instDecidableOr

/-- The byte count and the error of an operation: the system call is made unless all of
them fail. -/
def outcome (a : Afile Φ B) (ans : Answer) : ℕ × ℤ :=
  if Fails a then (0, a.fd.err) else if ans.r < 0 then (0, ans.err) else (ans.r.toNat, 0)

/-- The operation with another outcome. -/
def AfileOp.record (op : AfileOp Φ B) (x : ℕ × ℤ) : AfileOp Φ B :=
  { op with size := x.1, error := x.2 }

/-- A run of `ioq_cb` from the file `a` records the outcome of each operation in its own fields only. -/
structure Apart (a : Afile Φ B) (rd wr : Answer) (c : CbRun Φ B) : Prop where
  begun : c.begun.read = a.read ∧ c.begun.write = a.write
  read : ∀ b ∈ c.read, b.read = a.read.record (outcome a rd) ∧ b.write = a.write
  between : c.read = none → c.between = c.begun
  write : ∀ b ∈ c.write,
    b.write = c.between.write.record (outcome a wr) ∧ b.read = c.between.read

section System

open Machine

variable {T : Type} [DecidableEq T] {s : State Φ B T} {th : T} {perform : Flags} {error : ℤ}

/-- The read of a callback, if there is one. -/
theorem read_reached (hcb : s.cb th = some ⟨perform, error⟩) (rd : Answer) :
    ∃ s', Reached step Legal s s' ∧
      s'.cb = Function.update s.cb th (some ⟨{ perform with read := false }, error⟩) ∧
      s'.file = if perform.read then performRead s.file perform.cancel error rd else s.file := by
  obtain ⟨r, w, c⟩ := perform
  cases r with
  | true =>
    refine ⟨_, Reached.refl.next (a := .performRead th rd) trivial (by rw [step, hcb]), rfl, rfl⟩
  | false => exact ⟨s, .refl, (Function.update_eq_self_iff.2 hcb.symm).symm, rfl⟩

theorem cbReturn_step {c : Bool} (hcb : s.cb th = some ⟨⟨false, false, c⟩, error⟩) :
    step s (.cbReturn th) = some { s with cb := Function.update s.cb th none } := by
  simp only [step, hcb]

/-- The write of a callback, if there is one, and its end. -/
theorem write_reached (hcb : s.cb th = some ⟨{ perform with read := false }, error⟩) (wr : Answer) :
    ∃ s', Reached step Legal s s' ∧ s'.cb = Function.update s.cb th none ∧
      s'.file = if perform.write then performWrite s.file perform.cancel error wr else s.file := by
  obtain ⟨r, w, c⟩ := perform
  cases w with
  | true =>
    have e : step s (.performWrite th wr) = some { s with
        file := performWrite s.file c error wr
        cb := Function.update s.cb th (some ⟨⟨false, false, c⟩, error⟩)
        writing := .none } := by
      simp only [step, hcb]
    refine ⟨_, (Reached.refl.next (a := .performWrite th wr) trivial e).next
      (a := .cbReturn th) trivial (cbReturn_step (Function.update_self ..)), ?_, rfl⟩
    exact Function.update_idem ..
  | false => exact ⟨_, Reached.refl.next (a := .cbReturn th) trivial (cbReturn_step hcb), rfl, rfl⟩

/-- What a callback does to the file, if no other thread and no function takes a step meanwhile. -/
theorem ioqCb_reached {fd : IoqFd} (hcb : s.cb th = none) (hfd : s.file.fd.deliver = some fd)
    (rd wr : Answer) :
    ∃ s', Reached step Legal s s' ∧ s'.cb = s.cb ∧
      s'.file = (ioqCb (fun _ b => b) { s.file with fd := fd } rd wr).done := by
  obtain ⟨perform, error, file, hw⟩ : ∃ perform error file,
      endWait { s.file with fd := fd } = (perform, error, file) := ⟨_, _, _, rfl⟩
  obtain ⟨s₀, hs₀⟩ : ∃ s₀ : State Φ B T, s₀ = { s with
      file := file
      cb := Function.update s.cb th (some ⟨perform, error⟩) } := ⟨_, rfl⟩
  have e : step s (.endWait th) = some s₀ := by
    simp only [step, hcb, hfd, Option.map_some, hw, hs₀]
  have hcb₀ : s₀.cb th = some ⟨perform, error⟩ := by
    rw [hs₀]
    exact Function.update_self ..
  obtain ⟨s₁, h₁, hcb₁, hf₁⟩ := read_reached hcb₀ rd
  obtain ⟨s₂, h₂, hcb₂, hf₂⟩ := write_reached (by rw [hcb₁, Function.update_self]) wr
  refine ⟨s₂, (Reached.refl.next (a := .endWait th) trivial e).trans (h₁.trans h₂), ?_, ?_⟩
  · rw [hcb₂, hcb₁, hs₀, Function.update_idem, Function.update_idem, ← hcb, Function.update_eq_self]
  · rw [hf₂, hf₁, hs₀, ioqCb, hw]
    dsimp only
    split_ifs <;> rfl

end System

end Dlb.Afile
