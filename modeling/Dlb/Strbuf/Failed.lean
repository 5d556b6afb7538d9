import Dlb.Machine
import Dlb.Strbuf.Print

/-!
# Failed calls for a string buffer

A call that returns -1 leaves the string as it was, unless `vsnprintf` has returned -1. Only
`strbuf_resize` and the loop of `strbuf_vprintf` set the flag, while `strbuf_add_string` and the first
reservation of `strbuf_vprintf` do not.
-/

namespace Dlb.Strbuf

variable {buf buf' buf₁ : Strbuf} {a : ℕ → Answer} {b b' : Answer} {f : ℕ → Formatted} {r : ℤ}
  {src : List UInt8} {len m : ℤ} {c : Call} {n : ℕ}

/-! ## The flag -/

theorem hint_failed (e : strbufCapacityHint b buf n = some (r, buf')) : buf'.failed = buf.failed := by
  rcases hint_cases e with ⟨-, rfl, -⟩ | ⟨-, -, ⟨rfl, -⟩ | ⟨-, _, _, -, -, rfl⟩⟩
  · rfl
  · rfl
  · rfl

theorem append_failed {k : ℕ} (e : append buf src k n = some buf') : buf'.failed = buf.failed := by
  simp only [append, Option.bind_eq_bind] at e
  split at e
  · cases e
  · obtain ⟨_, -, e⟩ := Option.bind_eq_some_iff.1 e
    obtain ⟨_, -, e⟩ := Option.bind_eq_some_iff.1 e
    cases e
    rfl

theorem setLength_failed (e : setLength b buf n = some buf') : buf'.failed = buf.failed := by
  simp only [setLength, Option.bind_eq_bind] at e
  obtain ⟨_, -, e⟩ := Option.bind_eq_some_iff.1 e
  split at e
  · obtain ⟨⟨r, buf₁⟩, e₁, e⟩ := Option.bind_eq_some_iff.1 e
    cases e
    exact (hint_failed e₁).trans rfl
  · cases e
    rfl

/-- The length is set, or the memory for it is refused. -/
theorem resize_cases (e : strbufResize b b' buf n = some (r, buf')) :
    r = -1 ∧ buf' = { buf with failed := true } ∨
      r = 0 ∧ ∃ buf₁, buf₁.failed = buf.failed ∧ setLength b' buf₁ n = some buf' := by
  simp only [strbufResize, Option.bind_eq_bind] at e
  split at e
  · obtain ⟨⟨r₁, buf₁⟩, e₁, e₂⟩ := Option.bind_eq_some_iff.1 e
    rcases hint_cases e₁ with ⟨rfl, rfl, -⟩ | ⟨rfl, -⟩
    · cases e₂
      exact .inl ⟨rfl, rfl⟩
    · obtain ⟨buf₂, e₃, e₄⟩ := Option.bind_eq_some_iff.1 e₂
      cases e₄
      exact .inr ⟨rfl, buf₁, hint_failed e₁, e₃⟩
  · obtain ⟨_, hp, e₂⟩ := Option.bind_eq_some_iff.1 e
    cases hp
    obtain ⟨buf₂, e₃, e₄⟩ := Option.bind_eq_some_iff.1 e₂
    cases e₄
    exact .inr ⟨rfl, buf, rfl, e₃⟩

/-- The bytes are appended, or the memory for them is refused. -/
theorem addString_cases (e : strbufAddString b buf src len = some (r, buf')) :
    ∃ m, givenLength src len = some m ∧
      (r = -1 ∧ buf' = buf ∧ HintFails b buf (toSize (buf.length + m)) ∨
        r = m ∧ ∃ buf₁, strbufCapacityHint b buf (toSize (buf.length + m)) = some (0, buf₁) ∧
          append buf₁ src (toSize m) (toSize (buf₁.length + m)) = some buf') := by
  simp only [strbufAddString, Option.bind_eq_bind] at e
  obtain ⟨m, hm, e₀⟩ := Option.bind_eq_some_iff.1 e
  obtain ⟨⟨r₁, buf₁⟩, e₁, e₂⟩ := Option.bind_eq_some_iff.1 e₀
  refine ⟨m, hm, ?_⟩
  rcases hint_cases e₁ with ⟨rfl, rfl, hf⟩ | ⟨rfl, -⟩
  · cases e₂
    exact .inl ⟨rfl, rfl, hf⟩
  · obtain ⟨buf₂, e₃, e₄⟩ := Option.bind_eq_some_iff.1 e₂
    cases e₄
    exact .inr ⟨rfl, buf₁, e₁, e₃⟩

theorem vprintfLoop_failed {fuel i : ℕ} (hb : buf.failed = true)
    (e : vprintfLoop a f fuel i buf = some (r, buf')) : buf'.failed = true := by
  induction fuel generalizing i buf with
  | zero => cases e
  | succ fuel ih =>
    rw [vprintfLoop, Option.bind_eq_bind] at e
    obtain ⟨text, -, e⟩ := Option.bind_eq_some_iff.1 e
    by_cases hfit : (f i).Fits ({ buf with text := text } : Strbuf).room
    · have e := (if_pos hfit).symm.trans e
      cases e
      exact hb
    · have e := (if_neg hfit).symm.trans e
      obtain ⟨⟨r₁, buf₁⟩, e₁, e⟩ := Option.bind_eq_some_iff.1 e
      by_cases hr : r₁ < 0
      · have e := (if_pos hr).symm.trans e
        cases e
        rfl
      · have e := (if_neg hr).symm.trans e
        exact ih ((hint_failed e₁).trans hb) e

/-- The calls that make the buffer an empty one. -/
def Call.Empties : Call → Prop
  | .init | .clear => True
  | .resize _ | .capacityHint _ | .addChar _ | .addString _ _ | .printf _ => False

/-- The flag stays set. -/
theorem exec_failed (hb : buf.failed = true) (hc : ¬c.Empties) (e : c.exec a buf = some (r, buf')) :
    buf'.failed = true := by
  cases c with
  | init => exact absurd trivial hc
  | clear => exact absurd trivial hc
  | resize n =>
    rcases resize_cases e with ⟨-, rfl⟩ | ⟨-, buf₁, hfailed, e⟩
    · rfl
    · exact (setLength_failed e).trans (hfailed.trans hb)
  | capacityHint n => exact (hint_failed e).trans hb
  | addChar ch =>
    obtain ⟨m, -, ⟨-, rfl, -⟩ | ⟨-, buf₁, e₁, e₂⟩⟩ := addString_cases e
    · exact hb
    · exact (append_failed e₂).trans ((hint_failed e₁).trans hb)
  | addString src len =>
    obtain ⟨m, -, ⟨-, rfl, -⟩ | ⟨-, buf₁, e₁, e₂⟩⟩ := addString_cases e
    · exact hb
    · exact (append_failed e₂).trans ((hint_failed e₁).trans hb)
  | printf f =>
    simp only [Call.exec, strbufVprintf, Option.bind_eq_bind] at e
    obtain ⟨⟨r₁, buf₁⟩, e₁, e⟩ := Option.bind_eq_some_iff.1 e
    by_cases hr : r₁ < 0
    · have e := (if_pos hr).symm.trans e
      cases e
      exact (hint_failed e₁).trans hb
    · have e := (if_neg hr).symm.trans e
      exact vprintfLoop_failed ((hint_failed e₁).trans hb) e

/-- A call, with the answers to its requests for memory. -/
def step (buf : Strbuf) (x : (ℕ → Answer) × Call) : Option Strbuf :=
  (x.2.exec x.1 buf).map Prod.snd

/-- Calls that do not make the buffer an empty one lead from `buf` to `buf'`. -/
def Later (buf buf' : Strbuf) : Prop := Machine.Reached step (fun _ x => ¬x.2.Empties) buf buf'

theorem later_failed (hb : buf.failed = true) (h : Later buf buf') : buf'.failed = true := by
  refine h.invariant (I := fun buf => buf.failed = true) hb fun {buf x buf'} hb hc e => ?_
  obtain ⟨⟨r, buf₁⟩, e₁, rfl⟩ := Option.map_eq_some_iff.1 e
  exact exec_failed hb hc e₁

/-! ## Failures -/

/-- The string is unchanged, and the flag is set. -/
structure Intact (buf buf' : Strbuf) : Prop where
  length : buf'.length = buf.length
  take : buf'.text.take buf.length = buf.text.take buf.length
  failed : buf'.failed = true

/-- The functions that are to set the flag if they return -1. -/
def Call.Reports : Call → Prop
  | .resize _ | .addChar _ | .addString _ _ | .printf _ => True
  | .init | .clear | .capacityHint _ => False

/-- A failure of the call is remembered: the flag is set then, and later calls do not reset it. -/
def Call.Remembered (a : ℕ → Answer) (buf : Strbuf) (c : Call) : Prop :=
  ∀ buf', c.exec a buf = some (-1, buf') →
    Intact buf buf' ∧ ∀ buf'', Later buf' buf'' → buf''.failed = true

/-- No memory is refused where the flag is not set, and `vsnprintf` does not return -1 in an attempt
    that fits. -/
def Call.Recorded (a : ℕ → Answer) (buf : Strbuf) : Call → Prop
  | .addChar _ => HintFails (a 0) buf (buf.length + 1) → buf.failed = true
  | .addString src len => ∀ m, givenLength src len = some m →
    HintFails (a 0) buf (toSize (buf.length + m)) → buf.failed = true
  | .printf f => (HintFails (a 0) buf 1 → buf.failed = true) ∧ (¬HintFails (a 0) buf 1 →
    ∀ k, Attempted a f (firstCap buf) buf.length k →
      (f k).Fits (roomAt (firstCap buf) buf.length k) → (f k).ret ≠ -1)
  | .init | .clear | .resize _ | .capacityHint _ => True

theorem remembered_of_intact (h : ∀ buf', c.exec a buf = some (-1, buf') → Intact buf buf') :
    c.Remembered a buf :=
  fun buf' e => ⟨h buf' e, fun _ hl => later_failed (h buf' e).failed hl⟩

/-- A refused request is a failure of `strbuf_capacity_hint`. -/
theorem HintFails.hint (h : HintFails b buf n) : strbufCapacityHint b buf n = some (-1, buf) := by
  obtain ⟨hle, c, hc, hne, hre⟩ := h
  simp [strbufCapacityHint, Nat.not_lt.2 hle, hc, hne, hre]

theorem HintFails.addString (hm : givenLength src len = some m)
    (h : HintFails b buf (toSize (buf.length + m))) :
    strbufAddString b buf src len = some (-1, buf) := by
  simp [strbufAddString, hm, h.hint]

theorem intact_of_failed (h : buf.failed = true) : Intact buf buf := ⟨rfl, rfl, h⟩

/-- `strbuf_add_string` returns -1 only if memory is refused. -/
theorem addString_remembered (h : Valid buf) :
    (∀ buf', strbufAddString b buf src len = some (-1, buf') → Intact buf buf') ↔
      ∀ m, givenLength src len = some m → HintFails b buf (toSize (buf.length + m)) →
        buf.failed = true := by
  constructor
  · intro hi m hm hf
    exact (hi buf (hf.addString hm)).failed
  · intro hrec buf' e
    obtain ⟨m, hm, ⟨-, rfl, hf⟩ | ⟨rfl, buf₁, e₁, e₂⟩⟩ := addString_cases e
    · exact intact_of_failed (hrec m hm hf)
    · -- A negative length is that of no block.
      have hbig : buf₁.text.length < 2 ^ 63 := by
        rcases h.capacityHint_cases e₁ with ⟨h₀, -⟩ | ⟨-, hbig⟩
        · cases h₀
        · exact hbig
      rw [append_eq_none (by decide) (by decide) hbig] at e₂
      cases e₂

theorem printf_remembered (h : Rounded buf) :
    (∀ buf', strbufVprintf a f buf = some (-1, buf') → Intact buf buf') ↔
      (Call.printf f).Recorded a buf := by
  obtain ⟨r, buf', e, hcase⟩ := h.vprintf a f
  constructor
  · -- The attempt in which -1 is taken for a length that fits is the last one.
    intro hi
    rcases hcase with ⟨rfl, rfl, hf⟩ | ⟨hf, k, buf₁, hatt, hres⟩
    · exact ⟨fun _ => (hi buf' e).failed, fun hno => absurd hf hno⟩
    · refine ⟨fun hyes => absurd hyes hf, fun _ k' hatt' hfit hret => ?_⟩
      obtain ⟨hfit', rfl, rfl⟩ | ⟨hno, hgrow, -⟩ := hres
      · obtain rfl := hatt'.eq hatt.attempted (.inl hfit) (.inl hfit')
        -- The length is reduced by one.
        rw [hret] at e
        have hlen := (hi _ e).length
        have hlt := h.length_lt
        change toSize (buf.length + -1) = buf.length at hlen
        rw [toSize] at hlen
        omega
      · obtain rfl := hatt'.eq hatt.attempted (.inl hfit) (.inr hgrow)
        exact hno hfit
  · intro hrec buf'' e'
    obtain ⟨rfl, rfl⟩ := Prod.mk.inj (Option.some.inj (e.symm.trans e'))
    rcases hcase with ⟨-, rfl, hf⟩ | ⟨hf, k, buf₁, hatt, ⟨hfit, hret, -⟩ | ⟨-, -, -, rfl⟩⟩
    · exact intact_of_failed (hrec.1 hf)
    · exact absurd hret.symm (hrec.2 hf k hatt.attempted hfit)
    · refine ⟨hatt.keeps.length, ?_, rfl⟩
      have hcont := hatt.keeps.content
      rwa [content, content, hatt.keeps.length] at hcont

/-- A failure is remembered if and only if it is recorded. -/
theorem remembered_iff_recorded (h : Rounded buf) (hc : c.Reports) :
    c.Remembered a buf ↔ c.Recorded a buf := by
  have key : (∀ buf', c.exec a buf = some (-1, buf') → Intact buf buf') ↔ c.Recorded a buf := by
    cases c with
    | init => cases hc
    | clear => cases hc
    | capacityHint n => cases hc
    | resize n =>
      refine iff_of_true (fun buf' e => ?_) trivial
      rcases resize_cases e with ⟨-, rfl⟩ | ⟨h₀, -⟩
      · exact ⟨rfl, rfl, rfl⟩
      · cases h₀
    | addChar ch =>
      refine (addString_remembered h.toValid).trans ?_
      have hone : givenLength [ch] 1 = some 1 := rfl
      have hsize : toSize ((buf.length : ℤ) + 1) = buf.length + 1 :=
        toSize_natCast (n := buf.length + 1) (by have := h.length_lt; omega)
      constructor
      · intro hrec hf
        exact hrec 1 hone (by rwa [hsize])
      · intro hrec m hm hf
        obtain rfl := Option.some.inj (hone.symm.trans hm)
        exact hrec (by rwa [hsize] at hf)
    | addString src len => exact addString_remembered h.toValid
    | printf f => exact printf_remembered h
  refine Iff.trans ⟨fun hr buf' e => (hr buf' e).1, remembered_of_intact⟩ key

/-- A new buffer that has been told to format a text. -/
theorem remembered_printf_init : Rounded strbufInit ∧
    ((Call.printf fun _ => .text [120] (by decide)).Remembered (fun _ => none) strbufInit ↔
      (Call.printf fun _ => .text [120] (by decide)).Recorded (fun _ => none) strbufInit) :=
  ⟨rounded_init, remembered_iff_recorded rounded_init trivial⟩

/-- A character that is not added to a new buffer is forgotten. -/
theorem not_remembered : ¬(Call.addChar 120).Remembered (fun _ => none) strbufInit := by
  intro h
  have hfailed := (h strbufInit (by decide)).1.failed
  exact absurd hfailed (by decide)

end Dlb.Strbuf
