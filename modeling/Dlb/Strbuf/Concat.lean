import Dlb.Strbuf.Terminator

/-!
# The string of a string buffer

`Call.apply` says what a call makes of a string. As long as there is memory, and the lengths are less than
2^29, the buffer holds just that string: then an `int` is large enough for the room that is left.
-/

namespace Dlb.Strbuf

variable {buf buf' : Strbuf} {a : ℕ → Answer} {b : Answer} {f : ℕ → Formatted} {r : ℤ}
  {s src out : List UInt8} {len : ℤ} {c : Call} {j k n : ℕ}

/-! ## Strings -/

/-- The text that `vsnprintf` makes, if it succeeds. -/
def Formatted.string : Formatted → List UInt8
  | .text out _ => out
  | .error _ _ _ _ => []

/-- What a call makes of a string. -/
def Call.apply (s : List UInt8) : Call → List UInt8
  | .init | .clear => []
  | .resize n => s.take n
  | .capacityHint _ => s
  | .addChar c => s ++ [c]
  | .addString src len => s ++ given src len
  | .printf f => s ++ (f 0).string

/-- The string is not extended by `strbuf_resize`, less than 2^29 bytes are reserved, and `vsnprintf`
    makes the same text in each attempt. -/
def Call.Plain (s : List UInt8) : Call → Prop
  | .resize n => n ≤ s.length
  | .capacityHint n => n < 2 ^ 29
  | .addString src len => (Call.addString src len).Valid
  | .printf f => ∃ out h, ∀ i, f i = .text out h
  | .init | .clear | .addChar _ => True

/-- A call with memory that leaves less than 2^29 bytes. -/
structure Plainly (a : ℕ → Answer) (s : List UInt8) (c : Call) : Prop where
  memory : ∀ i, a i ≠ none
  plain : c.Plain s
  lt : (c.apply s).length < 2 ^ 29

/-- The buffer holds the string. -/
structure Holds (s : List UInt8) (buf : Strbuf) : Prop extends Rounded buf where
  content : buf.content = s
  capacity_le : buf.capacity ≤ 2 ^ 30

theorem Holds.length_eq (h : Holds s buf) : buf.length = s.length := by
  rw [← h.content, h.length_content]

theorem holds_init : Holds [] strbufInit := ⟨rounded_init, rfl, Nat.zero_le _⟩

/-- Another state of the buffer with the string, and a capacity for up to 2^30 - 1 bytes. -/
theorem Holds.of_newCap (h : Valid buf) (hs : buf.content = s) (hc : newCap n = some buf.capacity)
    (hn : n < 2 ^ 30) : Holds s buf := by
  refine ⟨rounded_of_newCap h hc, hs, ?_⟩
  obtain ⟨j, hj, e, -⟩ := newCap_eq hn (by omega) (by omega)
  rw [← Option.some.inj (e.symm.trans hc)]
  exact Nat.pow_le_pow_right Nat.two_pos hj

theorem not_hintFails (hb : b ≠ none) (hn : n < 2 ^ 62) : ¬HintFails b buf n := by
  rintro ⟨-, c, hc, -, hre⟩
  obtain ⟨j, hj, e, -⟩ := newCap_eq hn (by omega) (by omega)
  obtain rfl := Option.some.inj (e.symm.trans hc)
  have hpow : 2 ^ j ≤ 2 ^ 62 := Nat.pow_le_pow_right Nat.two_pos hj
  rcases realloc_eq_none.1 hre with hnone | hge
  · exact hb hnone
  · omega

/-! ## Calls -/

theorem Holds.hint (h : Holds s buf) (hb : b ≠ none) (hn : n < 2 ^ 29) :
    ∃ buf', strbufCapacityHint b buf n = some (0, buf') ∧ Holds s buf' := by
  rcases Nat.lt_or_ge n buf.length with hlt | hle
  · exact ⟨buf, by rw [strbufCapacityHint, if_pos hlt]; rfl, h⟩
  · obtain ⟨r, buf', e, ⟨-, -, hf⟩ | ⟨rfl, -, hr⟩⟩ := h.toValid.hint (show n < 2 ^ 63 by omega) hle b
    · exact absurd hf (not_hintFails hb (by omega))
    · exact ⟨buf', e, .of_newCap hr.valid (hr.content.trans h.content) hr.capacity (by omega)⟩

theorem Holds.resize (h : Holds s buf) (ha : ∀ i, a i ≠ none) (hn : n ≤ s.length)
    (hlt : s.length < 2 ^ 30 - 1) :
    ∃ buf', strbufResize (a 0) (a 1) buf n = some (0, buf') ∧ Holds (s.take n) buf' := by
  obtain ⟨r, buf', e, ⟨-, -, hf⟩ | ⟨rfl, hr⟩⟩ :=
    h.toValid.resize (show n < 2 ^ 63 by omega) (a 0) (a 1)
  · exact absurd hf (not_hintFails (ha 0) (by omega))
  · have hcont : buf'.content = s.take n := by
      have hle : n ≤ buf.length := h.length_eq ▸ hn
      rw [Strbuf.content, hr.length, hr.take n le_rfl hle, ← h.content, Strbuf.content, List.take_take,
        Nat.min_eq_left hle]
    rcases hr.capacity with ⟨hb, hcap⟩ | ⟨m, hm, hcap, -⟩
    · exact ⟨buf', e, ⟨hr.valid, fun _ => hcap ▸ h.pow hb⟩, hcont, hcap ▸ h.capacity_le⟩
    · exact ⟨buf', e, .of_newCap hr.valid hcont hcap (by omega)⟩

theorem Holds.add (h : Holds s buf) (hb : b ≠ none) (hv : (Call.addString src len).Valid)
    (hlt : (s ++ given src len).length < 2 ^ 29) :
    ∃ r buf', strbufAddString b buf src len = some (r, buf') ∧ 0 ≤ r ∧
      Holds (s ++ given src len) buf' := by
  rw [List.length_append, ← h.length_eq] at hlt
  obtain ⟨r, buf', e, ⟨-, -, -, href⟩ | ⟨rfl, happ⟩⟩ := h.toValid.add hv (by omega) b
  · rcases href with hnone | hge
    · exact absurd hnone hb
    · omega
  · refine ⟨_, buf', e, Int.natCast_nonneg _, .of_newCap happ.valid ?_ happ.capacity (by omega)⟩
    rw [happ.content, h.content]

/-! ### `strbuf_vprintf` -/

/-- The room for an attempt with a capacity of up to 2^30. -/
theorem roomAt_eq (hk : 2 ^ k * n ≤ 2 ^ 30) (hlt : j < 2 ^ k * n) :
    roomAt n j k = (2 ^ k * n - j : ℕ) :=
  toInt_eq (by omega)

/-- A text that is not too long fits if the capacity is 2^30. -/
theorem Attempted.cap_le (h : Attempted a f (2 ^ j) n k) (hj : j ≤ 30)
    {hout : out.length < 2 ^ 31} (hf : ∀ i, f i = .text out hout) (hlt : n + out.length < 2 ^ 29) :
    2 ^ k * 2 ^ j ≤ 2 ^ 30 := by
  rw [← Nat.pow_add]
  refine Nat.pow_le_pow_right Nat.two_pos (Nat.not_lt.1 fun hgt => ?_)
  -- The attempt with the capacity 2^30 was made before, and the text has fitted.
  have hcap : 2 ^ (30 - j) * 2 ^ j = 2 ^ 30 := by rw [← Nat.pow_add, Nat.sub_add_cancel hj]
  refine (h (30 - j) (by omega)).1 ?_
  rw [hf, roomAt_eq hcap.le (by omega), hcap]
  refine fits_of_lt (Int.natCast_nonneg _) ?_ (by omega)
  change (out.length : ℤ) + 1 < _
  omega

theorem Holds.printf (h : Holds s buf) (ha : ∀ i, a i ≠ none) {hout : out.length < 2 ^ 31}
    (hf : ∀ i, f i = .text out hout) (hlt : (s ++ out).length < 2 ^ 29) :
    ∃ r buf', strbufVprintf a f buf = some (r, buf') ∧ 0 ≤ r ∧ Holds (s ++ out) buf' := by
  rw [List.length_append, ← h.length_eq] at hlt
  obtain ⟨r, buf', e, ⟨-, -, hno⟩ | ⟨-, k, buf₁, hatt, hres⟩⟩ := h.toRounded.vprintf a f
  · exact absurd hno (not_hintFails (ha 0) (by norm_num))
  obtain ⟨j, h₅, hj⟩ := h.firstCap_eq
  have hj₃₀ : j ≤ 30 := by
    refine (Nat.pow_le_pow_iff_right Nat.one_lt_two).1 ?_
    rw [← hj, firstCap]
    split
    · exact h.capacity_le
    · decide
  have hle : 2 ^ k * firstCap buf ≤ 2 ^ 30 := by
    have hatt' := hatt.attempted
    rw [hj] at hatt' ⊢
    exact hatt'.cap_le hj₃₀ hf hlt
  have hroom := roomAt_eq hle hatt.keeps.lt
  rcases hres with ⟨hfit, rfl, rfl⟩ | ⟨-, hno, -, -⟩
  · have hlt' : (out.length : ℤ) + 1 < roomAt (firstCap buf) buf.length k := by
      rw [hf, Formatted.Fits] at hfit
      change ((out.length : ℤ) + 1).bmod (2 ^ 32) < _ at hfit
      rwa [Int.bmod_eq_of_le (by omega) (by omega)] at hfit
    obtain ⟨hcap, htake⟩ := hatt.text (hf k) hlt'
    have hround := hatt.keeps.rounded h.firstCap_eq
    have hsize : toSize (buf.length + (f k).ret) = buf.length + out.length := by
      rw [hf]
      exact toSize_natCast (n := buf.length + out.length) (by omega)
    have htext := hround.text hatt.keeps.blank
    rw [hsize] at e
    refine ⟨_, _, e, ?_, ⟨⟨?_, hround.text, fun hb => ?_, hround.le⟩, hround.pow⟩, ?_, ?_⟩
    · rw [hf]
      exact Int.natCast_nonneg _
    · change buf.length + out.length < buf₁.text.length
      omega
    · simp [hatt.keeps.blank] at hb
    · have hlen : (buf.content ++ out).length = buf.length + out.length := by
        rw [List.length_append, h.length_content]
      change buf₁.text.take (buf.length + out.length) = _
      have hmin : min (buf.length + out.length) (buf.length + out.length + 1) = buf.length + out.length :=
        Nat.min_eq_left (Nat.le_succ _)
      rw [← hmin, ← List.take_take, htake, List.take_append_of_le_length hlen.ge, ← hlen, List.take_length,
        h.content]
    · change buf₁.capacity ≤ _
      rw [hatt.keeps.capacity]
      exact hle
  · refine absurd ⟨ha (k + 1), ?_⟩ hno
    rw [Nat.pow_succ, Nat.mul_right_comm]
    omega

/-! ## Runs -/

/-- A call makes of the buffer what it makes of the string. -/
theorem Holds.exec (h : Holds s buf) (hc : Plainly a s c) (hs : s.length < 2 ^ 29) :
    ∃ r buf', c.exec a buf = some (r, buf') ∧ 0 ≤ r ∧ Holds (c.apply s) buf' := by
  obtain ⟨ha, hp, hlt⟩ := hc
  cases c with
  | init => exact ⟨0, strbufInit, rfl, le_rfl, holds_init⟩
  | clear => exact ⟨0, strbufInit, rfl, le_rfl, holds_init⟩
  | resize n =>
    obtain ⟨buf', e, h'⟩ := h.resize ha hp (by omega)
    exact ⟨0, buf', e, le_rfl, h'⟩
  | capacityHint n =>
    obtain ⟨buf', e, h'⟩ := h.hint (ha 0) hp
    exact ⟨0, buf', e, le_rfl, h'⟩
  | addChar ch => exact h.add (ha 0) (valid_addChar ch) hlt
  | addString src len => exact h.add (ha 0) hp hlt
  | printf f =>
    obtain ⟨out, hout, hf⟩ := hp
    have hzero : (f 0).string = out := by rw [hf 0]; rfl
    rw [Call.apply, hzero] at hlt ⊢
    exact h.printf ha hf hlt

/-- The strings and the buffers after some calls. -/
inductive Run : List UInt8 → Strbuf → Prop
  | init : Run [] strbufInit
  | step {s : List UInt8} {buf buf' : Strbuf} {a : ℕ → Answer} {c : Call} {r : ℤ} (h : Run s buf)
      (hc : Plainly a s c) (e : c.exec a buf = some (r, buf')) :
      Run (c.apply s) buf'

theorem Run.holds (h : Run s buf) : Holds s buf ∧ s.length < 2 ^ 29 := by
  induction h with
  | init => exact ⟨holds_init, by norm_num⟩
  | step _ hc e ih =>
    obtain ⟨r, buf', e', -, h'⟩ := ih.1.exec hc ih.2
    obtain ⟨-, rfl⟩ := Prod.mk.inj (Option.some.inj (e'.symm.trans e))
    exact ⟨h', hc.lt⟩

/-- The buffer holds the string, in a block of its capacity, and the next call succeeds and makes of the
    buffer what it makes of the string. -/
theorem run_content (h : Run s buf) :
    buf.length = s.length ∧ buf.text.take buf.length = s ∧
      (buf.blank = false → buf.text.length = buf.capacity) ∧
      ∀ a c, Plainly a s c → ∃ r buf', c.exec a buf = some (r, buf') ∧ 0 ≤ r ∧
        buf'.length = (c.apply s).length ∧ buf'.text.take buf'.length = c.apply s := by
  obtain ⟨hh, hlt⟩ := h.holds
  refine ⟨hh.length_eq, hh.content, hh.text, fun a c hc => ?_⟩
  obtain ⟨r, buf', e, hr, h'⟩ := hh.exec hc hlt
  exact ⟨r, buf', e, hr, h'.length_eq, h'.content⟩

/-- A buffer with one character. -/
theorem run_content_char : (120 :: 0 :: List.replicate 30 7).take 1 = [(120 : UInt8)] := by
  have h : Run (Call.apply [] (.addChar 120)) ⟨false, 120 :: 0 :: List.replicate 30 7, 1, 32, false⟩ :=
    .step (a := fun _ => some fun _ => 7) (r := 1) .init ⟨by simp, trivial, by decide⟩ (by decide)
  exact (run_content h).2.1

end Dlb.Strbuf
