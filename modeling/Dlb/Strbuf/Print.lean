import Dlb.Strbuf.Reserve

/-!
# Formatting into a string buffer

`strbuf_vprintf` lets `vsnprintf` write behind the string, and doubles the capacity until the text fits.
What it has written is not taken back when there is no memory for another attempt.
-/

namespace Dlb.Strbuf

variable {buf buf' buf₁ : Strbuf} {a : ℕ → Answer} {f : ℕ → Formatted} {fm : Formatted} {r : ℤ}
  {c i j k n fuel : ℕ}

/-- The buffer `buf'` is `buf` with the capacity `c`, and maybe with other bytes behind the string. -/
structure Keeps (buf : Strbuf) (c : ℕ) (buf' : Strbuf) : Prop where
  valid : Valid buf'
  blank : buf'.blank = false
  capacity : buf'.capacity = c
  length : buf'.length = buf.length
  failed : buf'.failed = buf.failed
  content : buf'.content = buf.content

theorem Roomy.keeps (h : Roomy buf n buf') : Keeps buf buf'.capacity buf' :=
  ⟨h.valid, h.blank, rfl, h.length, h.failed, h.content⟩

theorem Keeps.trans {buf'' : Strbuf} {c' : ℕ} (h : Keeps buf c buf') (h' : Keeps buf' c' buf'') :
    Keeps buf c' buf'' :=
  ⟨h'.valid, h'.blank, h'.capacity, h'.length.trans h.length, h'.failed.trans h.failed,
    h'.content.trans h.content⟩

theorem Keeps.lt (h : Keeps buf c buf') : buf.length < c := by
  have hlt := h.valid.lt
  rwa [h.valid.text h.blank, h.length, h.capacity] at hlt

/-! ## Attempts -/

/-- The room for attempt number `k`, if the capacity is `c` at first. -/
def roomAt (c length k : ℕ) : ℤ := toInt (2 ^ k * c - length)

/-- There is memory after attempt number `k`. -/
def Grows (a : ℕ → Answer) (c k : ℕ) : Prop := a (k + 1) ≠ none ∧ 2 ^ (k + 1) * c < 2 ^ 63

/-- Attempt number `k` is made. -/
def Attempted (a : ℕ → Answer) (f : ℕ → Formatted) (c length k : ℕ) : Prop :=
  ∀ i < k, ¬(f i).Fits (roomAt c length i) ∧ Grows a c i

theorem Attempted.succ {length : ℕ} (h : Attempted a f c length k)
    (hfit : ¬(f k).Fits (roomAt c length k)) (hgrow : Grows a c k) :
    Attempted a f c length (k + 1) := by
  intro i hi
  rcases Nat.lt_succ_iff_lt_or_eq.1 hi with hi | rfl
  · exact h i hi
  · exact ⟨hfit, hgrow⟩

/-- The last attempt is the only one that is made and ends the loop. -/
theorem Attempted.eq {length k' : ℕ} (h : Attempted a f c length k) (h' : Attempted a f c length k')
    (hend : (f k).Fits (roomAt c length k) ∨ ¬Grows a c k)
    (hend' : (f k').Fits (roomAt c length k') ∨ ¬Grows a c k') : k = k' := by
  -- No attempt is made after one that ends the loop.
  have key : ∀ {m m'}, Attempted a f c length m' →
      ((f m).Fits (roomAt c length m) ∨ ¬Grows a c m) → m' ≤ m := by
    intro m m' hm hend
    by_contra hlt
    obtain ⟨hfit, hgrow⟩ := hm m (Nat.not_le.1 hlt)
    exact hend.elim hfit fun hno => hno hgrow
  exact Nat.le_antisymm (key h hend') (key h' hend)

theorem room_eq (h : buf.length < buf.capacity) (hle : buf.capacity ≤ 2 ^ 62) :
    buf.room = toInt (buf.capacity - buf.length) := by
  have hmod : (buf.capacity + (2 ^ 64 - buf.length)) % 2 ^ 64 = buf.capacity - buf.length := by
    omega
  rw [room, hmod]

theorem toInt_emod (n : ℕ) : toInt n % 2 ^ 32 = n % 2 ^ 32 := by
  have h := Int.bmod_emod (x := (n : ℤ)) (m := 2 ^ 32)
  exact h

/-- What `vsnprintf` writes is within the room, or within the first 2^31 bytes if the room is negative
    as an `int`. -/
theorem length_written_le (fm : Formatted) (h : 0 < n) :
    (fm.written (toSize (toInt n))).length ≤ n := by
  have hmod := toInt_emod n
  obtain ⟨hlt, hge⟩ := toInt_bounds n
  have hsize : toSize (toInt n) ≤ n ∨ 2 ^ 31 ≤ n := by
    rw [toSize]
    omega
  cases fm with
  | text out hout =>
    rw [Formatted.written]
    split
    · exact Nat.zero_le n
    · rw [List.length_append, List.length_take, List.length_singleton]
      omega
  | error r bytes hr hbytes =>
    rw [Formatted.written, List.length_take]
    omega

/-- The string is not written to. -/
theorem Keeps.write (h : Keeps buf c buf₁) (fm : Formatted) :
    ∃ text, buf₁.write buf₁.length (fm.written (toSize buf₁.room)) = some text ∧
      Keeps buf c { buf₁ with text := text } ∧
      text.take (buf.length + (fm.written (toSize buf₁.room)).length) =
        buf.content ++ fm.written (toSize buf₁.room) := by
  have hlt : buf₁.length < buf₁.capacity := by
    rw [h.length, h.capacity]
    exact h.lt
  have htext := h.valid.text h.blank
  have hle : buf₁.length + (fm.written (toSize buf₁.room)).length ≤ buf₁.text.length := by
    have := length_written_le fm (show 0 < buf₁.capacity - buf₁.length by omega)
    rw [room_eq hlt h.valid.le, htext]
    omega
  have hw := written_write hle
  have hcont : buf₁.text.take buf₁.length = buf.content := h.content
  refine ⟨_, write_eq h.blank hle, ⟨⟨?_, fun _ => ?_, fun hb => ?_, h.valid.le⟩, h.blank, h.capacity,
    h.length, h.failed, ?_⟩, ?_⟩
  · rw [hw.length]
    exact h.valid.lt
  · rw [hw.length, htext]
  · simp [h.blank] at hb
  · exact (hw.before _ le_rfl).trans hcont
  · rw [← h.length, hw.upTo, hcont]

/-- The capacity is doubled. -/
theorem Keeps.double (h : Keeps buf (2 ^ j) buf₁) (hj : 5 ≤ j) (a : Answer) :
    ∃ r buf₂, strbufCapacityHint a buf₁ ((buf₁.capacity + 1) % 2 ^ 64) = some (r, buf₂) ∧
      (r = -1 ∧ buf₂ = buf₁ ∧ ¬(a ≠ none ∧ 2 ^ (j + 1) < 2 ^ 63) ∨
        r = 0 ∧ (a ≠ none ∧ 2 ^ (j + 1) < 2 ^ 63) ∧ Keeps buf (2 ^ (j + 1)) buf₂) := by
  have hle := h.valid.le
  have hlt := h.lt
  have hl := h.length
  have hpow : 2 ^ 5 ≤ 2 ^ j := Nat.pow_le_pow_right Nat.two_pos hj
  rw [h.capacity] at hle ⊢
  have hmod : (2 ^ j + 1) % 2 ^ 64 = 2 ^ j + 1 := Nat.mod_eq_of_lt (by omega)
  have hsucc : 2 ^ (j + 1) = 2 * 2 ^ j := by rw [Nat.pow_succ, Nat.mul_comm]
  have hcap : newCap (2 ^ j + 1) = some (2 ^ (j + 1)) := by
    have hj' : j ≤ 62 := (Nat.pow_le_pow_iff_right Nat.one_lt_two).1 hle
    obtain ⟨j', hj', e, hlt'⟩ := newCap_eq (n := 2 ^ j + 1) (b := j + 1) (by omega) (by omega) (by omega)
    have hgt : j < j' := (Nat.pow_lt_pow_iff_right Nat.one_lt_two).1 (show 2 ^ j < 2 ^ j' by omega)
    rw [e, Nat.le_antisymm hj' hgt]
  rw [hmod]
  obtain ⟨r, buf₂, e, ⟨rfl, rfl, -, c, hc, -, hre⟩ | ⟨rfl, hf, hr⟩⟩ :=
    h.valid.hint (show 2 ^ j + 1 < 2 ^ 63 by omega) (by omega) a
  · refine ⟨-1, buf₂, e, .inl ⟨rfl, rfl, ?_⟩⟩
    obtain rfl := Option.some.inj (hc.symm.trans hcap)
    rcases realloc_eq_none.1 hre with rfl | hge
    · exact fun hgrow => hgrow.1 rfl
    · exact fun hgrow => Nat.not_le.2 hgrow.2 hge
  · have hc : buf₂.capacity = 2 ^ (j + 1) := Option.some.inj (hr.capacity.symm.trans hcap)
    refine ⟨0, buf₂, e, .inr ⟨rfl, ?_, hc ▸ h.trans hr.keeps⟩⟩
    by_contra hno
    refine hf ⟨by omega, _, hcap, ?_, ?_⟩
    · rw [h.capacity]
      omega
    · rw [realloc_eq_none]
      by_cases ha : a = none
      · exact .inl ha
      · exact .inr (Nat.not_lt.1 fun hlt => hno ⟨ha, hlt⟩)

/-! ## The loop -/

/-- Attempt number `k` is made, and leaves `buf₁`. -/
structure Attempt (a : ℕ → Answer) (f : ℕ → Formatted) (buf : Strbuf) (c k : ℕ) (buf₁ : Strbuf) :
    Prop where
  attempted : Attempted a f c buf.length k
  keeps : Keeps buf (2 ^ k * c) buf₁
  take : buf₁.text.take
      (buf.length + ((f k).written (toSize (roomAt c buf.length k))).length) =
    buf.content ++ (f k).written (toSize (roomAt c buf.length k))

/-- The result of the loop: the last attempt has fitted, or there is no memory for the next one. -/
def Result (a : ℕ → Answer) (f : ℕ → Formatted) (buf : Strbuf) (c k : ℕ) (buf₁ : Strbuf) (r : ℤ)
    (buf' : Strbuf) : Prop :=
  (f k).Fits (roomAt c buf.length k) ∧ r = (f k).ret ∧
      buf' = { buf₁ with length := toSize (buf.length + (f k).ret) } ∨
    ¬(f k).Fits (roomAt c buf.length k) ∧ ¬Grows a c k ∧ r = -1 ∧ buf' = { buf₁ with failed := true }

section

variable {buf₂ buf₃ : Strbuf} {text : List UInt8}

/-- An attempt that fits. -/
theorem vprintfLoop_fit (e : buf₁.write buf₁.length ((f i).written (toSize buf₁.room)) = some text)
    (h : buf₂ = { buf₁ with text := text }) (hfit : (f i).Fits buf₂.room) :
    vprintfLoop a f (fuel + 1) i buf₁ =
      some ((f i).ret, { buf₂ with length := toSize (buf₂.length + (f i).ret) }) := by
  subst h
  rw [vprintfLoop, e, Option.bind_eq_bind, Option.bind_some]
  exact if_pos hfit

/-- An attempt that does not fit. -/
theorem vprintfLoop_next (e : buf₁.write buf₁.length ((f i).written (toSize buf₁.room)) = some text)
    (h : buf₂ = { buf₁ with text := text }) (hfit : ¬(f i).Fits buf₂.room)
    (e₃ : strbufCapacityHint (a (i + 1)) buf₂ ((buf₂.capacity + 1) % 2 ^ 64) = some (r, buf₃)) :
    vprintfLoop a f (fuel + 1) i buf₁ =
      if r < 0 then some (-1, { buf₃ with failed := true }) else vprintfLoop a f fuel (i + 1) buf₃ := by
  subst h
  rw [vprintfLoop, e, Option.bind_eq_bind, Option.bind_some]
  refine (if_neg hfit).trans ?_
  rw [e₃, Option.bind_eq_bind, Option.bind_some]
  rfl

end

/-- The loop ends, as the capacity is doubled for each attempt. -/
theorem vprintfLoop_spec (h : Keeps buf (2 ^ i * c) buf₁) (hj : 2 ^ i * c = 2 ^ j) (h₅ : 5 ≤ j)
    (hfuel : 63 ≤ j + fuel) (hatt : Attempted a f c buf.length i) :
    ∃ k buf₂ r buf', vprintfLoop a f fuel i buf₁ = some (r, buf') ∧
      Attempt a f buf c k buf₂ ∧ Result a f buf c k buf₂ r buf' := by
  have hle := h.valid.le
  rw [h.capacity] at hle
  induction fuel generalizing i j buf₁ with
  | zero =>
    -- The capacity would be 2^63 or more.
    have : j ≤ 62 := (Nat.pow_le_pow_iff_right Nat.one_lt_two).1 (hj ▸ hle)
    omega
  | succ fuel ih =>
    have hroom : buf₁.room = roomAt c buf.length i := by
      rw [room_eq _ h.valid.le, roomAt, h.capacity, h.length]
      rw [h.capacity, h.length]
      exact h.lt
    obtain ⟨text, e, hk, htake⟩ := h.write (f i)
    obtain ⟨buf₂, hbuf₂⟩ : ∃ buf₂, buf₂ = { buf₁ with text := text } := ⟨_, rfl⟩
    have hroom₂ : buf₂.room = roomAt c buf.length i := by rw [hbuf₂, ← hroom, room, room]
    have hlen₂ : buf₂.length = buf.length := by rw [hbuf₂, h.length]
    rw [← hbuf₂] at hk
    have hattempt : Attempt a f buf c i buf₂ := ⟨hatt, hk, by rw [← hroom, hbuf₂]; exact htake⟩
    by_cases hfit : (f i).Fits (roomAt c buf.length i)
    · refine ⟨i, buf₂, _, _, vprintfLoop_fit e hbuf₂ (by rwa [hroom₂]), hattempt, .inl ⟨hfit, rfl, ?_⟩⟩
      rw [hlen₂]
    · -- The capacity is doubled, unless there is no memory.
      rw [hj] at hk
      have hsucc : 2 ^ (i + 1) * c = 2 ^ (j + 1) := by
        rw [Nat.pow_succ, Nat.pow_succ, Nat.mul_right_comm, hj]
      obtain ⟨r, buf₃, e₃, ⟨rfl, rfl, hno⟩ | ⟨rfl, hgrow, hk₃⟩⟩ := hk.double h₅ (a (i + 1))
      · rw [vprintfLoop_next e hbuf₂ (by rwa [hroom₂]) e₃, if_pos (by decide)]
        refine ⟨i, buf₃, -1, _, rfl, hattempt, .inr ⟨hfit, ?_, rfl, rfl⟩⟩
        rwa [Grows, hsucc]
      · have hle₃ := hk₃.valid.le
        rw [hk₃.capacity, ← hsucc] at hle₃
        rw [← hsucc] at hk₃ hgrow
        rw [vprintfLoop_next e hbuf₂ (by rwa [hroom₂]) e₃, if_neg (by decide)]
        exact ih hk₃ hsucc (by omega) (by omega) (hatt.succ hfit hgrow) hle₃

/-! ## `strbuf_vprintf` -/

/-- The capacity for the first attempt. -/
def firstCap (buf : Strbuf) : ℕ := if 1 < buf.length then buf.capacity else 32

theorem Rounded.firstCap_eq (h : Rounded buf) : ∃ j, 5 ≤ j ∧ firstCap buf = 2 ^ j := by
  rw [firstCap]
  split
  next hlt =>
    refine h.pow ?_
    cases hb : buf.blank with
    | false => rfl
    | true =>
      rw [(h.blank hb).1] at hlt
      omega
  next => exact ⟨5, le_rfl, rfl⟩

/-- The first call of `strbuf_capacity_hint`. -/
theorem Rounded.hint_one (h : Rounded buf) (a : Answer) :
    ∃ r buf₁, strbufCapacityHint a buf 1 = some (r, buf₁) ∧
      (r = -1 ∧ buf₁ = buf ∧ HintFails a buf 1 ∨
        r = 0 ∧ ¬HintFails a buf 1 ∧ Keeps buf (firstCap buf) buf₁) := by
  rw [firstCap]
  split
  next hlt =>
    have hb : buf.blank = false := by
      cases hb : buf.blank with
      | false => rfl
      | true =>
        rw [(h.blank hb).1] at hlt
        omega
    refine ⟨0, buf, ?_, .inr ⟨rfl, fun hf => Nat.not_le.2 hlt hf.1, h.toValid, hb, rfl, rfl, rfl, rfl⟩⟩
    rw [strbufCapacityHint, if_pos hlt]
    rfl
  next hle =>
    obtain ⟨r, buf₁, e, hf | ⟨rfl, hf, hr⟩⟩ := h.hint (n := 1) (by norm_num) (Nat.not_lt.1 hle) a
    · exact ⟨r, buf₁, e, .inl hf⟩
    · have hc : buf₁.capacity = 32 :=
        Option.some.inj (hr.capacity.symm.trans (newCap_of_lt (by norm_num)))
      exact ⟨0, buf₁, e, .inr ⟨rfl, hf, hc ▸ hr.keeps⟩⟩

/-- There is no memory at all, or the loop is run. -/
theorem Rounded.vprintf (h : Rounded buf) (a : ℕ → Answer) (f : ℕ → Formatted) :
    ∃ r buf', strbufVprintf a f buf = some (r, buf') ∧
      (r = -1 ∧ buf' = buf ∧ HintFails (a 0) buf 1 ∨ ¬HintFails (a 0) buf 1 ∧
        ∃ k buf₁, Attempt a f buf (firstCap buf) k buf₁ ∧
          Result a f buf (firstCap buf) k buf₁ r buf') := by
  obtain ⟨r, buf₁, e, ⟨rfl, rfl, hf⟩ | ⟨rfl, hf, hk⟩⟩ := h.hint_one (a 0)
  · exact ⟨-1, buf₁, by simp [strbufVprintf, e], .inl ⟨rfl, rfl, hf⟩⟩
  · obtain ⟨j, h₅, hj⟩ := h.firstCap_eq
    have hone : 2 ^ 0 * firstCap buf = firstCap buf := by rw [Nat.pow_zero, Nat.one_mul]
    rw [← hone] at hk
    obtain ⟨k, buf₂, r, buf', e', hatt, hres⟩ := vprintfLoop_spec (a := a) (f := f) hk (hone.trans hj) h₅
      (show 63 ≤ j + 64 by omega) fun i hi => absurd hi (Nat.not_lt_zero i)
    exact ⟨r, buf', by simp [strbufVprintf, e, e'], .inr ⟨hf, k, buf₂, hatt, hres⟩⟩

/-- A text that fits is appended, and the nul behind it. -/
theorem Attempt.text (h : Attempt a f buf c k buf₁) {out : List UInt8} {hout : out.length < 2 ^ 31}
    (hf : f k = .text out hout) (hlt : (out.length : ℤ) + 1 < roomAt c buf.length k) :
    buf.length + out.length + 1 < buf₁.capacity ∧
      buf₁.text.take (buf.length + out.length + 1) = buf.content ++ out ++ [0] := by
  have hcap := h.keeps.lt
  have hmod : roomAt c buf.length k % 2 ^ 32 = (2 ^ k * c - buf.length : ℕ) % 2 ^ 32 := toInt_emod _
  have hle : roomAt c buf.length k < 2 ^ 31 := (toInt_bounds _).1
  have hsize : out.length + 1 < toSize (roomAt c buf.length k) := by
    rw [toSize]
    omega
  have hw : (f k).written (toSize (roomAt c buf.length k)) = out ++ [0] := by
    rw [hf, Formatted.written, if_neg (by omega), List.take_of_length_le (by omega)]
  have htake := h.take
  rw [hw, List.length_append, List.length_singleton, ← Nat.add_assoc, ← List.append_assoc] at htake
  refine ⟨?_, htake⟩
  rw [h.keeps.capacity]
  omega

end Dlb.Strbuf
