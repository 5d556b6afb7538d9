import Dlb.Strbuf.Failed

/-!
# The nul at the end of a string buffer

It is written by `strbuf_resize` and `strbuf_add_string`, and by `vsnprintf` if the text fits. It is
missing after `strbuf_capacity_hint` for a new buffer, and after a text that was too long if there is no
memory for another attempt.
-/

namespace Dlb.Strbuf

variable {buf buf' buf₁ : Strbuf} {a : ℕ → Answer} {b : Answer} {f : ℕ → Formatted} {r : ℤ}
  {src bs text : List UInt8} {len m : ℤ} {c : Call} {k n pos : ℕ}

/-- There is a nul behind the string, within the capacity. -/
structure Terminated (buf : Strbuf) : Prop where
  nul : buf.text[buf.length]? = some 0
  lt : buf.blank = false → buf.length < buf.capacity

/-- A buffer with the nul at its place. -/
structure Sound (buf : Strbuf) : Prop extends Rounded buf where
  nul : buf.text[buf.length]? = some 0

theorem Sound.terminated (h : Sound buf) : Terminated buf :=
  ⟨h.nul, fun hb => h.text hb ▸ h.lt⟩

theorem sound_init : Sound strbufInit := ⟨rounded_init, rfl⟩

theorem rounded_of_newCap (h : Valid buf) (hc : newCap n = some buf.capacity) : Rounded buf := by
  obtain ⟨-, j, h₅, -, hj⟩ := newCap_spec hc
  exact ⟨h, fun _ => ⟨j, h₅, hj⟩⟩

/-! ## Calls that keep the nul -/

/-- The call does not lose the nul:
    * a length is not `SIZE_MAX`, if it is set;
    * the first byte of a new block is a nul by chance, if memory is reserved for an empty string without a
      block;
    * no more than 32 bytes are needed, or memory is refused, if `SIZE_MAX` bytes are reserved;
    * the length of a string is one of an `int`;
    * `vsnprintf` succeeds with a text that fits, or the last thing that it writes begins with a nul. -/
def Call.Safe (a : ℕ → Answer) (buf : Strbuf) : Call → Prop
  | .init | .clear | .addChar _ => True
  | .resize n => n ≠ 2 ^ 64 - 1
  | .capacityHint n =>
    (buf.blank = true → ∀ c text, newCap n = some c → realloc (a 0) [] c = some text →
      text[0]? = some 0) ∧
    (n = 2 ^ 64 - 1 → 32 ≤ buf.length → HintFails (a 0) buf n)
  | .addString src len => ∀ m, givenLength src len = some m → 0 ≤ m
  | .printf f => HintFails (a 0) buf 1 ∨ ∃ k, Attempted a f (firstCap buf) buf.length k ∧
    (0 ≤ (f k).ret ∧ (f k).ret + 1 < roomAt (firstCap buf) buf.length k ∨
      ¬(f k).Fits (roomAt (firstCap buf) buf.length k) ∧ ¬Grows a (firstCap buf) k ∧
        ((f k).written (toSize (roomAt (firstCap buf) buf.length k)))[0]? = some 0)

/-- The loop of `strbuf_capacity_hint` does not end. -/
def Call.Hangs : Call → Prop
  | .resize n | .capacityHint n => newCap n = none
  | .init | .clear | .addChar _ | .addString _ _ | .printf _ => False

theorem written_of_write (e : buf.write pos bs = some text) : Written buf.text pos bs text := by
  rw [write] at e
  split at e
  next h =>
    cases e
    exact written_write h.2
  next => cases e

theorem append_nul (e : append buf src k n = some buf') : buf'.text[buf'.length]? = some 0 := by
  simp only [append, Option.bind_eq_bind] at e
  split at e
  · cases e
  · obtain ⟨text, -, e₁⟩ := Option.bind_eq_some_iff.1 e
    obtain ⟨text', hw, e₂⟩ := Option.bind_eq_some_iff.1 e₁
    cases e₂
    exact (written_of_write hw).get 0 (by simp)

/-! ### `strbuf_capacity_hint` -/

theorem hint_eq_none (e : strbufCapacityHint b buf n = none) : buf.length ≤ n ∧ newCap n = none := by
  simp only [strbufCapacityHint, Option.bind_eq_bind, Option.pure_def] at e
  split at e
  · cases e
  next hle =>
    refine ⟨Nat.not_lt.1 hle, ?_⟩
    rcases Option.bind_eq_none_iff.1 e with hc
    cases hcap : newCap n with
    | none => rfl
    | some c =>
      have e₁ := hc c hcap
      split at e₁
      · cases e₁
      · split at e₁ <;> cases e₁

/-- A length for which the capacity is too small is `SIZE_MAX`. -/
theorem newCap_le {c : ℕ} (hn : n < 2 ^ 64) (hc : newCap n = some c) (hle : c ≤ n) :
    n = 2 ^ 64 - 1 ∧ c = 32 := by
  obtain ⟨hge, j, h₅, hj, rfl⟩ := newCap_spec hc
  have hpow : 2 ^ j ≤ 2 ^ 63 := Nat.pow_le_pow_right Nat.two_pos hj
  obtain rfl : n = 2 ^ 64 - 1 := by omega
  have he : newCap (2 ^ 64 - 1) = some 32 := by
    rw [newCap, Nat.sub_add_cancel (by norm_num), Nat.mod_self, capLoop, if_neg (by norm_num)]
  exact ⟨rfl, Option.some.inj (hc.symm.trans he)⟩

theorem Sound.capacityHint (h : Sound buf) (hn : n < 2 ^ 64) (hs : (Call.capacityHint n).Safe a buf)
    (e : strbufCapacityHint (a 0) buf n = some (r, buf')) : Sound buf' := by
  rcases hint_cases e with ⟨-, rfl, -⟩ | ⟨-, hf, ⟨rfl, -⟩ | ⟨hle, c, text, hc, hre, rfl⟩⟩
  · exact h
  · exact h
  · obtain ⟨hlen, hlt⟩ := length_realloc hre
    obtain ⟨-, j, h₅, hj, hpow⟩ := newCap_spec hc
    have hle' : c ≤ 2 ^ 62 := by
      rw [hpow] at hlt ⊢
      exact Nat.pow_le_pow_right Nat.two_pos
        (Nat.lt_succ_iff.1 ((Nat.pow_lt_pow_iff_right Nat.one_lt_two).1 hlt))
    have hroom : buf.length < c := by
      rcases Nat.lt_or_ge n c with hlt' | hge
      · omega
      · -- The block is reduced to 32 bytes.
        obtain ⟨hmax, rfl⟩ := newCap_le hn hc hge
        exact Nat.not_le.1 fun h₃₂ => hf (hs.2 hmax h₃₂)
    refine ⟨⟨⟨hlen ▸ hroom, fun _ => hlen, fun hb => by simp at hb, hle'⟩, fun _ => ⟨j, h₅, hpow⟩⟩, ?_⟩
    cases hb : buf.blank with
    | true =>
      rw [hb, if_pos rfl] at hre
      change text[buf.length]? = some 0
      rw [(h.blank hb).1]
      exact hs.1 hb c text hc hre
    | false =>
      rw [hb, if_neg (by decide)] at hre
      have htake := take_realloc hre (Nat.succ_le_of_lt h.lt) (Nat.succ_le_of_lt hroom)
      exact (getElem?_eq_of_take htake (Nat.lt_succ_self _)).trans h.nul

/-! ### `strbuf_resize` -/

theorem Resized.sound (h : Resized buf n buf') (hr : Rounded buf) : Sound buf' := by
  refine ⟨?_, h.length ▸ h.nul⟩
  rcases h.capacity with ⟨hb, hcap⟩ | ⟨m, -, hcap, -⟩
  · exact ⟨h.valid, fun _ => hcap ▸ hr.pow hb⟩
  · exact rounded_of_newCap h.valid hcap

theorem Sound.setFailed (h : Sound buf) : Sound { buf with failed := true } :=
  ⟨⟨⟨h.lt, h.text, h.blank, h.le⟩, h.pow⟩, h.nul⟩

/-- The call returns, or the loop of `strbuf_capacity_hint` does not end. -/
theorem Sound.resize (h : Sound buf) (hn : n < 2 ^ 64) (hs : n ≠ 2 ^ 64 - 1) (b b' : Answer) :
    strbufResize b b' buf n = none ∧ newCap n = none ∨
      ∃ r buf', strbufResize b b' buf n = some (r, buf') ∧ Sound buf' := by
  rcases Nat.lt_or_ge n (2 ^ 63) with hlt | hge
  · obtain ⟨r, buf', e, ⟨-, rfl, -⟩ | ⟨-, hr⟩⟩ := h.toValid.resize hlt b b'
    · exact .inr ⟨r, _, e, h.setFailed⟩
    · exact .inr ⟨r, buf', e, hr.sound h.toRounded⟩
  · left
    have hle := h.le
    have hlen := h.length_lt
    have hnone : newCap n = none := by
      cases hc : newCap n with
      | none => rfl
      | some c =>
        obtain ⟨hle, j, -, hj, rfl⟩ := newCap_spec hc
        have hpow : 2 ^ j ≤ 2 ^ 63 := Nat.pow_le_pow_right Nat.two_pos hj
        omega
    have hhint : strbufCapacityHint b buf n = none := by
      rw [strbufCapacityHint, if_neg (by omega), hnone]
      rfl
    rw [strbufResize, if_pos (by omega), hhint]
    exact ⟨rfl, hnone⟩

/-! ### `strbuf_add_string` -/

/-- The length of a string is that of some bytes at its start. -/
theorem givenLength_take (hv : (Call.addString src len).Valid) (hm : givenLength src len = some m)
    (h₀ : 0 ≤ m) : ∃ bs, bs <+: src ∧ m = bs.length ∧ bs.length < 2 ^ 31 := by
  have hle : m.toNat ≤ src.length := by
    obtain ⟨-, hv⟩ := hv
    rw [givenLength] at hm
    split at hv
    next hneg =>
      rw [if_pos hneg, strlen_eq hv] at hm
      have hmod := toInt_emod (src.takeWhile (· != 0)).length
      have hpre : (src.takeWhile (· != 0)).length ≤ src.length :=
        List.IsPrefix.length_le ( List.takeWhile_prefix _)
      obtain rfl := Option.some.inj hm
      have hlt := (toInt_bounds (src.takeWhile (· != 0)).length).1
      omega
    next hpos =>
      rw [if_neg hpos] at hm
      obtain rfl := Option.some.inj hm
      omega
  have hlt := (givenLength_cases hv.1 hm).1
  have hlen : (src.take m.toNat).length = m.toNat := List.length_take_of_le hle
  exact ⟨src.take m.toNat, List.take_prefix .., by omega, by omega⟩

theorem Sound.addString (h : Sound buf) (hv : (Call.addString src len).Valid)
    (hs : ∀ m, givenLength src len = some m → 0 ≤ m) (b : Answer) :
    ∃ r buf', strbufAddString b buf src len = some (r, buf') ∧ Sound buf' := by
  obtain ⟨m, hm⟩ : ∃ m, givenLength src len = some m := by
    obtain ⟨-, hv⟩ := hv
    rw [givenLength]
    split at hv
    next hneg => exact ⟨_, by rw [if_pos hneg, strlen_eq hv, Option.map_some]⟩
    next hpos => exact ⟨_, if_neg hpos⟩
  obtain ⟨bs, hbs, rfl, hlt⟩ := givenLength_take hv hm (hs m hm)
  obtain ⟨r, buf', e, ⟨-, rfl, -⟩ | ⟨rfl, happ⟩⟩ := h.toValid.addString hm hbs hlt b
  · exact ⟨r, buf', e, h⟩
  · refine ⟨_, buf', e, rounded_of_newCap happ.valid happ.capacity, ?_⟩
    obtain ⟨m, -, ⟨h₀, -⟩ | ⟨-, buf₁, -, e₂⟩⟩ := addString_cases e
    · omega
    · exact append_nul e₂

/-! ### `strbuf_vprintf` -/

theorem Keeps.rounded {cap : ℕ} (h : Keeps buf (2 ^ k * cap) buf') (hcap : ∃ j, 5 ≤ j ∧ cap = 2 ^ j) :
    Rounded buf' := by
  obtain ⟨j, h₅, rfl⟩ := hcap
  refine ⟨h.valid, fun _ => ⟨k + j, by omega, ?_⟩⟩
  rw [h.capacity, Nat.pow_add]

theorem fits_of_lt {fm : Formatted} {room : ℤ} (h₀ : 0 ≤ fm.ret) (hlt : fm.ret + 1 < room)
    (hroom : room < 2 ^ 31) : fm.Fits room := by
  rw [Formatted.Fits, Int.bmod_eq_of_le (by omega) (by omega)]
  exact hlt

theorem Sound.printf (h : Sound buf) (hs : (Call.printf f).Safe a buf) :
    ∃ r buf', strbufVprintf a f buf = some (r, buf') ∧ Sound buf' := by
  obtain ⟨r, buf', e, ⟨-, rfl, -⟩ | ⟨hf, k, buf₁, hatt, hres⟩⟩ := h.toRounded.vprintf a f
  · exact ⟨r, buf', e, h⟩
  refine ⟨r, buf', e, ?_⟩
  obtain ⟨k', hatt', hcase⟩ := hs.resolve_left hf
  have hround := hatt.keeps.rounded h.firstCap_eq
  have hroom : roomAt (firstCap buf) buf.length k' < 2 ^ 31 := (toInt_bounds _).1
  have hlen : buf.content.length = buf.length := h.length_content
  -- The attempt of the condition ends the loop, and so is the last one that is made.
  rcases hres with ⟨hfit, -, rfl⟩ | ⟨hno, hgrow, -, rfl⟩
  · rcases hcase with ⟨h₀, hlt⟩ | ⟨hno, hgrow, -⟩
    · obtain rfl := hatt'.eq hatt.attempted (.inl (fits_of_lt h₀ hlt hroom)) (.inl hfit)
      cases hfk : f k' with
      | error r bytes hr _ =>
        rw [hfk] at h₀
        exact absurd hr (Int.not_lt.2 h₀)
      | text out hout =>
        rw [hfk] at hlt
        obtain ⟨hroom', htake⟩ := hatt.text hfk hlt
        have hsize : toSize (buf.length + (Formatted.text out hout).ret) = buf.length + out.length := by
          have hle := hround.le
          exact toSize_natCast (n := buf.length + out.length) (by omega)
        rw [hsize]
        refine ⟨⟨⟨?_, hround.text, fun hb => ?_, hround.le⟩, hround.pow⟩, ?_⟩
        · change buf.length + out.length < buf₁.text.length
          rw [hround.text hatt.keeps.blank]
          omega
        · simp [hatt.keeps.blank] at hb
        · change buf₁.text[buf.length + out.length]? = some 0
          rw [← List.getElem?_take_of_lt (Nat.lt_succ_self _), htake,
            List.getElem?_append_right (by rw [List.length_append, hlen]), List.length_append, hlen]
          simp
    · obtain rfl := hatt'.eq hatt.attempted (.inr hgrow) (.inl hfit)
      exact absurd hfit hno
  · rcases hcase with ⟨h₀, hlt⟩ | ⟨-, hgrow', hnul⟩
    · have hfit := fits_of_lt h₀ hlt hroom
      obtain rfl := hatt'.eq hatt.attempted (.inl hfit) (.inr hgrow)
      exact absurd hfit hno
    · obtain rfl := hatt'.eq hatt.attempted (.inr hgrow') (.inr hgrow)
      have hpos : 0 < ((f k').written (toSize (roomAt (firstCap buf) buf.length k'))).length := by
        by_contra hzero
        rw [List.length_eq_zero_iff.1 (Nat.eq_zero_of_not_pos hzero)] at hnul
        cases hnul
      refine Sound.setFailed ⟨hround, ?_⟩
      rw [hatt.keeps.length, ← List.getElem?_take_of_lt (Nat.lt_add_of_pos_right hpos), hatt.take,
        List.getElem?_append_right hlen.le, hlen, Nat.sub_self]
      exact hnul

/-! ## Runs -/

/-- A call keeps the nul, or the loop of `strbuf_capacity_hint` does not end. -/
theorem Sound.exec (h : Sound buf) (hv : c.Valid) (hs : c.Safe a buf) :
    c.exec a buf = none ∧ c.Hangs ∨ ∃ r buf', c.exec a buf = some (r, buf') ∧ Sound buf' := by
  cases c with
  | init => exact .inr ⟨0, strbufInit, rfl, sound_init⟩
  | clear => exact .inr ⟨0, strbufInit, rfl, sound_init⟩
  | resize n => exact h.resize hv hs (a 0) (a 1)
  | capacityHint n =>
    cases e : strbufCapacityHint (a 0) buf n with
    | none => exact .inl ⟨e, (hint_eq_none e).2⟩
    | some x => exact .inr ⟨x.1, x.2, e, h.capacityHint hv hs e⟩
  | addChar ch =>
    refine .inr (h.addString (valid_addChar ch) (fun m hm => ?_) (a 0))
    obtain rfl := Option.some.inj ((rfl : givenLength [ch] 1 = some 1).symm.trans hm)
    decide
  | addString src len => exact .inr (h.addString hv hs (a 0))
  | printf f => exact .inr (h.printf hs)

/-- The states after some calls that do not lose the nul. -/
def SafeRun (buf : Strbuf) : Prop :=
  Machine.Reached step (fun buf x => x.2.Valid ∧ x.2.Safe x.1 buf) strbufInit buf

theorem SafeRun.sound (h : SafeRun buf) : Sound buf := by
  refine Machine.Reached.invariant h sound_init fun {buf x buf'} h hc e => ?_
  obtain ⟨⟨r, buf₁⟩, e₁, rfl⟩ := Option.map_eq_some_iff.1 e
  obtain ⟨hnone, -⟩ | ⟨r', buf₂, e₂, h'⟩ := h.exec hc.1 hc.2
  · cases hnone.symm.trans e₁
  · obtain ⟨-, rfl⟩ := Prod.mk.inj (Option.some.inj (e₂.symm.trans e₁))
    exact h'

/-- The string has its nul as long as no call loses it. -/
theorem run_terminated (h : SafeRun buf) : Terminated buf ∧
    ∀ a c, Call.Valid c → c.Safe a buf →
      c.exec a buf = none ∧ c.Hangs ∨ ∃ r buf', c.exec a buf = some (r, buf') ∧ Terminated buf' := by
  refine ⟨h.sound.terminated, fun a c hv hs => ?_⟩
  refine (h.sound.exec hv hs).imp_right ?_
  rintro ⟨r, buf', e, h'⟩
  exact ⟨r, buf', e, h'.terminated⟩

/-- A buffer with one character, in a block of other bytes. -/
theorem run_terminated_char :
    Terminated ⟨false, 120 :: 0 :: List.replicate 30 7, 1, 32, false⟩ :=
  (run_terminated (.single ⟨(fun _ => some fun _ => 7, .addChar 120), ⟨trivial, trivial⟩, by decide⟩)).1

/-- There is no nul in the new block of an empty string. -/
theorem not_terminated : ∃ buf, (Call.capacityHint 10).exec (fun _ => some fun _ => 1) strbufInit =
    some (0, buf) ∧ ¬Terminated buf := by
  refine ⟨⟨false, List.replicate 32 1, 0, 32, false⟩, by decide, fun h => ?_⟩
  exact absurd h.nul (by decide)

end Dlb.Strbuf
