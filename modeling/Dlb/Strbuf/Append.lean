import Mathlib.Algebra.Order.Ring.Nat
import Mathlib.Data.Nat.Log
import Mathlib.Tactic.Ring
import Dlb.Strbuf.Code

/-!
# Appending to a string buffer

A `Valid` buffer has room for its text and the nul behind it. To append is to add to the `content`, if
there is memory: the capacity is then the least power of two that is large enough
(`Valid.addString`).
-/

namespace Dlb.Strbuf

structure Valid (buf : Strbuf) : Prop where
  lt : buf.length < buf.text.length
  text : buf.blank = false → buf.text.length = buf.capacity
  blank : buf.blank = true → buf.length = 0 ∧ buf.capacity = 0 ∧ buf.text = [0]
  le : buf.capacity ≤ 2 ^ 62

/-- The string. -/
def content (buf : Strbuf) : List UInt8 := buf.text.take buf.length

variable {buf buf' : Strbuf} {a : Answer} {src bs : List UInt8} {len r : ℤ} {b c k n fuel : ℕ}

theorem valid_init : Valid strbufInit := by
  constructor <;> simp [strbufInit]

theorem Valid.length_lt (h : Valid buf) : buf.length < 2 ^ 62 := by
  have hlt := h.lt
  have hle := h.le
  cases hb : buf.blank with
  | false =>
    rw [h.text hb] at hlt
    omega
  | true =>
    rw [(h.blank hb).1]
    exact Nat.two_pow_pos 62

theorem Valid.length_content (h : Valid buf) : buf.content.length = buf.length := by
  rw [content, List.length_take, Nat.min_eq_left h.lt.le]

/-! ## The capacity -/

/-- The loop returns the first power of two that is large enough. -/
theorem capLoop_eq (need : ℕ) (hb : b ≤ 63) (hn : need ≤ 2 ^ b) (hk : k ≤ b) (hf : 63 < k + fuel) :
    ∃ j ≤ b, capLoop need fuel (2 ^ k) = some (2 ^ j) ∧ need ≤ 2 ^ j := by
  induction fuel generalizing k with
  | zero => omega
  | succ fuel ih =>
    rw [capLoop]
    split
    · have hkb : k < b := by
        rw [← Nat.pow_lt_pow_iff_right Nat.one_lt_two]
        omega
      have hpow : 2 ^ (k + 1) < 2 ^ 64 := Nat.pow_lt_pow_right Nat.one_lt_two (by omega)
      rw [← Nat.pow_succ, Nat.mod_eq_of_lt hpow]
      exact ih hkb (by omega)
    · exact ⟨k, hk, rfl, by omega⟩

theorem newCap_eq (hn : n < 2 ^ b) (hb : 5 ≤ b) (hb' : b ≤ 63) :
    ∃ j ≤ b, newCap n = some (2 ^ j) ∧ n < 2 ^ j := by
  have hpow : 2 ^ b ≤ 2 ^ 63 := Nat.pow_le_pow_right Nat.two_pos hb'
  have hmod : (n + 1) % 2 ^ 64 = n + 1 := Nat.mod_eq_of_lt (by omega)
  obtain ⟨j, hj, e, hle⟩ := capLoop_eq (n + 1) hb' hn (k := 5) hb (show 63 < 5 + 64 by omega)
  refine ⟨j, hj, ?_, hle⟩
  rw [newCap, hmod]
  exact e

theorem length_realloc {old text : List UInt8} (e : realloc a old n = some text) :
    text.length = n ∧ n < 2 ^ 63 := by
  simp only [realloc, Option.ite_none_right_eq_some, Option.map_eq_some_iff] at e
  obtain ⟨hn, fresh, -, rfl⟩ := e
  refine ⟨?_, hn⟩
  simp only [List.length_append, List.length_take, List.length_drop, List.length_map,
    List.length_range]
  omega

/-- The bytes of the old block are kept as far as they fit. -/
theorem take_realloc {old text : List UInt8} (e : realloc a old n = some text) (hk : k ≤ old.length)
    (hn : k ≤ n) : text.take k = old.take k := by
  simp only [realloc, Option.ite_none_right_eq_some, Option.map_eq_some_iff] at e
  obtain ⟨-, fresh, -, rfl⟩ := e
  rw [List.take_append_of_le_length (by rw [List.length_take]; omega), List.take_take,
    Nat.min_eq_left hn]

theorem realloc_eq_none {old : List UInt8} : realloc a old n = none ↔ a = none ∨ 2 ^ 63 ≤ n := by
  rw [realloc]
  split <;> simp <;> omega

/-! ## `strbuf_capacity_hint` -/

/-- The buffer `buf'` is `buf` with the capacity for a string of the length `n`. -/
structure Reserved (buf : Strbuf) (n : ℕ) (buf' : Strbuf) : Prop where
  valid : Valid buf'
  blank : buf'.blank = false
  capacity : newCap n = some buf'.capacity
  lt : n < buf'.capacity
  length : buf'.length = buf.length
  content : buf'.content = buf.content

/-- The memory for a string of the length `n` is refused. -/
def Refused (a : Answer) (buf : Strbuf) (n : ℕ) : Prop :=
  newCap n ≠ some buf.capacity ∧ (a = none ∨ 2 ^ 62 ≤ n)

theorem Valid.capacityHint (h : Valid buf) (hn : n < 2 ^ 63) (hle : buf.length ≤ n) (a : Answer) :
    ∃ r buf', strbufCapacityHint a buf n = some (r, buf') ∧
      (r = -1 ∧ buf' = buf ∧ Refused a buf n ∨ r = 0 ∧ Reserved buf n buf') := by
  obtain ⟨j, hj, hcap, hlt⟩ := newCap_eq hn (by omega) le_rfl
  simp only [strbufCapacityHint, if_neg (Nat.not_lt.2 hle), hcap, Option.bind_eq_bind,
    Option.bind_some]
  split
  next he =>
    have hb : buf.blank = false := by
      cases hb : buf.blank with
      | false => rfl
      | true =>
        have := (h.blank hb).2.1
        omega
    exact ⟨0, buf, rfl, .inr ⟨rfl, h, hb, by rw [hcap, he], by omega, rfl, rfl⟩⟩
  next he =>
    cases hre : realloc a (if buf.blank then [] else buf.text) (2 ^ j) with
    | none =>
      refine ⟨-1, buf, rfl, .inl ⟨rfl, rfl, ?_, ?_⟩⟩
      · rw [hcap, ne_eq, Option.some.injEq]
        exact he
      · refine (realloc_eq_none.1 hre).imp_right fun hbig => ?_
        -- Below `2 ^ 62`, the capacity would be at most `2 ^ 62`.
        by_contra hsmall
        obtain ⟨i, hi, hcap', -⟩ := newCap_eq (Nat.not_le.1 hsmall) (by omega) (by omega)
        have hpow : 2 ^ i ≤ 2 ^ 62 := Nat.pow_le_pow_right Nat.two_pos hi
        rw [Option.some.inj (hcap.symm.trans hcap')] at hbig
        omega
    | some text =>
      obtain ⟨hlen, hlt'⟩ := length_realloc hre
      have hj62 : 2 ^ j ≤ 2 ^ 62 := by
        have : j < 63 := (Nat.pow_lt_pow_iff_right Nat.one_lt_two).1 hlt'
        exact Nat.pow_le_pow_right Nat.two_pos (by omega)
      refine ⟨0, _, rfl, .inr ⟨rfl, ⟨?_, fun _ => hlen, by simp, hj62⟩, rfl, hcap, hlt, rfl, ?_⟩⟩
      · simp only [hlen]
        omega
      · simp only [content]
        cases hb : buf.blank with
        | true => simp [(h.blank hb).1]
        | false =>
          rw [hb] at hre
          exact take_realloc hre h.lt.le (by omega)

theorem capacityHint_init (hn : n < 2 ^ 63) :
    strbufCapacityHint none strbufInit n = some (-1, strbufInit) := by
  obtain ⟨j, -, hcap, -⟩ := newCap_eq hn (by omega) le_rfl
  simp [strbufCapacityHint, strbufInit, hcap, realloc]

/-- Whatever the length is, nothing changes if memory is refused, and the block is not too large
    otherwise. -/
theorem Valid.capacityHint_cases (h : Valid buf)
    (e : strbufCapacityHint a buf n = some (r, buf')) :
    r = -1 ∧ buf' = buf ∨ r = 0 ∧ buf'.text.length < 2 ^ 63 := by
  have hlen : buf.text.length < 2 ^ 63 := by
    cases hb : buf.blank with
    | true => simp [(h.blank hb).2.2]
    | false =>
      have := h.le
      rw [h.text hb]
      omega
  simp only [strbufCapacityHint, Option.bind_eq_bind] at e
  split at e
  · cases e
    exact .inr ⟨rfl, hlen⟩
  · rw [Option.bind_eq_some_iff] at e
    obtain ⟨c, -, e⟩ := e
    split at e
    · cases e
      exact .inr ⟨rfl, hlen⟩
    · split at e
      · cases e
        exact .inl ⟨rfl, rfl⟩
      next hre =>
        cases e
        obtain ⟨h₁, h₂⟩ := length_realloc hre
        exact .inr ⟨rfl, h₁ ▸ h₂⟩

/-! ## `strbuf_add_string` -/

/-- The buffer `buf'` is `buf` with `bs` appended. -/
structure Appended (buf : Strbuf) (bs : List UInt8) (buf' : Strbuf) : Prop where
  valid : Valid buf'
  blank : buf'.blank = false
  capacity : newCap (buf.length + bs.length) = some buf'.capacity
  length : buf'.length = buf.length + bs.length
  content : buf'.content = buf.content ++ bs

/-- The buffer `buf'` is `buf` with some bytes appended. -/
structure Extends (buf buf' : Strbuf) : Prop where
  valid : Valid buf'
  content : buf.content <+: buf'.content
  length : buf.length ≤ buf'.length

theorem Extends.refl (h : Valid buf) : Extends buf buf := ⟨h, List.prefix_rfl, le_rfl⟩

theorem Extends.trans {buf'' : Strbuf} (h : Extends buf buf') (h' : Extends buf' buf'') :
    Extends buf buf'' :=
  ⟨h'.valid, h.content.trans h'.content, h.length.trans h'.length⟩

theorem Appended.extends (h : Appended buf bs buf') : Extends buf buf' := by
  refine ⟨h.valid, ?_, ?_⟩
  · rw [h.content]
    exact List.prefix_append ..
  · rw [h.length]
    exact Nat.le_add_right ..

theorem Reserved.append (h : Reserved buf (buf.length + bs.length) buf') (hbs : bs <+: src) :
    ∃ buf'', append buf' src bs.length (buf.length + bs.length) = some buf'' ∧
      Appended buf bs buf'' := by
  obtain ⟨hv, hb, hcap, hlt, hl, hc⟩ := h
  have htext := hv.text hb
  have hlen : (buf'.text.take buf'.length).length = buf.length := by
    rw [List.length_take, Nat.min_eq_left hv.lt.le, hl]
  obtain ⟨text, hwrite⟩ : ∃ text, text = buf'.text.take buf'.length ++ bs ++
      buf'.text.drop (buf'.length + bs.length) := ⟨_, rfl⟩
  have hsize : text.length = buf'.text.length := by
    rw [hwrite, List.length_append, List.length_append, hlen, List.length_drop]
    omega
  have htake : text.take (buf.length + bs.length) = buf.content ++ bs := by
    rw [hwrite, List.take_left' (by rw [List.length_append, hlen]), ← hc, Strbuf.content]
  have h₁ : buf'.write buf'.length (src.take bs.length) = some text := by
    rw [List.prefix_iff_eq_take.1 hbs |>.symm, write, if_pos ⟨hb, by omega⟩, hwrite]
  obtain ⟨text', hnul⟩ : ∃ text', text' = text.take (buf.length + bs.length) ++ [0] ++
      text.drop (buf.length + bs.length + 1) := ⟨_, rfl⟩
  have hsize' : text'.length = buf'.capacity := by
    rw [hnul, List.length_append, List.length_append, List.length_take, List.length_drop,
      List.length_singleton]
    omega
  have htake' : text'.take (buf.length + bs.length) = buf.content ++ bs := by
    rw [hnul, List.append_assoc, List.take_left' (by rw [List.length_take]; omega), htake]
  have h₂ : { buf' with text := text }.write (buf.length + bs.length) [0] = some text' := by
    rw [write, if_pos ⟨hb, by simp only [List.length_singleton]; omega⟩, List.length_singleton, hnul]
  refine ⟨{ buf' with text := text', length := buf.length + bs.length }, ?_,
    ⟨?_, fun _ => hsize', by simp [hb], hv.le⟩, hb, hcap, rfl, htake'⟩
  · simp only [Strbuf.append, if_neg (Nat.not_lt.2 hbs.length_le), h₁, h₂, Option.bind_eq_bind,
      Option.bind_some, Option.pure_def]
  · simp only [hsize']
    omega

theorem toSize_natCast (h : n < 2 ^ 64) : toSize n = n := by
  rw [toSize]
  omega

theorem toInt_bounds (n : ℕ) : toInt n < 2 ^ 31 ∧ -2 ^ 31 ≤ toInt n := by
  have hlt := Int.bmod_lt (x := (n : ℤ)) (m := 2 ^ 32) (Nat.two_pow_pos 32)
  have hle := Int.le_bmod (x := (n : ℤ)) (m := 2 ^ 32) (Nat.two_pow_pos 32)
  unfold toInt
  omega

theorem toInt_eq (h : n < 2 ^ 31) : toInt n = n := by
  refine Int.bmod_eq_of_le ?_ ?_ <;> omega

/-- The first bytes of `src` are appended, if there is memory for them. -/
theorem Valid.addString (h : Valid buf) (hlen : givenLength src len = some (bs.length : ℤ))
    (hbs : bs <+: src) (hlt : bs.length < 2 ^ 31) (a : Answer) :
    ∃ r buf', strbufAddString a buf src len = some (r, buf') ∧
      (r = -1 ∧ buf' = buf ∧ Refused a buf (buf.length + bs.length) ∨
        r = bs.length ∧ Appended buf bs buf') := by
  have hl := h.length_lt
  have hsize : toSize (buf.length + (bs.length : ℤ)) = buf.length + bs.length := by
    rw [← Int.natCast_add]
    exact toSize_natCast (by omega)
  obtain ⟨r, buf₁, e, ⟨rfl, rfl, href⟩ | ⟨rfl, hres⟩⟩ :=
    h.capacityHint (n := buf.length + bs.length) (by omega) (by omega) a
  · refine ⟨-1, buf₁, ?_, .inl ⟨rfl, rfl, href⟩⟩
    simp [strbufAddString, hlen, hsize, e]
  · obtain ⟨buf₂, e₂, happ⟩ := hres.append hbs
    refine ⟨bs.length, buf₂, ?_, .inr ⟨rfl, happ⟩⟩
    have hl₁ : toSize (buf₁.length + (bs.length : ℤ)) = buf.length + bs.length := by
      rw [hres.length, hsize]
    simp [strbufAddString, hlen, hsize, e, hl₁, toSize_natCast (show bs.length < 2 ^ 64 by omega), e₂]

/-- Nothing is appended if a length is negative, since there is no memory for so many bytes. -/
theorem append_eq_none (hneg : len < 0) (hge : -2 ^ 31 ≤ len) (hlt : buf.text.length < 2 ^ 63) :
    append buf src (toSize len) n = none := by
  have hbig : 2 ^ 63 ≤ toSize len := by
    rw [toSize]
    omega
  rw [append]
  split
  · rfl
  next hsrc =>
    have hw : buf.write buf.length (src.take (toSize len)) = none := by
      rw [write, if_neg]
      rw [List.length_take]
      omega
    simp [hw]

theorem givenLength_cases (hlt : len < 2 ^ 31) {k : ℤ} (e : givenLength src len = some k) :
    k < 2 ^ 31 ∧ -2 ^ 31 ≤ k := by
  rw [givenLength] at e
  split at e
  · obtain ⟨n, -, rfl⟩ := Option.map_eq_some_iff.1 e
    exact toInt_bounds n
  · cases e
    omega

/-- A call that returns has appended the first bytes of `src`, or nothing. -/
theorem Valid.addString_cases (h : Valid buf) (hlt : len < 2 ^ 31)
    (e : strbufAddString a buf src len = some (r, buf')) :
    r = -1 ∧ buf' = buf ∨ ∃ bs, bs <+: src ∧ givenLength src len = some (bs.length : ℤ) ∧
      bs.length < 2 ^ 31 ∧ r = bs.length ∧ Appended buf bs buf' := by
  have e₀ := e
  simp only [strbufAddString, Option.bind_eq_bind, Option.bind_eq_some_iff] at e
  obtain ⟨k, hk, ⟨r₁, buf₁⟩, hhint, e⟩ := e
  obtain ⟨hk₁, hk₂⟩ := givenLength_cases hlt hk
  obtain ⟨rfl, rfl⟩ | ⟨rfl, hsize⟩ := h.capacityHint_cases hhint
  · obtain ⟨rfl, rfl⟩ : -1 = r ∧ buf₁ = buf' := by simpa using e
    exact .inl ⟨rfl, rfl⟩
  · simp only [Int.lt_irrefl, if_false, Option.bind_eq_some_iff] at e
    obtain ⟨buf₂, happ, -⟩ := e
    have hk₀ : 0 ≤ k := by
      by_contra hneg
      rw [append_eq_none (Int.not_le.1 hneg) hk₂ hsize] at happ
      cases happ
    obtain ⟨k, rfl⟩ := Int.eq_ofNat_of_zero_le hk₀
    have hsrc : k ≤ src.length := by
      rw [append, toSize_natCast (by omega)] at happ
      by_contra hshort
      simp [Nat.not_le.1 hshort] at happ
    have hlen : (src.take k).length = k := List.length_take_of_le hsrc
    have hk' : givenLength src len = some ((src.take k).length : ℤ) := by rw [hlen, hk]
    obtain ⟨r', buf₃, e₁, hcases⟩ := h.addString hk' (List.take_prefix k src) (by omega) a
    obtain ⟨rfl, rfl⟩ := Prod.mk.inj (Option.some.inj (e₀.symm.trans e₁))
    refine hcases.imp (fun ⟨h₁, h₂, _⟩ => ⟨h₁, h₂⟩) fun ⟨h₁, h₂⟩ => ?_
    exact ⟨src.take k, List.take_prefix k src, by rw [hlen, hk], by omega, h₁, h₂⟩

end Dlb.Strbuf
