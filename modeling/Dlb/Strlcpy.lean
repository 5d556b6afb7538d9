import Mathlib.Data.List.TakeDrop
import Dlb.CStr
import Dlb.Cbuf.Code

/-!
# Copies that may be cut short

`src/src/strlcpy.c`. A `size_t` is a natural number, and its arithmetic is modulo `2 ^ 64`. `memcpy`
fails (`none`) if the two regions overlap.

* `strlcpy_copies`: a copy that was cut short is known by the result of `strlcpy`;
* `detectable_iff`: when this is so for `strlcat`.
-/

namespace Dlb.Strlcpy

open Cbuf (sizeSub sizeSub_eq)

/-- The `n` bytes at `p` and those at `q` do not overlap. -/
def Apart (p q n : ℕ) : Prop := n = 0 ∨ p + n ≤ q ∨ q + n ≤ p

instance (p q n : ℕ) : Decidable (Apart p q n) := instDecidableOr

def memcpy (m : Mem) (p q n : ℕ) : Option Mem := if Apart p q n then some (m.copy p q n) else none

def strlcpy (m : Mem) (dst src size : ℕ) : Option (ℕ × Mem) := do
  let srcLen ← strlen m src
  let maxLen := sizeSub size 1
  let len := if srcLen > maxLen then maxLen else srcLen
  if size = 0 then
    return (0, m)
  let m ← memcpy m dst src len
  return (srcLen, m.store (dst + len) 1 0)

def strlcat (m : Mem) (dst src size : ℕ) : Option (ℕ × Mem) := do
  let dstLen ← strlen m dst
  let srcLen ← strlen m src
  let resLen := (dstLen + srcLen) % 2 ^ 64
  let maxLen := sizeSub (sizeSub size dstLen) 1
  let copy := if srcLen > maxLen then maxLen else srcLen
  if size = 0 ∨ sizeSub size 1 < dstLen then
    return (0, m)
  let m ← memcpy m (dst + dstLen) src copy
  return (resLen, m.store (dst + dstLen + copy) 1 0)

variable {m : Mem} {p q size : ℕ} {d s : List UInt8}

/-! ## What is copied -/

theorem strlcpy_zero (hs : StringAt m q s) (hq : s.length < 2 ^ 64) :
    strlcpy m p q 0 = some (0, m) := by
  rw [strlcpy, strlen_eq hs hq]
  rfl

theorem strlcpy_eq (hs : StringAt m q s) (hq : s.length < 2 ^ 64) (hsize : size < 2 ^ 64)
    (hpos : 0 < size) (hap : Apart p q (min s.length (size - 1))) :
    strlcpy m p q size = some (s.length, (m.copy p q (min s.length (size - 1))).store
      (p + min s.length (size - 1)) 1 0) := by
  have hlen : (if s.length > size - 1 then size - 1 else s.length) = min s.length (size - 1) := by
    split <;> omega
  simp only [strlcpy, strlen_eq hs hq, sizeSub_eq hpos hsize, Option.bind_eq_bind, Option.bind_some,
    hlen, if_neg (Nat.ne_of_gt hpos), memcpy, if_pos hap]
  rfl

/-- There is no room behind the string in the buffer. -/
theorem strlcat_full (hd : StringAt m p d) (hs : StringAt m q s) (hp : d.length < 2 ^ 64)
    (hq : s.length < 2 ^ 64) (hsize : size ≤ d.length) : strlcat m p q size = some (0, m) := by
  have hfull : size = 0 ∨ sizeSub size 1 < d.length := by
    rcases Nat.eq_zero_or_pos size with h₀ | hpos
    · exact .inl h₀
    · right
      rw [sizeSub_eq hpos (by omega)]
      omega
  simp only [strlcat, strlen_eq hd hp, strlen_eq hs hq, Option.bind_eq_bind, Option.bind_some,
    if_pos hfull]
  rfl

theorem strlcat_eq (hd : StringAt m p d) (hs : StringAt m q s) (hp : d.length < 2 ^ 64)
    (hq : s.length < 2 ^ 64) (hsize : size < 2 ^ 64) (hlt : d.length < size)
    (hap : Apart (p + d.length) q (min s.length (size - 1 - d.length))) :
    strlcat m p q size = some ((d.length + s.length) % 2 ^ 64,
      (m.copy (p + d.length) q (min s.length (size - 1 - d.length))).store
        (p + d.length + min s.length (size - 1 - d.length)) 1 0) := by
  have hmax : sizeSub (sizeSub size d.length) 1 = size - 1 - d.length := by
    rw [sizeSub_eq (Nat.le_of_lt hlt) hsize, sizeSub_eq (by omega) (by omega)]
    omega
  have hlen : (if s.length > size - 1 - d.length then size - 1 - d.length else s.length) =
      min s.length (size - 1 - d.length) := by
    split <;> omega
  have hroom : ¬(size = 0 ∨ sizeSub size 1 < d.length) := by
    rw [sizeSub_eq (by omega) hsize]
    omega
  simp only [strlcat, strlen_eq hd hp, strlen_eq hs hq, Option.bind_eq_bind, Option.bind_some, hmax,
    hlen, if_neg hroom, memcpy, if_pos hap]
  rfl

/-! ## What is left -/

/-- What is in the buffer after `strlcpy`. -/
def copied (size : ℕ) (d s : List UInt8) : List UInt8 := if size = 0 then d else s.take (size - 1)

/-- What is in the buffer after `strlcat`. -/
def concatenated (size : ℕ) (d s : List UInt8) : List UInt8 :=
  if d.length < size then (d ++ s).take (size - 1) else d

/-- A call that returned `r` has left the string `t` in the buffer of `size` bytes at `p`, and `r` tells
    whether it is shorter than the string `full`. -/
structure Leaves (m : Mem) (p size : ℕ) (t full : List UInt8) (r : ℕ) (m' : Mem) : Prop where
  string : StringAt m' p t
  frame : ∀ a, ¬(p ≤ a ∧ a < p + size) → m' a = m a
  detectable : 0 < size → (size ≤ r ↔ t.length < full.length)

/-- `strlcpy` works for the strings `d` at `p` and `s` at `q`. -/
def Copies (m : Mem) (p q size : ℕ) (d s : List UInt8) : Prop :=
  ∃ r m', strlcpy m p q size = some (r, m') ∧ Leaves m p size (copied size d s) s r m'

/-- `strlcat` works for the strings `d` at `p` and `s` at `q`. -/
def Concatenates (m : Mem) (p q size : ℕ) (d s : List UInt8) : Prop :=
  ∃ r m', strlcat m p q size = some (r, m') ∧
    Leaves m p size (concatenated size d s) (d ++ s) r m' ∧ (size ≤ d.length → m' = m)

/-- What does not fit is cut off. -/
theorem length_take_lt_iff {l : List UInt8} (hpos : 0 < size) :
    (l.take (size - 1)).length < l.length ↔ size ≤ l.length := by
  rw [List.length_take]
  omega

/-- The first bytes of `s` are copied behind `d`, and a 0 behind them, as many as there is room for. -/
theorem leaves_of_copy {r : ℕ} {t : List UInt8} (hs : StringAt m q s) (hd : BytesAt m p d)
    (hd₀ : 0 ∉ d) (hlt : d.length < size) (ht : t = (d ++ s).take (size - 1))
    (hr : size ≤ r ↔ size ≤ (d ++ s).length) :
    Leaves m p size t (d ++ s) r ((m.copy (p + d.length) q (min s.length (size - 1 - d.length))).store
      (p + d.length + min s.length (size - 1 - d.length)) 1 0) where
  string := by
    have htake : t = d ++ s.take (min s.length (size - 1 - d.length)) := by
      rw [ht, List.take_append, List.take_of_length_le (by omega), Nat.min_comm,
        ← List.take_eq_take_min]
    rw [htake]
    exact hs.append_copy hd hd₀ (Nat.min_le_left ..)
  frame a ha := by
    rw [Mem.store_of_not_mem (by omega), Mem.copy_of_not_mem (by omega)]
  detectable hpos := by rw [hr, ht, length_take_lt_iff hpos]

/-- A copy that was cut short is known by the result of `strlcpy`. -/
theorem strlcpy_copies (hs : StringAt m q s) (hd : StringAt m p d) (hq : s.length < 2 ^ 64)
    (hsize : size < 2 ^ 64) (hap : Apart p q (min s.length (size - 1))) : Copies m p q size d s := by
  rcases Nat.eq_zero_or_pos size with rfl | hpos
  · exact ⟨0, m, strlcpy_zero hs hq, hd, fun _ _ => rfl, fun h => absurd h (Nat.lt_irrefl 0)⟩
  · refine ⟨_, _, strlcpy_eq hs hq hsize hpos hap, ?_⟩
    rw [copied, if_neg (Nat.ne_of_gt hpos)]
    exact leaves_of_copy (d := []) hs (fun i hi => absurd hi (Nat.not_lt_zero i)) List.not_mem_nil hpos rfl
      Iff.rfl

theorem concatenates_of_full (hd : StringAt m p d) (hs : StringAt m q s) (hp : d.length < 2 ^ 64)
    (hq : s.length < 2 ^ 64) (hsize : size ≤ d.length) :
    Concatenates m p q size d s ↔ size = 0 ∨ s = [] := by
  have e := strlcat_full hd hs hp hq hsize
  have ht : concatenated size d s = d := if_neg (Nat.not_lt.2 hsize)
  rw [Concatenates, e, ht]
  constructor
  · rintro ⟨r, m', e', h, -⟩
    obtain ⟨rfl, rfl⟩ := Prod.mk.inj (Option.some.inj e')
    by_contra hno
    obtain ⟨h₀, hne⟩ := not_or.1 hno
    have hlt : d.length < (d ++ s).length := by
      rw [List.length_append]
      exact Nat.lt_add_of_pos_right (List.length_pos_iff.2 hne)
    exact h₀ (Nat.le_zero.1 ((h.detectable (Nat.pos_of_ne_zero h₀)).2 hlt))
  · intro hcond
    refine ⟨0, m, rfl, ⟨hd, fun _ _ => rfl, fun hpos => ?_⟩, fun _ => rfl⟩
    obtain rfl := hcond.resolve_left (Nat.ne_of_gt hpos)
    rw [List.append_nil]
    exact ⟨fun h => absurd (Nat.le_zero.1 h) (Nat.ne_of_gt hpos), fun h => absurd h (Nat.lt_irrefl _)⟩

theorem concatenates_of_room (hd : StringAt m p d) (hs : StringAt m q s) (hp : d.length < 2 ^ 64)
    (hq : s.length < 2 ^ 64) (hsize : size < 2 ^ 64) (hlt : d.length < size)
    (hap : Apart (p + d.length) q (min s.length (size - 1 - d.length))) :
    Concatenates m p q size d s ↔ d.length + s.length < 2 ^ 64 := by
  have e := strlcat_eq hd hs hp hq hsize hlt hap
  have ht : concatenated size d s = (d ++ s).take (size - 1) := if_pos hlt
  have hpos : 0 < size := Nat.zero_lt_of_lt hlt
  rw [Concatenates, e, ht]
  constructor
  · rintro ⟨r, m', e', h, -⟩
    obtain ⟨rfl, -⟩ := Prod.mk.inj (Option.some.inj e')
    have hr := h.detectable hpos
    rw [length_take_lt_iff hpos, List.length_append] at hr
    -- If the sum wraps, it is less than the first length.
    by_contra hge
    have hwrap : (d.length + s.length) % 2 ^ 64 < d.length := by omega
    omega
  · intro hsum
    refine ⟨_, _, rfl, leaves_of_copy hs hd.bytes hd.not_mem hlt rfl ?_, fun hle => ?_⟩
    · rw [Nat.mod_eq_of_lt hsum, List.length_append]
    · exact absurd hlt (Nat.not_lt.2 hle)

/-- `strlcpy` always does what the header promises. `strlcat` does unless there is something to append and
    the string in the buffer has no room for its own end there, or the two lengths wrap. -/
theorem detectable_iff (hd : StringAt m p d) (hs : StringAt m q s) (hp : d.length < 2 ^ 64)
    (hq : s.length < 2 ^ 64) (hsize : size < 2 ^ 64) (hcpy : Apart p q (min s.length (size - 1)))
    (hcat : Apart (p + d.length) q (min s.length (size - 1 - d.length))) :
    Copies m p q size d s ∧ (Concatenates m p q size d s ↔
      size = 0 ∨ s = [] ∨ d.length < size ∧ d.length + s.length < 2 ^ 64) := by
  refine ⟨strlcpy_copies hs hd hq hsize hcpy, ?_⟩
  rcases Nat.lt_or_ge d.length size with hlt | hge
  · rw [concatenates_of_room hd hs hp hq hsize hlt hcat]
    refine ⟨fun hsum => .inr (.inr ⟨hlt, hsum⟩), ?_⟩
    rintro (rfl | rfl | ⟨-, hsum⟩)
    · exact absurd hlt (Nat.not_lt_zero _)
    · exact hp
    · exact hsum
  · rw [concatenates_of_full hd hs hp hq hge]
    refine ⟨Or.imp_right Or.inl, Or.imp_right fun h => h.resolve_right ?_⟩
    exact fun h => absurd h.1 (Nat.not_lt.2 hge)

/-- The strings "ab" at 0 and "c" at 4. -/
def twoStrings : Mem := fun a => ([97, 98, 0, 0, 99] : List UInt8).getD a 0

theorem stringAt_twoStrings : StringAt twoStrings 0 [97, 98] ∧ StringAt twoStrings 4 [99] := by
  refine ⟨⟨?_, rfl, by decide⟩, ⟨?_, rfl, by decide⟩⟩
  all_goals
    unfold BytesAt
    decide

/-- In a buffer of 4 bytes, "c" has room behind "ab". -/
theorem detectable_iff_four : Copies twoStrings 0 4 4 [97, 98] [99] ∧
    Concatenates twoStrings 0 4 4 [97, 98] [99] := by
  obtain ⟨hd, hs⟩ := stringAt_twoStrings
  obtain ⟨hcpy, hcat⟩ := detectable_iff hd hs (by decide) (by decide) (by decide : 4 < 2 ^ 64)
    (by decide) (by decide)
  exact ⟨hcpy, hcat.2 (by decide)⟩

/-- In a buffer of 2 bytes, it is not appended, and the result is 0. -/
theorem not_concatenates : StringAt twoStrings 0 [97, 98] ∧ StringAt twoStrings 4 [99] ∧
    ¬Concatenates twoStrings 0 4 2 [97, 98] [99] := by
  obtain ⟨hd, hs⟩ := stringAt_twoStrings
  refine ⟨hd, hs, (concatenates_of_full hd hs (by decide) (by decide) (by decide)).not.2 ?_⟩
  decide

end Dlb.Strlcpy
