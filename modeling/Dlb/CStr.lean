import Dlb.Memory

/-!
# Strings in the memory

A string is a list of bytes other than 0, which ends in the memory with a 0.

* `strlen_eq`: the length of a string;
* `StringAt.append_copy`: the first bytes of a string are copied behind other bytes.
-/

namespace Dlb

open Mem

variable {m : Mem} {p q n : ℕ} {d s : List UInt8} {c : UInt8}

/-- The bytes `s` are at `p`. -/
def BytesAt (m : Mem) (p : ℕ) (s : List UInt8) : Prop := ∀ i (h : i < s.length), m (p + i) = s[i]

/-- The string `s` is at `p`. -/
structure StringAt (m : Mem) (p : ℕ) (s : List UInt8) : Prop where
  bytes : BytesAt m p s
  nul : m (p + s.length) = 0
  not_mem : 0 ∉ s

/-! ## `strlen` -/

/-- The number of bytes before the first 0. -/
def strlenLoop (m : Mem) : ℕ → ℕ → Option ℕ
  | 0, _ => none
  | fuel + 1, p => if m p = 0 then some 0 else (strlenLoop m fuel (p + 1)).map (· + 1)

/-- The length is less than `2 ^ 64`. -/
def strlen (m : Mem) (p : ℕ) : Option ℕ := strlenLoop m (2 ^ 64) p

theorem StringAt.tail (h : StringAt m p (c :: s)) : StringAt m (p + 1) s where
  bytes i hi := by
    have hb := h.bytes (i + 1) (Nat.succ_lt_succ hi)
    rwa [List.getElem_cons_succ, Nat.add_comm i, ← Nat.add_assoc] at hb
  nul := by
    have hn := h.nul
    rwa [List.length_cons, Nat.add_comm s.length, ← Nat.add_assoc] at hn
  not_mem hs := h.not_mem (List.mem_cons_of_mem c hs)

theorem StringAt.head_ne_zero (h : StringAt m p (c :: s)) : m p ≠ 0 := by
  have hb : m p = c := h.bytes 0 (Nat.zero_lt_succ _)
  rw [hb]
  rintro rfl
  exact h.not_mem List.mem_cons_self

theorem strlenLoop_eq {fuel : ℕ} (h : StringAt m p s) (hf : s.length < fuel) :
    strlenLoop m fuel p = some s.length := by
  induction s generalizing p fuel with
  | nil =>
    obtain ⟨fuel, rfl⟩ := Nat.exists_eq_succ_of_ne_zero (Nat.ne_zero_of_lt hf)
    exact if_pos h.nul
  | cons c s ih =>
    obtain ⟨fuel, rfl⟩ := Nat.exists_eq_succ_of_ne_zero (Nat.ne_zero_of_lt hf)
    rw [strlenLoop, if_neg h.head_ne_zero, ih h.tail (Nat.lt_of_succ_lt_succ hf)]
    rfl

theorem strlen_eq (h : StringAt m p s) (hs : s.length < 2 ^ 64) : strlen m p = some s.length :=
  strlenLoop_eq h hs

/-! ## Copies -/

/-- The `n` first bytes of a string are copied behind the bytes `d`, and a 0 behind them. -/
theorem StringAt.append_copy (hs : StringAt m q s) (hd : BytesAt m p d) (hd₀ : 0 ∉ d)
    (hn : n ≤ s.length) :
    StringAt ((m.copy (p + d.length) q n).store (p + d.length + n) 1 0) p (d ++ s.take n) where
  bytes i hi := by
    have hi' : i < d.length + n := by
      rwa [List.length_append, List.length_take_of_le hn] at hi
    rw [store_of_not_mem (by omega), List.getElem_append]
    split
    next hlt => rw [copy_of_not_mem (by omega), hd i hlt]
    next hge =>
      have hb := hs.bytes (i - d.length) (by omega)
      rw [List.getElem_take, ← hb, Mem.copy, if_pos (by omega)]
      congr 1
      omega
  nul := by
    rw [List.length_append, List.length_take_of_le hn, ← Nat.add_assoc, Mem.store, if_pos (by omega)]
    simp
  not_mem h := by
    rcases List.mem_append.1 h with h | h
    · exact hd₀ h
    · exact hs.not_mem (List.mem_of_mem_take h)

end Dlb
