import Mathlib.Algebra.Group.Nat.Defs

/-!
# Chunks of one size

A list that is cut into chunks of the size `e`. The chunks are determined by the list and their number:
chunk number `i` starts at `i * e`.
-/

namespace Dlb

variable {α : Type*} {e n : ℕ} {l l' : List (List α)} {xs ys : List α}

/-- The list `xs` is made of the chunks `l`. -/
structure Chunks (e : ℕ) (l : List (List α)) (xs : List α) : Prop where
  size : ∀ x ∈ l, x.length = e
  flatten : l.flatten = xs

namespace Chunks

theorem nil (e : ℕ) : Chunks e ([] : List (List α)) [] := ⟨by simp, rfl⟩

theorem cons {x : List α} (hx : x.length = e) (h : Chunks e l xs) : Chunks e (x :: l) (x ++ xs) := by
  refine ⟨fun y hy => ?_, by rw [List.flatten_cons, h.flatten]⟩
  rcases List.mem_cons.1 hy with rfl | hy
  · exact hx
  · exact h.size y hy

theorem append (h : Chunks e l xs) (h' : Chunks e l' ys) : Chunks e (l ++ l') (xs ++ ys) := by
  refine ⟨fun x hx => ?_, by rw [List.flatten_append, h.flatten, h'.flatten]⟩
  exact (List.mem_append.1 hx).elim (h.size x) (h'.size x)

theorem length_eq (h : Chunks e l xs) : xs.length = l.length * e := by
  induction l generalizing xs with
  | nil => rw [← h.flatten, List.flatten_nil, List.length_nil, List.length_nil, Nat.zero_mul]
  | cons x l ih =>
    have hl : Chunks e l l.flatten := ⟨fun y hy => h.size y (List.mem_cons_of_mem x hy), rfl⟩
    rw [← h.flatten, List.flatten_cons, List.length_append, h.size x List.mem_cons_self, ih hl,
      List.length_cons, Nat.add_mul, Nat.one_mul, Nat.add_comm]

theorem take (h : Chunks e l xs) (n : ℕ) : Chunks e (l.take n) (xs.take (n * e)) := by
  induction l generalizing xs n with
  | nil =>
    obtain rfl : [] = xs := h.flatten
    rw [List.take_nil, List.take_nil]
    exact nil e
  | cons x l ih =>
    have hx := h.size x List.mem_cons_self
    have hl : Chunks e l l.flatten := ⟨fun y hy => h.size y (List.mem_cons_of_mem x hy), rfl⟩
    cases n with
    | zero =>
      rw [Nat.zero_mul, List.take_zero, List.take_zero]
      exact nil e
    | succ n =>
      have htake : xs.take ((n + 1) * e) = x ++ l.flatten.take (n * e) := by
        rw [← h.flatten, List.flatten_cons, Nat.add_mul, Nat.one_mul, Nat.add_comm, ← hx,
          List.take_length_add_append]
      rw [List.take_succ_cons, htake]
      exact (ih hl n).cons hx

/-- Chunk number `n`. -/
theorem get (h : Chunks e l xs) (hn : n < l.length) : (xs.drop (n * e)).take e = l[n] := by
  induction l generalizing xs n with
  | nil => cases hn
  | cons x l ih =>
    have hx := h.size x List.mem_cons_self
    have hl : Chunks e l l.flatten := ⟨fun y hy => h.size y (List.mem_cons_of_mem x hy), rfl⟩
    rw [← h.flatten, List.flatten_cons]
    cases n with
    | zero => rw [Nat.zero_mul, List.drop_zero, List.take_left' hx, List.getElem_cons_zero]
    | succ n =>
      rw [Nat.add_mul, Nat.one_mul, Nat.add_comm, ← hx, List.drop_length_add_append, hx,
        List.getElem_cons_succ]
      exact ih hl (Nat.lt_of_succ_lt_succ hn)

/-- A list of the right length is made of chunks. -/
theorem exists_of_length (h : xs.length = n * e) : ∃ l, l.length = n ∧ Chunks e l xs := by
  induction n generalizing xs with
  | zero =>
    rw [Nat.zero_mul] at h
    obtain rfl := List.length_eq_zero_iff.1 h
    exact ⟨[], rfl, nil e⟩
  | succ n ih =>
    rw [Nat.add_mul, Nat.one_mul] at h
    have hdrop : (xs.drop e).length = n * e := by
      rw [List.length_drop]
      omega
    obtain ⟨l, hl, hc⟩ := ih hdrop
    refine ⟨xs.take e :: l, by rw [List.length_cons, hl], ?_⟩
    have hcons := hc.cons (x := xs.take e) (by rw [List.length_take]; omega)
    rwa [List.take_append_drop] at hcons

end Chunks

end Dlb
