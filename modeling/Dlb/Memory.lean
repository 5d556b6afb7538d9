import Mathlib.Algebra.Group.Nat.Defs

/-!
# Memory

Byte-addressed memory, with little-endian loads and stores of unsigned numbers.

* `load_store_self`, `load_store_of_disjoint`: a load after a store;
* `load_congr`: a load only reads its own bytes.
-/

namespace Dlb

/-- The bytes of the memory. -/
abbrev Mem := ℕ → UInt8

namespace Mem

variable {m m' : Mem} {p q n k v : ℕ}

/-- The number in the `n` bytes at `p`. -/
def load (m : Mem) (p : ℕ) : ℕ → ℕ
  | 0 => 0
  | n + 1 => (m p).toNat + 256 * load m (p + 1) n

/-- The number `v` is stored in the `n` bytes at `p`. -/
def store (m : Mem) (p n v : ℕ) : Mem := fun q =>
  if p ≤ q ∧ q < p + n then UInt8.ofNat (v / 256 ^ (q - p)) else m q

/-- The `n` bytes at `q` are copied to `p`; the two do not overlap. -/
def copy (m : Mem) (p q n : ℕ) : Mem := fun r =>
  if p ≤ r ∧ r < p + n then m (r - p + q) else m r

theorem load_one : m.load p 1 = (m p).toNat := by
  rw [load, load, Nat.mul_zero, Nat.add_zero]

theorem load_congr (h : ∀ q, p ≤ q → q < p + n → m q = m' q) : m.load p n = m'.load p n := by
  induction n generalizing p with
  | zero => rfl
  | succ n ih =>
    rw [load, load, h p (Nat.le_refl p) (by omega), ih fun q hp hq => h q (by omega) (by omega)]

theorem load_eq_zero (h : ∀ q, p ≤ q → q < p + n → m q = 0) : m.load p n = 0 := by
  induction n generalizing p with
  | zero => rw [load]
  | succ n ih =>
    rw [load, h p (Nat.le_refl p) (by omega), ih fun q hp hq => h q (by omega) (by omega)]
    rfl

theorem store_of_not_mem (h : ¬(p ≤ q ∧ q < p + n)) : m.store p n v q = m q := if_neg h

theorem copy_of_not_mem {r : ℕ} (h : ¬(p ≤ r ∧ r < p + n)) : m.copy p q n r = m r := if_neg h

theorem load_store_of_disjoint (h : q + k ≤ p ∨ p + n ≤ q) :
    (m.store p n v).load q k = m.load q k :=
  load_congr fun r hq hr => store_of_not_mem (by omega)

theorem load_store_self : (m.store p n v).load p n = v % 256 ^ n := by
  induction n generalizing p v m with
  | zero => simp [load, Nat.mod_one]
  | succ n ih =>
    have hrest : (m.store p (n + 1) v).load (p + 1) n = (m.store (p + 1) n (v / 256)).load (p + 1) n := by
      refine load_congr fun q hp hq => ?_
      rw [store, store, if_pos (by omega), if_pos (by omega), Nat.div_div_eq_div_mul,
        ← Nat.pow_succ', show (q - (p + 1)).succ = q - p by omega]
    have hfirst : (m.store p (n + 1) v p).toNat = v % 256 := by
      rw [store, if_pos (by omega), Nat.sub_self, Nat.pow_zero, Nat.div_one, UInt8.toNat_ofNat']
    rw [load, hrest, ih, hfirst, Nat.pow_succ', Nat.mod_mul]

attribute [irreducible] load

end Mem

end Dlb
