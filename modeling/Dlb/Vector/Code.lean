import Dlb.Strbuf.Code

/-!
# The vector code

`src/src/vector.c`. The bytes of the block that `ptr` points to are part of a `Vector`; there are none if
`ptr` is null. An `unsigned int` is a natural number, as is an `int` that is only used for its bits, and
the arithmetic is modulo `2 ^ 32`. `realloc` is that of the string buffers; a request for no bytes is like
any other.

A function fails (`none`) if it reads or writes where it may not.
-/

namespace Dlb

/-- `struct vector`. -/
structure Vector where
  ptr : List UInt8
  elemsize : ℕ
  capacity : ℕ
  size : ℕ
  deriving DecidableEq

namespace Vector

open Strbuf (realloc)

/-- The block after `memcpy` of the first `n` bytes of `data` to `pos`. -/
def memcpy (ptr : List UInt8) (pos : ℕ) (data : List UInt8) (n : ℕ) : Option (List UInt8) :=
  if n = 0 then
    some ptr
  else if n ≤ data.length ∧ pos + n ≤ ptr.length then
    some (ptr.take pos ++ data.take n ++ ptr.drop (pos + n))
  else none

def vectorInit (elemsize : ℕ) : Vector := ⟨[], elemsize, 0, 0⟩

def vectorClear (v : Vector) : Vector := { v with ptr := [], capacity := 0, size := 0 }

/-! ## `size_for` -/

/-- The loop clears the lowest bit, as long as there is another one. -/
def capLoop (cap : ℕ) : ℕ :=
  if cap &&& (cap - 1) = 0 then cap else capLoop (cap &&& (cap - 1))
termination_by cap
decreasing_by
  refine Nat.lt_of_le_of_lt Nat.and_le_right (Nat.sub_lt (Nat.pos_of_ne_zero ?_) Nat.one_pos)
  rintro rfl
  simp_all

/-- The bits of `cap` at the end. -/
def capFor (needed : ℕ) : ℕ :=
  let cap := capLoop needed
  let cap := if cap < needed then cap * 2 % 2 ^ 32 else cap
  -- As an `int`, `cap` is less than 8 also if it is negative.
  if cap < 8 ∨ 2 ^ 31 ≤ cap then 8 else cap

/-- The capacity is kept. -/
def Keeps (v : Vector) (needed : ℕ) : Prop :=
  capFor needed ≤ v.capacity ∧ v.capacity ≤ capFor needed * 2 % 2 ^ 32

instance (v : Vector) (needed : ℕ) : Decidable (v.Keeps needed) := instDecidableAnd

def sizeFor (a : Answer) (v : Vector) (needed : ℕ) : ℤ × Vector :=
  if v.Keeps needed then
    (0, v)
  else
    match realloc a v.ptr (capFor needed * v.elemsize % 2 ^ 32) with
    | none => if needed ≤ v.capacity then (0, v) else (-1, v)
    | some ptr => (0, { v with ptr := ptr, capacity := capFor needed })

/-! ## Changes of the size -/

def vectorResize (a : Answer) (v : Vector) (newSize : ℕ) : ℤ × Vector :=
  let (r, v) := sizeFor a v newSize
  if r < 0 then (-1, v) else (0, { v with size := newSize })

def vectorPush (a : Answer) (v : Vector) (data : List UInt8) (count : ℕ) : Option (ℤ × Vector) := do
  let (r, v) := sizeFor a v ((v.size + count) % 2 ^ 32)
  if r < 0 then
    return (-1, v)
  let ptr ← memcpy v.ptr (v.size * v.elemsize % 2 ^ 32) data (count * v.elemsize % 2 ^ 32)
  return (0, { v with ptr := ptr, size := (v.size + count) % 2 ^ 32 })

def vectorPop (a : Answer) (v : Vector) (count : ℕ) : Vector :=
  (vectorResize a v (v.size - if count > v.size then v.size else count)).2

/-- The bytes that `VECTOR_PTR` points to. -/
def vectorAt (v : Vector) (i : ℕ) : List UInt8 := (v.ptr.drop (i * v.elemsize % 2 ^ 32)).take v.elemsize

/-! ## Calls -/

/-- A call of a function for a vector. -/
inductive Call
  | push (data : List UInt8) (count : ℕ)
  | pop (count : ℕ)
  | resize (newSize : ℕ)
  | clear

/-- What a call returns, `0` if it returns nothing, and the vector after it. -/
def Call.exec (a : Answer) (v : Vector) : Call → Option (ℤ × Vector)
  | .push data count => vectorPush a v data count
  | .pop count => some (0, vectorPop a v count)
  | .resize newSize => some (vectorResize a v newSize)
  | .clear => some (0, vectorClear v)

end Vector

end Dlb
