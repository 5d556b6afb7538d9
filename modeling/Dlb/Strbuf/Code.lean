import Mathlib.Algebra.Group.Int.Defs
import Mathlib.Algebra.Group.Nat.Defs

/-!
# The string buffer code

`src/src/strbuf.c`. The bytes that `text` points to are part of a `Strbuf`: those of `strbuf_blank`, or
those of a block. A `size_t` is a natural number, and its arithmetic is modulo `2 ^ 64`; an
`int` is an integer.

A function fails (`none`) if it reads or writes where it may not, or if it does not return.
-/

namespace Dlb

/-- `struct strbuf`, and whether `text` is `strbuf_blank`. -/
structure Strbuf where
  blank : Bool
  text : List UInt8
  length : ℕ
  capacity : ℕ
  failed : Bool
  deriving DecidableEq

/-- The answer of `malloc` or `realloc`: null, or a block whose new bytes are those of a function. -/
abbrev Answer := Option (ℕ → UInt8)

namespace Strbuf

/-- A `size_t` as an `int`. -/
def toInt (n : ℕ) : ℤ := (n : ℤ).bmod (2 ^ 32)

/-- An `int` as a `size_t`. -/
def toSize (n : ℤ) : ℕ := (n % 2 ^ 64).toNat

/-- `realloc` to `n` bytes, or `malloc` if `old` is empty. No block has `2 ^ 63` bytes or more. -/
def realloc (a : Answer) (old : List UInt8) (n : ℕ) : Option (List UInt8) :=
  if n < 2 ^ 63 then
    a.map fun fresh => old.take n ++ ((List.range n).map fresh).drop old.length
  else none

/-- The text after `bs` has been written at `pos`. -/
def write (buf : Strbuf) (pos : ℕ) (bs : List UInt8) : Option (List UInt8) :=
  if buf.blank = false ∧ pos + bs.length ≤ buf.text.length then
    some (buf.text.take pos ++ bs ++ buf.text.drop (pos + bs.length))
  else none

def strlen (src : List UInt8) : Option ℕ := src.findIdx? (· == 0)

def strbufInit : Strbuf := ⟨true, [0], 0, 0, false⟩

/-! ## `strbuf_capacity_hint` -/

def capLoop (need : ℕ) : ℕ → ℕ → Option ℕ
  | 0, _ => none
  | fuel + 1, newCap => if newCap < need then capLoop need fuel (newCap * 2 % 2 ^ 64) else newCap

/-- The capacity for a string of this length. `newCap` is zero after 59 iterations, and then the loop
    does not end. -/
def newCap (length : ℕ) : Option ℕ := capLoop ((length + 1) % 2 ^ 64) 64 32

def strbufCapacityHint (a : Answer) (buf : Strbuf) (length : ℕ) : Option (ℤ × Strbuf) := do
  if length < buf.length then
    return (0, buf)
  let newCap ← newCap length
  if newCap = buf.capacity then
    return (0, buf)
  match realloc a (if buf.blank then [] else buf.text) newCap with
  | none => return (-1, buf)
  | some text => return (0, { buf with blank := false, text := text, capacity := newCap })

/-! ## `strbuf_add_string` -/

/-- The length of a string that is given with a length, which is negative if it is not known. -/
def givenLength (src : List UInt8) (length : ℤ) : Option ℤ :=
  if length < 0 then (strlen src).map toInt else some length

/-- `memcpy` of `n` bytes to the end of the text, and the nul behind them at `length`. -/
def append (buf : Strbuf) (src : List UInt8) (n length : ℕ) : Option Strbuf := do
  if src.length < n then
    failure
  let text ← buf.write buf.length (src.take n)
  let text ← { buf with text := text }.write length [0]
  return { buf with text := text, length := length }

/-- The bytes from `text` on are `src`. -/
def strbufAddString (a : Answer) (buf : Strbuf) (src : List UInt8) (length : ℤ) :
    Option (ℤ × Strbuf) := do
  let length ← givenLength src length
  let (r, buf) ← strbufCapacityHint a buf (toSize (buf.length + length))
  if r < 0 then
    return (-1, buf)
  let buf ← append buf src (toSize length) (toSize (buf.length + length))
  return (length, buf)

def strbufAddChar (a : Answer) (buf : Strbuf) (c : UInt8) : Option (ℤ × Strbuf) :=
  strbufAddString a buf [c] 1

/-! ## `strbuf_resize` -/

/-- The block is freed. -/
def strbufClear (_ : Strbuf) : Strbuf := strbufInit

/-- The length and the nul are set, and the capacity is reduced if it is much too large. -/
def setLength (a : Answer) (buf : Strbuf) (newLength : ℕ) : Option Strbuf := do
  let text ← buf.write newLength [0]
  let buf := { buf with text := text, length := newLength }
  if (newLength + 1) % 2 ^ 64 * 4 % 2 ^ 64 < buf.capacity then
    let (_, buf) ← strbufCapacityHint a buf ((newLength + 1) % 2 ^ 64)
    return buf
  return buf

def strbufResize (a a' : Answer) (buf : Strbuf) (newLength : ℕ) : Option (ℤ × Strbuf) := do
  let (r, buf) ← if (newLength + 1) % 2 ^ 64 > buf.capacity then
    strbufCapacityHint a buf newLength else some (0, buf)
  if r < 0 then
    return (-1, { buf with failed := true })
  return (0, ← setLength a' buf newLength)

/-! ## `strbuf_vprintf` -/

/-- What `vsnprintf` makes of a format and its arguments: a text, or an error, for which it returns a
    negative number and may have written some bytes. -/
inductive Formatted
  | text (out : List UInt8) (h : out.length < 2 ^ 31)
  | error (r : ℤ) (bytes : List UInt8) (h : r < 0) (h' : bytes.length < 2 ^ 31)

/-- What `vsnprintf` returns. -/
def Formatted.ret : Formatted → ℤ
  | .text out _ => out.length
  | .error r _ _ _ => r

/-- What `vsnprintf` writes if there is room for `n` bytes. -/
def Formatted.written (n : ℕ) : Formatted → List UInt8
  | .text out _ => if n = 0 then [] else out.take (n - 1) ++ [0]
  | .error _ bytes _ _ => bytes.take n

/-- `capacity - length` as an `int`. -/
def room (buf : Strbuf) : ℤ := toInt ((buf.capacity + (2 ^ 64 - buf.length)) % 2 ^ 64)

/-- `r + 1 < room` -/
def Formatted.Fits (fm : Formatted) (room : ℤ) : Prop := (fm.ret + 1).bmod (2 ^ 32) < room

instance (fm : Formatted) (room : ℤ) : Decidable (fm.Fits room) := Int.decLt _ _

/-- The loop, from the call number `i` of `vsnprintf` on. -/
def vprintfLoop (a : ℕ → Answer) (f : ℕ → Formatted) : ℕ → ℕ → Strbuf → Option (ℤ × Strbuf)
  | 0, _, _ => none
  | fuel + 1, i, buf => do
    let text ← buf.write buf.length ((f i).written (toSize buf.room))
    let buf := { buf with text := text }
    if (f i).Fits buf.room then
      return ((f i).ret, { buf with length := toSize (buf.length + (f i).ret) })
    let (r, buf) ← strbufCapacityHint (a (i + 1)) buf ((buf.capacity + 1) % 2 ^ 64)
    if r < 0 then
      return (-1, { buf with failed := true })
    vprintfLoop a f fuel (i + 1) buf

/-- The capacity is doubled in each iteration, so there are less than 64 of them. -/
def strbufVprintf (a : ℕ → Answer) (f : ℕ → Formatted) (buf : Strbuf) : Option (ℤ × Strbuf) := do
  let (r, buf) ← strbufCapacityHint (a 0) buf 1
  if r < 0 then
    return (-1, buf)
  vprintfLoop a f 64 0 buf

/-! ## Calls -/

/-- A call of a function for a buffer. -/
inductive Call
  | init
  | clear
  | resize (newLength : ℕ)
  | capacityHint (length : ℕ)
  | addChar (c : UInt8)
  | addString (src : List UInt8) (length : ℤ)
  | printf (f : ℕ → Formatted)

/-- What a call returns, `0` if it returns nothing, and the buffer after it. The answers to its requests
    for memory are those of `a`. -/
def Call.exec (a : ℕ → Answer) (buf : Strbuf) : Call → Option (ℤ × Strbuf)
  | .init => some (0, strbufInit)
  | .clear => some (0, strbufClear buf)
  | .resize newLength => strbufResize (a 0) (a 1) buf newLength
  | .capacityHint length => strbufCapacityHint (a 0) buf length
  | .addChar c => strbufAddChar (a 0) buf c
  | .addString src length => strbufAddString (a 0) buf src length
  | .printf f => strbufVprintf a f buf

/-- The arguments are of their types, and a string that is given with a length has so many bytes,
    while one without has a nul. -/
def Call.Valid : Call → Prop
  | .resize n | .capacityHint n => n < 2 ^ 64
  | .addString src length =>
    length < 2 ^ 31 ∧ if length < 0 then (0 : UInt8) ∈ src else length ≤ src.length
  | .init | .clear | .addChar _ | .printf _ => True

end Strbuf

end Dlb
