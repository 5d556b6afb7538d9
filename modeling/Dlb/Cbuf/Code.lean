import Mathlib.Algebra.Group.Nat.Defs
import Mathlib.Data.Nat.Init
import Dlb.Fuel

/-!
# The circular buffer code

`src/cbuf.c` and `src/cbuf.h`, function by function. The bytes that `data` points
to are part of a `Cbuf`, so that two of them never share storage. A `size_t` is a
natural number, and its arithmetic is modulo `2 ^ 64`.

`memcpy` fails (`none`) if it reads or writes outside of the arrays it is given. The
loops have fuel, and fail when it is used up.
-/

namespace Dlb

/-- `struct cbuf`, with the storage. -/
structure Cbuf where
  data : List UInt8
  capacity : ℕ
  head : ℕ
  size : ℕ
  deriving DecidableEq

namespace Cbuf

/-- The difference of two values of the type `size_t`. -/
def sizeSub (a b : ℕ) : ℕ := (2 ^ 64 + a - b) % 2 ^ 64

/-- The sum of two values of the type `size_t`. -/
def sizeAdd (a b : ℕ) : ℕ := (a + b) % 2 ^ 64

theorem sizeSub_eq {a b : ℕ} (h : b ≤ a) (ha : a < 2 ^ 64) : sizeSub a b = a - b := by
  rw [sizeSub]
  omega

theorem sizeAdd_eq {a b : ℕ} (h : a + b < 2 ^ 64) : sizeAdd a b = a + b := Nat.mod_eq_of_lt h

/-- The bytes that `memcpy` reads from the array `l`. -/
def readBytes (l : List UInt8) (pos count : ℕ) : Option (List UInt8) :=
  if pos + count ≤ l.length then some ((l.drop pos).take count) else none

/-- The array `l` with `bs` in place of the bytes from `pos` on. -/
def overwrite (l : List UInt8) (pos : ℕ) (bs : List UInt8) : List UInt8 :=
  l.take pos ++ bs ++ l.drop (pos + bs.length)

/-- The array `l` after `memcpy` has written `bs`. -/
def writeBytes (l : List UInt8) (pos : ℕ) (bs : List UInt8) : Option (List UInt8) :=
  if pos + bs.length ≤ l.length then some (overwrite l pos bs) else none

def cbufInit (data : List UInt8) (capacity : ℕ) : Cbuf := ⟨data, capacity, 0, 0⟩

def cbufClear (c : Cbuf) : Cbuf := { c with head := 0, size := 0 }

def cbufUsed (c : Cbuf) : ℕ := c.size

def cbufAvail (c : Cbuf) : ℕ := sizeSub c.capacity c.size

def cbufTail (c : Cbuf) : ℕ := sizeAdd c.head c.size % c.capacity

def cbufHeadSize (c : Cbuf) : ℕ :=
  let r := sizeSub c.capacity c.head
  if r < c.size then r else c.size

def cbufTailSize (c : Cbuf) : ℕ :=
  let t := cbufTail c
  sizeSub c.capacity (if t > c.size then t else c.size)

def cbufHeadAdvance (c : Cbuf) (count : ℕ) : Cbuf :=
  let count := if count > c.size then c.size else count
  { c with size := sizeSub c.size count, head := sizeAdd c.head count % c.capacity }

def cbufTailAdvance (c : Cbuf) (count : ℕ) : Cbuf :=
  let a := cbufAvail c
  let count := if count > a then a else count
  { c with size := sizeAdd c.size count }

/-- The loop of `cbuf_move_in`. -/
def cbufMoveInLoop (data : List UInt8) (maxSize : ℕ) : ℕ → ℕ → StateT Cbuf Option ℕ
  | 0, _ => failure
  | fuel + 1, count => do
    let c ← get
    let tailSize := cbufTailSize c
    let srcSize := sizeSub maxSize count
    let x := if tailSize < srcSize then tailSize else srcSize
    if x = 0 then
      pure count
    else
      let bytes ← readBytes data count x
      let data' ← writeBytes c.data (cbufTail c) bytes
      set (cbufTailAdvance { c with data := data' } x)
      cbufMoveInLoop data maxSize fuel (sizeAdd count x)

def cbufMoveIn (fuel : ℕ) (data : List UInt8) (maxSize : ℕ) : StateT Cbuf Option ℕ :=
  cbufMoveInLoop data maxSize fuel 0

/-- The loop of `cbuf_move_out`, which also returns the array `data` it has written to. -/
def cbufMoveOutLoop (maxSize : ℕ) : ℕ → List UInt8 → ℕ → StateT Cbuf Option (ℕ × List UInt8)
  | 0, _, _ => failure
  | fuel + 1, data, count => do
    let c ← get
    let headSize := cbufHeadSize c
    let dstSize := sizeSub maxSize count
    let x := if headSize < dstSize then headSize else dstSize
    if x = 0 then
      pure (count, data)
    else
      let bytes ← readBytes c.data c.head x
      let data' ← writeBytes data count bytes
      set (cbufHeadAdvance c x)
      cbufMoveOutLoop maxSize fuel data' (sizeAdd count x)

def cbufMoveOut (fuel : ℕ) (data : List UInt8) (maxSize : ℕ) : StateT Cbuf Option (ℕ × List UInt8) :=
  cbufMoveOutLoop maxSize fuel data 0

/-- The loop of `cbuf_move`. The state is the pair of `dst` and `src`. -/
def cbufMoveLoop (maxSize : ℕ) : ℕ → ℕ → StateT (Cbuf × Cbuf) Option ℕ
  | 0, _ => failure
  | fuel + 1, count => do
    let (dst, src) ← get
    let headSize := cbufHeadSize src
    let tailSize := cbufTailSize dst
    let limit := sizeSub maxSize count
    let x := if headSize < tailSize then headSize else tailSize
    let y := if x < limit then x else limit
    if y = 0 then
      pure count
    else
      let bytes ← readBytes src.data src.head y
      let data' ← writeBytes dst.data (cbufTail dst) bytes
      set (cbufTailAdvance { dst with data := data' } y, cbufHeadAdvance src y)
      cbufMoveLoop maxSize fuel (sizeAdd count y)

def cbufMove (fuel maxSize : ℕ) : StateT (Cbuf × Cbuf) Option ℕ := do
  let (_, src) ← get
  let maxSize := if maxSize = 0 then src.size else maxSize
  cbufMoveLoop maxSize fuel 0

/-! ## Two buffers -/

/-- A call of a function on the buffer `i` of two, or of `cbuf_move` to the buffer `i` from the
    other one. -/
inductive Op
  | moveIn (i : Bool) (data : List UInt8) (maxSize : ℕ)
  | moveOut (i : Bool) (data : List UInt8) (maxSize : ℕ)
  | move (i : Bool) (maxSize : ℕ)
  | headAdvance (i : Bool) (count : ℕ)
  | tailAdvance (i : Bool) (bytes : List UInt8)
  | clear (i : Bool)

/-- The arrays are as long as the caller says, and the sizes fit into a `size_t`. -/
def Op.Legal : Op → Prop
  | .moveIn _ data maxSize => maxSize ≤ data.length ∧ maxSize < 2 ^ 64
  | .moveOut _ data maxSize => maxSize ≤ data.length ∧ maxSize < 2 ^ 64
  | .move _ maxSize => maxSize < 2 ^ 64
  | .headAdvance _ count => count < 2 ^ 64
  | .tailAdvance _ bytes => bytes.length < 2 ^ 64
  | .clear _ => True

/-- A program on the buffer `i`. -/
def onBuffer {α : Type} (i : Bool) (p : StateT Cbuf Option α) : StateT (Bool → Cbuf) Option α :=
  fun s => (p.run (s i)).map fun r => (r.1, Function.update s i r.2)

/-- A program on the buffer `i` and the other one. -/
def onBuffers {α : Type} (i : Bool) (p : StateT (Cbuf × Cbuf) Option α) :
    StateT (Bool → Cbuf) Option α :=
  fun s => (p.run (s i, s !i)).map fun r =>
    (r.1, Function.update (Function.update s i r.2.1) (!i) r.2.2)

/-- The bytes are written to successive tail regions, found with a copy of the `struct cbuf`,
    before the call of `cbuf_tail_advance` with their number. -/
def writeAndAdvance (fuel : ℕ) (bytes : List UInt8) : StateT Cbuf Option Unit := do
  let c ← get
  let _ ← cbufMoveIn fuel bytes bytes.length
  let copy ← get
  set (cbufTailAdvance { c with data := copy.data } bytes.length)

/-- What a call returns, and the array it has written to. -/
def exec (fuel : ℕ) : Op → StateT (Bool → Cbuf) Option (ℕ × List UInt8)
  | .moveIn i data maxSize => do
    let count ← onBuffer i (cbufMoveIn fuel data maxSize)
    pure (count, [])
  | .moveOut i data maxSize => onBuffer i (cbufMoveOut fuel data maxSize)
  | .move i maxSize => do
    let count ← onBuffers i (cbufMove fuel maxSize)
    pure (count, [])
  | .headAdvance i count => do
    onBuffer i (modify (cbufHeadAdvance · count))
    pure (0, [])
  | .tailAdvance i bytes => do
    onBuffer i (writeAndAdvance fuel bytes)
    pure (0, [])
  | .clear i => do
    onBuffer i (modify cbufClear)
    pure (0, [])

end Cbuf

end Dlb
