import Dlb.Digits

/-!
# Chunks

The parts of `src/bint.c` that work on a single chunk. A chunk is an array of
`BINT_CHUNK_SIZE = 4` components of 32 bits, the least significant one first. The
component loops are written as loops over the list of components: `scan` for a
loop which counts upwards, `scanDown` for one which counts downwards.

A flag or a carry that the code keeps in an `int` is an `UInt32` here, as only
its bits and whether it is zero matter.
-/

namespace Dlb.Bint

/-- An array of `BINT_CHUNK_SIZE` components. -/
structure Chunk where
  data : List UInt32
  length_data : data.length = 4
  deriving DecidableEq

namespace Chunk

variable {σ : Type*}

/-- The chunk with all components zero. -/
def zero : Chunk := ⟨[0, 0, 0, 0], rfl⟩

/-- The chunk with all bits set. -/
def ones : Chunk := ⟨List.replicate 4 0xffffffff, rfl⟩

/-- A loop over the components, upwards. -/
def scan (f : σ → UInt32 → UInt32 × σ) (s : σ) (c : Chunk) : Chunk × σ :=
  (⟨(Dlb.scan f s c.data).1, by simp [c.length_data]⟩, (Dlb.scan f s c.data).2)

/-- A loop over the components of two chunks, upwards. -/
def scan₂ (f : σ → UInt32 × UInt32 → UInt32 × σ) (s : σ) (a b : Chunk) : Chunk × σ :=
  (⟨(Dlb.scan f s (a.data.zip b.data)).1, by simp [a.length_data, b.length_data]⟩,
    (Dlb.scan f s (a.data.zip b.data)).2)

/-- A loop over the components, downwards. -/
def scanDown (f : σ → UInt32 → UInt32 × σ) (s : σ) (c : Chunk) : Chunk × σ :=
  (⟨(Dlb.scanDown f s c.data).1, by simp [c.length_data]⟩, (Dlb.scanDown f s c.data).2)

/-- A loop that combines the components of two chunks. -/
def zipWith (f : UInt32 → UInt32 → UInt32) (a b : Chunk) : Chunk :=
  ⟨List.zipWith f a.data b.data, by simp [a.length_data, b.length_data]⟩

end Chunk

/-- `chunk_is_zero`. -/
def chunkIsZero (c : Chunk) : Bool := c.data.all (· = 0)

/-- The loop of `compare_chunk`, over the pairs of components from the top. -/
def compareComponents : List (UInt32 × UInt32) → ℤ
  | [] => 0
  | (ca, cb) :: l => if ca < cb then -1 else if ca > cb then 1 else compareComponents l

/-- `compare_chunk`. -/
def compareChunk (a b : Chunk) : ℤ := compareComponents (a.data.zip b.data).reverse

/-- The loop of `bit_length`, of at most 32 iterations. -/
def bitLengthLoop : ℕ → UInt32 → ℕ
  | 0, _ => 0
  | n + 1, num => if num ≠ 0 then bitLengthLoop n (num >>> 1) + 1 else 0

/-- `bit_length`. -/
def bitLength (num : UInt32) : ℕ := bitLengthLoop 32 num

/-- The index and the value of the most significant component which is not zero. -/
def topComponent : List UInt32 → Option (ℕ × UInt32)
  | [] => none
  | d :: l => match topComponent l with
    | some (i, e) => some (i + 1, e)
    | none => if d ≠ 0 then some (0, d) else none

/-! ## Addition and subtraction -/

/-- A component in the first loop of `mag_add`. -/
def addComponent (carry : UInt32) (p : UInt32 × UInt32) : UInt32 × UInt32 :=
  let r : UInt64 := p.1.toUInt64 + p.2.toUInt64
  let r := if carry ≠ 0 then r + 1 else r
  (r.toUInt32, (r >>> 32).toUInt32)

/-- A component in the second loop of `mag_add`. -/
def carryComponent (carry : UInt32) (d : UInt32) : UInt32 × UInt32 :=
  let r : UInt64 := d.toUInt64
  let r := if carry ≠ 0 then r + 1 else r
  (r.toUInt32, (r &&& ((1 : UInt64) <<< 32)).toUInt32)

/-- A component in the first loop of `mag_sub`. -/
def subComponent (borrow : UInt32) (p : UInt32 × UInt32) : UInt32 × UInt32 :=
  let r : UInt64 := p.1.toUInt64 - p.2.toUInt64
  let r := if borrow ≠ 0 then r - 1 else r
  (r.toUInt32, (r >>> 32).toUInt32)

/-- A component in the second loop of `mag_sub`. -/
def borrowComponent (borrow : UInt32) (d : UInt32) : UInt32 × UInt32 :=
  let r : UInt64 := d.toUInt64
  let r := if borrow ≠ 0 then r - 1 else r
  (r.toUInt32, (r >>> 32).toUInt32)

/-! ## Multiplication -/

/-- A component in the first loop of `chunk_mac`. -/
def accComponent (carry : UInt32) (p : UInt32 × UInt32) : UInt32 × UInt32 :=
  let rd : UInt64 := p.1.toUInt64
  let rd := rd + p.2.toUInt64
  let rd := rd + carry.toUInt64
  (rd.toUInt32, (rd >>> 32).toUInt32)

/-- A component in the product loop of `chunk_mac`, of `ad` with the components of
    `b` and `mm`. -/
def macComponent (ad : UInt32) (carry : UInt32) (p : UInt32 × UInt32) : UInt32 × UInt32 :=
  let r : UInt64 := ad.toUInt64 * p.1.toUInt64
  let r := r + p.2.toUInt64
  let r := r + carry.toUInt64
  (r.toUInt32, (r >>> 32).toUInt32)

/-- The `while` loop of `chunk_mac`, over the components of `mm` that are left. -/
def macCarry : UInt32 → List UInt32 → List UInt32
  | _, [] => []
  | carry, m :: mm =>
    if carry ≠ 0 then
      let r : UInt64 := m.toUInt64 + carry.toUInt64
      r.toUInt32 :: macCarry (r >>> 32).toUInt32 mm
    else m :: mm

/-- An iteration of the outer product loop of `chunk_mac`, over the components of
    `mm` from the index `i` on. -/
def macRow (ad : UInt32) (b : Chunk) (mm : List UInt32) : List UInt32 :=
  (Dlb.scan (macComponent ad) 0 (b.data.zip mm)).1 ++
    macCarry (Dlb.scan (macComponent ad) 0 (b.data.zip mm)).2 (mm.drop 4)

/-- The outer product loop of `chunk_mac`. -/
def macRows (b : Chunk) : List UInt32 → List UInt32 → List UInt32
  | ad :: as, mm => match macRow ad b mm with
    | [] => []
    | m :: mm => m :: macRows b as mm
  | [], mm => mm

theorem length_macCarry (carry : UInt32) (mm : List UInt32) :
    (macCarry carry mm).length = mm.length := by
  induction mm generalizing carry with
  | nil => rfl
  | cons m mm ih =>
    rw [macCarry]
    split <;> simp [ih]

theorem length_macRow (ad : UInt32) (b : Chunk) {mm : List UInt32} (h : 4 ≤ mm.length) :
    (macRow ad b mm).length = mm.length := by
  rw [macRow, List.length_append, length_macCarry, length_scan, List.length_zip, b.length_data,
    List.length_drop]
  omega

theorem length_macRows (b : Chunk) (as : List UInt32) {mm : List UInt32}
    (h : 4 + as.length ≤ mm.length) : (macRows b as mm).length = mm.length := by
  induction as generalizing mm with
  | nil => rfl
  | cons ad as ih =>
    rw [List.length_cons] at h
    have hr := length_macRow ad b (show 4 ≤ mm.length by omega)
    rw [macRows]
    split
    · rename_i e
      rw [e, List.length_nil] at hr
      omega
    · rename_i m mm' e
      rw [e, List.length_cons] at hr
      rw [List.length_cons, ih (by omega), hr]

/-- The array `mm` of `chunk_mac` once the result and the incoming carry are added. -/
def macAcc (r carry : Chunk) : List UInt32 := (r.scan₂ accComponent 0 carry).1.data ++ [0, 0, 0, 0]

/-- The array `mm` at the end of `chunk_mac`. -/
def macArray (ab : Option (Chunk × Chunk)) (r carry : Chunk) : List UInt32 :=
  match ab with
  | some (a, b) => macRows b a.data (macAcc r carry)
  | none => macAcc r carry

theorem length_macAcc (r carry : Chunk) : (macAcc r carry).length = 8 := by
  simp [macAcc, Chunk.length_data]

theorem length_macArray (ab : Option (Chunk × Chunk)) (r carry : Chunk) :
    (macArray ab r carry).length = 8 := by
  cases ab with
  | none => exact length_macAcc r carry
  | some p => rw [macArray, length_macRows _ _ (by simp [length_macAcc, Chunk.length_data]),
      length_macAcc]

/-- `chunk_mac`: the result and the outgoing carry. The chunks `a` and `b` may be
    `NULL`, both at once. -/
def chunkMac (ab : Option (Chunk × Chunk)) (r carry : Chunk) : Chunk × Chunk :=
  (⟨(macArray ab r carry).take 4, by simp [length_macArray]⟩,
    ⟨(macArray ab r carry).drop 4, by simp [length_macArray]⟩)

/-! ## Shifts -/

/-- The components that leave a chunk at its top, in `bint_shift_left`. -/
def shlNext (count : ℕ) (c : Chunk) : Chunk :=
  ⟨c.data.drop (4 - count) ++ List.replicate (4 - min count 4) 0, by simp [c.length_data]; omega⟩

/-- The components of a chunk after they are shifted, in `bint_shift_left`. -/
def shlComponents (count : ℕ) (tmp c : Chunk) : Chunk :=
  ⟨tmp.data.take count ++ c.data.take (4 - count), by simp [c.length_data, tmp.length_data]; omega⟩

/-- A component in the bit loop of `bint_shift_left`. -/
def shlBits (bitShift : UInt32) (carry : UInt32) (d : UInt32) : UInt32 × UInt32 :=
  ((d <<< bitShift) ||| carry, d >>> (32 - bitShift))

/-- The components that leave a chunk at its bottom, in `bint_shift_right`. -/
def shrNext (count : ℕ) (c : Chunk) : Chunk :=
  ⟨List.replicate (4 - min count 4) 0 ++ c.data.take count, by simp [c.length_data]⟩

/-- The components of a chunk after they are shifted, in `bint_shift_right`. -/
def shrComponents (count : ℕ) (tmp c : Chunk) : Chunk :=
  ⟨c.data.drop count ++ tmp.data.drop (4 - count), by simp [c.length_data, tmp.length_data]⟩

/-- A component in the bit loop of `bint_shift_right`. -/
def shrBits (bitShift : UInt32) (carry : UInt32) (d : UInt32) : UInt32 × UInt32 :=
  ((d >>> bitShift) ||| carry, (d &&& ((1 <<< bitShift) - 1)) <<< (32 - bitShift))

/-! ## Digits and bits -/

/-- A component in the first loop of `bint_digit_push`. -/
def mulComponent (base : UInt32) (carry : UInt32) (d : UInt32) : UInt32 × UInt32 :=
  let d : UInt64 := d.toUInt64 * base.toUInt64
  let d := d + carry.toUInt64
  (d.toUInt32, (d >>> 32).toUInt32)

/-- A component in the second loop of `bint_digit_push`. -/
def digitComponent (carry : UInt32) (d : UInt32) : UInt32 × UInt32 :=
  let d : UInt64 := d.toUInt64 + carry.toUInt64
  (d.toUInt32, (d >>> 32).toUInt32)

/-- A component in the loop of `bint_digit_pop`. -/
def popComponent (base : UInt32) (remainder : UInt64) (d : UInt32) : UInt32 × UInt64 :=
  let d : UInt64 := d.toUInt64 + (remainder <<< 32)
  ((d / base.toUInt64).toUInt32, d % base.toUInt64)

/-- The component of a chunk that has the bit `pos`, changed by `f` of the bit's mask. -/
def Chunk.modifyBit (f : UInt32 → UInt32 → UInt32) (pos : ℕ) (c : Chunk) : Chunk :=
  ⟨c.data.modify (pos / 32) (f · (1 <<< UInt32.ofNat (pos % 32))), by simp [c.length_data]⟩

/-- The bit `pos` of a chunk is set, in `bint_bit_set`. -/
def chunkBitSet (pos : ℕ) (c : Chunk) : Chunk := c.modifyBit (fun d b => d ||| b) pos

/-- The bit `pos` of a chunk is cleared, in `bint_bit_clear`. -/
def chunkBitClear (pos : ℕ) (c : Chunk) : Chunk := c.modifyBit (fun d b => d &&& ~~~b) pos

/-- The bit `pos` of a chunk, in `bint_bit_get`. -/
def chunkBitGet (pos : ℕ) (c : Chunk) : Bool :=
  (c.data.getD (pos / 32) 0) &&& (1 <<< UInt32.ofNat (pos % 32)) ≠ 0

end Dlb.Bint
