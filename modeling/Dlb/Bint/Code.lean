import Dlb.Bint.Chunk

/-!
# The big integer code

`src/bint.c` and `src/bint.h`, function by function. A `struct bint` is a sign
flag and a chain of chunks, the first of which is part of it and the others of
which are allocated. A pointer to a chunk is given by the list of the chunks from
there on, so that `[]` is `NULL`.

The functions are programs in `Prog`: they pass the state of the chunk allocator
along, which answers the next allocations as it likes, and fail (`none`) when they
dereference `NULL`. A function that changes a `struct bint` takes its contents
and returns the new contents, also when it returns an error code. An `unsigned
int` is a natural number, and is reduced modulo `2 ^ 32` wherever it may overflow.

A function that reads a second `struct bint` while it changes the first may get
the same object twice (`Operand`). It reads every component of it before it
writes the component at the same place.
-/

namespace Dlb

/-- `struct bint`: the sign flag, the chunk which is part of it, and the chunks
    which are allocated. -/
structure Bint where
  negative : Bool
  first : Bint.Chunk
  next : List Bint.Chunk
  deriving DecidableEq

namespace Bint

/-- All the chunks of a number. -/
def digits (b : Bint) : List Chunk := b.first :: b.next

/-- The number `b` with other chunks, of which there is at least one. -/
def setDigits (b : Bint) : List Chunk → Bint
  | [] => b
  | c :: cs => { b with first := c, next := cs }

/-- The chunk allocator: its answers to the next calls, and how many chunks were
    allocated and freed. -/
structure Heap where
  answers : ℕ → Bool
  allocated : ℕ
  freed : ℕ

/-- A program that may allocate chunks, and may fail. -/
abbrev Prog := StateT Heap Option

/-- The source operand of a function: the destination itself, or another object. -/
inductive Operand
  | self
  | other (b : Bint)

/-- The contents of the operand when those of the destination are `dst`. -/
def Operand.get (dst : Bint) : Operand → Bint
  | .self => dst
  | .other b => b

/-! ## Managing chunks -/

/-- `bint_chunk_alloc`: whether it returns a chunk. -/
def bintChunkAlloc : Prog Bool := fun h =>
  let answers := fun n => h.answers (n + 1)
  if h.answers 0 then some (true, { h with answers := answers, allocated := h.allocated + 1 })
  else some (false, { h with answers := answers })

/-- `bint_chunk_free`. -/
def bintChunkFree : Prog Unit := fun h => some ((), { h with freed := h.freed + 1 })

/-- `destroy_chain`. -/
def destroyChain : List Chunk → Prog Unit
  | [] => pure ()
  | _ :: cs => do
    bintChunkFree
    destroyChain cs

/-- `alloc_chain`, with the chain `ch` allocated so far. -/
def allocChainLoop : ℕ → List Chunk → Prog (List Chunk)
  | 0, ch => pure ch
  | length + 1, ch => do
    if ← bintChunkAlloc then
      allocChainLoop length (.zero :: ch)
    else
      destroyChain ch
      return []

/-- `alloc_chain`. -/
def allocChain (length : ℕ) : Prog (List Chunk) := allocChainLoop length []

/-- `chain_length`. -/
def chainLength (c : List Chunk) : ℕ := c.length % 2 ^ 32

/-- `is_zero`. -/
def isZero (b : Bint) : Bool := b.next = [] && chunkIsZero b.first

/-- The loop of `trim_chunks`, over the reversed chain. -/
def trimLoop : List Chunk → Prog (List Chunk)
  | [] => pure []
  | c :: stack =>
    if chunkIsZero c then do
      bintChunkFree
      trimLoop stack
    else pure (c :: stack)

/-- `trim_chunks`. -/
def trimChunks (b : Bint) : Prog Bint := do
  let stack ← trimLoop b.next.reverse
  return { b with next := stack.reverse }

/-- The loop of `extend_length`, on the chain after the chunk `c`. -/
def extendLoop : List Chunk → ℕ → Prog (ℤ × List Chunk)
  | [], count =>
    if count < 128 then pure (0, [])
    else do
      let next ← allocChain (count / 128)
      if next = [] then return (-1, next)
      return (0, next)
  | c :: cs, count =>
    if 128 ≤ count then do
      let (rc, cs) ← extendLoop cs (count - 128)
      return (rc, c :: cs)
    else pure (0, c :: cs)

/-- `extend_length`. -/
def extendLength (b : Bint) (count : ℕ) : Prog (ℤ × Bint) := do
  let (rc, next) ← extendLoop b.next count
  return (rc, { b with next := next })

/-- `bint_bit_length`. -/
def bintBitLength (b : Bint) : ℕ :=
  match topComponent (b.digits.getLast (by simp [digits])).data with
  | none => 0
  | some (i, d) => (128 * b.next.length + i * 32 + bitLength d) % 2 ^ 32

/-! ## Magnitude addition, subtraction and compare -/

/-- The loop of `mag_cmp`, with `last_diff` as it is there, and what follows it. -/
def magCmpLoop : ℤ → List Chunk → List Chunk → ℤ
  | lastDiff, ca :: as, cb :: bs =>
    let diff := compareChunk ca cb
    magCmpLoop (if diff ≠ 0 then diff else lastDiff) as bs
  -- The longer number is the bigger one.
  | _, _ :: _, [] => 1
  | _, [], _ :: _ => -1
  | lastDiff, [], [] => lastDiff

/-- `mag_cmp`. -/
def magCmp (a b : Bint) : ℤ := magCmpLoop 0 a.digits b.digits

/-- The second loop of `mag_add`. -/
def carryLoop : UInt32 → List Chunk → List Chunk
  | _, [] => []
  | carry, dc :: ds =>
    if carry ≠ 0 then
      (dc.scan carryComponent carry).1 :: carryLoop (dc.scan carryComponent carry).2 ds
    else dc :: ds

/-- The loops of `mag_add`. -/
def addLoop : UInt32 → List Chunk → List Chunk → List Chunk
  | carry, dc :: ds, sc :: ss =>
    (dc.scan₂ addComponent carry sc).1 :: addLoop (dc.scan₂ addComponent carry sc).2 ds ss
  | carry, ds, [] => carryLoop carry ds
  -- The carry is lost if the destination has no more chunks.
  | _, [], _ :: _ => []

/-- `mag_add`. -/
def magAdd (dst : Bint) (src : Operand) : Prog (ℤ × Bint) := do
  let dstLen := bintBitLength dst
  let srcLen := bintBitLength (src.get dst)
  let resultLen := ((if dstLen > srcLen then dstLen else srcLen) + 1) % 2 ^ 32
  let (rc, dst) ← extendLength dst resultLen
  if rc < 0 then return (-1, dst)
  let dst := dst.setDigits (addLoop 0 dst.digits (src.get dst).digits)
  return (0, ← trimChunks dst)

/-- The second loop of `mag_sub`. -/
def borrowLoop : UInt32 → List Chunk → List Chunk → Option (List Chunk)
  | _, ds, [] => some ds
  | borrow, ds, bc :: bs =>
    if borrow ≠ 0 then
      match ds with
      | [] => none
      | _ :: ds => do
        let cs ← borrowLoop (bc.scan borrowComponent borrow).2 ds bs
        return (bc.scan borrowComponent borrow).1 :: cs
    else some ds

/-- The loops of `mag_sub`, with the chunks of `dst`, `big` and `small`. -/
def subLoop : UInt32 → List Chunk → List Chunk → List Chunk → Option (List Chunk)
  | borrow, dc, bc :: bs, sc :: ss =>
    match dc with
    | [] => none -- a null pointer is followed
    | _ :: ds => do
      let cs ← subLoop (bc.scan₂ subComponent borrow sc).2 ds bs ss
      return (bc.scan₂ subComponent borrow sc).1 :: cs
  | _, ds, [], _ => some ds
  | borrow, ds, bs, [] => borrowLoop borrow ds bs

/-- `mag_sub`. -/
def magSub (dst big small : Bint) : Prog Bint := do
  let cs ← (subLoop 0 dst.digits big.digits small.digits : Option _)
  trimChunks (dst.setDigits cs)

/-- `do_subtract`. -/
def doSubtract (dst : Bint) (src : Operand) : Prog (ℤ × Bint) := do
  if magCmp dst (src.get dst) < 0 then
    let (rc, dst) ← extendLength dst (bintBitLength (src.get dst))
    if rc < 0 then return (-1, dst)
    -- The destination is the smaller number, too; each chunk is read before it is written.
    let dst ← magSub dst (src.get dst) dst
    return (0, { dst with negative := !dst.negative })
  else
    return (0, ← magSub dst dst (src.get dst))

/-! ## Values and signs -/

/-- A number of one chunk, with the component `d` and the sign flag `negative`. -/
def small (negative : Bool) (d : UInt32) : Bint := ⟨negative, ⟨[d, 0, 0, 0], rfl⟩, []⟩

/-- `bint_zero`. -/
def bintZero : Bint := small false 0

/-- `bint_one`. -/
def bintOne : Bint := small false 1

/-- `bint_set`. -/
def bintSet (b : Bint) (value : Int32) : Prog Bint := do
  destroyChain b.next
  return small (value < 0) (if value < 0 then (-value).toUInt32 else value.toUInt32)

/-- `bint_init`. -/
def bintInit (value : Int32) : Prog Bint := bintSet bintZero value

/-- `bint_destroy`. -/
def bintDestroy (b : Bint) : Prog Unit := destroyChain b.next

/-- The loop of `bint_copy`. -/
def copyLoop : List Chunk → List Chunk → Prog (List Chunk)
  | ds, [] => pure ds
  | [], _ :: _ => failure
  | _ :: ds, sc :: ss => do
    -- The destination is made as long as the source.
    if ss = [] then
      destroyChain ds
      return [sc]
    return sc :: (← copyLoop ds ss)

/-- `bint_copy`. -/
def bintCopy (dst : Bint) (src : Operand) : Prog (ℤ × Bint) := do
  let (rc, dst) ← extendLength dst (bintBitLength (src.get dst))
  if rc < 0 then return (-1, dst)
  -- If the source is the destination, it has been extended.
  let dst := { dst with negative := (src.get dst).negative }
  let cs ← copyLoop dst.digits (src.get dst).digits
  return (0, dst.setDigits cs)

/-- `bint_get_sign`. -/
def bintGetSign (b : Bint) : ℤ := if isZero b then 0 else if b.negative then -1 else 1

/-- `bint_get`. -/
def bintGet (b : Bint) : Int32 :=
  let v := (b.first.data.headD 0).toInt32
  if b.negative then -v else v

/-- `bint_set_sign`. -/
def bintSetSign (b : Bint) (sign : ℤ) : Bint := { b with negative := sign < 0 }

/-- `bint_compare`. -/
def bintCompare (a b : Bint) : ℤ :=
  if a.negative && !b.negative then -1
  else if b.negative && !a.negative then 1
  else if a.negative then -magCmp a b
  else magCmp a b

/-! ## Arithmetic -/

/-- `bint_add`. -/
def bintAdd (dst : Bint) (src : Operand) : Prog (ℤ × Bint) :=
  if (dst.negative && (src.get dst).negative) || !(dst.negative || (src.get dst).negative) then
    magAdd dst src
  else doSubtract dst src

/-- `bint_sub`. -/
def bintSub (dst : Bint) (src : Operand) : Prog (ℤ × Bint) :=
  if (dst.negative && !(src.get dst).negative) || (!dst.negative && (src.get dst).negative) then
    magAdd dst src
  else doSubtract dst src

/-- The inner loops of `bint_mul`, from the chunk `rcs` of the result on. -/
def mulRow (ac : Chunk) : Chunk → List Chunk → List Chunk → Option (List Chunk)
  | _, _ :: _, [] => none
  | carry, bc :: bs, rc :: rcs => do
    let cs ← mulRow ac (chunkMac (some (ac, bc)) rc carry).2 bs rcs
    return (chunkMac (some (ac, bc)) rc carry).1 :: cs
  | _, [], [] => some []
  -- The carry goes through to the end of the result.
  | carry, [], rc :: rcs => do
    let cs ← mulRow ac (chunkMac none rc carry).2 [] rcs
    return (chunkMac none rc carry).1 :: cs

/-- The loop of `bint_mul` over the chunks of `a`, from the chunk `rc` of the
    result on. -/
def mulLoop (bs : List Chunk) : List Chunk → List Chunk → Option (List Chunk)
  | [], rcs => some rcs
  | ac :: as, rcs => do
    match ← mulRow ac .zero bs rcs with
    | [] => none
    | rc :: rcs => return rc :: (← mulLoop bs as rcs)

/-- `bint_mul`. -/
def bintMul (result a b : Bint) : Prog (ℤ × Bint) := do
  let (rc, result) ← extendLength result ((bintBitLength a + bintBitLength b) % 2 ^ 32)
  if rc < 0 then return (-1, result)
  let cs ← (mulLoop b.digits a.digits (result.digits.map fun _ => .zero) : Option _)
  return (0, bintSetSign (result.setDigits cs) (bintGetSign a * bintGetSign b))

/-! ## Bits -/

/-- `bint_bit_get`, from a chunk on. -/
def bitGetLoop : List Chunk → ℕ → Bool
  | [], _ => false
  | c :: cs, pos => if 128 ≤ pos then bitGetLoop cs (pos - 128) else chunkBitGet pos c

/-- `bint_bit_get`. -/
def bintBitGet (b : Bint) (pos : ℕ) : Bool := bitGetLoop b.digits pos

/-- The last chunk of a chain, changed by `f`. -/
def mapLast (f : Chunk → Chunk) : List Chunk → List Chunk
  | [] => []
  | [c] => [f c]
  | c :: d :: cs => c :: mapLast f (d :: cs)

/-- `bint_bit_set`, from the chunk `c` on. -/
def bitSetLoop : Chunk → List Chunk → ℕ → Prog (ℤ × List Chunk)
  | c, [], pos =>
    if 128 ≤ pos then do
      let next ← allocChain (pos / 128)
      if next = [] then return (-1, c :: next)
      -- The bit is in the last chunk of the new chain.
      return (0, c :: mapLast (chunkBitSet (pos % 128)) next)
    else pure (0, [chunkBitSet pos c])
  | c, d :: cs, pos =>
    if 128 ≤ pos then do
      let (rc, cs) ← bitSetLoop d cs (pos - 128)
      return (rc, c :: cs)
    else pure (0, chunkBitSet pos c :: d :: cs)

/-- `bint_bit_set`. -/
def bintBitSet (b : Bint) (pos : ℕ) : Prog (ℤ × Bint) := do
  let (rc, cs) ← bitSetLoop b.first b.next pos
  return (rc, b.setDigits cs)

/-- `bint_bit_clear`, from a chunk on: the chunks, and whether they are to be trimmed. -/
def bitClearLoop : List Chunk → ℕ → List Chunk × Bool
  | [], _ => ([], false)
  | c :: cs, pos =>
    if 128 ≤ pos then (c :: (bitClearLoop cs (pos - 128)).1, (bitClearLoop cs (pos - 128)).2)
    else (chunkBitClear pos c :: cs, cs = [])

/-- `bint_bit_clear`. -/
def bintBitClear (b : Bint) (pos : ℕ) : Prog Bint :=
  let (cs, needTrim) := bitClearLoop b.digits pos
  if needTrim then trimChunks (b.setDigits cs) else pure (b.setDigits cs)

/-! ## Bitwise operations -/

/-- The first part of `bint_or` and `bint_xor`: the chain `next` of the destination
    is made as long as that of the source. -/
def matchLoop : List Chunk → List Chunk → Prog (ℤ × List Chunk)
  | d :: ds, _ :: ss => do
    let (rc, ds) ← matchLoop ds ss
    return (rc, d :: ds)
  | [], s :: ss => do
    let next ← allocChain (chainLength (s :: ss))
    if next = [] then return (-1, next)
    return (0, next)
  | ds, [] => pure (0, ds)

/-- The second part of `bint_or` and `bint_xor`, a loop over the chunks of the
    source: the chunks, and `need_trim`. -/
def combineLoop (f : UInt32 → UInt32 → UInt32) :
    Bool → List Chunk → List Chunk → Option (List Chunk × Bool)
  | needTrim, ds, [] => some (ds, needTrim)
  | _, [], _ :: _ => none
  | _, d :: ds, s :: ss => do
    let (cs, needTrim) ← combineLoop f (chunkIsZero (d.zipWith f s)) ds ss
    return (d.zipWith f s :: cs, needTrim)

/-- `bint_or`. -/
def bintOr (dst : Bint) (src : Operand) : Prog (ℤ × Bint) := do
  let (rc, next) ← matchLoop dst.next (src.get dst).next
  let dst := { dst with next := next }
  if rc < 0 then return (-1, dst)
  let (cs, _) ← (combineLoop (· ||| ·) false dst.digits (src.get dst).digits : Option _)
  return (0, dst.setDigits cs)

/-- The loop of `bint_and`: the chunks, and `need_trim`. -/
def andLoop : Bool → List Chunk → List Chunk → Prog (List Chunk × Bool)
  | needTrim, [], _ => pure ([], needTrim)
  | needTrim, ds, [] => pure (ds, needTrim)
  | _, d :: ds, s :: ss => do
    let c := d.zipWith (· &&& ·) s
    if ss = [] then
      destroyChain ds
      return ([c], chunkIsZero c)
    let (cs, needTrim) ← andLoop (chunkIsZero c) ds ss
    return (c :: cs, needTrim)

/-- `bint_and`. -/
def bintAnd (dst : Bint) (src : Operand) : Prog Bint := do
  let (cs, needTrim) ← andLoop false dst.digits (src.get dst).digits
  if needTrim then trimChunks (dst.setDigits cs) else return dst.setDigits cs

/-- The loop of `bint_bic`: the chunks, and `need_trim`. -/
def bicLoop : Bool → List Chunk → List Chunk → List Chunk × Bool
  | _, d :: ds, s :: ss =>
    let c := d.zipWith (fun x y => x &&& ~~~y) s
    (c :: (bicLoop (chunkIsZero c) ds ss).1, (bicLoop (chunkIsZero c) ds ss).2)
  | needTrim, ds, _ => (ds, needTrim)

/-- `bint_bic`. -/
def bintBic (dst : Bint) (src : Operand) : Prog Bint :=
  let (cs, needTrim) := bicLoop false dst.digits (src.get dst).digits
  if needTrim then trimChunks (dst.setDigits cs) else pure (dst.setDigits cs)

/-- `bint_xor`. -/
def bintXor (dst : Bint) (src : Operand) : Prog (ℤ × Bint) := do
  let (rc, next) ← matchLoop dst.next (src.get dst).next
  let dst := { dst with next := next }
  if rc < 0 then return (-1, dst)
  let (cs, needTrim) ← (combineLoop (· ^^^ ·) false dst.digits (src.get dst).digits : Option _)
  if needTrim then return (0, ← trimChunks (dst.setDigits cs))
  return (0, dst.setDigits cs)

/-! ## Shifts -/

/-- The chunk loop of `bint_shift_left`, with `tmp` and `carry` as they are there. -/
def shlChunk (count : ℕ) (bitShift : UInt32) (s : Chunk × UInt32) (c : Chunk) :
    Chunk × Chunk × UInt32 :=
  let d := shlComponents count s.1 c
  if bitShift ≠ 0 then
    ((d.scan (shlBits bitShift) s.2).1, shlNext count c, (d.scan (shlBits bitShift) s.2).2)
  else (d, shlNext count c, s.2)

/-- `bint_shift_left`. -/
def bintShiftLeft (b : Bint) (count : ℕ) : Prog (ℤ × Bint) := do
  let curLen := bintBitLength b
  if isZero b then return (0, b)
  let (rc, b) ← extendLength b ((curLen + count) % 2 ^ 32)
  if rc < 0 then return (-1, b)
  -- The chain is reversed, and `src` runs ahead of `dst` by the whole chunks.
  if b.digits.length < count / 128 then failure
  let cs := List.replicate (count / 128) .zero ++ b.digits.take (b.digits.length - count / 128)
  let count := count % 128
  return (0, b.setDigits
    (scan (shlChunk (count / 32) (UInt32.ofNat (count % 32))) (.zero, 0) cs).1)

/-- The chunk loop of `bint_shift_right`, with `tmp` and `carry` as they are there. -/
def shrChunk (count : ℕ) (bitShift : UInt32) (s : Chunk × UInt32) (c : Chunk) :
    Chunk × Chunk × UInt32 :=
  let d := shrComponents count s.1 c
  if bitShift ≠ 0 then
    ((d.scanDown (shrBits bitShift) s.2).1, shrNext count c, (d.scanDown (shrBits bitShift) s.2).2)
  else (d, shrNext count c, s.2)

/-- The first part of `bint_shift_right`, which moves entire chunks: the chunks
    and the rest of `count`. -/
def shrEntire (cs : List Chunk) (count : ℕ) : Prog (List Chunk × ℕ) :=
  if 128 ≤ count then do
    let n := min (count / 128) cs.length
    -- The chunk that follows those that are moved is cleared, and the rest is freed.
    destroyChain (cs.drop (cs.length - n + 1))
    return (cs.drop n ++ [.zero], count - 128 * n)
  else pure (cs, count)

/-- `bint_shift_right`. -/
def bintShiftRight (b : Bint) (count : ℕ) : Prog Bint := do
  let (cs, count) ← shrEntire b.digits count
  -- All chunks are shifted out.
  if 128 ≤ count then return b.setDigits cs
  trimChunks (b.setDigits
    (scanDown (shrChunk (count / 32) (UInt32.ofNat (count % 32))) (.zero, 0) cs).1)

/-! ## Base conversion -/

/-- The second loop of `bint_digit_push`. -/
def digitLoop : UInt32 → List Chunk → List Chunk
  | _, [] => []
  | carry, c :: cs =>
    if carry ≠ 0 then
      (c.scan digitComponent carry).1 :: digitLoop (c.scan digitComponent carry).2 cs
    else c :: cs

/-- `bint_digit_push`. -/
def bintDigitPush (b : Bint) (base digit : UInt32) : Prog (ℤ × Bint) := do
  if base ≤ digit then return (-1, b)
  let (rc, b) ← extendLength b ((bintBitLength b + bitLength base + 1) % 2 ^ 32)
  if rc < 0 then return (-1, b)
  let cs := (scan (fun carry c => c.scan (mulComponent base) carry) 0 b.digits).1
  return (0, ← trimChunks (b.setDigits (digitLoop digit cs)))

/-- `bint_digit_pop`: the digit and the number. -/
def bintDigitPop (b : Bint) (base : UInt32) : Prog (UInt32 × Bint) := do
  if base = 0 then return (0, b)
  let (cs, remainder) := scanDown (fun r c => c.scanDown (popComponent base) r) 0 b.digits
  return (remainder.toUInt32, ← trimChunks (b.setDigits cs))

/-! ## Division and exponentiation -/

/-- The loop of `bint_div` for the bit positions below `pos`: the return code and
    `sdiv`, `rem` and `quot`. -/
def divLoop : ℕ → Bint → Bint → Bint → Prog (ℤ × Bint × Bint × Bint)
  | 0, sdiv, rem, quot => pure (0, sdiv, rem, quot)
  | pos + 1, sdiv, rem, quot => do
    if magCmp sdiv rem ≤ 0 then
      let (rc, quot) ← bintBitSet quot pos
      if rc < 0 then return (-1, sdiv, rem, quot)
      let rem ← magSub rem rem sdiv
      divLoop pos (← bintShiftRight sdiv 1) rem quot
    else
      divLoop pos (← bintShiftRight sdiv 1) rem quot

/-- The number of iterations of the loop of `bint_div`, which starts at `pos`. The
    difference of the lengths is converted to an `int`. -/
def divCount (numLen denLen : ℕ) : ℕ :=
  if denLen < numLen then if numLen - denLen < 2 ^ 31 then numLen - denLen + 1 else 0 else 1

/-- The copy `sdiv` of the divisor is shifted to the length of the dividend, in `bint_div`. -/
def divShift (dividend divisor sdiv : Bint) : Prog (ℤ × Bint) :=
  if bintBitLength divisor < bintBitLength dividend then
    bintShiftLeft sdiv (bintBitLength dividend - bintBitLength divisor)
  else pure (0, sdiv)

/-- The part of `bint_div` before its loop: the return code, and `sdiv` and `rem`. -/
def divSetup (dividend divisor : Bint) : Prog (ℤ × Bint × Bint) := do
  let (rc, sdiv) ← bintCopy bintZero (.other divisor)
  if rc < 0 then return (-1, sdiv, bintZero)
  let (rc, sdiv) ← divShift dividend divisor sdiv
  if rc < 0 then return (-1, sdiv, bintZero)
  let (rc, rem) ← bintCopy bintZero (.other dividend)
  if rc < 0 then return (-1, sdiv, rem)
  return (0, { sdiv with negative := false }, { rem with negative := false })

/-- The part of `bint_div` after its loop, which handles the signs: the return
    code, and `rem` and `quot`. -/
def divSigns (dividend divisor rem quot : Bint) : Prog (ℤ × Bint × Bint) := do
  let rem := { rem with negative := divisor.negative }
  if (divisor.negative && !dividend.negative) || (!divisor.negative && dividend.negative) then
    -- The quotient is rounded down, also if nothing is left.
    let (rc, quot) ← bintAdd quot (.other bintOne)
    if rc < 0 then return (-1, rem, quot)
    let (rc, rem) ← bintSub rem (.other divisor)
    if rc < 0 then return (-1, rem, quot)
    return (0, { rem with negative := divisor.negative }, { quot with negative := true })
  else return (0, rem, quot)

/-- `bint_div` up to the point where the results are copied out: the return code,
    and `sdiv`, `rem` and `quot`, which are destroyed at the end. -/
def divCore (dividend divisor : Bint) : Prog (ℤ × Bint × Bint × Bint) := do
  let (rc, sdiv, rem) ← divSetup dividend divisor
  if rc < 0 then return (-1, sdiv, rem, bintZero)
  let count := divCount (bintBitLength dividend) (bintBitLength divisor)
  let (rc, sdiv, rem, quot) ← divLoop count sdiv rem bintZero
  if rc < 0 then return (-1, sdiv, rem, quot)
  let (rc, rem, quot) ← divSigns dividend divisor rem quot
  return (rc, sdiv, rem, quot)

/-- The product with `b` if the bit `i` of the exponent is set, in `bint_expt`: the return
    code, and `r` and `p`, which are swapped after the product. -/
def exptStep (exponent : Bint) (i : ℕ) (r p b : Bint) : Prog (ℤ × Bint × Bint) :=
  if bintBitGet exponent i then do
    let (rc, p) ← bintMul p r b
    if rc < 0 then return (-1, r, p)
    return (0, p, r)
  else pure (0, r, p)

/-- The loop of `bint_expt`, with `n` iterations left from `i` on: the return code
    and `r`, `p` and `b`. -/
def exptLoop (exponent : Bint) : ℕ → ℕ → Bint → Bint → Bint → Prog (ℤ × Bint × Bint × Bint)
  | 0, _, r, p, b => pure (0, r, p, b)
  | n + 1, i, r, p, b => do
    let (rc, r, p) ← exptStep exponent i r p b
    if rc < 0 then return (-1, r, p, b)
    let (rc, p) ← bintMul p b b
    if rc < 0 then return (-1, r, p, b)
    exptLoop exponent n (i + 1) r b p

/-- `bint_expt` up to the point where the result is copied out: the return code,
    and `r`, `p` and `b`, which are destroyed at the end. -/
def exptCore (base exponent : Bint) : Prog (ℤ × Bint × Bint × Bint) := do
  let (rc, b) ← bintCopy bintZero (.other base)
  if rc < 0 then return (-1, bintOne, bintZero, b)
  exptLoop exponent (bintBitLength exponent) 0 bintOne bintZero b

end Bint

end Dlb
