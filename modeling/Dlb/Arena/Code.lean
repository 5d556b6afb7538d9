import Mathlib.Logic.Function.Basic
import Dlb.Memory

/-!
# The arena allocator

`src/src/arena.c`. The headers of the blocks are in the memory itself. A `struct arena_block` has
24 bytes on a 64-bit target: `prev` and `next` of eight bytes each, and the bytes `order` and
`is_free`. Pointers are addresses, and the null pointer is 0.
-/

namespace Dlb.Arena

/-- `struct arena`, and the memory. -/
structure State where
  base : ℕ
  size : ℕ
  blocks : ℕ → ℕ
  mem : Mem

/-! ## Headers -/

/-- The fields of `struct arena_block`. -/
inductive Field
  | prev
  | next
  | order
  | isFree
  deriving DecidableEq

namespace Field

def offset : Field → ℕ
  | prev => 0
  | next => 8
  | order => 16
  | isFree => 17

def bytes : Field → ℕ
  | prev => 8
  | next => 8
  | order => 1
  | isFree => 1

end Field

namespace State

/-- A field of the block `blk`. -/
def get (s : State) (f : Field) (blk : ℕ) : ℕ := s.mem.load (blk + f.offset) f.bytes

/-- A field of the block `blk` is set to `v`. -/
def set (s : State) (f : Field) (blk v : ℕ) : State :=
  { s with mem := s.mem.store (blk + f.offset) f.bytes v }

/-- The list of order `o` starts at `blk`. -/
def setBlocks (s : State) (o blk : ℕ) : State :=
  { s with blocks := Function.update s.blocks o blk }

end State

def blockLink (s : State) (o blk : ℕ) : State :=
  let s := s.set .next blk (s.blocks o)
  let s := s.set .prev blk 0
  let s := if s.get .next blk = 0 then s else s.set .prev (s.get .next blk) blk
  s.setBlocks o blk

def blockUnlink (s : State) (o blk : ℕ) : State :=
  let s := if s.get .next blk = 0 then s else s.set .prev (s.get .next blk) (s.get .prev blk)
  if s.get .prev blk = 0 then s.setBlocks o (s.get .next blk)
  else s.set .next (s.get .prev blk) (s.get .next blk)

/-- `1 << o` as a `size_t`. The shift is one of an `int`. -/
def shl1 (o : ℕ) : ℕ := if o = 31 then 2 ^ 64 - 2 ^ 31 else 2 ^ o

/-! ## `arena_init` -/

/-- The loop; `ptr` is `base` in the source, which the loop advances. -/
def arenaInitLoop : ℕ → ℕ → ℕ → ℕ → State → State
  | 0, _, _, _, s => s
  | fuel + 1, o, ptr, size, s =>
    let bs := shl1 o
    if bs < 24 then s
    else if size < bs then arenaInitLoop fuel (o - 1) ptr size s
    else
      let s := (s.set .isFree ptr 1).set .order ptr o
      arenaInitLoop fuel o (ptr + bs) (size - bs) (blockLink s o ptr)

def arenaInit (mem : Mem) (base size : ℕ) : State :=
  arenaInitLoop (size + 32) 31 base size ⟨base, size, fun _ => 0, mem⟩

/-! ## `arena_alloc` -/

def orderLoop : ℕ → ℕ → ℕ → ℕ
  | 0, o, _ => o
  | fuel + 1, o, size =>
    if o < 32 ∧ shl1 o < size + 24 then orderLoop fuel (o + 1) size else o

/-- The order that is required for `size` bytes. -/
def requiredOrder (size : ℕ) : ℕ := orderLoop 32 1 size

def findLoop (blocks : ℕ → ℕ) : ℕ → ℕ → ℕ
  | 0, i => i
  | fuel + 1, i => if i < 32 ∧ blocks i = 0 then findLoop blocks fuel (i + 1) else i

/-- A block of order `i + 1` is split. -/
def splitBlock (s : State) (i : ℕ) : State :=
  let b := s.blocks (i + 1)
  let s := blockUnlink s (i + 1) b
  let c := b + 2 ^ i
  let s := ((s.set .isFree c 1).set .order c i).set .order b i
  blockLink (blockLink s i b) i c

/-- `while (i > o)`. -/
def splitLoop (o : ℕ) : ℕ → State → State
  | 0, s => s
  | i + 1, s => if i + 1 > o then splitLoop o i (splitBlock s i) else s

def arenaAlloc (s : State) (size : ℕ) : ℕ × State :=
  if size >>> 31 ≠ 0 then (0, s)
  else
    let o := requiredOrder size
    if o ≥ 32 then (0, s)
    else
      let i := findLoop s.blocks 32 o
      if i ≥ 32 then (0, s)
      else
        let s := splitLoop o i s
        let b := s.blocks o
        (b + 24, (blockUnlink s o b).set .isFree b 0)

/-! ## `arena_free` -/

def buddyOf (base b order : ℕ) : ℕ := base + ((b - base) ^^^ 2 ^ order)

def freeLoop : ℕ → State → ℕ → ℕ → State
  | 0, s, _, _ => s
  | fuel + 1, s, b, o =>
    if o + 1 < 32 then
      let c := buddyOf s.base b o
      if c + 24 > s.base + s.size then s
      else if s.get .isFree c = 0 ∨ s.get .order c ≠ o then s
      else
        let (b, c) := if b > c then (c, b) else (b, c)
        let s := blockUnlink (blockUnlink s o b) o c
        let s := blockLink (s.set .order b (o + 1)) (o + 1) b
        freeLoop fuel s b (o + 1)
    else s

def arenaFree (s : State) (ptr : ℕ) : State :=
  if ptr = 0 then s
  else
    let b := ptr - 24
    let o := s.get .order b
    freeLoop 32 (blockLink (s.set .isFree b 1) o b) b o

/-! ## `arena_realloc` -/

def arenaRealloc (s : State) (ptr size : ℕ) : ℕ × State :=
  if ptr = 0 then arenaAlloc s size
  else if size >>> 31 ≠ 0 then (0, s)
  else
    let b := ptr - 24
    let o := requiredOrder size
    if o ≥ 32 then (0, s)
    else if s.get .order b = o ∨ o + 1 = s.get .order b then (ptr, s)
    else
      let (newPtr, s) := arenaAlloc s size
      if newPtr = 0 then (0, s)
      else
        let copySize := min (2 ^ s.get .order b - 24) size
        (newPtr, arenaFree { s with mem := s.mem.copy newPtr ptr copySize } ptr)

/-! ## `arena_count_free` -/

/-- The blocks of a list, from `b` on. -/
def listBlocks (s : State) : ℕ → ℕ → List ℕ
  | 0, _ => []
  | fuel + 1, b => if b = 0 then [] else b :: listBlocks s fuel (s.get .next b)

/-- The free blocks of order `o`. -/
def freeBlocks (s : State) (o : ℕ) : List ℕ := listBlocks s s.size (s.blocks o)

def arenaCountFree (s : State) : ℕ :=
  (List.range 32).foldl (fun count i =>
    (count + (freeBlocks s i).length * ((shl1 i + 2 ^ 64 - 24) % 2 ^ 64)) % 2 ^ 64) 0

end Dlb.Arena
