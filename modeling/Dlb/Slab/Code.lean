import Dlb.ListNode

/-!
# The slab allocator

`src/src/slab.c`. The lists are in the memory. A `struct slab_info` has 40 bytes on a 64-bit target:
`link` and `free_list` of 16 bytes each, and the `int` `free_count`. A `struct slab_free` is a
`struct list_node`, and a pointer has eight bytes.

The result of `malloc` is a parameter; `live` are the blocks it has given that have not been freed.
-/

namespace Dlb.Slab

open ListNode

/-- The fields of `struct slab` that do not change, and the address of the struct. -/
structure Layout where
  base : ℕ
  objsize : ℕ
  slabsize : ℕ
  count : ℕ
  infoOffset : ℕ

namespace Layout

/-- `&s->full`. -/
def fullList (s : Layout) : ℕ := s.base + 16

/-- `&s->partial`. -/
def partialList (s : Layout) : ℕ := s.base + 32

end Layout

structure State where
  slab : Layout
  mem : Mem
  live : List ℕ

/-- `&inf->free_list`. -/
def freeList (inf : ℕ) : ℕ := inf + 16

def freeCount (m : Mem) (inf : ℕ) : ℕ := m.load (inf + 32) 4

def setFreeCount (m : Mem) (inf v : ℕ) : Mem := m.store (inf + 32) 4 v

/-- The sizes that `slab_init` computes. -/
def layout (base objsize : ℕ) : Layout :=
  let objsize := if objsize < 16 then 16 else objsize
  let objsize := objsize + (8 - objsize % 8) % 8
  let n := (32768 - 40) / (objsize + 8)
  let n := if n < 8 then 8 else n
  let infoOffset := (objsize + 8) * n % 2 ^ 32
  { base, objsize, count := n, infoOffset, slabsize := (infoOffset + 40) % 2 ^ 32 }

def slabInit (m : Mem) (base objsize : ℕ) : State :=
  let s := layout base objsize
  ⟨s, listInit (listInit m s.fullList) s.partialList, []⟩

def freeSlab (t : State) (inf : ℕ) : State :=
  { t with mem := listRemove t.mem inf, live := t.live.erase (inf - t.slab.infoOffset) }

/-- The blocks that are freed, in order. -/
def freeAllSlabs (list : ℕ) : ℕ → State → Option (List ℕ × State)
  | 0, _ => none
  | fuel + 1, t =>
    if listIsEmpty t.mem list then some ([], t)
    else
      let inf := next t.mem list
      (freeAllSlabs list fuel (freeSlab t inf)).map fun (freed, t') =>
        ((inf - t.slab.infoOffset) :: freed, t')

def slabFreeAll (fuel : ℕ) (t : State) : Option (List ℕ × State) :=
  (freeAllSlabs t.slab.fullList fuel t).bind fun (freed, t) =>
    (freeAllSlabs t.slab.partialList fuel t).map fun (freed', t) => (freed ++ freed', t)

/-- The slots from `i` on are set up, which are `k`. -/
def slotLoop (s : Layout) (slab inf : ℕ) : ℕ → ℕ → Mem → Mem
  | 0, _, m => m
  | k + 1, i, m =>
    let slot := slab + i * (s.objsize + 8)
    let m := listInsert m slot (freeList inf)
    slotLoop s slab inf k (i + 1) (m.store (slot + s.objsize) 8 inf)

/-- `malloc` has returned `slab`, which is not null. -/
def allocNewSlab (t : State) (slab : ℕ) : State :=
  let s := t.slab
  let inf := slab + s.infoOffset
  let m := setFreeCount (listInit t.mem (freeList inf)) inf s.count
  let m := slotLoop s slab inf s.count 0 m
  { t with mem := listInsert m inf s.partialList, live := slab :: t.live }

/-- The first free object of the first slab that is not full. -/
def takeFirst (t : State) : ℕ × State :=
  let s := t.slab
  let inf := next t.mem s.partialList
  let fr := next t.mem (freeList inf)
  let m := listRemove t.mem fr
  let m := setFreeCount m inf (freeCount m inf - 1)
  let m := if listIsEmpty m (freeList inf) then listInsert (listRemove m inf) inf s.fullList else m
  (fr, { t with mem := m })

/-- `p` is what `malloc` returns if it is called. -/
def slabAlloc (t : State) (p : ℕ) : ℕ × State :=
  if listIsEmpty t.mem t.slab.partialList then
    if p = 0 then (0, t) else takeFirst (allocNewSlab t p)
  else takeFirst t

def slabFree (t : State) (obj : ℕ) : State :=
  let s := t.slab
  let inf := t.mem.load (obj + s.objsize) 8
  let m := if listIsEmpty t.mem (freeList inf) then listInsert (listRemove t.mem inf) inf s.partialList
    else t.mem
  let m := listInsert m obj (freeList inf)
  let m := setFreeCount m inf (freeCount m inf + 1)
  let t := { t with mem := m }
  if freeCount m inf ≥ s.count then freeSlab t inf else t

end Dlb.Slab
