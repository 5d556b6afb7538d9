import Mathlib.Data.Finset.Insert
import Mathlib.Data.Finset.Erase
import Mathlib.Logic.Function.Basic
import Dlb.Strbuf.Code

/-!
# The immutable string code

`src/src/istr.c`, for one pool, which is the `owner` of every descriptor. A pointer to a descriptor is
an `Option P`, with `none` for `NULL`. Of the slab allocator there are the descriptors that have
been allocated; what `slab_alloc` returns is a parameter, and so is what `malloc` and `realloc`
answer (see `Dlb.Strbuf.Code`).

The loops that follow `next` take some fuel, and fail when they run out of it.
-/

namespace Dlb.Istr

open Strbuf

/-- `struct istr_desc`. -/
structure Desc (P : Type) where
  next : Option P
  offset : ℕ
  length : ℕ
  refcnt : ℕ

/-- `struct istr_pool`, and the descriptors. -/
structure Pool (P : Type) where
  text : Strbuf
  descs : Finset P
  all : Option P
  descCount : ℕ
  gcThreshold : ℕ
  desc : P → Desc P

/-- The answers in a collection: to the reservation, for the `j`-th string, and in the end. -/
structure Answers where
  reserve : Answer
  append : ℕ → Answer
  trim : Answer

variable {P : Type} [DecidableEq P]

/-- `d->next = v`. -/
def setNext (desc : P → Desc P) (d : P) (v : Option P) : P → Desc P :=
  Function.update desc d { desc d with next := v }

def slabFree (p : Pool P) (d : P) : Pool P := { p with descs := p.descs.erase d }

def istrPoolInit (desc : P → Desc P) : Pool P := ⟨strbufInit, ∅, none, 0, 128, desc⟩

/-! ## `istr_pool_gc` -/

/-- The descriptors from `d` on that have references are put in front of `newList`, the others are
    freed. -/
def filterLoop : ℕ → Option P → Option P → (P → Desc P) → Finset P →
    Option (Option P × (P → Desc P) × Finset P)
  | _, none, newList, desc, descs => some (newList, desc, descs)
  | 0, some _, _, _, _ => none
  | fuel + 1, some d, newList, desc, descs =>
    let all := (desc d).next
    if (desc d).refcnt ≠ 0 then filterLoop fuel all (some d) (setNext desc d newList) descs
    else filterLoop fuel all newList desc (descs.erase d)

/-- The descriptors of `newList` are put in front of `all`, and counted. -/
def reverseLoop : ℕ → Option P → Option P → ℕ → (P → Desc P) →
    Option (Option P × ℕ × (P → Desc P))
  | _, none, all, descCount, desc => some (all, descCount, desc)
  | 0, some _, _, _, _ => none
  | fuel + 1, some d, all, descCount, desc =>
    reverseLoop fuel (desc d).next (some d) ((descCount + 1) % 2 ^ 32) (setNext desc d all)

def gcDesc (fuel : ℕ) (p : Pool P) : Option (Pool P) := do
  let (newList, desc, descs) ← filterLoop fuel p.all none p.desc p.descs
  let (all, descCount, desc) ← reverseLoop fuel newList none 0 desc
  return { p with descs := descs, all := all, descCount := descCount, desc := desc }

/-- The strings from `d` on are copied from `text` to the new buffer. What `strbuf_add_string` returns
    is not looked at. -/
def copyLoop (answer : ℕ → Answer) (text : List UInt8) : ℕ → ℕ → Option P → Strbuf →
    (P → Desc P) → Option (Strbuf × (P → Desc P))
  | _, _, none, newBuf, desc => some (newBuf, desc)
  | 0, _, some _, _, _ => none
  | fuel + 1, j, some d, newBuf, desc => do
    let newOffset := toInt newBuf.length
    let (_, newBuf) ← strbufAddString (answer j) newBuf (text.drop (desc d).offset)
      (toInt ((desc d).length + 1))
    copyLoop answer text fuel (j + 1) (desc d).next newBuf
      (Function.update desc d { desc d with offset := toSize newOffset })

def gcText (g : Answers) (fuel : ℕ) (p : Pool P) : Option (ℤ × Pool P) := do
  let (r, newBuf) ← strbufCapacityHint g.reserve strbufInit p.text.length
  if r < 0 then
    return (-1, p)
  let (newBuf, desc) ← copyLoop g.append p.text.text fuel 0 p.all newBuf p.desc
  let (_, newBuf) ← strbufCapacityHint g.trim newBuf newBuf.length
  return (0, { p with text := newBuf, desc := desc })

def istrPoolGc (g : Answers) (fuel : ℕ) (p : Pool P) : Option (ℤ × Pool P) := do
  let p ← gcDesc fuel p
  gcText g fuel p

/-! ## `istr_pool_alloc` -/

/-- The bytes of a string and a nul are added; whether this has failed. -/
def addText (a b : Answer) (text : Strbuf) (src : List UInt8) (length : ℤ) :
    Option (Bool × Strbuf) := do
  let (r, text) ← strbufAddString a text src length
  if r < 0 then
    return (true, text)
  let (r, text) ← strbufAddChar b text 0
  return (decide (r < 0), text)

/-- The descriptor `d`, filled in for a string of this length. -/
def setDesc (p : Pool P) (d : P) (length : ℤ) : Pool P :=
  { p with
    descs := insert d p.descs
    desc := Function.update p.desc d
      { p.desc d with offset := p.text.length, length := toSize length, refcnt := 1 } }

/-- The descriptor is added to the list. -/
def linkDesc (p : Pool P) (d : P) : Pool P :=
  { p with descCount := (p.descCount + 1) % 2 ^ 32, desc := setNext p.desc d p.all, all := some d }

/-- `istr_pool_alloc` up to the collection, where `slab_alloc` returns `d`. -/
def allocDesc (d : Option P) (a b : Answer) (p : Pool P) (src : List UInt8) (length : ℤ) :
    Option (Option P × Pool P) := do
  let length ← givenLength src length
  match d with
  | none => return (none, p)
  | some d =>
    let p := setDesc p d length
    let (failed, text) ← addText a b p.text src length
    let p := { p with text := text }
    if failed then return (none, slabFree p d) else return (some d, linkDesc p d)

/-- The threshold is set to four times the number of descriptors. -/
def setThreshold (p : Pool P) : Pool P :=
  let gcThreshold := p.descCount * 4 % 2 ^ 32
  { p with gcThreshold := if gcThreshold < 128 then 128 else gcThreshold }

/-- The garbage collector runs if there are many descriptors. -/
def gcIfMany (g : Answers) (fuel : ℕ) (p : Pool P) : Option (Pool P) :=
  if p.descCount ≥ p.gcThreshold then (istrPoolGc g fuel p).map fun (_, p) => setThreshold p
  else some p

def istrPoolAlloc (d : Option P) (a b : Answer) (g : Answers) (fuel : ℕ) (p : Pool P)
    (src : List UInt8) (length : ℤ) : Option (Option P × Pool P) := do
  let (d, p) ← allocDesc d a b p src length
  if d.isNone then
    return (none, p)
  let p ← gcIfMany g fuel p
  return (d, p)

/-! ## References -/

/-- `d->refcnt = v`. -/
def setRefcnt (p : Pool P) (d : P) (v : ℕ) : Pool P :=
  { p with desc := Function.update p.desc d { p.desc d with refcnt := v } }

def istrRef (p : Pool P) (d : P) : Pool P := setRefcnt p d (((p.desc d).refcnt + 1) % 2 ^ 32)

def istrUnref (p : Pool P) (d : P) : Pool P :=
  setRefcnt p d (((p.desc d).refcnt + (2 ^ 32 - 1)) % 2 ^ 32)

/-- The bytes from `istr_text` on. -/
def istrText (p : Pool P) (d : P) : List UInt8 := p.text.text.drop (p.desc d).offset

def istrLength (p : Pool P) (d : P) : ℕ := (p.desc d).length % 2 ^ 32

/-! ## Comparisons -/

/-- `memcmp` of `n` bytes: the difference of the first ones that are not the same. -/
def memcmp : List UInt8 → List UInt8 → ℕ → Option ℤ
  | _, _, 0 => some 0
  | x :: xs, y :: ys, n + 1 => if x = y then memcmp xs ys n else some (x.toNat - y.toNat)
  | _, _, _ + 1 => none

def istrEqual (p : Pool P) (a b : P) : Option Bool :=
  if (p.desc a).length ≠ (p.desc b).length then some false
  else (memcmp (istrText p a) (istrText p b) (p.desc a).length).map (· == 0)

/-- The texts are in the same block, so the pointers are the same just if the offsets are. -/
def istrCompare (p : Pool P) (a b : P) : Option ℤ :=
  let ta := istrText p a
  let tb := istrText p b
  let la := toInt (istrLength p a)
  let lb := toInt (istrLength p b)
  if (p.desc a).offset = (p.desc b).offset then some 0
  else if la < lb then (memcmp ta tb (toSize la)).map fun r => if r = 0 then -1 else r
  else if la > lb then (memcmp ta tb (toSize lb)).map fun r => if r = 0 then 1 else r
  else memcmp ta tb (toSize la)

end Dlb.Istr
