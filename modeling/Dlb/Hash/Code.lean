import Mathlib.Algebra.Group.Nat.Defs
import Mathlib.Data.Int.Notation
import Mathlib.Logic.Function.Basic

/-!
# The hash table code

`src/src/hash.c`, over an explicit memory. A `struct hash_node` is embedded in a record of the user,
which has a key; the hash function is given a key, and the compare function a key and the key
of a record. A pointer to a node is an `Option P`, with `none` for `NULL`.

A loop takes some fuel, the number of iterations it may make, and the function fails when it
runs out of it. At most one call of `malloc` is made by a function; `ok` says whether it
succeeds.
-/

namespace Dlb.Hash

/-- `struct hash_node`, and the key of the record. -/
structure Node (P K : Type) where
  code : ℕ
  next : Option P
  key : K

/-- `struct hash`, and the nodes. -/
structure State (P K : Type) where
  size : ℕ
  count : ℕ
  table : ℕ → Option P
  node : P → Node P K

variable {P K : Type} [DecidableEq P]

/-- `n->next = v`. -/
def setNext (node : P → Node P K) (n : P) (v : Option P) : P → Node P K :=
  Function.update node n { node n with next := v }

def hashInit (node : P → Node P K) : State P K := ⟨0, 0, fun _ => none, node⟩

/-! ## `hash_capacity_hint` -/

def sizeLoop (hint : ℕ) : ℕ → ℕ → Option ℕ
  | 0, _ => none
  | fuel + 1, newSize => if newSize < hint then sizeLoop hint fuel (newSize * 2 % 2 ^ 32) else newSize

/-- Whether a divisor is found from `d` on. -/
def divisorLoop (newSize : ℕ) : ℕ → ℕ → Option Bool
  | 0, _ => none
  | fuel + 1, d =>
    if d * d % 2 ^ 32 ≤ newSize then
      if newSize % d = 0 then some true else divisorLoop newSize fuel (d + 1)
    else some false

def primeLoop (fuel' : ℕ) : ℕ → ℕ → Option ℕ
  | 0, _ => none
  | fuel + 1, newSize => do
    if ← divisorLoop newSize fuel' 2 then primeLoop fuel' fuel ((newSize + 1) % 2 ^ 32)
    else return newSize

/-- The nodes from `n` on are moved to the new table. -/
def moveLoop (newSize : ℕ) : ℕ → Option P → (ℕ → Option P) → (P → Node P K) →
    Option ((ℕ → Option P) × (P → Node P K))
  | _, none, newTable, node => some (newTable, node)
  | 0, some _, _, _ => none
  | fuel + 1, some n, newTable, node =>
    let next := (node n).next
    let newIndex := (node n).code % newSize
    moveLoop newSize fuel next (Function.update newTable newIndex (some n))
      (setNext node n (newTable newIndex))

/-- `for (i = 0; i < h->size; i++)`, for the indices `is`. -/
def moveAll (newSize fuel : ℕ) (table : ℕ → Option P) : List ℕ → (ℕ → Option P) →
    (P → Node P K) → Option ((ℕ → Option P) × (P → Node P K))
  | [], newTable, node => some (newTable, node)
  | i :: is, newTable, node => do
    let (newTable, node) ← moveLoop newSize fuel (table i) newTable node
    moveAll newSize fuel table is newTable node

def hashCapacityHint (ok : Bool) (fuel : ℕ) (s : State P K) (hint : ℕ) :
    Option (ℤ × State P K) := do
  if hint < s.count then
    return (0, s)
  let newSize ← sizeLoop hint fuel 32
  let newSize ← primeLoop fuel fuel newSize
  if s.size = newSize then
    return (0, s)
  if !ok then
    return (-1, s)
  let (newTable, node) ← moveAll newSize fuel s.table (List.range s.size) (fun _ => none) s.node
  return (0, { s with size := newSize, table := newTable, node := node })

/-- The table is made larger if it is full. -/
def growTable (ok : Bool) (fuel : ℕ) (s : State P K) : Option (ℤ × State P K) :=
  if s.count ≥ s.size then hashCapacityHint ok fuel s ((s.count + 1) % 2 ^ 32) else some (0, s)

section

variable (func : K → ℕ) (compare : K → K → ℤ)

/-! ## `hash_find` -/

def findLoop (node : P → Node P K) (key : K) : ℕ → Option P → Option (Option P)
  | _, none => some none
  | 0, some _ => none
  | fuel + 1, some n =>
    if compare key (node n).key = 0 then some (some n) else findLoop node key fuel (node n).next

def hashFind (fuel : ℕ) (s : State P K) (key : K) : Option (Option P) :=
  if s.size ≠ 0 then findLoop compare s.node key fuel (s.table (func key % s.size)) else some none

/-! ## `hash_insert` -/

structure Flags where
  prehashed : Bool
  unique : Bool

/-- The nodes from `n` on are put in front of `ins`, except for those with the key; the last one of
    these is `old`. -/
def insertLoop (key : K) : ℕ → Option P → P → Option P → (P → Node P K) →
    Option (P × Option P × (P → Node P K))
  | _, none, ins, old, node => some (ins, old, node)
  | 0, some _, _, _, _ => none
  | fuel + 1, some n, ins, old, node =>
    let next := (node n).next
    if compare key (node n).key ≠ 0 then
      insertLoop key fuel next n old (setNext node n (some ins))
    else insertLoop key fuel next ins (some n) node

/-- The node before it is linked. -/
def prepared (node : P → Node P K) (key : K) (ins : P) (flags : Flags) : P → Node P K :=
  let node := setNext node ins none
  if flags.prehashed then node else Function.update node ins { node ins with code := func key }

/-- `hash_insert` when the table is large enough. -/
def insertNode (fuel : ℕ) (s : State P K) (key : K) (ins : P) (flags : Flags) :
    Option ((ℤ × Option (Option P)) × State P K) := do
  let node := prepared func s.node key ins flags
  let index := (node ins).code % s.size
  if flags.unique then
    return ((0, none), {
      s with
      table := Function.update s.table index (some ins)
      node := setNext node ins (s.table index)
      count := (s.count + 1) % 2 ^ 32 })
  else
    let (ins, old, node) ← insertLoop compare key fuel (s.table index) ins none node
    return ((0, some old), {
      s with
      table := Function.update s.table index (some ins)
      node := node
      count := if old.isNone then (s.count + 1) % 2 ^ 32 else s.count })

/-- What is returned, and what is written to `*old_ret` if anything is. -/
def hashInsert (ok : Bool) (fuel : ℕ) (s : State P K) (key : K) (ins : P) (flags : Flags) :
    Option ((ℤ × Option (Option P)) × State P K) := do
  let (r, s) ← growTable ok fuel s
  if r < 0 then return ((-1, none), s) else insertNode func compare fuel s key ins flags

end

/-! ## `hash_remove` -/

/-- The node before `n`, from `s` on. -/
def beforeLoop (node : P → Node P K) (n : P) : ℕ → Option P → Option (Option P)
  | _, none => some none
  | 0, some _ => none
  | fuel + 1, some s => if (node s).next = some n then some (some s) else beforeLoop node n fuel (node s).next

/-- The node is taken out of its bucket. -/
def unlinkNode (fuel : ℕ) (s : State P K) (n : P) : Option (State P K) :=
  let index := (s.node n).code % s.size
  if s.table index = some n then
    some { s with
      table := Function.update s.table index (s.node n).next
      count := (s.count + (2 ^ 32 - 1)) % 2 ^ 32 }
  else
    (beforeLoop s.node n fuel (s.table index)).map fun
      | none => s
      | some b => { s with
          node := setNext s.node b (s.node n).next
          count := (s.count + (2 ^ 32 - 1)) % 2 ^ 32 }

def hashRemove (ok : Bool) (fuel : ℕ) (s : State P K) (n : P) : Option (State P K) := do
  let s ← unlinkNode fuel s n
  if s.count * 4 % 2 ^ 32 < s.size then
    let (_, s) ← hashCapacityHint ok fuel s s.count
    return s
  else return s

end Dlb.Hash
