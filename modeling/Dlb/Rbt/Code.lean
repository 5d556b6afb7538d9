import Mathlib.Data.Int.Notation
import Mathlib.Logic.Function.Basic
import Dlb.Tree.Zipper

/-!
# The red-black tree code

`src/rbt.c` and `src/rbt.h`, function by function, over an explicit memory: a
`struct rbt_node` at every address of a type `P`, and the root pointer of the
tree. A pointer is an `Option P`, with `none` for `NULL`.

The functions are programs in `Prog`: they pass the memory along, and fail
(`none`) when they dereference `NULL`. A loop takes some fuel, the number of
iterations it may make, and fails as well when it runs out of it.

The compare function of a tree is given by the user. Its two arguments are a
key and a node, so that here it is a function `K → P → ℤ`, which may look into
the record that a node is embedded in.
-/

namespace Dlb.Rbt

/-- The flags word of a node: `RBT_FLAG_RED` and `RBT_FLAG_MODIFIED`. -/
structure Flags where
  red : Bool
  modified : Bool
  deriving DecidableEq, Repr

/-- The flags with `RBT_FLAG_RED` set or cleared. -/
def Flags.setRed (fl : Flags) (b : Bool) : Flags := { fl with red := b }

/-- The flags with `RBT_FLAG_MODIFIED` set. -/
def Flags.mark (fl : Flags) : Flags := { fl with modified := true }

/-- `struct rbt_node`. -/
structure Node (P : Type) where
  flags : Flags
  left : Option P
  right : Option P
  parent : Option P
  deriving DecidableEq, Repr

/-- The memory: the nodes, and the `root` field of the tree. -/
structure Mem (P : Type) where
  node : P → Node P
  root : Option P

/-- A program: it may fail, by dereferencing `NULL` or by running out of fuel. -/
abbrev Prog (P : Type) := StateT (Mem P) Option

/-- The child of a node on the side `d`. -/
def Node.child {P : Type} (x : Node P) : Dir → Option P
  | .left => x.left
  | .right => x.right

/-- The node `x` with its child on the side `d` set to `v`. -/
def Node.setChild {P : Type} (x : Node P) (d : Dir) (v : Option P) : Node P :=
  match d with
  | .left => { x with left := v }
  | .right => { x with right := v }

/-- The node `x` with its parent set to `p`. -/
def Node.setParent {P : Type} (x : Node P) (p : Option P) : Node P := { x with parent := p }

/-- The node `x` with its flags changed by `f`. -/
def Node.mapFlags {P : Type} (x : Node P) (f : Flags → Flags) : Node P :=
  { x with flags := f x.flags }

variable {P : Type} [DecidableEq P]

/-- The memory `m` with the node at `a` changed by `f`. -/
def Mem.update (m : Mem P) (a : P) (f : Node P → Node P) : Mem P :=
  { m with node := Function.update m.node a (f (m.node a)) }

/-! ## Memory accesses -/

/-- `*n`. -/
def load : Option P → Prog P (Node P)
  | none => fun _ => none
  | some a => fun m => some (m.node a, m)

/-- Changing `*n` by `f`. -/
def store (n : Option P) (f : Node P → Node P) : Prog P Unit :=
  match n with
  | none => fun _ => none
  | some a => fun m => some ((), m.update a f)

/-- `t->root`. -/
def loadRoot : Prog P (Option P) := fun m => some (m.root, m)

/-- `t->root = n`. -/
def storeRoot (n : Option P) : Prog P Unit := fun m => some ((), { m with root := n })

/-- `MAKE_RED(n)`. -/
def makeRed (n : Option P) : Prog P Unit :=
  store n (·.mapFlags (·.setRed true))

/-- `MAKE_BLACK(n)`. -/
def makeBlack (n : Option P) : Prog P Unit :=
  store n (·.mapFlags (·.setRed false))

/-- `MARK_MODIFIED(n)`. -/
def markModified (n : Option P) : Prog P Unit :=
  store n (·.mapFlags .mark)

/-- `RBT_IS_RED(n)`. -/
def isRed : Option P → Prog P Bool
  | none => pure false
  | some a => do return (← load (some a)).flags.red

/-- `RBT_IS_BLACK(n)`. -/
def isBlack : Option P → Prog P Bool
  | none => pure true
  | some a => do return !(← load (some a)).flags.red

/-! ## Lookup -/

section

variable {K : Type*} (compare : K → P → ℤ)

/-- The loop of `rbt_find`. -/
def rbtFindLoop (key : K) : ℕ → Option P → Prog P (Option P)
  | _, none => pure none
  | 0, some _ => failure
  | fuel + 1, some n => do
    let r := compare key n
    if r = 0 then return some n
    let x ← load (some n)
    rbtFindLoop key fuel (if r < 0 then x.left else x.right)

/-- `rbt_find`. -/
def rbtFind (fuel : ℕ) (key : K) : Prog P (Option P) := do
  rbtFindLoop compare key fuel (← loadRoot)

end

/-- `if (p) p->parent = q;`. -/
def reparent (q : Option P) : Option P → Prog P Unit
  | none => pure ()
  | some a => store (some a) (·.setParent q)

/-! ## Rotations -/

/-- `fix_downptr`. -/
def fixDownptr (p old n : Option P) : Prog P Unit :=
  match p with
  | some _ => do
    if (← load p).left = old then
      store p (·.setChild .left n)
    else
      store p (·.setChild .right n)
  | none => storeRoot n

/-- The common body of `rotate_left` and `rotate_right`: `n` goes down on the
    side `d`, and its child on the other side takes its place. -/
def rotate (d : Dir) (n : Option P) : Prog P Unit := do
  let p := (← load n).parent
  let r := (← load n).child d.other
  let c := (← load r).child d
  store n (·.setChild d.other c)
  reparent n ((← load n).child d.other)
  store r (·.setChild d n)
  store n (·.setParent r)
  store r (·.setParent p)
  fixDownptr (← load r).parent n r

/-- `rotate_left`. -/
def rotateLeft (n : Option P) : Prog P Unit := rotate .left n

/-- `rotate_right`. -/
def rotateRight (n : Option P) : Prog P Unit := rotate .right n

/-- `sibling`. -/
def sibling (n : Option P) : Prog P (Option P) := do
  let p := (← load n).parent
  if n = (← load p).left then return (← load p).right else return (← load p).left

/-- `grandparent`. -/
def grandparent (n : Option P) : Prog P (Option P) := do
  return (← load (← load n).parent).parent

/-! ## Insertion -/

/-- The last part of `repair_after_insert`: `n` and its parent descend via the
    same path. -/
def repairAfterInsertOuter (n : Option P) : Prog P Unit := do
  makeBlack (← load n).parent
  makeRed (← grandparent n)
  if n = (← load (← load n).parent).left then
    rotateRight (← grandparent n)
  else
    rotateLeft (← grandparent n)

/-- The part of `repair_after_insert` after its loop: the parent of `n` is red
    and its uncle is black. -/
def repairAfterInsertRotate (n : Option P) : Prog P Unit := do
  if ← (return decide (n = (← load (← load n).parent).left)) <&&>
      (return decide ((← load n).parent = (← load (← grandparent n)).right)) then
    rotateRight (← load n).parent
    repairAfterInsertOuter (← load n).right
  else if ← (return decide (n = (← load (← load n).parent).right)) <&&>
      (return decide ((← load n).parent = (← load (← grandparent n)).left)) then
    rotateLeft (← load n).parent
    repairAfterInsertOuter (← load n).left
  else
    repairAfterInsertOuter n

/-- `repair_after_insert`. -/
def repairAfterInsert : ℕ → Option P → Prog P Unit
  | 0, _ => failure
  | fuel + 1, n => do
    if (← load n).parent = none then
      makeBlack n
    else if ← isBlack (← load n).parent then
      pure ()
    else
      let u ← sibling (← load n).parent
      if ← isBlack u then
        repairAfterInsertRotate n
      else
        -- The uncle is red, too: the red nodes change places with the grandparent.
        makeBlack u
        makeBlack (← load n).parent
        makeRed (← grandparent n)
        repairAfterInsert fuel (← grandparent n)

/-- A place that holds a node pointer, `nptr` in `rbt_insert`: the root of the
    tree, or a child field of a node. -/
inductive Slot (P : Type)
  | root
  | child (d : Dir) (n : Option P)

/-- `*nptr`. -/
def loadSlot : Slot P → Prog P (Option P)
  | .root => loadRoot
  | .child d n => do return (← load n).child d

/-- `*nptr = v`. -/
def storeSlot (v : Option P) : Slot P → Prog P Unit
  | .root => storeRoot v
  | .child d n => store n (·.setChild d v)

/-- The part of `rbt_insert` where the key is found: `n` takes the place of `c`. -/
def rbtInsertReplace (n c : Option P) (nptr : Slot P) : Prog P Unit := do
  let x ← load c
  store n fun _ => x
  storeSlot n nptr
  reparent n (← load n).left
  reparent n (← load n).right

/-- The part of `rbt_insert` where the key is not found: `n` becomes a leaf. -/
def rbtInsertLeaf (n p : Option P) (nptr : Slot P) : Prog P Unit := do
  storeSlot n nptr
  store n fun _ => { flags := ⟨false, false⟩, left := none, right := none, parent := p }
  makeRed n
  markModified n

variable {K : Type*} (compare : K → P → ℤ)

/-- `rbt_insert` from its loop on, with `p` and `nptr` as they are there. The
    repair has its own fuel, `repairFuel`. -/
def rbtInsertLoop (repairFuel : ℕ) (key : K) (n : Option P) :
    ℕ → Option P → Slot P → Prog P (Option P)
  | 0, _, _ => failure
  | fuel + 1, p, nptr => do
    match ← loadSlot nptr with
    | some c =>
      let r := compare key c
      -- The path is marked before the key is found, or not.
      markModified (some c)
      if r = 0 then
        rbtInsertReplace n (some c) nptr
        return some c
      else
        rbtInsertLoop repairFuel key n fuel (some c) (.child (if r < 0 then .left else .right) (some c))
    | none =>
      rbtInsertLeaf n p nptr
      repairAfterInsert repairFuel n
      return none

/-- `rbt_insert`. -/
def rbtInsert (fuel : ℕ) (key : K) (n : P) : Prog P (Option P) :=
  rbtInsertLoop compare fuel key (some n) fuel none .root

/-! ## Removal -/

/-- `while (s->left) s = s->left;`. -/
def leftmost : ℕ → Option P → Prog P (Option P)
  | 0, _ => failure
  | fuel + 1, s => do
    if (← load s).left = none then return s
    leftmost fuel (← load s).left

/-- `swap_with_successor`. -/
def swapWithSuccessor (fuel : ℕ) (n : Option P) : Prog P Unit := do
  let p := (← load n).parent
  let s := (← load n).right
  let s ←
    if (← load s).left ≠ none then
      let s ← leftmost fuel s
      let tmp ← load s
      let x ← load n
      store s fun _ => x
      store n fun _ => tmp
      store (← load n).parent (·.setChild .left n)
      pure s
    else
      -- The successor is the right child: its contents point to `n`.
      let left := (← load n).left
      let right := (← load s).right
      let nFlags := (← load n).flags
      let sFlags := (← load s).flags
      store s fun _ => { flags := nFlags, left := left, right := n, parent := p }
      store n fun _ => { flags := sFlags, left := none, right := right, parent := s }
      pure s
  fixDownptr p n s
  -- The successor has the two children of `n` now.
  store (← load s).left (·.setParent s)
  store (← load s).right (·.setParent s)
  reparent n (← load n).right

/-- The last part of `repair_after_remove`: the child of `s` away from `n` is red. -/
def repairAfterRemoveOuter (n p s : Option P) : Prog P Unit := do
  let pFlags := (← load p).flags
  store s (·.mapFlags fun _ => pFlags.mark)
  makeBlack p
  if n = (← load p).left then
    makeBlack (← load s).right
    rotateLeft p
  else
    makeBlack (← load s).left
    rotateRight p

/-- The part of `repair_after_remove` after its loop, with `n`, `p` and `s` as
    they are there. -/
def repairAfterRemoveRotate (n p s : Option P) : Prog P Unit := do
  if ← isRed p <&&> (do isBlack (← load s).left) <&&> (do isBlack (← load s).right) then
    makeRed s
    makeBlack p
  else
    if ← (return decide (n = (← load p).left)) <&&> (do isBlack (← load s).right) then
      makeRed s
      makeBlack (← load s).left
      markModified s
      markModified (← load s).left
      rotateRight s
      repairAfterRemoveOuter n p (← load s).parent
    else if ← (return decide (n = (← load p).right)) <&&> (do isBlack (← load s).left) then
      makeRed s
      makeBlack (← load s).right
      markModified s
      markModified (← load s).right
      rotateLeft s
      repairAfterRemoveOuter n p (← load s).parent
    else
      repairAfterRemoveOuter n p s

/-- The loop of `repair_after_remove`. -/
def repairAfterRemoveLoop : ℕ → Option P → Option P → Prog P Unit
  | 0, _, _ => failure
  | fuel + 1, n, p => do
    if p = none then
      pure ()
    else
      let s ←
        if (← load p).left = n then pure (← load p).right else pure (← load p).left
      let s ←
        if ← isRed s then
          -- The sibling takes the place of the parent, and one of its children is the next sibling.
          makeRed p
          makeBlack s
          markModified s
          if n = (← load p).left then
            rotateLeft p
            pure (← load p).right
          else
            rotateRight p
            pure (← load p).left
        else pure s
      if ← isBlack p <&&> (do isBlack (← load s).left) <&&> (do isBlack (← load s).right) then
        makeRed s
        repairAfterRemoveLoop fuel p (← load p).parent
      else
        repairAfterRemoveRotate n p s

/-- `repair_after_remove`. -/
def repairAfterRemove (fuel : ℕ) (n : Option P) : Prog P Unit := do
  repairAfterRemoveLoop fuel none (← load n).parent

/-- `rbt_mark_modified`. -/
def rbtMarkModified : ℕ → Option P → Prog P Unit
  | _, none => pure ()
  | 0, some _ => failure
  | fuel + 1, some n => do
    markModified (some n)
    rbtMarkModified fuel (← load (some n)).parent

/-- `rbt_remove` once `n` has at most one child: `n` is unlinked. -/
def rbtRemoveUnlink (fuel : ℕ) (n : Option P) : Prog P Unit := do
  rbtMarkModified fuel n
  let s ← if (← load n).left ≠ none then pure (← load n).left else pure (← load n).right
  fixDownptr (← load n).parent n s
  if s ≠ none then
    -- The only child of a node is red.
    let p := (← load n).parent
    store s (·.setParent p)
    makeBlack s
  else if ← isRed n then
    pure ()
  else
    repairAfterRemove fuel n

/-- `rbt_remove`. -/
def rbtRemove (fuel : ℕ) (n : P) : Prog P Unit := do
  if (← load (some n)).left ≠ none ∧ (← load (some n)).right ≠ none then
    swapWithSuccessor fuel (some n)
  rbtRemoveUnlink fuel (some n)

end Dlb.Rbt
