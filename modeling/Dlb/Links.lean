import Dlb.Ring

/-!
# Lists of items

`src/src/list.c` for one list: its head and the nodes that are embedded in the items `Q`, with their
two links. To follow a null pointer is a fault.

* `Holds`: the list holds these items in this order, and all other nodes have null links;
* `Holds.insert`, `Holds.remove`: the two operations. Only an item that is in the list is
  removed without a fault.
-/

namespace Dlb

/-- A pointer to a node. -/
inductive Links.Node (Q : Type)
  | null
  | head
  | item (q : Q)
  deriving DecidableEq

/-- The two links of the nodes. -/
structure Links (Q : Type) where
  next : Links.Node Q → Links.Node Q
  prev : Links.Node Q → Links.Node Q

namespace Links

variable {Q : Type}

/-- An empty list, with nodes that are all zero. -/
def listInit : Links Q where
  next n := match n with
    | .head => .head
    | _ => .null
  prev n := match n with
    | .head => .head
    | _ => .null

variable [DecidableEq Q]

def listIsEmpty (m : Links Q) : Bool := m.next .head = .head

/-- The item is put before the head, that is at the end. -/
def listInsert (m : Links Q) (q : Q) : Links Q where
  next := Function.update (Function.update m.next (.item q) .head) (m.prev .head) (.item q)
  prev := Function.update (Function.update m.prev (.item q) (m.prev .head)) .head (.item q)

def listRemove (m : Links Q) (q : Q) : Option (Links Q) :=
  if m.next (.item q) = .null ∨ m.prev (.item q) = .null then none
  else
    let prev := Function.update m.prev (m.next (.item q)) (m.prev (.item q))
    let next := Function.update m.next (prev (.item q)) (m.next (.item q))
    some { next := Function.update next (.item q) .null, prev := Function.update prev (.item q) .null }

/-- The list holds the items `l`. -/
structure Holds (m : Links Q) (l : List Q) : Prop where
  ring : Ring m.next m.prev .head (l.map .item)
  nodup : l.Nodup
  null : ∀ q ∉ l, m.next (.item q) = .null ∧ m.prev (.item q) = .null

variable {m m' : Links Q} {l : List Q} {q : Q}

omit [DecidableEq Q] in
theorem nodup_nodes (h : l.Nodup) : (Node.head :: l.map Node.item).Nodup := by
  refine List.nodup_cons.2 ⟨by simp, h.map ?_⟩
  intro q q' e
  cases e
  rfl

omit [DecidableEq Q] in
theorem holds_init : Holds (listInit : Links Q) [] :=
  ⟨ring_nil.2 ⟨rfl, rfl⟩, List.nodup_nil, fun _ _ => ⟨rfl, rfl⟩⟩

omit [DecidableEq Q] in
theorem Holds.next_head (h : Holds m l) : m.next .head = (l.head?.map .item).getD .head := by
  rw [h.ring.next_eq, List.head?_map]

theorem Holds.isEmpty (h : Holds m l) : listIsEmpty m = l.isEmpty := by
  cases l <;> simp [listIsEmpty, h.next_head]

theorem Holds.insert (h : Holds m l) (hq : q ∉ l) : Holds (listInsert m q) (l ++ [q]) where
  ring := by
    rw [List.map_append]
    exact h.ring.insert_back (nodup_nodes h.nodup) (by simpa using hq)
  nodup := by
    rw [List.nodup_append_comm]
    exact List.nodup_cons.2 ⟨hq, h.nodup⟩
  null q' hq' := by
    rw [List.mem_append, List.mem_singleton, not_or] at hq'
    obtain ⟨hn, hp⟩ := h.null q' hq'.1
    -- The last node is the head or an item of the list.
    have hlast : Node.item q' ≠ m.prev .head := by
      intro e
      have hmem := h.ring.prev_mem
      rw [← e] at hmem
      exact hq'.1 (by simpa using hmem)
    simp [listInsert, hq'.2, hlast, hn, hp]

omit [DecidableEq Q] in
/-- An item is in the list exactly if its links are not null. -/
theorem Holds.mem_iff (h : Holds m l) : q ∈ l ↔ m.next (.item q) ≠ .null := by
  constructor
  · intro hq
    obtain ⟨l₁, l₂, rfl⟩ := List.append_of_mem hq
    have hring := h.ring
    rw [List.map_append, List.map_cons] at hring
    intro e
    simpa [e] using hring.neighbours.2
  · intro hn
    by_contra hq
    exact hn (h.null q hq).1

theorem Holds.remove (h : Holds m l) (hq : q ∈ l) :
    ∃ m', listRemove m q = some m' ∧ Holds m' (l.erase q) := by
  obtain ⟨l₁, l₂, rfl⟩ := List.append_of_mem hq
  have hd := h.nodup
  rw [List.nodup_middle, List.nodup_cons, List.mem_append, not_or] at hd
  obtain ⟨⟨hq₁, hq₂⟩, hd⟩ := hd
  have hring := h.ring
  have hnodes := nodup_nodes h.nodup
  rw [List.map_append, List.map_cons] at hring hnodes
  obtain ⟨hprev, hnext⟩ := hring.neighbours
  have hp : m.prev (.item q) ≠ .null := fun e => by simp [e] at hprev
  have hn : m.next (.item q) ≠ .null := fun e => by simp [e] at hnext
  have hself : Node.item q ≠ m.next (.item q) := fun e => by
    rw [← e] at hnext
    exact hq₂ (by simpa using hnext)
  rw [List.erase_append_right _ hq₁, List.erase_cons_head]
  refine ⟨_, if_neg (by simp [hp, hn]), ?_, hd, fun q' hq' => ?_⟩
  · rw [List.map_append]
    refine (hring.unlink hnodes).congr (fun x hx => ?_) fun x hx => ?_
    all_goals
      have hx' : x ≠ .item q := by
        rintro rfl
        simp [hq₁, hq₂] at hx
      simp [hx', Function.update_of_ne hself]
  · rcases eq_or_ne q' q with rfl | hne
    · simp
    · have hq'' : q' ∉ l₁ ++ q :: l₂ := by simpa [hne] using hq'
      obtain ⟨hn', hp'⟩ := h.null q' hq''
      have h₁ : Node.item q' ≠ m.prev (.item q) := by
        rintro e
        rw [← e] at hprev
        exact hq'' (List.mem_append_left _ (by simpa using hprev))
      have h₂ : Node.item q' ≠ m.next (.item q) := by
        rintro e
        rw [← e] at hnext
        exact hq'' (List.mem_append_right _ (List.mem_cons_of_mem _ (by simpa using hnext)))
      simp [hne, Function.update_of_ne hself, Function.update_of_ne h₁, Function.update_of_ne h₂, hn',
        hp']

theorem Holds.remove_of_not_mem (h : Holds m l) (hq : q ∉ l) : listRemove m q = none :=
  if_pos (.inl (h.null q hq).1)

end Links

end Dlb
