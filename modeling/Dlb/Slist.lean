import Dlb.Chain

/-!
# Singly linked lists

`src/src/slist.c`. The nodes are pointers; `next` is the field of that
name of all nodes.

* `Lists`: the list holds these nodes in this order;
* `Lists.push`, `Lists.pop`, `Lists.append`: what the functions do to them;
* `Lists.frame`: a list does not depend on the links of the nodes of others.
-/

namespace Dlb

variable {P : Type*}

/-- `struct slist` -/
structure Slist (P : Type*) where
  start : Option P
  endNode : Option P

namespace Slist

def slistInit : Slist P := ⟨none, none⟩

def slistIsEmpty (s : Slist P) : Bool := s.start.isNone

/-- The node that was the first one, and the list. -/
def slistPop (next : P → Option P) (s : Slist P) : Option P × Slist P :=
  match s.start with
  | none => (none, s)
  | some r => (some r, ⟨next r, if (next r).isNone then none else s.endNode⟩)

/-- The links of the nodes, and the list. -/
def slistPush [DecidableEq P] (next : P → Option P) (s : Slist P) (n : P) :
    (P → Option P) × Slist P :=
  (Function.update next n s.start, ⟨some n, if s.endNode.isNone then some n else s.endNode⟩)

/-- The links of the nodes, and the list. -/
def slistAppend [DecidableEq P] (next : P → Option P) (s : Slist P) (n : P) :
    (P → Option P) × Slist P :=
  let next := Function.update next n none
  match s.endNode with
  | some e => (Function.update next e (some n), { s with endNode := some n })
  | none => (next, { start := some n, endNode := some n })

/-- The list `s` holds the nodes `l`. -/
structure Lists (next : P → Option P) (s : Slist P) (l : List P) : Prop where
  chain : Chain next s.start l
  last : s.endNode = l.getLast?
  nodup : l.Nodup

variable {next next' : P → Option P} {s : Slist P} {l : List P} {n : P}

theorem lists_init : Lists next slistInit [] := ⟨rfl, rfl, List.nodup_nil⟩

theorem Lists.isEmpty (h : Lists next s l) : slistIsEmpty s = l.isEmpty := by
  cases l with
  | nil =>
    have hs : s.start = none := h.chain
    simp [slistIsEmpty, hs]
  | cons x l => simp [slistIsEmpty, h.chain.1]

theorem Lists.pop (h : Lists next s l) :
    (slistPop next s).1 = l.head? ∧ Lists next (slistPop next s).2 l.tail := by
  cases l with
  | nil =>
    have hs : s.start = none := h.chain
    simpa [slistPop, hs] using h
  | cons x l =>
    obtain ⟨hs, hc⟩ := h.chain
    simp only [slistPop, hs, List.head?_cons, List.tail_cons, true_and]
    refine ⟨hc, ?_, h.nodup.of_cons⟩
    cases l with
    | nil =>
      have hx : next x = none := hc
      simp [hx]
    | cons y l => simp [hc.1, h.last]

theorem Lists.frame (h : Lists next s l) (hn : ∀ x ∈ l, next' x = next x) : Lists next' s l :=
  ⟨h.chain.congr hn, h.last, h.nodup⟩

variable [DecidableEq P]

theorem Lists.push (h : Lists next s l) (hn : n ∉ l) :
    Lists (slistPush next s n).1 (slistPush next s n).2 (n :: l) := by
  refine ⟨h.chain.push hn, ?_, List.nodup_cons.2 ⟨hn, h.nodup⟩⟩
  cases l with
  | nil => simp [slistPush, h.last]
  | cons x l =>
    have hne : (x :: l).getLast?.isNone = false := by simp
    simp only [slistPush, h.last, hne, Bool.false_eq_true, if_false, List.getLast?_cons_cons]

theorem Lists.append (h : Lists next s l) (hn : n ∉ l) :
    Lists (slistAppend next s n).1 (slistAppend next s n).2 (l ++ [n]) := by
  have hd : (l ++ [n]).Nodup := by
    rw [List.nodup_append_comm]
    exact List.nodup_cons.2 ⟨hn, h.nodup⟩
  rcases List.eq_nil_or_concat l with rfl | ⟨l', e, rfl⟩
  · simp only [slistAppend, h.last]
    exact ⟨⟨rfl, Function.update_self ..⟩, rfl, hd⟩
  · simp only [slistAppend, h.last, List.concat_eq_append, List.getLast?_append, List.getLast?_singleton]
    refine ⟨?_, by simp, by simpa using hd⟩
    rw [List.concat_eq_append] at h hn
    simpa using h.chain.snoc h.nodup hn

end Slist

end Dlb
