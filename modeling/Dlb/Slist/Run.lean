import Dlb.Slist

/-!
# Singly linked lists as sequences

Any number of lists, the nodes of which are links of the same memory. For their users they are
sequences: whatever functions are called for whichever lists, the results are those of sequences, and
the pointers to both ends are right.
-/

namespace Dlb.Slist

variable {P I : Type*} [DecidableEq P] [DecidableEq I]

/-- The field `next` of all nodes, and the lists. -/
structure Heap (P I : Type*) where
  next : P → Option P
  list : I → Slist P

inductive Call (P I : Type*)
  | push (i : I) (n : P)
  | pop (i : I)
  | append (i : I) (n : P)

/-- A call: the node that it returns, if it returns one, and the memory. -/
def exec (h : Heap P I) : Call P I → Option P × Heap P I
  | .push i n =>
    let (next, s) := slistPush h.next (h.list i) n
    (none, ⟨next, Function.update h.list i s⟩)
  | .pop i =>
    let (r, s) := slistPop h.next (h.list i)
    (r, ⟨h.next, Function.update h.list i s⟩)
  | .append i n =>
    let (next, s) := slistAppend h.next (h.list i) n
    (none, ⟨next, Function.update h.list i s⟩)

/-- A call as it is for sequences. -/
def Call.model (L : I → List P) : Call P I → Option P × (I → List P)
  | .push i n => (none, Function.update L i (n :: L i))
  | .pop i => ((L i).head?, Function.update L i (L i).tail)
  | .append i n => (none, Function.update L i (L i ++ [n]))

/-- The results of calls, and the state after them. -/
def runAll {σ : Type*} (f : σ → Call P I → Option P × σ) : σ → List (Call P I) → List (Option P) × σ
  | s, [] => ([], s)
  | s, c :: cs =>
    let (r, s) := f s c
    let (rs, s) := runAll f s cs
    (r :: rs, s)

/-- A node is put in a list only if it is in none. -/
def Call.Fresh (L : I → List P) : Call P I → Prop
  | .push _ n | .append _ n => ∀ j, n ∉ L j
  | .pop _ => True

def Allows : (I → List P) → List (Call P I) → Prop
  | _, [] => True
  | L, c :: cs => c.Fresh L ∧ Allows (c.model L).2 cs

variable {h : Heap P I} {L : I → List P} {i : I} {n : P} {l : List P} {s : Slist P}
  {next' : P → Option P} {c : Call P I} {cs : List (Call P I)}

/-- The lists hold the sequences `L`, and no node is in two of them. -/
structure Holds (h : Heap P I) (L : I → List P) : Prop where
  lists : ∀ i, Lists h.next (h.list i) (L i)
  disjoint : ∀ i j, i ≠ j → (L i).Disjoint (L j)

omit [DecidableEq P] in
/-- The list `i` is changed, and no link but those of its nodes and of a node that was in no list. -/
theorem Holds.update (hh : Holds h L) (hs : Lists next' s l) (hl : ∀ x ∈ l, x ∈ L i ∨ ∀ j, x ∉ L j)
    (hn : ∀ j ≠ i, ∀ x ∈ L j, next' x = h.next x) :
    Holds ⟨next', Function.update h.list i s⟩ (Function.update L i l) := by
  have hd : ∀ j, j ≠ i → l.Disjoint (L j) := fun j hj x hx hxj =>
    (hl x hx).elim (fun hxi => hh.disjoint i j hj.symm hxi hxj) fun hno => hno j hxj
  refine ⟨fun j => ?_, fun j k hjk => ?_⟩
  · rcases eq_or_ne j i with rfl | hj
    · simpa using hs
    · simpa [hj] using (hh.lists j).frame (hn j hj)
  · rcases eq_or_ne j i with rfl | hj
    · simpa [hjk.symm] using hd k hjk.symm
    · rcases eq_or_ne k i with rfl | hk
      · have hd' : (L j).Disjoint l := fun x hx hxl => hd j hj hxl hx
        simpa [hj] using hd'
      · simpa [hj, hk] using hh.disjoint j k hjk

/-- One call. -/
theorem Holds.call (hh : Holds h L) (hc : c.Fresh L) :
    (exec h c).1 = (c.model L).1 ∧ Holds (exec h c).2 (c.model L).2 := by
  cases c with
  | push i n =>
    refine ⟨rfl, hh.update ((hh.lists i).push (hc i)) ?_ fun j _ x hx => ?_⟩
    · rintro x (_ | ⟨_, hx⟩)
      · exact .inr hc
      · exact .inl hx
    · have hxn : x ≠ n := ne_of_mem_of_not_mem hx (hc j)
      exact Function.update_of_ne hxn _ _
  | pop i =>
    obtain ⟨hr, hs⟩ := (hh.lists i).pop
    exact ⟨hr, hh.update hs (fun x hx => .inl (List.mem_of_mem_tail hx)) fun _ _ _ _ => rfl⟩
  | append i n =>
    refine ⟨rfl, hh.update ((hh.lists i).append (hc i)) ?_ fun j hj x hx => ?_⟩
    · intro x hx
      rcases List.mem_append.1 hx with hx | hx
      · exact .inl hx
      · obtain rfl := List.mem_singleton.1 hx
        exact .inr hc
    · have hxn : x ≠ n := ne_of_mem_of_not_mem hx (hc j)
      have hlast := (hh.lists i).last
      split
      · rename_i e he
        -- The last node of the list is in no other one.
        have hei : e ∈ L i := List.mem_of_getLast? (hlast.symm.trans he)
        have hxe : x ≠ e := by
          rintro rfl
          exact hh.disjoint i j hj.symm hei hx
        exact (Function.update_of_ne hxe _ _).trans (Function.update_of_ne hxn _ _)
      · exact Function.update_of_ne hxn _ _

theorem Holds.calls (hh : Holds h L) (hc : Allows L cs) :
    (runAll exec h cs).1 = (runAll (fun L c => c.model L) L cs).1 ∧
      Holds (runAll exec h cs).2 (runAll (fun L c => c.model L) L cs).2 := by
  induction cs generalizing h L with
  | nil => exact ⟨rfl, hh⟩
  | cons c cs ih =>
    obtain ⟨hr, hh'⟩ := hh.call hc.1
    obtain ⟨hrs, hh''⟩ := ih hh' hc.2
    exact ⟨congrArg₂ List.cons hr hrs, hh''⟩

/-- Whatever functions are called for lists that were empty, they return what they would for
sequences, and `slist_is_empty` tells which lists are empty. -/
theorem run_slists (next : P → Option P) (hc : Allows (fun _ : I => []) cs) :
    (runAll exec ⟨next, fun _ => slistInit⟩ cs).1 = (runAll (fun L c => c.model L) (fun _ => []) cs).1 ∧
      Holds (runAll exec ⟨next, fun _ => slistInit⟩ cs).2
        (runAll (fun L c => c.model L) (fun _ => []) cs).2 ∧
      ∀ i, slistIsEmpty ((runAll exec ⟨next, fun _ => slistInit⟩ cs).2.list i) =
        ((runAll (fun L c => c.model L) (fun _ => []) cs).2 i).isEmpty := by
  have h₀ : Holds (⟨next, fun _ => slistInit⟩ : Heap P I) fun _ => [] :=
    ⟨fun _ => lists_init, fun _ _ _ => List.disjoint_nil_left _⟩
  obtain ⟨hr, hh⟩ := h₀.calls hc
  exact ⟨hr, hh, fun i => (hh.lists i).isEmpty⟩

/-- A node is moved from one list to the end of another one. -/
theorem run_slists_moved :
    (runAll exec ⟨fun _ : ℕ => some 7, fun _ : Bool => slistInit⟩
      [.push false 1, .push false 2, .append true 3, .pop false, .append true 2, .pop true,
        .pop true, .pop true]).1 =
      [none, none, none, some 2, none, some 3, some 2, none] := by
  refine (run_slists (fun _ => some 7) ?_).1.trans ?_
  · simp [Allows, Call.Fresh, Call.model, Function.update_apply]
  · simp [runAll, Call.model]

end Dlb.Slist
