import Dlb.ListNode

/-!
# Lists as sequences

For its users, a heap of circular lists is a set of heads with a sequence of nodes each. What a call
does to the links is told here by what it does to these sequences: all other lists are left
alone, and so are the bytes of their nodes.

* `Lists.exec`: the sequences after a call;
* `exec_lists`: one call; `run_lists`: a run of calls;
* `visit_eq`: the loop over the members of a list visits the sequence.
-/

namespace Dlb.ListNode

variable {m : Mem} {N B : Set ℕ} {F F' : ℕ → List ℕ} {b p x : ℕ} {l : List ℕ}

/-- A call of one of the functions that change lists. -/
inductive Call
  | insert (item after : ℕ)
  | remove (item : ℕ)
  | move (dst src : ℕ)

/-- The memory after a call. -/
def Call.exec (m : Mem) : Call → Mem
  | .insert item after => listInsert m item after
  | .remove item => listRemove m item
  | .move dst src => listMove m dst src

/-- The node that is linked or unlinked. -/
def Call.node : Call → ℕ
  | .insert item _ => item
  | .remove item => item
  | .move dst _ => dst

/-- The heads of lists, and the nodes that follow each of them. -/
structure Lists where
  heads : Set ℕ
  members : ℕ → List ℕ

namespace Lists

/-- A node that is in no list. -/
def Unlinked (L : Lists) (x : ℕ) : Prop := ∀ c ∈ L.heads, x ∉ c :: L.members c

/-- What is asked of a call: a node is inserted once, a node that is removed is in a list and not its
    head, and a list is moved to a head that is not initialized or has no members. -/
def Allows (N : Set ℕ) (L : Lists) : Call → Prop
  | .insert item after => item ∈ N ∧ L.Unlinked item ∧ ∃ c ∈ L.heads, after ∈ c :: L.members c
  | .remove item => ∃ c ∈ L.heads, item ∈ L.members c
  | .move dst src => src ∈ L.heads ∧ dst ∈ N ∧
      (L.Unlinked dst ∨ dst ∈ L.heads ∧ L.members dst = [])

/-- The lists after a call. -/
def exec (L : Lists) : Call → Lists
  -- Before the head is at the end: the index is then that of no member.
  | .insert item after => { L with
      members := fun c =>
        if after ∈ c :: L.members c then
          (L.members c).insertIdx ((L.members c).idxOf after) item
        else L.members c }
  | .remove item => { L with members := fun c => (L.members c).erase item }
  | .move dst src => {
      heads := Insert.insert dst L.heads
      members := Function.update (Function.update L.members dst (L.members src)) src [] }

/-- The call changes the list of the head `c`. -/
def Involves (L : Lists) : Call → ℕ → Prop
  | .insert _ after, c => after ∈ c :: L.members c
  | .remove item, c => item ∈ L.members c
  | .move dst src, c => c = dst ∨ c = src

end Lists

variable {L : Lists} {call : Call} {calls : List Call}

/-! ## Calls -/

/-- The nodes before and after the index at which `x` is inserted. -/
theorem exists_insertIdx (x : ℕ) (hp : p ∈ b :: l) :
    ∃ l₁ l₂ w, l = l₁ ++ l₂ ∧ l₂ ++ [b] = p :: w ∧ l.insertIdx (l.idxOf p) x = l₁ ++ x :: l₂ := by
  induction l with
  | nil =>
    obtain rfl := List.mem_singleton.1 hp
    exact ⟨[], [], [], rfl, rfl, rfl⟩
  | cons y l ih =>
    rcases eq_or_ne y p with rfl | hne
    · exact ⟨[], y :: l, l ++ [b], rfl, rfl, by simp⟩
    · have hp' : p ∈ b :: l := by
        simp only [List.mem_cons, hne.symm, false_or] at hp ⊢
        exact hp
      obtain ⟨l₁, l₂, w, hl, hw, hins⟩ := ih hp'
      refine ⟨y :: l₁, l₂, w, by rw [hl, List.cons_append], hw, ?_⟩
      rw [List.idxOf_cons_ne l hne, List.insertIdx_succ_cons, hins, List.cons_append]

/-- What a call does to the links is what it does to the sequences. -/
theorem exec_rings (hN : Apart N) (h : Rings N L.heads m L.members) (hc : L.Allows N call) :
    Rings N (L.exec call).heads (call.exec m) (L.exec call).members ∧ Frame N m (call.exec m) := by
  cases call with
  | insert item after =>
    obtain ⟨hx, hnew, b, hb, hp⟩ := hc
    obtain ⟨l₁, l₂, w, hl, hw, hins⟩ := exists_insertIdx item hp
    obtain ⟨hr, hf⟩ := h.insert_before hN hb hx hnew hl hw
    refine ⟨hr.congr_members fun c hc => ?_, hf⟩
    rcases eq_or_ne c b with rfl | hcb
    · simp only [Lists.exec, if_pos hp, hins, Function.update_self]
    · have hpc := h.not_mem hb hc hcb hp
      simp only [Lists.exec, if_neg hpc, Function.update_of_ne hcb]
  | remove item =>
    obtain ⟨b, hb, hx⟩ := hc
    obtain ⟨hr, hf⟩ := h.remove hN hb hx
    refine ⟨hr.congr_members fun c hc => ?_, hf⟩
    rcases eq_or_ne c b with rfl | hcb
    · rw [Function.update_self]
      rfl
    · have hxc : item ∉ L.members c := fun hxc =>
        h.not_mem hb hc hcb (List.mem_cons_of_mem b hx) (List.mem_cons_of_mem c hxc)
      rw [Function.update_of_ne hcb]
      exact List.erase_of_not_mem hxc
  | move dst src =>
    obtain ⟨hs, hd, hfree⟩ := hc
    refine h.move_all hN hd hs (fun c hc hcd => ?_) fun hdB => ?_
    · rcases hfree with hnew | ⟨hdB, -⟩
      · exact hnew c hc
      · exact h.not_mem hdB hc hcd List.mem_cons_self
    · rcases hfree with hnew | ⟨-, hnil⟩
      · exact absurd List.mem_cons_self (hnew dst hdB)
      · exact hnil

/-! ## What is left alone -/

/-- The lists that a call changes. -/
def Lists.near (L : Lists) (call : Call) : Lists := { L with
  heads := {c ∈ L.heads | L.Involves call c} }

/-- The nodes of these lists, and the one that is linked. -/
def Lists.nodes (L : Lists) (call : Call) : Set ℕ :=
  {x | x = call.node ∨ ∃ c ∈ (L.near call).heads, x ∈ c :: L.members c}

theorem nodes_subset (h : Rings N L.heads m L.members) (hc : L.Allows N call) :
    L.nodes call ⊆ N := by
  rintro x (rfl | ⟨c, hcL, hx⟩)
  · cases call with
    | insert item after => exact hc.1
    | remove item =>
      obtain ⟨b, hb, hx⟩ := hc
      exact h.node b hb item (List.mem_cons_of_mem b hx)
    | move dst src => exact hc.2.1
  · exact h.node c hcL.1 x hx

theorem rings_near (h : Rings N L.heads m L.members) :
    Rings (L.nodes call) (L.near call).heads m (L.near call).members :=
  h.mono (fun _ hc => hc.1) fun c hc _ hx => .inr ⟨c, hc, hx⟩

/-- The call would be allowed without the other lists. -/
theorem allows_near (hc : L.Allows N call) : (L.near call).Allows (L.nodes call) call := by
  cases call with
  | insert item after =>
    obtain ⟨-, hnew, b, hb, hp⟩ := hc
    exact ⟨.inl rfl, fun c hc => hnew c hc.1, b, ⟨hb, hp⟩, hp⟩
  | remove item =>
    obtain ⟨b, hb, hx⟩ := hc
    exact ⟨b, ⟨hb, hx⟩, hx⟩
  | move dst src =>
    obtain ⟨hs, -, hfree⟩ := hc
    refine ⟨⟨hs, .inr rfl⟩, .inl rfl, hfree.imp (fun hnew c hc => hnew c hc.1) fun hd => ?_⟩
    exact ⟨⟨hd.1, .inl rfl⟩, hd.2⟩

/-- A list that the call does not involve has none of these nodes. -/
theorem not_mem_nodes (h : Rings N L.heads m L.members) (hc : L.Allows N call) (hb : b ∈ L.heads)
    (hno : ¬L.Involves call b) (hx : x ∈ b :: L.members b) : x ∉ L.nodes call := by
  rintro (rfl | ⟨c, hcL, hxc⟩)
  · cases call with
    | insert item after => exact hc.2.1 b hb hx
    | remove item =>
      obtain ⟨c, hc, hxc⟩ := hc
      obtain rfl := h.disjoint b hb c hc item hx (List.mem_cons_of_mem c hxc)
      exact hno hxc
    | move dst src =>
      rcases hc.2.2 with hnew | ⟨hd, -⟩
      · exact hnew b hb hx
      · exact hno (.inl (h.disjoint b hb dst hd dst hx List.mem_cons_self))
  · obtain rfl := h.disjoint b hb c hcL.1 x hx hxc
    exact hno hcL.2

/-- The members of a list that is not involved. -/
theorem members_exec (hno : ¬L.Involves call b) : (L.exec call).members b = L.members b := by
  cases call with
  | insert item after => exact if_neg hno
  | remove item => exact List.erase_of_not_mem hno
  | move dst src =>
    rw [Lists.Involves, not_or] at hno
    simp only [Lists.exec, Function.update_of_ne hno.1, Function.update_of_ne hno.2]

/-- A call does to the lists what `Lists.exec` says, and changes nothing in the lists that it does not
    involve. -/
theorem exec_lists (hN : Apart N) (h : Rings N L.heads m L.members) (hc : L.Allows N call) :
    Rings N (L.exec call).heads (call.exec m) (L.exec call).members ∧
      Frame (L.nodes call) m (call.exec m) ∧
      ∀ b ∈ L.heads, ¬L.Involves call b → (L.exec call).members b = L.members b ∧
        ∀ x ∈ b :: L.members b, ∀ q, x ≤ q → q < x + 16 → call.exec m q = m q := by
  have hsub := nodes_subset h hc
  have hN' : Apart (L.nodes call) := fun p hp =>
    ⟨(hN p (hsub hp)).1, fun q hq => (hN p (hsub hp)).2 q (hsub hq)⟩
  have hf := (exec_rings hN' (rings_near h) (allows_near hc)).2
  refine ⟨(exec_rings hN h hc).1, hf, fun b hb hno => ⟨members_exec hno, fun x hx q hq hlt => hf q ?_⟩⟩
  intro p hp hpq
  have hne : x ≠ p := fun e => not_mem_nodes h hc hb hno hx (e ▸ hp)
  have happ := (hN x (h.node b hb x hx)).2 p (hsub hp)
  omega

/-- An item is inserted into a new list. -/
theorem exec_lists_new : Rings {16, 32} {16} (listInsert (listInit (fun _ => 0) 16) 32 16)
    (fun _ => [32]) := by
  have hN : Apart {16, 32} := by
    rintro p (rfl | rfl)
    all_goals
      refine ⟨by decide, ?_⟩
      rintro q (rfl | rfl) <;> decide
  obtain ⟨hr, -⟩ := (rings_empty (m := fun _ => 0) (F := fun _ => [])).init hN (b := 16) (.inl rfl)
    fun _ hc => hc.elim
  rw [Function.update_eq_self_iff.2 rfl, insert_empty_eq] at hr
  have hc : Lists.Allows {16, 32} ⟨{16}, fun _ => []⟩ (.insert 32 16) := by
    refine ⟨.inr rfl, ?_, 16, rfl, List.mem_cons_self⟩
    rintro c rfl
    decide
  refine (exec_lists (L := ⟨{16}, fun _ => []⟩) hN hr hc).1.congr_members ?_
  rintro c rfl
  rfl

/-! ## Runs -/

/-- Each of the calls is allowed when it is made. -/
def Lists.AllowsAll (N : Set ℕ) : Lists → List Call → Prop
  | _, [] => True
  | L, call :: calls => L.Allows N call ∧ AllowsAll N (L.exec call) calls

/-- The memory and the sequences after the same calls. -/
theorem run_lists (hN : Apart N) (h : Rings N L.heads m L.members) (hc : L.AllowsAll N calls) :
    Rings N (calls.foldl Lists.exec L).heads (calls.foldl Call.exec m)
        (calls.foldl Lists.exec L).members ∧
      Frame N m (calls.foldl Call.exec m) := by
  induction calls generalizing L m with
  | nil => exact ⟨h, fun _ _ => rfl⟩
  | cons call calls ih =>
    obtain ⟨hr, hf⟩ := exec_rings hN h hc.1
    obtain ⟨hr', hf'⟩ := ih hr hc.2
    exact ⟨hr', hf.trans hf'⟩

/-! ## The members -/

/-- The nodes that the loop `for (n = list->next; n != list; n = n->next)` visits, from `n` on. -/
def visit (m : Mem) (list : ℕ) : ℕ → ℕ → Option (List ℕ)
  | 0, _ => none
  | fuel + 1, n => if n = list then some [] else (visit m list fuel (next m n)).map (n :: ·)

theorem visit_of_isChain {c fuel : ℕ} {w : List ℕ} (hw : l ++ [b] = c :: w)
    (h : (c :: w).IsChain (Link (next m) (prev m))) (hb : b ∉ l) (hf : l.length < fuel) :
    visit m b fuel c = some l := by
  induction l generalizing c w fuel with
  | nil =>
    obtain ⟨rfl, rfl⟩ := List.cons.inj hw
    obtain ⟨fuel, rfl⟩ := Nat.exists_eq_succ_of_ne_zero hf.ne'
    exact if_pos rfl
  | cons y l ih =>
    rw [List.cons_append] at hw
    obtain ⟨rfl, rfl⟩ := List.cons.inj hw
    obtain ⟨fuel, rfl⟩ := Nat.exists_eq_succ_of_ne_zero (Nat.ne_zero_of_lt hf)
    rw [List.mem_cons, not_or] at hb
    obtain ⟨c, w, hcw⟩ := List.exists_cons_of_ne_nil (show l ++ [b] ≠ [] by simp)
    rw [hcw, List.isChain_cons_cons] at h
    rw [visit, if_neg (Ne.symm hb.1), h.1.1, ih hcw h.2 hb.2 (Nat.lt_of_succ_lt_succ hf)]
    rfl

/-- The loop visits the members of a list in their order. -/
theorem visit_eq {fuel : ℕ} (h : Rings N B m F) (hb : b ∈ B) (hf : (F b).length < fuel) :
    visit m b fuel (next m b) = some (F b) := by
  obtain ⟨c, w, hw⟩ := List.exists_cons_of_ne_nil (show F b ++ [b] ≠ [] by simp)
  have hring : (b :: (F b ++ [b])).IsChain (Link (next m) (prev m)) := h.ring b hb
  rw [hw, List.isChain_cons_cons] at hring
  rw [hring.1.1]
  exact visit_of_isChain hw hring.2 (List.nodup_cons.1 (h.nodup b hb)).1 hf

end Dlb.ListNode
