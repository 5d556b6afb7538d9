import Mathlib.Data.Set.Insert

/-!
# Custody

Things that are each in one place at a time: `held` says what every place holds, and `out` is what
there is. A step of a program moves some of them from one place to another, takes new ones in
or gives some away.

* `Custody.move`, `Custody.add`, `Custody.drop`: the three kinds of steps;
* `Custody.pass`: a single thing is moved;
* `Custody.congr`: places matter only by what they hold;
* `Custody.put`, `Custody.clear`, `Custody.hand`: places that hold one thing or none.
-/

namespace Dlb

variable {H O : Type*} {held held' : H → Set O} {out : Set O} {M : Set O} {p q : H}

/-- Everything in `out` is in one place, and nothing else is in any. -/
structure Custody (held : H → Set O) (out : Set O) : Prop where
  subset : ∀ p, held p ⊆ out
  unique : ∀ {p q o}, o ∈ held p → o ∈ held q → p = q
  cover : ∀ {o}, o ∈ out → ∃ p, o ∈ held p

namespace Custody

theorem empty (h : ∀ p, held p = ∅) : Custody held ∅ where
  subset p := (h p).subset
  unique {p q o} hp := by simp [h p] at hp
  cover := nofun

theorem congr (h : Custody held out) (e : ∀ p, held' p = held p) : Custody held' out := by
  rwa [show held' = held from funext e]

/-- The things `M` go from the place `p` to the place `q`. -/
theorem move (h : Custody held out) (hpq : p ≠ q) (hM : M ⊆ held p)
    (hp : held' p = held p \ M) (hq : held' q = held q ∪ M)
    (hne : ∀ r, r ≠ p → r ≠ q → held' r = held r) : Custody held' out := by
  -- Where something is afterwards, and where it was.
  have hmem : ∀ {r o}, o ∈ held' r ↔ (o ∈ M ∧ r = q) ∨ (o ∉ M ∧ o ∈ held r) := by
    intro r o
    rcases eq_or_ne r p with rfl | hrp
    · simp [hp, hpq, and_comm]
    rcases eq_or_ne r q with rfl | hrq
    · rw [hq, Set.mem_union]
      constructor
      · rintro (ho | ho)
        · refine .inr ⟨fun hoM => hrp (h.unique ho (hM hoM)), ho⟩
        · exact .inl ⟨ho, rfl⟩
      · rintro (⟨ho, -⟩ | ⟨-, ho⟩)
        · exact .inr ho
        · exact .inl ho
    · rw [hne r hrp hrq]
      refine ⟨fun ho => .inr ⟨fun hoM => hrp (h.unique ho (hM hoM)), ho⟩, ?_⟩
      rintro (⟨-, rfl⟩ | ⟨-, ho⟩)
      · exact absurd rfl hrq
      · exact ho
  refine ⟨fun r o ho => ?_, fun {r r' o} ho ho' => ?_, fun {o} ho => ?_⟩
  · rcases hmem.1 ho with ⟨ho, -⟩ | ⟨-, ho⟩
    · exact h.subset p (hM ho)
    · exact h.subset r ho
  · rcases hmem.1 ho with ⟨hoM, rfl⟩ | ⟨hoM, ho⟩ <;> rcases hmem.1 ho' with ⟨hoM', rfl⟩ | ⟨hoM', ho'⟩
    · rfl
    · exact absurd hoM hoM'
    · exact absurd hoM' hoM
    · exact h.unique ho ho'
  · by_cases hoM : o ∈ M
    · exact ⟨q, hmem.2 (.inl ⟨hoM, rfl⟩)⟩
    · obtain ⟨r, hr⟩ := h.cover ho
      exact ⟨r, hmem.2 (.inr ⟨hoM, hr⟩)⟩

/-- The thing `o` goes from the place `p` to the place `q`. -/
theorem pass {o : O} (h : Custody held out) (hpq : p ≠ q) (ho : o ∈ held p)
    (hp : ∀ x, x ∈ held' p ↔ x ∈ held p ∧ x ≠ o) (hq : ∀ x, x ∈ held' q ↔ x ∈ held q ∨ x = o)
    (hne : ∀ r, r ≠ p → r ≠ q → held' r = held r) : Custody held' out :=
  h.move hpq (Set.singleton_subset_iff.2 ho) (Set.ext hp) (Set.ext hq) hne

/-- Something new is in the place `p`. -/
theorem add {o : O} (h : Custody held out) (ho : o ∉ out) (hp : held' p = insert o (held p))
    (hne : ∀ r, r ≠ p → held' r = held r) : Custody held' (insert o out) := by
  have hmem : ∀ {r x}, x ∈ held' r ↔ (x = o ∧ r = p) ∨ x ∈ held r := by
    intro r x
    rcases eq_or_ne r p with rfl | hrp
    · simp [hp]
    · simp [hne r hrp, hrp]
  have hno : ∀ {r}, o ∉ held r := fun hr => ho (h.subset _ hr)
  refine ⟨fun r x hx => ?_, fun {r r' x} hx hx' => ?_, fun {x} hx => ?_⟩
  · rcases hmem.1 hx with ⟨rfl, -⟩ | hx
    · exact .inl rfl
    · exact .inr (h.subset r hx)
  · rcases hmem.1 hx with ⟨rfl, rfl⟩ | hx <;> rcases hmem.1 hx' with ⟨e, rfl⟩ | hx'
    · rfl
    · exact absurd hx' hno
    · exact absurd (e ▸ hx) hno
    · exact h.unique hx hx'
  · rcases hx with rfl | hx
    · exact ⟨p, hmem.2 (.inl ⟨rfl, rfl⟩)⟩
    · obtain ⟨r, hr⟩ := h.cover hx
      exact ⟨r, hmem.2 (.inr hr)⟩

/-- The things `M` in the place `p` are given away. -/
theorem drop (h : Custody held out) (hM : M ⊆ held p) (hp : held' p = held p \ M)
    (hne : ∀ r, r ≠ p → held' r = held r) : Custody held' (out \ M) := by
  have hmem : ∀ {r o}, o ∈ held' r ↔ o ∉ M ∧ o ∈ held r := by
    intro r o
    rcases eq_or_ne r p with rfl | hrp
    · simp [hp, and_comm]
    · rw [hne r hrp]
      exact ⟨fun ho => ⟨fun hoM => hrp (h.unique ho (hM hoM)), ho⟩, And.right⟩
  refine ⟨fun r o ho => ?_, fun {r r' o} ho ho' => ?_, fun {o} ho => ?_⟩
  · obtain ⟨hoM, ho⟩ := hmem.1 ho
    exact ⟨h.subset r ho, hoM⟩
  · exact h.unique (hmem.1 ho).2 (hmem.1 ho').2
  · obtain ⟨r, hr⟩ := h.cover ho.1
    exact ⟨r, hmem.2 ⟨ho.2, hr⟩⟩

/-! ## Places that hold one thing or none -/

section single

variable [DecidableEq H] {g : H → Option O} {o : O}

/-- Something new is put in an empty place. -/
theorem put (h : Custody (fun p => {o | g p = some o}) out) (hp : g p = none) (ho : o ∉ out) :
    Custody (fun q => {o' | Function.update g p (some o) q = some o'}) (insert o out) := by
  refine h.add (p := p) ho ?_ fun r hr => ?_
  · ext x
    simp [hp, eq_comm]
  · simp [hr]

/-- What is in a place is given away. -/
theorem clear (h : Custody (fun p => {o | g p = some o}) out) (p : H) :
    Custody (fun q => {o | Function.update g p none q = some o}) (out \ {o | g p = some o}) := by
  refine h.drop (p := p) subset_rfl ?_ fun r hr => ?_
  · ext x
    simp
  · simp [hr]

/-- What is in the place `p` is put in the place `q`, which is empty. -/
theorem hand (h : Custody (fun p => {o | g p = some o}) out) (hpq : p ≠ q) (hq : g q = none) :
    Custody (fun r => {o | Function.update (Function.update g q (g p)) p none r = some o}) out := by
  refine h.move (M := {o | g p = some o}) hpq subset_rfl ?_ ?_ fun r hrp hrq => ?_
  · ext x
    simp
  · simp [hpq.symm, hq]
  · simp [hrp, hrq]

end single

end Custody

/-! ## What there is, as a flag -/

theorem setOf_update_true [DecidableEq O] (f : O → Bool) (o : O) :
    {x | Function.update f o true x = true} = insert o {x | f x = true} := by
  ext x
  rcases eq_or_ne x o with rfl | hne
  · simp
  · simp [hne]

theorem setOf_update_false [DecidableEq O] (f : O → Bool) (o : O) :
    {x | Function.update f o false x = true} = {x | f x = true} \ {o} := by
  ext x
  rcases eq_or_ne x o with rfl | hne
  · simp
  · simp [hne]

end Dlb
