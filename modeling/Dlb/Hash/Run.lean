import Mathlib.Logic.Relation
import Dlb.Hash.Map

/-!
# Every run of a hash table

A user fills in the nodes that are not in the table, and calls the functions. The map of a run is
what a table should contain, by the calls that were made: the node which was inserted last under a
key, and was neither removed nor displaced since. `run_refines` says that the table contains
just that, at every time.
-/

namespace Dlb.Hash

variable {P K : Type} [DecidableEq P] (func : K → ℕ) (compare : K → K → ℤ)

/-! ## Runs -/

/-- The table, and what it should contain. -/
structure Sys (P K : Type) where
  state : State P K
  map : K → Option P

inductive Call (P K : Type)
  | insert (key : K) (ins : P) (flags : Flags)
  | remove (n : P)
  | hint (hint : ℕ)
  | find (key : K)

namespace Call

/-- The calls that may be made. -/
def Valid (t : Sys P K) : Call P K → Prop
  | insert key ins flags =>
    t.state.count < 2 ^ 30 ∧ Insertable func compare t.state.node t.map key ins flags
  | remove n => ∃ k, t.map k = some n
  | hint h => h < 2 ^ 30
  | find _ => True

/-- What a call returns, the node that it reports, and the state after it. -/
def exec (ok : Bool) (fuel : ℕ) (s : State P K) :
    Call P K → Option ((ℤ × Option (Option P)) × State P K)
  | insert key ins flags => hashInsert func compare ok fuel s key ins flags
  | remove n => (hashRemove ok fuel s n).map fun s => ((0, none), s)
  | hint h => (hashCapacityHint ok fuel s h).map fun q => ((q.1, none), q.2)
  | find key => (hashFind func compare fuel s key).map fun n => ((0, some n), s)

/-- What the table should contain after a call that has returned `r`. -/
def map (t : Sys P K) (r : ℤ) : Call P K → K → Option P
  | insert _ ins _ =>
    if r = 0 then insertMap compare t.map (t.state.node ins).key ins else t.map
  | remove n => removeMap t.map n
  | hint _ => t.map
  | find _ => t.map

/-- What a call returns. -/
def Returns (ok : Bool) (t : Sys P K) (r : ℤ) (n : Option (Option P)) (s' : State P K) :
    Call P K → Prop
  | insert key _ flags => r = -1 ∧ ok = false ∧ s' = t.state ∨
      r = 0 ∧ n = if flags.unique then none else some (t.map key)
  | remove _ => True
  | hint _ => r = -1 ∧ ok = false ∧ s' = t.state ∨ r = 0
  | find key => n = some (t.map key) ∧ s' = t.state

end Call

/-- A node that is not in the table is filled in, or a call is made. -/
inductive Step : Sys P K → Sys P K → Prop
  | fill (t : Sys P K) (n : P) (x : Node P K) (h : ∀ k, t.map k ≠ some n) :
      Step t { t with state := { t.state with node := Function.update t.state.node n x } }
  | call (t : Sys P K) (c : Call P K) (ok : Bool) (r : ℤ) (n : Option (Option P)) (s' : State P K)
      (hv : c.Valid func compare t)
      (h : Yields (fun fuel => c.exec func compare ok fuel t.state) ((r, n), s')) :
      Step t ⟨s', c.map compare t r⟩

/-- The table has just been initialized. -/
def Sys.init (node : P → Node P K) : Sys P K := ⟨hashInit node, fun _ => none⟩

def Run (node : P → Node P K) (t : Sys P K) : Prop :=
  Relation.ReflTransGen (Step func compare) (.init node) t

/-! ## The invariant -/

structure Inv (t : Sys P K) (D : Finset P) (L : ℕ → List P) : Prop where
  buckets : Buckets t.state D L
  maps : Maps func compare t.state.node D t.map
  le : t.state.count ≤ 2 ^ 30

variable {func compare} {t t' : Sys P K} {D : Finset P} {L : ℕ → List P} {c : Call P K}
  {node : P → Node P K}

/-- A call returns what it should, and it keeps the invariant. -/
theorem Inv.call (h : Inv func compare t D L) (ha : Agree func compare)
    (hv : c.Valid func compare t) (ok : Bool) :
    ∃ r n s' D' L', Yields (fun fuel => c.exec func compare ok fuel t.state) ((r, n), s') ∧
      c.Returns ok t r n s' ∧ Inv func compare ⟨s', c.map compare t r⟩ D' L' := by
  cases c with
  | insert key ins flags =>
    obtain ⟨r, old, s', hy, ⟨rfl, hok, rfl⟩ | ⟨rfl, hold, D', L', hB, hle, hM⟩⟩ :=
      h.maps.insert_yields h.buckets ha ok hv.1 hv.2
    · exact ⟨-1, old, t.state, D, L, hy, .inl ⟨rfl, hok, rfl⟩, h⟩
    · exact ⟨0, old, s', D', L', hy, .inr ⟨rfl, hold⟩, hB, hM, hle⟩
  | remove n =>
    obtain ⟨s', D', L', hy, hB, hle, hM⟩ :=
      h.maps.remove_yields h.buckets ok ((h.maps.mem_iff ha).2 hv) h.le
    refine ⟨0, none, s', D', L', ?_, trivial, hB, hM, hle⟩
    simp only [Call.exec, Option.map_eq_bind]
    exact hy.bind (.of_forall fun _ => rfl)
  | hint hint =>
    obtain ⟨r, s', L', hy, hB, hsame, hcount, hr⟩ :=
      h.buckets.capacityHint ok (Nat.le_of_lt (Nat.lt_trans hv (by omega)))
    refine ⟨r, none, s', D, L', ?_, ?_, hB, h.maps.congr fun n _ => hsame n, hcount ▸ h.le⟩
    · simp only [Call.exec, Option.map_eq_bind]
      exact hy.bind (.of_forall fun _ => rfl)
    · exact hr.imp (fun hr => ⟨hr.1, hr.2.2, hr.2.1⟩) And.left
  | find key =>
    refine ⟨0, some (t.map key), t.state, D, L, ?_, ⟨rfl, rfl⟩, h⟩
    simp only [Call.exec, Option.map_eq_bind]
    exact (h.maps.find h.buckets ha key).bind (.of_forall fun _ => rfl)

theorem Inv.step (h : Inv func compare t D L) (ha : Agree func compare)
    (hs : Step func compare t t') : ∃ D' L', Inv func compare t' D' L' := by
  cases hs with
  | fill n x hn =>
    have hother : ∀ m ∈ D, Function.update t.state.node n x m = t.state.node m := by
      intro m hm
      refine Function.update_of_ne ?_ _ _
      rintro rfl
      obtain ⟨k, hk⟩ := (h.maps.mem_iff ha).1 hm
      exact hn k hk
    refine ⟨D, L, h.buckets.setNode hother, h.maps.congr fun m hm => ?_, h.le⟩
    simp only [hother m hm, and_self]
  | call c ok r n s' hv hy =>
    obtain ⟨r₁, n₁, s₁, D', L', hy₁, -, h'⟩ := h.call ha hv ok
    obtain ⟨e, rfl⟩ := Prod.mk.inj (hy.unique hy₁)
    obtain ⟨rfl, -⟩ := Prod.mk.inj e
    exact ⟨D', L', h'⟩

theorem Run.inv (hrun : Run func compare node t) (ha : Agree func compare) :
    ∃ D L, Inv func compare t D L := by
  induction hrun with
  | refl =>
    refine ⟨∅, fun _ => [], buckets_init node, ⟨?_, ?_⟩, Nat.zero_le _⟩
    · simp
    · simp [Sys.init]
  | tail _ hs ih =>
    obtain ⟨D, L, h⟩ := ih
    exact h.step ha hs

/-! ## The table is the map -/

/-- The table contains the entries `D` of the map, each one once and in the bucket of its code, and
    it finds them. -/
structure Refines (func : K → ℕ) (compare : K → K → ℤ) (t : Sys P K) (D : Finset P)
    (L : ℕ → List P) : Prop where
  entries : ∀ n, n ∈ D ↔ ∃ k, t.map k = some n
  count : t.state.count = D.card
  find : ∀ k, Yields (fun fuel => hashFind func compare fuel t.state k) (t.map k)
  chain : ∀ i < t.state.size, Chain (nexts t.state.node) (t.state.table i) (L i)
  nodup : ∀ i < t.state.size, (L i).Nodup
  bucket : ∀ n ∈ D, (t.state.node n).code % t.state.size < t.state.size
  mem : ∀ i < t.state.size, ∀ n, n ∈ L i ↔ n ∈ D ∧ (t.state.node n).code % t.state.size = i
  code : ∀ n ∈ D, (t.state.node n).code = func (t.state.node n).key

/-- In every run, the table contains what it should, and every call that may be made returns what it
    should. An insertion that fails changes nothing. -/
theorem run_refines (ha : Agree func compare) (hrun : Run func compare node t) :
    (∃ D L, Refines func compare t D L) ∧ ∀ (c : Call P K) (ok : Bool), c.Valid func compare t →
      ∃ r n s', Yields (fun fuel => c.exec func compare ok fuel t.state) ((r, n), s') ∧
        c.Returns ok t r n s' := by
  obtain ⟨D, L, h⟩ := hrun.inv ha
  refine ⟨⟨D, L, fun n => h.maps.mem_iff ha, h.buckets.card, h.maps.find h.buckets ha,
    fun i _ => h.buckets.chain i, fun i _ => h.buckets.nodup i, fun n hn => ?_,
    fun i _ => h.buckets.mem i, h.maps.code⟩, fun c ok hv => ?_⟩
  · exact Nat.mod_lt _ (h.buckets.pos n hn)
  · obtain ⟨r, n, s', -, -, hy, hret, -⟩ := h.call ha hv ok
    exact ⟨r, n, s', hy, hret⟩

/-- A node is inserted under the key 5, and found. -/
theorem run_refines_insert :
    ∃ t : Sys ℕ ℕ, Run id (fun k k' => (k : ℤ) - k') (fun n => ⟨0, none, n⟩) t ∧
      Yields (fun fuel => hashFind id (fun k k' => (k : ℤ) - k') fuel t.state 5) (some 5) := by
  have ha : Agree (id : ℕ → ℕ) fun k k' => (k : ℤ) - k' := by
    constructor <;> grind
  have hinit : Run id (fun k k' => (k : ℤ) - k') (fun n : ℕ => ⟨0, none, n⟩) _ := .refl
  have h₀ := run_refines ha hinit
  have hv : (Call.insert 5 5 ⟨false, false⟩).Valid id (fun k k' => (k : ℤ) - k')
      (.init fun n : ℕ => ⟨0, none, n⟩) :=
    ⟨by decide, by simp [Sys.init], by simp, by simp, .inl rfl⟩
  obtain ⟨r, n, s', hy, hret⟩ := h₀.2 _ true hv
  obtain rfl : r = 0 := by
    rcases hret with ⟨-, h, -⟩ | ⟨h, -⟩
    · cases h
    · exact h
  have hrun := Relation.ReflTransGen.single (Step.call _ _ _ _ _ _ hv hy)
  obtain ⟨⟨D, L, h⟩, -⟩ := run_refines ha hrun
  exact ⟨_, hrun, h.find 5⟩

end Dlb.Hash
