import Mathlib.Data.Finset.Card
import Dlb.Chain
import Dlb.Hash.Size

/-!
# The buckets of a hash table

`Buckets` says that the entries of a table are in the list of the bucket of their code, once each. The
functions of `Dlb.Hash.Code` keep it; no key is looked at here.
-/

namespace Dlb.Hash

variable {P K : Type} [DecidableEq P] {s : State P K} {node : P → Node P K} {n : P}

/-! ## Nodes -/

/-- The links of the nodes. -/
def nexts (node : P → Node P K) (n : P) : Option P := (node n).next

/-- The nodes are the same except for their links. -/
def SameData (node node' : P → Node P K) : Prop :=
  ∀ n, (node' n).code = (node n).code ∧ (node' n).key = (node n).key

omit [DecidableEq P] in
theorem sameData_refl (node : P → Node P K) : SameData node node := fun _ => ⟨rfl, rfl⟩

omit [DecidableEq P] in
theorem SameData.trans {node' node'' : P → Node P K} (h : SameData node node')
    (h' : SameData node' node'') : SameData node node'' :=
  fun n => ⟨(h' n).1.trans (h n).1, (h' n).2.trans (h n).2⟩

theorem nexts_setNext (node : P → Node P K) (n : P) (v : Option P) :
    nexts (setNext node n v) = Function.update (nexts node) n v := by
  funext m
  simp only [nexts, setNext, Function.update_apply]
  split_ifs with h <;> rfl

theorem sameData_setNext (node : P → Node P K) (n : P) (v : Option P) :
    SameData node (setNext node n v) := by
  intro m
  simp only [setNext, Function.update_apply]
  split_ifs with h
  · rw [h]
    exact ⟨rfl, rfl⟩
  · exact ⟨rfl, rfl⟩

/-! ## Buckets -/

/-- The entries `D` of the table are in the lists `L` of their buckets. -/
structure Buckets (s : State P K) (D : Finset P) (L : ℕ → List P) : Prop where
  chain : ∀ i, Chain (nexts s.node) (s.table i) (L i)
  nodup : ∀ i, (L i).Nodup
  mem : ∀ i n, n ∈ L i ↔ n ∈ D ∧ (s.node n).code % s.size = i
  pos : ∀ n ∈ D, 0 < s.size
  card : s.count = D.card

omit [DecidableEq P] in
theorem buckets_init (node : P → Node P K) : Buckets (hashInit node) ∅ fun _ => [] := by
  constructor <;> simp [hashInit, Chain]

/-! ## Rehashing -/

/-- The nodes of `l` with a code that belongs to the bucket `i`. -/
def inBucket (node : P → Node P K) (size i : ℕ) (l : List P) : List P :=
  l.filter fun n => (node n).code % size = i

omit [DecidableEq P] in
theorem inBucket_congr {node' : P → Node P K} (h : SameData node node') (size i : ℕ) (l : List P) :
    inBucket node' size i l = inBucket node size i l :=
  List.filter_congr fun n _ => by rw [(h n).1]

/-- The nodes of `l` are put in front of the lists of the new table, one after the other. -/
theorem moveLoop_yields (newSize : ℕ) {l : List P} {p : Option P} {table : ℕ → Option P}
    {N : ℕ → List P} (hp : Chain (nexts node) p l) (hl : l.Nodup)
    (hN : ∀ i, Chain (nexts node) (table i) (N i)) (hd : ∀ i, ∀ n ∈ l, n ∉ N i) :
    ∃ table' node', Yields (fun fuel => moveLoop newSize fuel p table node) (table', node') ∧
      SameData node node' ∧ (∀ n ∉ l, nexts node' n = nexts node n) ∧
      ∀ i, Chain (nexts node') (table' i) ((inBucket node newSize i l).reverse ++ N i) := by
  induction l generalizing p table node N with
  | nil =>
    obtain rfl : p = none := hp
    refine ⟨table, node, .of_forall fun fuel => ?_, sameData_refl node, fun _ _ => rfl, hN⟩
    cases fuel <;> rfl
  | cons n l ih =>
    obtain ⟨rfl, hp⟩ := hp
    obtain ⟨hnl, hl⟩ := List.nodup_cons.1 hl
    obtain ⟨i₀, hi₀⟩ : ∃ i, (node n).code % newSize = i := ⟨_, rfl⟩
    have hsame := sameData_setNext node n (table i₀)
    have hnexts := nexts_setNext node n (table i₀)
    have hp' : Chain (nexts (setNext node n (table i₀))) (nexts node n) l := by
      rw [hnexts]
      exact hp.update_of_not_mem hnl
    have hN' : ∀ i, Chain (nexts (setNext node n (table i₀)))
        (Function.update table i₀ (some n) i) (Function.update N i₀ (n :: N i₀) i) := by
      intro i
      rw [hnexts]
      rcases eq_or_ne i i₀ with rfl | hi
      · rw [Function.update_self, Function.update_self]
        exact (hN i).push (hd i n (by simp))
      · rw [Function.update_of_ne hi, Function.update_of_ne hi]
        exact (hN i).update_of_not_mem (hd i n (by simp))
    obtain ⟨table', node', hy, hsame', hother, hchain⟩ := ih hp' hl hN' fun i m hm => by
          have hmn : m ≠ n := by
            rintro rfl
            exact hnl hm
          have := hd i m (by simp [hm])
          have := hd i₀ m (by simp [hm])
          rw [Function.update_apply]
          split_ifs <;> simp [*]
    refine ⟨table', node', hy.succ fun fuel => ?_, hsame.trans hsame', fun m hm => ?_, fun i => ?_⟩
    · rw [moveLoop, hi₀]
      rfl
    · rw [hother m fun h => hm (by simp [h]), hnexts, Function.update_of_ne]
      rintro rfl
      exact hm (by simp)
    · have := hchain i
      rw [inBucket_congr hsame] at this
      rcases eq_or_ne i i₀ with rfl | hi
      · simpa [inBucket, hi₀] using this
      · simpa [inBucket, hi₀, hi, hi.symm] using this

theorem moveAll_yields (newSize : ℕ) {is : List ℕ} {old table : ℕ → Option P} {L N : ℕ → List P}
    (hL : ∀ i ∈ is, Chain (nexts node) (old i) (L i)) (hl : ∀ i, (L i).Nodup) (his : is.Nodup)
    (hdL : ∀ i j, i ≠ j → ∀ n ∈ L i, n ∉ L j)
    (hN : ∀ i, Chain (nexts node) (table i) (N i)) (hd : ∀ i, ∀ j ∈ is, ∀ n ∈ L j, n ∉ N i) :
    ∃ table' node', Yields (fun fuel => moveAll newSize fuel old is table node) (table', node') ∧
      SameData node node' ∧
      ∀ i, Chain (nexts node') (table' i)
        ((inBucket node newSize i (is.flatMap L)).reverse ++ N i) := by
  induction is generalizing table node N with
  | nil => exact ⟨table, node, .of_forall fun fuel => rfl, sameData_refl node, hN⟩
  | cons j is ih =>
    obtain ⟨hj, his⟩ := List.nodup_cons.1 his
    obtain ⟨table₁, node₁, hy₁, hsame₁, hother, hchain₁⟩ :=
      moveLoop_yields newSize (hL j (by simp)) (hl j) hN fun i => hd i j (by simp)
    -- The other lists of the old table are the same.
    have hne : ∀ i ∈ is, i ≠ j := by
      rintro i hi rfl
      exact hj hi
    obtain ⟨table', node', hy, hsame, hchain⟩ := ih (fun i hi => (hL i (by simp [hi])).congr
      fun n hn => hother n (hdL i j (hne i hi) n hn)) his hchain₁ fun i k hk n hn => by
        have := hdL k j (hne k hk) n hn
        have := hd i k (by simp [hk]) n hn
        simp_all [inBucket]
    refine ⟨table', node', hy₁.bind hy, hsame₁.trans hsame, fun i => ?_⟩
    have := hchain i
    rw [inBucket_congr hsame₁] at this
    simpa [inBucket] using this

/-- The entries are in the buckets of a table of another size. -/
theorem Buckets.rehash {D : Finset P} {L : ℕ → List P} (h : Buckets s D L) {newSize : ℕ}
    (hpos : 0 < newSize) :
    ∃ table' node' L', Yields (fun fuel => moveAll newSize fuel s.table (List.range s.size)
        (fun _ => none) s.node) (table', node') ∧ SameData s.node node' ∧
      Buckets { s with size := newSize, table := table', node := node' } D L' := by
  have hdL : ∀ i j, i ≠ j → ∀ n ∈ L i, n ∉ L j := by
    intro i j hij n hi hj
    exact hij (((h.mem i n).1 hi).2.symm.trans ((h.mem j n).1 hj).2)
  obtain ⟨table', node', hy, hsame, hchain⟩ := moveAll_yields newSize (fun i _ => h.chain i) h.nodup
    List.nodup_range hdL (N := fun _ => []) (fun i => rfl) fun i j hj n hn => List.not_mem_nil
  have hnodup : ((List.range s.size).flatMap L).Nodup := by
    refine List.nodup_flatMap.2 ⟨fun i _ => h.nodup i, ?_⟩
    exact List.nodup_range.imp fun hij n hi hj => hdL _ _ hij n hi hj
  have hmem : ∀ n, n ∈ (List.range s.size).flatMap L ↔ n ∈ D := by
    intro n
    simp only [List.mem_flatMap, List.mem_range, h.mem]
    constructor
    · rintro ⟨i, -, hn, -⟩
      exact hn
    · intro hn
      exact ⟨_, Nat.mod_lt _ (h.pos n hn), hn, rfl⟩
  refine ⟨table', node', _, hy, hsame, hchain, fun i => ?_, fun i n => ?_, fun _ _ => hpos, h.card⟩
  · rw [List.append_nil, List.nodup_reverse]
    exact hnodup.filter _
  · rw [List.append_nil, List.mem_reverse, inBucket, List.mem_filter, hmem]
    simp [(hsame n).1]

/-! ## `hash_capacity_hint` -/

/-- The entries are the same ones after `hash_capacity_hint`, and nothing is changed if it fails. The
    size is a prime that is not less than the hint, unless this is less than the number of entries. -/
theorem Buckets.capacityHint {D : Finset P} {L : ℕ → List P} (h : Buckets s D L) (ok : Bool)
    {hint : ℕ} (hh : hint ≤ 2 ^ 31) :
    ∃ r s' L', Yields (fun fuel => hashCapacityHint ok fuel s hint) (r, s') ∧ Buckets s' D L' ∧
      SameData s.node s'.node ∧ s'.count = s.count ∧
      (r = -1 ∧ s' = s ∧ ok = false ∨ r = 0 ∧ (s.count ≤ hint → s'.size.Prime ∧ hint ≤ s'.size)) := by
  obtain ⟨n, hp, hle, hn⟩ := exists_newSize hh
  by_cases hlt : hint < s.count
  · refine ⟨0, s, L, .of_forall fun fuel => ?_, h, sameData_refl _, rfl, .inr ⟨rfl, fun hle => ?_⟩⟩
    · rw [hashCapacityHint, if_pos hlt]
      rfl
    · omega
  have hdef : ∀ fuel, hashCapacityHint ok fuel s hint =
      (sizeLoop hint fuel 32 >>= primeLoop fuel fuel) >>= fun newSize =>
        if s.size = newSize then some (0, s)
        else if !ok then some (-1, s)
        else (moveAll newSize fuel s.table (List.range s.size) (fun _ => none) s.node).map fun q =>
          (0, { s with size := newSize, table := q.1, node := q.2 }) := by
    intro fuel
    rw [hashCapacityHint, if_neg hlt, bind_assoc]
    refine bind_congr fun _ => bind_congr fun n => ?_
    split_ifs
    · rfl
    · rfl
    · rw [Option.map_eq_bind]
      rfl
  by_cases hsize : s.size = n
  · refine ⟨0, s, L, (hn.bind (.of_forall fun fuel => if_pos hsize)).congr hdef, h,
      sameData_refl _, rfl, .inr ⟨rfl, fun _ => hsize ▸ ⟨hp, hle⟩⟩⟩
  cases ok with
  | false =>
    refine ⟨-1, s, L, (hn.bind (.of_forall fun fuel => ?_)).congr hdef, h,
      sameData_refl _, rfl, .inl ⟨rfl, rfl, rfl⟩⟩
    rw [if_neg hsize]
    rfl
  | true =>
    obtain ⟨table', node', L', hy, hsame, h'⟩ := h.rehash hp.pos
    refine ⟨0, _, L', (hn.bind ?_).congr hdef, h', hsame, rfl, .inr ⟨rfl, fun _ => ⟨hp, hle⟩⟩⟩
    simp only [if_neg hsize, Option.map_eq_bind]
    exact hy.bind (.of_forall fun _ => rfl)

/-- For a larger hint the sizes are doubled for ever. -/
theorem le_of_hashCapacityHint {ok : Bool} {fuel hint : ℕ} {x : ℤ × State P K}
    (hc : s.count ≤ hint) (e : hashCapacityHint ok fuel s hint = some x) : hint ≤ 2 ^ 31 := by
  by_contra hlt
  rw [hashCapacityHint, if_neg (Nat.not_lt.2 hc)] at e
  obtain ⟨newSize, h, -⟩ := Option.bind_eq_some_iff.1 e
  have hnone := sizeLoop_eq_none (n := 32) (Nat.not_le.1 hlt) fuel (.inr ⟨5, by omega, rfl⟩)
  rw [hnone] at h
  cases h

/-- `hash_capacity_hint` returns, with a prime that is not less than the hint as the size if it succeeds,
    if and only if the hint is at most 2^31. -/
theorem hashCapacityHint_prime_iff {D : Finset P} {L : ℕ → List P} (h : Buckets s D L) (ok : Bool)
    {hint : ℕ} (hc : s.count ≤ hint) :
    (∃ r s', Yields (fun fuel => hashCapacityHint ok fuel s hint) (r, s') ∧
      (r = 0 → s'.size.Prime ∧ hint ≤ s'.size)) ↔ hint ≤ 2 ^ 31 := by
  constructor
  · rintro ⟨r, s', ⟨N, hN⟩, -⟩
    exact le_of_hashCapacityHint hc (hN N le_rfl)
  · intro hle
    obtain ⟨r, s', L', hy, -, -, -, hr⟩ := h.capacityHint ok hle
    refine ⟨r, s', hy, fun h₀ => ?_⟩
    rcases hr with ⟨h₁, -⟩ | ⟨-, hp⟩
    · omega
    · exact hp hc

/-- A new table for 100 entries. -/
theorem hashCapacityHint_prime_iff_new : ∃ r s', Yields (fun fuel => hashCapacityHint true fuel
    (hashInit fun _ : Unit => ⟨0, none, ()⟩) 100) (r, s') ∧ (r = 0 → s'.size.Prime ∧ 100 ≤ s'.size) :=
  (hashCapacityHint_prime_iff (buckets_init _) true (Nat.zero_le 100)).2 (by omega)

/-- For more than 2^31 entries the doubling does not end. -/
theorem hashCapacityHint_hangs : ¬∃ x, Yields (fun fuel => hashCapacityHint true fuel
    (hashInit fun _ : Unit => ⟨0, none, ()⟩) (2 ^ 31 + 1)) x := by
  rintro ⟨x, N, hN⟩
  have hle := le_of_hashCapacityHint (Nat.zero_le _) (hN N le_rfl)
  omega

end Dlb.Hash
