import Dlb.Hash.Table

/-!
# The keys of a hash table

The entries of a table are a map from keys to nodes. `Maps` says so; each function finds, adds or
removes what it should.
-/

namespace Dlb.Hash

variable {P K : Type} {func : K → ℕ} {compare : K → K → ℤ} {s : State P K}
  {node node' : P → Node P K} {D : Finset P} {L : ℕ → List P} {M : K → Option P} {n ins : P} {key : K}
  {l : List P} {p : Option P}

/-- The hash function and the comparison agree: keys are compared by an equivalence relation, and equal
    keys have the same code. -/
structure Agree (func : K → ℕ) (compare : K → K → ℤ) : Prop where
  refl : ∀ k, compare k k = 0
  symm : ∀ k k', compare k k' = 0 → compare k' k = 0
  trans : ∀ k k' k'', compare k k' = 0 → compare k' k'' = 0 → compare k k'' = 0
  func_eq : ∀ k k', compare k k' = 0 → func k = func k'

/-- The entries `D` are the map `M`. -/
structure Maps (func : K → ℕ) (compare : K → K → ℤ) (node : P → Node P K) (D : Finset P)
    (M : K → Option P) : Prop where
  code : ∀ n ∈ D, (node n).code = func (node n).key
  map : ∀ k n, M k = some n ↔ n ∈ D ∧ compare k (node n).key = 0

theorem Maps.congr (h : Maps func compare node D M)
    (hn : ∀ n ∈ D, (node' n).code = (node n).code ∧ (node' n).key = (node n).key) :
    Maps func compare node' D M := by
  refine ⟨fun n hD => ?_, fun k n => ?_⟩
  · rw [(hn n hD).1, (hn n hD).2]
    exact h.code n hD
  · rw [h.map]
    constructor
    · rintro ⟨hD, e⟩
      exact ⟨hD, by rwa [(hn n hD).2]⟩
    · rintro ⟨hD, e⟩
      exact ⟨hD, by rwa [(hn n hD).2] at e⟩

/-- The entries are the nodes of the map. -/
theorem Maps.mem_iff (h : Maps func compare node D M) (ha : Agree func compare) :
    n ∈ D ↔ ∃ k, M k = some n := by
  constructor
  · intro hn
    exact ⟨_, (h.map (node n).key n).2 ⟨hn, ha.refl _⟩⟩
  · rintro ⟨k, hk⟩
    exact ((h.map k n).1 hk).1

/-- An entry is in the bucket of every key that is equal to its own. -/
theorem Maps.mem_bucket (h : Maps func compare s.node D M) (hB : Buckets s D L)
    (ha : Agree func compare) (hk : M key = some n) : n ∈ L (func key % s.size) := by
  obtain ⟨hn, e⟩ := (h.map key n).1 hk
  rw [hB.mem, h.code n hn, ha.func_eq _ _ e]
  exact ⟨hn, rfl⟩

/-! ## `hash_find` -/

theorem findLoop_yields (h : Chain (nexts node) p l) :
    Yields (fun fuel => findLoop compare node key fuel p)
      (l.find? fun n => compare key (node n).key = 0) := by
  induction l generalizing p with
  | nil =>
    obtain rfl : p = none := h
    refine .of_forall fun fuel => ?_
    cases fuel <;> rfl
  | cons n l ih =>
    obtain ⟨rfl, h⟩ := h
    by_cases hn : compare key (node n).key = 0
    · rw [List.find?_cons_of_pos (by simpa using hn)]
      refine Yields.succ (.of_forall fun _ => rfl) fun fuel => ?_
      simp [findLoop, hn]
    · rw [List.find?_cons_of_neg (by simpa using hn)]
      refine (ih h).succ fun fuel => ?_
      simp [findLoop, hn, nexts]

theorem Maps.find (h : Maps func compare s.node D M) (hB : Buckets s D L)
    (ha : Agree func compare) (key : K) :
    Yields (fun fuel => hashFind func compare fuel s key) (M key) := by
  by_cases hs : s.size = 0
  · have hnone : M key = none := by
      refine Option.eq_none_iff_forall_ne_some.2 fun n hn => ?_
      have := hB.pos n ((h.map key n).1 hn).1
      omega
    rw [hnone]
    exact .of_forall fun fuel => if_neg (not_not.2 hs)
  · have hfind : M key = (L (func key % s.size)).find? fun n => compare key (s.node n).key = 0 := by
      symm
      cases hM : M key with
      | none =>
        refine List.find?_eq_none.2 fun n hn => ?_
        have := h.map key n
        simp_all [hB.mem]
      | some n =>
        have hn := h.mem_bucket hB ha hM
        cases hl : (L (func key % s.size)).find? fun n => compare key (s.node n).key = 0 with
        | none =>
          have := List.find?_eq_none.1 hl n hn
          simp_all [h.map]
        | some m =>
          have hm := List.find?_some hl
          have hmem := ((hB.mem _ m).1 (List.mem_of_find?_eq_some hl)).1
          rw [← hM]
          exact ((h.map key m).2 ⟨hmem, by simpa using hm⟩).symm
    rw [hfind]
    refine (findLoop_yields (hB.chain _)).congr fun fuel => ?_
    rw [hashFind, if_pos hs]

variable [DecidableEq P]

/-! ## `hash_insert` -/

/-- The nodes of `l` without the key are put in front of the list `a`, which starts with `ins`. -/
theorem insertLoop_yields (compare : K → K → ℤ) (key : K) (old : Option P) {a : List P}
    (hp : Chain (nexts node) p l) (hl : l.Nodup) (ha : Chain (nexts node) (some ins) a)
    (hd : ∀ n ∈ l, n ∉ a) :
    ∃ ins' old' node', Yields (fun fuel => insertLoop compare key fuel p ins old node)
        (ins', old', node') ∧ SameData node node' ∧ (∀ n ∉ l, nexts node' n = nexts node n) ∧
      Chain (nexts node') (some ins')
        ((l.filter fun n => compare key (node n).key ≠ 0).reverse ++ a) ∧
      (old' = old ∧ (∀ n ∈ l, compare key (node n).key ≠ 0) ∨
        ∃ n ∈ l, old' = some n ∧ compare key (node n).key = 0) := by
  induction l generalizing p ins old node a with
  | nil =>
    obtain rfl : p = none := hp
    refine ⟨ins, old, node, .of_forall fun fuel => ?_, sameData_refl node, fun _ _ => rfl, ha, .inl ?_⟩
    · cases fuel <;> rfl
    · simp
  | cons n l ih =>
    obtain ⟨rfl, hp⟩ := hp
    obtain ⟨hnl, hl⟩ := List.nodup_cons.1 hl
    by_cases hn : compare key (node n).key = 0
    · obtain ⟨ins', old', node', hy, hsame, hother, hchain, hold⟩ :=
        ih (some n) hp hl ha fun m hm => hd m (by simp [hm])
      refine ⟨ins', old', node', hy.succ fun fuel => ?_, hsame, fun m hm => ?_, ?_, .inr ?_⟩
      · simp [insertLoop, hn, nexts]
      · exact hother m fun h => hm (by simp [h])
      · simpa [hn] using hchain
      · rcases hold with ⟨rfl, -⟩ | ⟨m, hm, e⟩
        · exact ⟨n, by simp, rfl, hn⟩
        · exact ⟨m, by simp [hm], e⟩
    · have hsame₁ := sameData_setNext node n (some ins)
      have hnexts := nexts_setNext node n (some ins)
      have hp' : Chain (nexts (setNext node n (some ins))) (nexts node n) l := by
        rw [hnexts]
        exact hp.update_of_not_mem hnl
      have ha' : Chain (nexts (setNext node n (some ins))) (some n) (n :: a) := by
        rw [hnexts]
        exact ha.push (hd n (by simp))
      obtain ⟨ins', old', node', hy, hsame, hother, hchain, hold⟩ := ih old hp' hl ha' fun m hm => by
        have := hd m (by simp [hm])
        grind
      simp only [(hsame₁ _).2] at hchain hold
      refine ⟨ins', old', node', hy.succ fun fuel => ?_, hsame₁.trans hsame, fun m hm => ?_, ?_, ?_⟩
      · simp [insertLoop, hn, nexts]
      · rw [hother m fun h => hm (by simp [h]), hnexts, Function.update_of_ne]
        rintro rfl
        exact hm (by simp)
      · simpa [hn] using hchain
      · rcases hold with ⟨rfl, hall⟩ | ⟨m, hm, e⟩
        · exact .inl ⟨rfl, by simpa [hn] using hall⟩
        · exact .inr ⟨m, by simp [hm], e⟩

omit [DecidableEq P] in
/-- A node that is not an entry is changed. -/
theorem Buckets.setNode (h : Buckets s D L) (hn : ∀ n ∈ D, node' n = s.node n) :
    Buckets { s with node := node' } D L := by
  refine ⟨fun i => (h.chain i).congr fun n hi => ?_, h.nodup, fun i n => ?_, h.pos, h.card⟩
  · simp only [nexts, hn n ((h.mem i n).1 hi).1]
  · rw [h.mem]
    exact and_congr_right fun hD => by simp only [hn n hD]

/-- The entries when `ins` is added, and those with an equal key are removed. -/
def inserted (compare : K → K → ℤ) (node : P → Node P K) (D : Finset P) (ins : P) : Finset P :=
  insert ins (D.filter fun n => compare (node ins).key (node n).key ≠ 0)

theorem mem_inserted :
    n ∈ inserted compare node D ins ↔ n = ins ∨ n ∈ D ∧ compare (node ins).key (node n).key ≠ 0 := by
  simp [inserted]

/-- The map when `ins` is added. -/
def insertMap (compare : K → K → ℤ) (M : K → Option P) (key : K) (ins : P) (k : K) : Option P :=
  if compare k key = 0 then some ins else M k

theorem Maps.insert (h : Maps func compare node D M) (ha : Agree func compare)
    (hc : (node ins).code = func (node ins).key) :
    Maps func compare node (inserted compare node D ins) (insertMap compare M (node ins).key ins) := by
  refine ⟨fun n hn => ?_, fun k n => ?_⟩
  · rcases mem_inserted.1 hn with rfl | ⟨hn, -⟩
    · exact hc
    · exact h.code n hn
  · rw [insertMap, mem_inserted]
    split_ifs with hk
    · constructor
      · intro e
        obtain rfl := Option.some.inj e
        exact ⟨.inl rfl, hk⟩
      · rintro ⟨rfl | ⟨-, hne⟩, hkn⟩
        · rfl
        · exact absurd (ha.trans _ _ _ (ha.symm _ _ hk) hkn) hne
    · rw [h.map]
      constructor
      · rintro ⟨hn, hkn⟩
        exact ⟨.inr ⟨hn, fun e => hk (ha.trans _ _ _ hkn (ha.symm _ _ e))⟩, hkn⟩
      · rintro ⟨rfl | ⟨hn, -⟩, hkn⟩
        · exact absurd hkn hk
        · exact ⟨hn, hkn⟩

/-- An entry that is removed by an insertion is the one that the map has for the key. -/
theorem Maps.card_inserted (h : Maps func compare node D M) (hins : ins ∉ D) :
    (inserted compare node D ins).card =
      if (M (node ins).key).isNone then D.card + 1 else D.card := by
  rw [inserted, Finset.card_insert_of_notMem fun hn => hins (Finset.mem_filter.1 hn).1]
  cases hM : M (node ins).key with
  | none =>
    rw [Finset.filter_true_of_mem]
    · rfl
    · intro n hn e
      rw [(h.map _ n).2 ⟨hn, e⟩] at hM
      cases hM
  | some o =>
    have hfilter : (D.filter fun n => compare (node ins).key (node n).key ≠ 0) = D.erase o := by
      ext n
      rw [Finset.mem_filter, Finset.mem_erase, and_comm]
      refine and_congr_left fun hn => not_congr ⟨fun e => ?_, fun e => ?_⟩
      · have := (h.map _ n).2 ⟨hn, e⟩
        exact Option.some.inj (this.symm.trans hM)
      · rw [e]
        exact ((h.map _ o).1 hM).2
    have ho := ((h.map _ o).1 hM).1
    rw [hfilter, Finset.card_erase_of_mem ho]
    have := Finset.card_pos.2 ⟨o, ho⟩
    simp only [Option.isNone_some, Bool.false_eq_true, if_false]
    omega

/-- The node is put in front of its bucket; no entry has its key. -/
theorem Buckets.push (h : Buckets s D L) (hM : Maps func compare s.node D M) (hs : 0 < s.size)
    (hins : ins ∉ D) (hnone : M (s.node ins).key = none) (hc : s.count < 2 ^ 30) {i : ℕ}
    (hi : (s.node ins).code % s.size = i) :
    Buckets { s with
      table := Function.update s.table i (some ins)
      node := setNext s.node ins (s.table i)
      count := (s.count + 1) % 2 ^ 32 } (inserted compare s.node D ins)
      (Function.update L i (ins :: L i)) := by
  have hmem : ∀ n, n ∈ inserted compare s.node D ins ↔ n = ins ∨ n ∈ D := by
    intro n
    rw [mem_inserted]
    refine or_congr_right ⟨And.left, fun hn => ⟨hn, fun e => ?_⟩⟩
    rw [(hM.map _ n).2 ⟨hn, e⟩] at hnone
    cases hnone
  have hL : ∀ j, ins ∉ L j := fun j hj => hins ((h.mem j ins).1 hj).1
  refine ⟨fun j => ?_, fun j => ?_, fun j n => ?_, fun _ _ => hs, ?_⟩
  · rw [nexts_setNext]
    rcases eq_or_ne j i with rfl | hj
    · simpa using (h.chain j).push (hL j)
    · simpa [hj] using (h.chain j).update_of_not_mem (hL j)
  · rcases eq_or_ne j i with rfl | hj
    · simpa using ⟨hL j, h.nodup j⟩
    · simpa [hj] using h.nodup j
  · rw [hmem, (sameData_setNext s.node ins (s.table i) n).1, Function.update_apply]
    have := h.mem j n
    split_ifs with hj
    · subst hj
      have := h.mem j n
      grind
    · grind
  · rw [hM.card_inserted hins, hnone, ← h.card]
    exact Nat.mod_eq_of_lt (by omega)

/-- The node replaces the entry with its key, if there is one, which is reported. -/
theorem Buckets.replace (h : Buckets s D L) (hM : Maps func compare s.node D M)
    (ha : Agree func compare) (hs : 0 < s.size) (hins : ins ∉ D) (hc : s.count < 2 ^ 30)
    (hkey : compare key (s.node ins).key = 0) (hcode : (s.node ins).code = func (s.node ins).key)
    (hnext : (s.node ins).next = none) {i : ℕ} (hi : (s.node ins).code % s.size = i) :
    ∃ ins' node' L', Yields (fun fuel => insertLoop compare key fuel (s.table i) ins none s.node)
        (ins', M key, node') ∧ SameData s.node node' ∧
      Buckets { s with
        table := Function.update s.table i (some ins')
        node := node'
        count := if (M key).isNone then (s.count + 1) % 2 ^ 32 else s.count }
        (inserted compare s.node D ins) L' := by
  have hL : ∀ j, ins ∉ L j := fun j hj => hins ((h.mem j ins).1 hj).1
  have hiff : ∀ n, compare key (s.node n).key = 0 ↔ compare (s.node ins).key (s.node n).key = 0 :=
    fun n => ⟨fun e => ha.trans _ _ _ (ha.symm _ _ hkey) e, fun e => ha.trans _ _ _ hkey e⟩
  have hMkey : M key = M (s.node ins).key := by
    refine Option.ext fun n => ?_
    rw [hM.map, hM.map, hiff]
  have hbucket : func key % s.size = i := by
    rw [← hi, hcode, ha.func_eq _ _ hkey]
  obtain ⟨ins', old, node', hy, hsame, hother, hchain, hold⟩ :=
    insertLoop_yields compare key none (a := [ins]) (h.chain i)
      (h.nodup i) ⟨rfl, hnext⟩ fun n hn e => hL i (List.mem_singleton.1 e ▸ hn)
  have hreport : old = M key := by
    rcases hold with ⟨rfl, hall⟩ | ⟨n, hn, rfl, e⟩
    · symm
      refine Option.eq_none_iff_forall_ne_some.2 fun n hn => ?_
      exact hall n (hbucket ▸ hM.mem_bucket h ha hn) ((hM.map key n).1 hn).2
    · exact ((hM.map key n).2 ⟨((h.mem i n).1 hn).1, e⟩).symm
  rw [hreport] at hy
  refine ⟨ins', node', Function.update L i
    (((L i).filter fun n => compare key (s.node n).key ≠ 0).reverse ++ [ins]), hy, hsame,
    fun j => ?_, fun j => ?_, fun j n => ?_, fun _ _ => hs, ?_⟩
  · rcases eq_or_ne j i with rfl | hj
    · simpa using hchain
    · simp only [Function.update_of_ne hj]
      refine (h.chain j).congr fun n hn => hother n fun hn' => hj ?_
      exact ((h.mem j n).1 hn).2.symm.trans ((h.mem i n).1 hn').2
  · rcases eq_or_ne j i with rfl | hj
    · rw [Function.update_self]
      refine List.Nodup.append (List.nodup_reverse.2 ((h.nodup j).filter _))
        (List.nodup_singleton _) fun n hn hn' => hL j ?_
      obtain rfl := List.mem_singleton.1 hn'
      exact (List.mem_filter.1 (List.mem_reverse.1 hn)).1
    · rw [Function.update_of_ne hj]
      exact h.nodup j
  · simp only [mem_inserted, (hsame n).1, Function.update_apply]
    -- Entries with the key are in the same bucket.
    have hsame_bucket : n ∈ D → compare key (s.node n).key = 0 → (s.node n).code % s.size = i := by
      intro hn e
      rw [hM.code n hn, ← ha.func_eq _ _ e, hbucket]
    have := h.mem j n
    split_ifs with hj
    · subst hj
      simp only [List.mem_append, List.mem_reverse, List.mem_filter, List.mem_singleton]
      grind
    · grind
  · simp only [hM.card_inserted hins, hMkey, ← h.card]
    rw [Nat.mod_eq_of_lt (by omega)]

/-- The table is large enough for one more entry, or `malloc` fails. -/
theorem Buckets.grow (h : Buckets s D L) (ok : Bool) (hc : s.count < 2 ^ 30) :
    ∃ r s' L', Yields (fun fuel => growTable ok fuel s) (r, s') ∧ Buckets s' D L' ∧
      SameData s.node s'.node ∧ s'.count = s.count ∧
      (r = -1 ∧ s' = s ∧ ok = false ∨ r = 0 ∧ 0 < s'.size) := by
  simp only [growTable]
  by_cases hge : s.count ≥ s.size
  · simp only [if_pos hge]
    rw [Nat.mod_eq_of_lt (show s.count + 1 < 2 ^ 32 by omega)]
    obtain ⟨r, s', L', hy, hB, hsame, hcount, hr⟩ :=
      h.capacityHint ok (show s.count + 1 ≤ 2 ^ 31 by omega)
    refine ⟨r, s', L', hy, hB, hsame, hcount, hr.imp_right fun hr => ⟨hr.1, (hr.2 (by omega)).1.pos⟩⟩
  · simp only [if_neg hge]
    exact ⟨0, s, L, .of_forall fun _ => rfl, h, sameData_refl _, rfl, .inr ⟨rfl, by omega⟩⟩

theorem prepared_of_ne (hn : n ≠ ins) (flags : Flags) :
    prepared func node key ins flags n = node n := by
  simp only [prepared, setNext]
  split_ifs <;> simp [hn]

theorem prepared_self (func : K → ℕ) (node : P → Node P K) (key : K) (ins : P) (flags : Flags) :
    prepared func node key ins flags ins =
    ⟨if flags.prehashed then (node ins).code else func key, none, (node ins).key⟩ := by
  simp only [prepared, setNext]
  split_ifs <;> simp

/-- What `hash_insert` is given. -/
structure Insertable (func : K → ℕ) (compare : K → K → ℤ) (node : P → Node P K) (M : K → Option P)
    (key : K) (ins : P) (flags : Flags) : Prop where
  absent : ∀ k, M k ≠ some ins
  prehashed : flags.prehashed = true → (node ins).code = func (node ins).key
  unique : flags.unique = true → M (node ins).key = none
  key : compare key (node ins).key = 0 ∨ flags.prehashed = true ∧ flags.unique = true

theorem Maps.insert_yields (hM : Maps func compare s.node D M) (h : Buckets s D L)
    (ha : Agree func compare) (ok : Bool) {flags : Flags} (hc : s.count < 2 ^ 30)
    (hi : Insertable func compare s.node M key ins flags) :
    ∃ r old s', Yields (fun fuel => hashInsert func compare ok fuel s key ins flags)
        ((r, old), s') ∧
      (r = -1 ∧ ok = false ∧ s' = s ∨
        r = 0 ∧ old = (if flags.unique then none else some (M key)) ∧ ∃ D' L',
          Buckets s' D' L' ∧ s'.count ≤ 2 ^ 30 ∧
          Maps func compare s'.node D' (insertMap compare M (s.node ins).key ins)) := by
  obtain ⟨r, s₁, L₁, hy, hB, hsame, hcount, hr⟩ := h.grow ok hc
  rcases hr with ⟨rfl, rfl, hok⟩ | ⟨rfl, hs⟩
  · exact ⟨-1, none, s₁, hy.bind (.of_forall fun _ => rfl), .inl ⟨rfl, hok, rfl⟩⟩
  have hins : ins ∉ D := fun hn => by
    obtain ⟨k, hk⟩ := (hM.mem_iff ha).1 hn
    exact hi.absent k hk
  -- The node is prepared; nothing is changed in the table.
  obtain ⟨node, hnode⟩ : ∃ node, prepared func s₁.node key ins flags = node := ⟨_, rfl⟩
  have hother : ∀ n ∈ D, node n = s₁.node n := by
    intro n hn
    rw [← hnode]
    refine prepared_of_ne ?_ flags
    rintro rfl
    exact hins hn
  have hself := prepared_self func s₁.node key ins flags
  rw [hnode, (hsame ins).1, (hsame ins).2] at hself
  have hcode : (node ins).code = func (node ins).key := by
    rw [hself]
    dsimp only
    split_ifs with hpre
    · exact hi.prehashed hpre
    · exact ha.func_eq _ _ (hi.key.resolve_right fun h => hpre h.1)
  have hkey : (node ins).key = (s.node ins).key := by rw [hself]
  have hB' := hB.setNode hother
  have hM' : Maps func compare node D M := hM.congr fun n hn => by
    rw [hother n hn]
    exact hsame n
  have hins' := hM'.insert ha hcode
  rw [hkey] at hins'
  by_cases hu : flags.unique = true
  · have hnone : M (node ins).key = none := by
      rw [hkey]
      exact hi.unique hu
    have hpush := hB'.push hM' hs hins hnone (by simpa [hcount] using hc) rfl
    refine ⟨0, none, _, hy.bind (.of_forall fun fuel => ?_), .inr ⟨rfl, ?_, _, _, hpush, ?_,
      hins'.congr fun n _ => sameData_setNext _ _ _ n⟩⟩
    · change insertNode func compare fuel s₁ key ins flags = _
      rw [insertNode, if_pos hu, hnode]
      rfl
    · rw [if_pos hu]
    · simp only [hcount]
      omega
  · have hkey' : compare key (node ins).key = 0 := by
      rw [hkey]
      exact hi.key.resolve_right fun h => hu h.2
    obtain ⟨ins', node', L', hy', hsame', hrep⟩ := hB'.replace hM' ha hs hins
      (by simpa [hcount] using hc) hkey' hcode (by simp [hself]) rfl
    refine ⟨0, some (M key), _, hy.bind ?_, .inr ⟨rfl, ?_, _, _, hrep, ?_,
      hins'.congr fun n _ => hsame' n⟩⟩
    · change Yields (fun fuel => insertNode func compare fuel s₁ key ins flags) _
      simp only [insertNode, if_neg hu, hnode]
      exact hy'.bind (.of_forall fun _ => rfl)
    · rw [if_neg hu]
    · simp only [hcount]
      split_ifs <;> omega

/-! ## `hash_remove` -/

theorem beforeLoop_yields {b : P} {l₁ l₂ : List P} (h : Chain (nexts node) p (l₁ ++ b :: n :: l₂))
    (hd : (l₁ ++ b :: n :: l₂).Nodup) : Yields (fun fuel => beforeLoop node n fuel p) (some b) := by
  induction l₁ generalizing p with
  | nil =>
    obtain ⟨rfl, hn, -⟩ := h
    refine Yields.succ (.of_forall fun _ => rfl) fun fuel => ?_
    rw [nexts] at hn
    rw [beforeLoop, if_pos hn]
  | cons x l₁ ih =>
    obtain ⟨rfl, h⟩ := h
    refine (ih h (List.nodup_cons.1 hd).2).succ fun fuel => ?_
    rw [beforeLoop, if_neg, nexts]
    -- The node after `x` is not `n`.
    intro hn
    cases l₁ with
    | nil =>
      obtain rfl : n = b := Option.some.inj (hn.symm.trans h.1)
      simp at hd
    | cons y l₁ =>
      obtain rfl : n = y := Option.some.inj (hn.symm.trans h.1)
      simp at hd

/-- The node is taken out of its bucket. -/
theorem Buckets.unlink (h : Buckets s D L) (hn : n ∈ D) (hc : s.count ≤ 2 ^ 30) :
    ∃ s' L', Yields (fun fuel => unlinkNode fuel s n) s' ∧ Buckets s' (D.erase n) L' ∧
      SameData s.node s'.node ∧ s'.count ≤ 2 ^ 30 := by
  obtain ⟨i, hi⟩ : ∃ i, (s.node n).code % s.size = i := ⟨_, rfl⟩
  have hcard := Finset.card_pos.2 ⟨n, hn⟩
  have hcount : (s.count + (2 ^ 32 - 1)) % 2 ^ 32 = (D.erase n).card := by
    rw [Finset.card_erase_of_mem hn, ← h.card]
    rw [← h.card] at hcard
    omega
  -- It is enough that the list of the bucket is the one without the node.
  have hstep : ∀ table' node', SameData s.node node' →
      (∀ j, j ≠ i → table' j = s.table j ∧ ∀ m ∈ L j, nexts node' m = nexts s.node m) →
      Chain (nexts node') (table' i) ((L i).erase n) →
      Buckets { s with
        table := table', node := node', count := (s.count + (2 ^ 32 - 1)) % 2 ^ 32 } (D.erase n)
        (Function.update L i ((L i).erase n)) := by
    intro table' node' hsame hother hchain
    refine ⟨fun j => ?_, fun j => ?_, fun j m => ?_, fun _ _ => h.pos n hn, hcount⟩
    · rcases eq_or_ne j i with rfl | hj
      · simpa using hchain
      · simp only [Function.update_of_ne hj, (hother j hj).1]
        exact (h.chain j).congr (hother j hj).2
    · rcases eq_or_ne j i with rfl | hj
      · simpa using (h.nodup j).erase n
      · simpa [hj] using h.nodup j
    · simp only [Finset.mem_erase, (hsame m).1, Function.update_apply]
      have := h.mem j m
      split_ifs with hj
      · rw [(h.nodup i).mem_erase_iff]
        grind
      · grind
  have hmem : n ∈ L i := (h.mem i n).2 ⟨hn, hi⟩
  have hle : (s.count + (2 ^ 32 - 1)) % 2 ^ 32 ≤ 2 ^ 30 := by
    rw [hcount, Finset.card_erase_of_mem hn, ← h.card]
    omega
  by_cases hhead : s.table i = some n
  · have hchain := h.chain i
    rw [hhead] at hchain
    obtain ⟨l, hl, hchain⟩ := chain_some.1 hchain
    refine ⟨_, _, .of_forall fun fuel => ?_, hstep (Function.update s.table i (s.node n).next) s.node
      (sameData_refl _) (fun j hj => ⟨Function.update_of_ne hj _ _, fun _ _ => rfl⟩) ?_,
      sameData_refl _, hle⟩
    · rw [unlinkNode, hi]
      exact if_pos hhead
    · rw [hl, List.erase_cons_head, Function.update_self]
      exact hchain
  · obtain ⟨l₁, l₂, hl⟩ := List.append_of_mem hmem
    have hne : l₁ ≠ [] := by
      rintro rfl
      have := h.chain i
      rw [hl] at this
      exact hhead this.1
    obtain ⟨l₁, b, rfl⟩ : ∃ l b, l₁ = l ++ [b] := ⟨_, _, (List.dropLast_append_getLast hne).symm⟩
    rw [List.append_assoc, List.singleton_append] at hl
    have hchain := h.chain i
    have hd := h.nodup i
    rw [hl] at hchain hd
    have hb : b ∈ L i := by simp [hl]
    refine ⟨_, _, ?_, hstep s.table (setNext s.node b (s.node n).next) (sameData_setNext _ _ _)
      (fun j hj => ⟨rfl, fun m hm => ?_⟩) ?_, sameData_setNext _ _ _, hle⟩
    · simp only [unlinkNode, hi, if_neg hhead, Option.map_eq_bind]
      exact (beforeLoop_yields hchain hd).bind (.of_forall fun _ => rfl)
    · rw [nexts_setNext, Function.update_of_ne]
      rintro rfl
      exact hj (((h.mem j m).1 hm).2.symm.trans ((h.mem i m).1 hb).2)
    · have herase : (l₁ ++ b :: n :: l₂).erase n = l₁ ++ b :: l₂ := by
        obtain ⟨-, hd', hdisj⟩ := List.nodup_append.1 hd
        have h₁ : n ∉ l₁ := fun h₁ => hdisj n h₁ n (by simp) rfl
        have h₂ : b ≠ n := fun e => (List.nodup_cons.1 hd').1 (by simp [e])
        rw [List.erase_append_right _ h₁, List.erase_cons_tail (by simpa using h₂),
          List.erase_cons_head]
      rw [nexts_setNext, hl, herase]
      exact hchain.unlink hd

/-- The map when `n` is removed. -/
def removeMap (M : K → Option P) (n : P) (k : K) : Option P := if M k = some n then none else M k

theorem Maps.remove (h : Maps func compare node D M) :
    Maps func compare node (D.erase n) (removeMap M n) := by
  refine ⟨fun m hm => h.code m (Finset.mem_of_mem_erase hm), fun k m => ?_⟩
  have := h.map k m
  rw [removeMap, Finset.mem_erase]
  grind

theorem Maps.remove_yields (hM : Maps func compare s.node D M) (h : Buckets s D L) (ok : Bool)
    (hn : n ∈ D) (hc : s.count ≤ 2 ^ 30) :
    ∃ s' D' L', Yields (fun fuel => hashRemove ok fuel s n) s' ∧ Buckets s' D' L' ∧
      s'.count ≤ 2 ^ 30 ∧ Maps func compare s'.node D' (removeMap M n) := by
  obtain ⟨s₁, L₁, hy, hB, hsame, hc₁⟩ := h.unlink hn hc
  have hM' : Maps func compare s₁.node (D.erase n) (removeMap M n) :=
    hM.remove.congr fun m _ => hsame m
  by_cases hlt : s₁.count * 4 % 2 ^ 32 < s₁.size
  · obtain ⟨r, s', L', hy', hB', hsame', hcount, -⟩ :=
      hB.capacityHint ok (show s₁.count ≤ 2 ^ 31 by omega)
    refine ⟨s', _, L', hy.bind ?_, hB', hcount ▸ hc₁, hM'.congr fun m _ => hsame' m⟩
    simp only [if_pos hlt]
    exact hy'.bind (.of_forall fun _ => rfl)
  · refine ⟨s₁, _, L₁, hy.bind ?_, hB, hc₁, hM'⟩
    simp only [if_neg hlt]
    exact .of_forall fun _ => rfl

end Dlb.Hash
