import Dlb.Chunks
import Dlb.Vector.Capacity

/-!
# The elements of a vector

`Lists` says what calls make of a list of elements. As long as the vector needs less than 2^31 bytes, its
elements are such a list, whatever requests for memory are refused: a call that returns -1 changes nothing,
and a smaller block is not needed to remove elements.
-/

namespace Dlb.Vector

open Strbuf (realloc)

variable {v v' v₁ : Vector} {a : Answer} {c : Call} {r : ℤ} {data ptr : List UInt8} {e k n count : ℕ}
  {l l' xs : List (List UInt8)} {cs : List (Call × ℤ)}

/-! ## Lists of elements -/

/-- The elements, each with the bytes that `VECTOR_AT` reads. -/
def elements (v : Vector) : List (List UInt8) := (List.range v.size).map v.vectorAt

/-- What a call that succeeds makes of a list of elements of the size `e`. The elements that are added by
    `vector_resize` are arbitrary. -/
def Call.Apply (e : ℕ) (l l' : List (List UInt8)) : Call → Prop
  | .push data count => ∃ xs, Chunks e xs data ∧ xs.length = count ∧ l' = l ++ xs
  | .pop count => l' = l.take (l.length - min count l.length)
  | .resize n => l' = l.take n ∧ n ≤ l.length ∨
    ∃ xs, (∀ x ∈ xs, x.length = e) ∧ l.length + xs.length = n ∧ l' = l ++ xs
  | .clear => l' = []

/-- The lists that calls with these results lead to. -/
inductive Lists (e : ℕ) : List (Call × ℤ) → List (List UInt8) → Prop
  | init : Lists e [] []
  | done {cs : List (Call × ℤ)} {c : Call} {l l' : List (List UInt8)} (h : Lists e cs l)
      (hc : c.Apply e l l') : Lists e (cs ++ [(c, 0)]) l'
  | failed {cs : List (Call × ℤ)} {c : Call} {l : List (List UInt8)} (h : Lists e cs l) :
      Lists e (cs ++ [(c, -1)]) l

/-! ## Vectors -/

/-- The number of elements that is asked for. -/
def Call.requested (v : Vector) : Call → ℕ
  | .push _ count => v.size + count
  | .pop count => v.size - min count v.size
  | .resize n => n
  | .clear => 0

/-- Less than 2^31 bytes are asked for. -/
structure Small (e n : ℕ) : Prop where
  le : n ≤ 2 ^ 29
  lt : e * max 8 (2 * n) < 2 ^ 31

/-- The arguments are of their types, and not too many elements are asked for. -/
structure Call.Plain (v : Vector) (c : Call) : Prop where
  valid : c.Valid v
  small : c ≠ .clear → Small v.elemsize (c.requested v)

/-- A `realloc` fails during the call. -/
def Call.Refused (a : Answer) (v : Vector) (c : Call) : Prop := a = none ∧ ¬v.Keeps (c.needed v)

/-- A vector whose block has just the bytes for its capacity. -/
structure Exact (v : Vector) : Prop where
  size : v.size ≤ v.capacity
  length : v.ptr.length = v.capacity * v.elemsize
  lt : v.capacity * v.elemsize < 2 ^ 31
  pow : v.capacity = 0 ∨ ∃ j, 3 ≤ j ∧ v.capacity = 2 ^ j

/-- The vector is exact, and holds the list. -/
structure Stores (l : List (List UInt8)) (v : Vector) : Prop extends Exact v where
  count : v.size = l.length
  chunks : Chunks v.elemsize l (v.ptr.take (v.size * v.elemsize))

theorem stores_clear (v : Vector) : Stores [] (vectorClear v) := by
  refine ⟨⟨le_rfl, ?_, ?_, .inl rfl⟩, rfl, ?_⟩
  · simp [vectorClear]
  · simp [vectorClear]
  · simpa [vectorClear] using Chunks.nil v.elemsize

theorem Exact.size_mul_le (h : Exact v) : v.size * v.elemsize ≤ v.ptr.length :=
  h.length ▸ Nat.mul_le_mul_right v.elemsize h.size

/-- A vector holds some list. -/
theorem Exact.exists_stores (h : Exact v) : ∃ l, Stores l v := by
  have hlen : (v.ptr.take (v.size * v.elemsize)).length = v.size * v.elemsize := by
    rw [List.length_take, Nat.min_eq_left h.size_mul_le]
  obtain ⟨l, hl, hc⟩ := Chunks.exists_of_length hlen
  exact ⟨l, h, hl.symm, hc⟩

/-- The list that a vector holds are its elements. -/
theorem Stores.elements_eq (h : Stores l v) : v.elements = l := by
  refine List.ext_getElem (by rw [elements, List.length_map, List.length_range, h.count]) fun i hi hi' => ?_
  have hmul : i * v.elemsize + v.elemsize ≤ v.size * v.elemsize := by
    rw [← Nat.succ_mul]
    exact Nat.mul_le_mul_right _ (h.count ▸ hi')
  have hlt : i * v.elemsize < 2 ^ 32 := by
    have h₁ := h.size_mul_le
    have h₂ := h.lt
    rw [h.length] at h₁
    omega
  have hget := h.chunks.get hi'
  rw [List.drop_take, List.take_take, Nat.min_eq_left (by omega)] at hget
  simp only [elements, List.getElem_map, List.getElem_range]
  rw [vectorAt, Nat.mod_eq_of_lt hlt, hget]

/-! ## `size_for` -/

/-- The vector `v₁` is `v` with a block for `n` elements. -/
structure Ready (v : Vector) (n : ℕ) (v₁ : Vector) : Prop where
  elemsize : v₁.elemsize = v.elemsize
  size : v₁.size = v.size
  le : n ≤ v₁.capacity
  length : v₁.ptr.length = v₁.capacity * v₁.elemsize
  lt : v₁.capacity * v₁.elemsize < 2 ^ 31
  pow : v₁.capacity = 0 ∨ ∃ j, 3 ≤ j ∧ v₁.capacity = 2 ^ j
  take : ∀ k ≤ v.ptr.length, k ≤ v₁.ptr.length → v₁.ptr.take k = v.ptr.take k

/-- The capacity is a power of two that is neither too small nor too large. -/
structure Tight (n cap : ℕ) : Prop where
  pow : ∃ j, cap = 2 ^ j
  ge : 8 ≤ cap
  size : n ≤ cap
  le : cap ≤ max 16 (4 * n)

theorem Exact.ready (h : Exact v) (hle : n ≤ v.capacity) : Ready v n v :=
  ⟨rfl, rfl, hle, h.length, h.lt, h.pow, fun _ _ _ => rfl⟩

/-- There is room, or memory is refused and nothing changes. -/
theorem Exact.sizeFor (h : Exact v) (hn : Small v.elemsize n) (a : Answer) :
    ∃ r v₁, sizeFor a v n = (r, v₁) ∧
      (r = -1 ∧ v₁ = v ∧ v.capacity < n ∧ a = none ∧ ¬v.Keeps n ∨
        r = 0 ∧ Ready v n v₁ ∧ (¬(a = none ∧ ¬v.Keeps n) → Tight n v₁.capacity)) := by
  obtain ⟨hle, hbytes⟩ := hn
  obtain ⟨j, hj₃, hj₃₀, hcap, hnj, hjn⟩ := capFor_spec (show n ≤ 2 ^ 30 by omega)
  have hpow : 2 ^ 3 ≤ 2 ^ j := Nat.pow_le_pow_right Nat.two_pos hj₃
  have hpow' : 2 ^ j ≤ 2 ^ 30 := Nat.pow_le_pow_right Nat.two_pos hj₃₀
  have hmax : 2 ^ j ≤ max 8 (2 * n) := by
    rcases hjn with rfl | hlt
    · exact le_max_left ..
    · exact hlt.le.trans (le_max_right ..)
  have hlt : 2 ^ j * v.elemsize < 2 ^ 31 :=
    (Nat.mul_comm .. ▸ Nat.mul_le_mul_left v.elemsize hmax).trans_lt hbytes
  have hjn' : 2 ^ j = 8 ∨ 2 ^ j < 2 * n := hjn.imp_left fun hj => by rw [hj]; rfl
  obtain ⟨hk, e⟩ | ⟨hk, ptr, hre, e⟩ | ⟨hk, ha, ⟨hle', e⟩ | ⟨hgt, e⟩⟩ := sizeFor_cases a v n
  -- The capacity is kept, or the block gets another size, or that is refused and the old block is large
  -- enough or not.
  · obtain ⟨hk₁, hk₂⟩ := hk
    rw [hcap] at hk₁ hk₂
    have hle₂ : v.capacity ≤ 2 ^ j * 2 := by omega
    refine ⟨0, v, e, .inr ⟨rfl, h.ready (hnj.trans hk₁), fun _ => ⟨?_, by omega, by omega, by omega⟩⟩⟩
    obtain hzero | ⟨i, -, hi⟩ := h.pow
    · omega
    · exact ⟨i, hi⟩
  · rw [hcap, Nat.mod_eq_of_lt (by omega)] at hre
    rw [hcap] at e
    obtain ⟨hlen, -⟩ := Strbuf.length_realloc hre
    refine ⟨0, _, e, .inr ⟨rfl, ⟨rfl, rfl, hnj, hlen, hlt, .inr ⟨j, hj₃, rfl⟩, fun k hk hk' => ?_⟩,
      fun _ => ⟨⟨j, rfl⟩, hpow, hnj, ?_⟩⟩⟩
    · exact Strbuf.take_realloc hre hk (hlen ▸ hk')
    · show 2 ^ j ≤ _
      omega
  · exact ⟨0, v, e, .inr ⟨rfl, h.ready hle', fun hno => absurd ⟨ha, hk⟩ hno⟩⟩
  · exact ⟨-1, v, e, .inl ⟨rfl, rfl, hgt, ha, hk⟩⟩

/-! ## Calls -/

/-- A size for which there is room. -/
theorem Ready.exact (h : Ready v n v₁) : Exact { v₁ with size := n } :=
  ⟨h.le, h.length, h.lt, h.pow⟩

theorem Ready.mul_le (h : Ready v n v₁) (hk : k ≤ n) : k * v.elemsize ≤ v₁.ptr.length := by
  rw [h.length, h.elemsize]
  exact Nat.mul_le_mul_right _ (hk.trans h.le)

/-- Elements are removed. -/
theorem Ready.truncate (h : Ready v n v₁) (hs : Stores l v) (hn : n ≤ l.length) :
    Stores (l.take n) { v₁ with size := n } := by
  refine ⟨h.exact, by rw [List.length_take, Nat.min_eq_left hn], ?_⟩
  have hle : n * v.elemsize ≤ v.size * v.elemsize := Nat.mul_le_mul_right _ (hs.count ▸ hn)
  have htake := hs.chunks.take n
  rw [List.take_take, Nat.min_eq_left hle] at htake
  change Chunks v₁.elemsize (l.take n) (v₁.ptr.take (n * v₁.elemsize))
  rw [h.elemsize, h.take _ (hle.trans hs.size_mul_le) (h.mul_le le_rfl)]
  exact htake

/-- Elements of any bytes are added. -/
theorem Ready.extend (h : Ready v n v₁) (hs : Stores l v) (hn : l.length ≤ n) :
    ∃ xs, (∀ x ∈ xs, x.length = v.elemsize) ∧ l.length + xs.length = n ∧
      Stores (l ++ xs) { v₁ with size := n } := by
  have hadd : n * v.elemsize = v.size * v.elemsize + (n - l.length) * v.elemsize := by
    rw [hs.count, ← Nat.add_mul, Nat.add_sub_cancel' hn]
  have hle := h.mul_le (le_refl n)
  have hlen : ((v₁.ptr.drop (v.size * v.elemsize)).take ((n - l.length) * v.elemsize)).length =
      (n - l.length) * v.elemsize := by
    rw [List.length_take, List.length_drop]
    omega
  obtain ⟨xs, hxs, hc⟩ := Chunks.exists_of_length hlen
  refine ⟨xs, hc.size, by omega, h.exact, by rw [List.length_append]; change n = _; omega, ?_⟩
  change Chunks v₁.elemsize (l ++ xs) (v₁.ptr.take (n * v₁.elemsize))
  rw [h.elemsize, hadd, List.take_add, h.take _ hs.size_mul_le (by omega)]
  exact hs.chunks.append hc

/-- The size is changed, or memory for more elements is refused. -/
theorem Stores.resize (hs : Stores l v) (hn : Small v.elemsize n) (a : Answer) :
    ∃ r v', vectorResize a v n = (r, v') ∧
      (r = -1 ∧ v' = v ∧ v.capacity < n ∧ a = none ∧ ¬v.Keeps n ∨
        r = 0 ∧ v'.size = n ∧ v'.elemsize = v.elemsize ∧
          (∃ l', (Call.resize n).Apply v.elemsize l l' ∧ Stores l' v') ∧
          (¬(a = none ∧ ¬v.Keeps n) → Tight n v'.capacity)) := by
  obtain ⟨r, v₁, e, ⟨rfl, rfl, hno⟩ | ⟨rfl, hr, ht⟩⟩ := hs.sizeFor hn a
  · exact ⟨-1, v₁, by simp [vectorResize, e], .inl ⟨rfl, rfl, hno⟩⟩
  · refine ⟨0, { v₁ with size := n }, by simp [vectorResize, e], .inr ⟨rfl, rfl, hr.elemsize, ?_, ht⟩⟩
    rcases Nat.le_total n l.length with hle | hle
    · exact ⟨l.take n, .inl ⟨rfl, hle⟩, hr.truncate hs hle⟩
    · obtain ⟨xs, hsize, hlen, h'⟩ := hr.extend hs hle
      exact ⟨l ++ xs, .inr ⟨xs, hsize, hlen, rfl⟩, h'⟩

/-- `memcpy` of the new elements. -/
theorem Ready.push (h : Ready v (v.size + count) v₁) (hs : Stores l v)
    (hdata : data.length = count * v.elemsize) :
    ∃ ptr xs, memcpy v₁.ptr (v.size * v.elemsize) data (count * v.elemsize) = some ptr ∧
      Chunks v.elemsize xs data ∧ xs.length = count ∧
      Stores (l ++ xs) { v₁ with ptr := ptr, size := v.size + count } := by
  obtain ⟨xs, hxs, hc⟩ := Chunks.exists_of_length hdata
  have hadd : (v.size + count) * v.elemsize = v.size * v.elemsize + count * v.elemsize := Nat.add_mul ..
  have hle := h.mul_le (le_refl (v.size + count))
  have htake := h.take _ hs.size_mul_le (by omega)
  obtain ⟨ptr, hcopy, hlen, hptr⟩ : ∃ ptr, memcpy v₁.ptr (v.size * v.elemsize) data
      (count * v.elemsize) = some ptr ∧ ptr.length = v₁.ptr.length ∧
      ptr.take ((v.size + count) * v.elemsize) = v.ptr.take (v.size * v.elemsize) ++ data := by
    rw [memcpy, hadd, ← htake]
    split
    next hzero =>
      -- There is nothing to copy, and there may be no block.
      rw [hzero] at hdata ⊢
      rw [List.length_eq_zero_iff.1 hdata, List.append_nil]
      exact ⟨v₁.ptr, rfl, rfl, rfl⟩
    next =>
      have hpos : (v₁.ptr.take (v.size * v.elemsize)).length = v.size * v.elemsize := by
        rw [List.length_take]
        omega
      rw [if_pos ⟨hdata.ge, by omega⟩, List.take_of_length_le hdata.le]
      have hup : (v₁.ptr.take (v.size * v.elemsize) ++ data).length =
          v.size * v.elemsize + count * v.elemsize := by
        rw [List.length_append, hpos, hdata]
      refine ⟨_, rfl, ?_, List.take_left' hup⟩
      rw [List.length_append, hup, List.length_drop]
      omega
  refine ⟨ptr, xs, hcopy, hc, hxs, ⟨h.le, hlen.trans h.length, h.lt, h.pow⟩, ?_, ?_⟩
  · change v.size + count = _
    rw [List.length_append, hxs, hs.count]
  · change Chunks v₁.elemsize (l ++ xs) (ptr.take ((v.size + count) * v₁.elemsize))
    rw [h.elemsize, hptr]
    exact hs.chunks.append hc

/-- The number of bytes does not overflow. -/
theorem Small.mul_lt (h : Small e n) (hk : k ≤ n) : k * e < 2 ^ 32 := by
  have hle : e * k ≤ e * max 8 (2 * n) := Nat.mul_le_mul_left e (by omega)
  have hlt := h.lt
  rw [Nat.mul_comm]
  omega

theorem Stores.push (hs : Stores l v) (hc : (Call.push data count).Plain v) (a : Answer) :
    ∃ r v', vectorPush a v data count = some (r, v') ∧
      (r = -1 ∧ v' = v ∧ a = none ∧ ¬v.Keeps (v.size + count) ∨
        r = 0 ∧ v'.size = v.size + count ∧ v'.elemsize = v.elemsize ∧
          (∃ l', (Call.push data count).Apply v.elemsize l l' ∧ Stores l' v') ∧
          (¬(a = none ∧ ¬v.Keeps (v.size + count)) → Tight (v.size + count) v'.capacity)) := by
  obtain ⟨⟨-, hdata⟩, hsmall⟩ := hc
  have hn : Small v.elemsize (v.size + count) := hsmall (by simp)
  have hle := hn.le
  have hmod : (v.size + count) % 2 ^ 32 = v.size + count := Nat.mod_eq_of_lt (by omega)
  obtain ⟨r, v₁, e, ⟨rfl, rfl, -, hno⟩ | ⟨rfl, hr, ht⟩⟩ := hs.sizeFor hn a
  · exact ⟨-1, v₁, by rw [vectorPush, hmod, e]; rfl, .inl ⟨rfl, rfl, hno⟩⟩
  · obtain ⟨ptr, xs, hcopy, hxs, hlen, h'⟩ := hr.push hs hdata
    refine ⟨0, { v₁ with ptr := ptr, size := v.size + count }, ?_,
      .inr ⟨rfl, rfl, hr.elemsize, ⟨_, ⟨xs, hxs, hlen, rfl⟩, h'⟩, ht⟩⟩
    rw [vectorPush_eq (hmod.symm ▸ e), hr.size, hr.elemsize, hmod,
      Nat.mod_eq_of_lt (hn.mul_lt (Nat.le_add_right ..)),
      Nat.mod_eq_of_lt (hn.mul_lt (Nat.le_add_left ..)), hcopy, Option.map_some]

/-- A smaller block is not needed. -/
theorem Stores.pop (hs : Stores l v) (hc : (Call.pop count).Plain v) (a : Answer) :
    (vectorPop a v count).size = v.size - min count v.size ∧
      (vectorPop a v count).elemsize = v.elemsize ∧
      Stores (l.take (l.length - min count l.length)) (vectorPop a v count) ∧
      (¬(Call.pop count).Refused a v →
        Tight (v.size - min count v.size) (vectorPop a v count).capacity) := by
  have hsub := hs.size
  have hsmall : Small v.elemsize (v.size - min count v.size) := hc.small (by simp)
  rw [vectorPop_eq]
  obtain ⟨r, v', e, ⟨-, -, hlt, -⟩ | ⟨-, hsize, helem, ⟨l', hl', h'⟩, ht⟩⟩ := hs.resize hsmall a
  · -- The old block has room for fewer elements.
    omega
  have hlist : l' = l.take (l.length - min count l.length) := by
    rcases hl' with ⟨rfl, -⟩ | ⟨xs, -, hlen, rfl⟩
    · rw [hs.count]
    · rw [hs.count] at hlen
      obtain rfl := List.length_eq_zero_iff.1 (show xs.length = 0 by omega)
      rw [List.length_nil] at hlen
      rw [List.append_nil, List.take_of_length_le (by omega)]
  rw [e]
  exact ⟨hsize, helem, hlist ▸ h', ht⟩

/-- What a call makes of a vector with a list. -/
theorem Stores.exec (hs : Stores l v) (hc : c.Plain v) (a : Answer) :
    ∃ r v', c.exec a v = some (r, v') ∧ (r = -1 ∧ v' = v ∧ c.Refused a v ∨
      r = 0 ∧ v'.elemsize = v.elemsize ∧ v'.size = c.requested v ∧
        (∃ l', c.Apply v.elemsize l l' ∧ Stores l' v') ∧
        (c ≠ .clear → ¬c.Refused a v → Tight v'.size v'.capacity)) := by
  cases c with
  | clear =>
    exact ⟨0, vectorClear v, rfl, .inr ⟨rfl, rfl, rfl, ⟨[], rfl, stores_clear v⟩,
      fun hno => absurd rfl hno⟩⟩
  | resize n =>
    obtain ⟨r, v', e, ⟨rfl, rfl, -, hno⟩ | ⟨rfl, hsize, helem, hl', ht⟩⟩ :=
      hs.resize (hc.small (by simp) : Small v.elemsize n) a
    · exact ⟨-1, v', congrArg some e, .inl ⟨rfl, rfl, hno⟩⟩
    · exact ⟨0, v', congrArg some e, .inr ⟨rfl, helem, hsize, hl', fun _ hno => hsize ▸ ht hno⟩⟩
  | pop count =>
    obtain ⟨hsize, helem, h', ht⟩ := hs.pop hc a
    exact ⟨0, _, rfl, .inr ⟨rfl, helem, hsize, ⟨_, rfl, h'⟩, fun _ hno => hsize ▸ ht hno⟩⟩
  | push data count =>
    have hle : v.size + count ≤ 2 ^ 29 := (hc.small (by simp)).le
    have hmod : (v.size + count) % 2 ^ 32 = v.size + count := Nat.mod_eq_of_lt (by omega)
    obtain ⟨r, v', e, ⟨rfl, rfl, ha, hk⟩ | ⟨rfl, hsize, helem, hl', ht⟩⟩ := hs.push hc a
    · exact ⟨-1, v', e, .inl ⟨rfl, rfl, ha, by rwa [Call.needed, hmod]⟩⟩
    · refine ⟨0, v', e, .inr ⟨rfl, helem, hsize, hl', fun _ hno => hsize ▸ ht ?_⟩⟩
      rwa [Call.Refused, Call.needed, hmod] at hno

/-! ## Runs -/

/-- The calls and their results, and the vector after them. -/
inductive Run (e : ℕ) : List (Call × ℤ) → Vector → Prop
  | init : Run e [] (vectorInit e)
  | call {cs : List (Call × ℤ)} {v v' : Vector} {a : Answer} {c : Call} {r : ℤ} (h : Run e cs v)
      (hc : c.Plain v) (hx : c.exec a v = some (r, v')) : Run e (cs ++ [(c, r)]) v'

theorem Run.stores (h : Run e cs v) : v.elemsize = e ∧ ∃ l, Lists e cs l ∧ Stores l v := by
  induction h with
  | init => exact ⟨rfl, [], .init, stores_clear (vectorInit e)⟩
  | @call cs v v' a c r h hc hx ih =>
    obtain ⟨rfl, l, hl, hs⟩ := ih
    obtain ⟨r', v₁, e, hcase⟩ := hs.exec hc a
    obtain ⟨rfl, rfl⟩ := Prod.mk.inj (Option.some.inj (e.symm.trans hx))
    rcases hcase with ⟨rfl, rfl, -⟩ | ⟨rfl, helem, -, ⟨l', hl', h'⟩, -⟩
    · exact ⟨rfl, l, hl.failed, hs⟩
    · exact ⟨helem, l', hl.done hl', h'⟩

/-- The elements are those of a list. The next call makes of them what it makes of a list, or returns -1 and
    changes nothing; `vector_pop` removes elements in any case. The capacity is neither too small nor too
    large after a call without a failed `realloc`. -/
theorem run_elements (h : Run e cs v) : Lists e cs v.elements ∧
    ∀ a c, Call.Plain v c → ∃ r v', c.exec a v = some (r, v') ∧
      (r = 0 ∧ c.Apply e v.elements v'.elements ∨ r = -1 ∧ v' = v) ∧
      (∀ count, c = .pop count → v'.size = v.size - min count v.size) ∧
      (c ≠ .clear → ¬c.Refused a v → Tight v'.size v'.capacity) := by
  obtain ⟨rfl, l, hl, hs⟩ := h.stores
  rw [hs.elements_eq]
  refine ⟨hl, fun a c hc => ?_⟩
  obtain ⟨r, v', e, hcase⟩ := hs.exec hc a
  refine ⟨r, v', e, ?_⟩
  rcases hcase with ⟨rfl, rfl, href⟩ | ⟨rfl, -, hsize, ⟨l', hl', h'⟩, ht⟩
  · refine ⟨.inr ⟨rfl, rfl⟩, ?_, fun _ hno => absurd href hno⟩
    rintro count rfl
    obtain ⟨h₀, -⟩ := Prod.mk.inj (Option.some.inj e)
    cases h₀
  · refine ⟨.inl ⟨rfl, h'.elements_eq.symm ▸ hl'⟩, ?_, ht⟩
    rintro count rfl
    exact hsize

/-- A new vector that is given five elements of one byte. -/
theorem run_elements_five : Lists 1 [(.resize 5, 0)] (elements ⟨(List.range 8).map fun _ => 0, 1, 8, 5⟩) := by
  have hcap : capFor 5 = 8 := by simp [capFor, capLoop]
  have hrun : Run 1 [(.resize 5, 0)] ⟨(List.range 8).map fun _ => 0, 1, 8, 5⟩ :=
    .call .init ⟨(by decide : 5 < 2 ^ 32), fun _ => ⟨by decide, by decide⟩⟩ (resize_init hcap _)
  exact (run_elements hrun).1

end Dlb.Vector
