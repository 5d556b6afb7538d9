import Mathlib.Data.List.GetD
import Mathlib.Order.MinMax
import Dlb.Cbuf.Code

/-!
# Circular buffers as queues

The contents of a buffer are its `size` bytes from `head` on, modulo the capacity. A
transfer is split into pieces at the places where one of the buffers wraps: the lemmas
about a piece are `write_tail` and `read_head`, and the loops put the pieces together.
-/

namespace Dlb.Cbuf

variable {c : Cbuf}

/-! ## Buffers -/

/-- What holds of a buffer at all times. Its storage is an object in memory, which has less than
    `2 ^ 63` bytes. -/
structure Valid (c : Cbuf) : Prop where
  length_data : c.data.length = c.capacity
  head_lt : c.head < c.capacity
  size_le : c.size ≤ c.capacity
  capacity_lt : c.capacity < 2 ^ 63

/-- The bytes in the buffer, the oldest first. -/
def contents (c : Cbuf) : List UInt8 :=
  (List.range c.size).map fun i => c.data.getD ((c.head + i) % c.capacity) 0

@[simp] theorem length_contents (c : Cbuf) : (contents c).length = c.size := by simp [contents]

theorem mod_wrap {a n : ℕ} (h : a < 2 * n) : a % n = if a < n then a else a - n := by
  split_ifs with ha
  · exact Nat.mod_eq_of_lt ha
  · rw [Nat.mod_eq_sub_mod (by omega), Nat.mod_eq_of_lt (by omega)]

theorem length_overwrite {l bs : List UInt8} {pos : ℕ} (h : pos + bs.length ≤ l.length) :
    (overwrite l pos bs).length = l.length := by
  simp [overwrite]
  omega

/-- A byte of an array after `bs` was written to it. -/
theorem getD_overwrite {l bs : List UInt8} {pos : ℕ} (h : pos + bs.length ≤ l.length) (k : ℕ) :
    (overwrite l pos bs).getD k 0 =
      if pos ≤ k ∧ k < pos + bs.length then bs.getD (k - pos) 0 else l.getD k 0 := by
  simp only [List.getD_eq_getElem?_getD, overwrite]
  have hp : (l.take pos).length = pos := by simp; omega
  rw [List.getElem?_append, List.getElem?_append, List.length_append, hp]
  split_ifs with h₁ h₂ h₃ h₃ h₃
  · omega
  · simp [h₂]
  · rfl
  · omega
  · omega
  · rw [List.getElem?_drop, Nat.add_sub_cancel' (by omega)]

namespace Valid

variable (hc : Valid c)

include hc

theorem avail_eq : cbufAvail c = c.capacity - c.size := by
  have := hc.capacity_lt
  exact sizeSub_eq hc.size_le (by omega)

theorem tail_eq : cbufTail c = (c.head + c.size) % c.capacity := by
  have := hc.capacity_lt
  have := hc.head_lt
  have := hc.size_le
  rw [cbufTail, sizeAdd_eq (by omega)]

theorem tail_lt : cbufTail c < c.capacity := by
  rw [hc.tail_eq]
  exact Nat.mod_lt _ (by have := hc.head_lt; omega)

theorem headSize_eq : cbufHeadSize c = min (c.capacity - c.head) c.size := by
  have := hc.capacity_lt
  have := hc.head_lt
  rw [cbufHeadSize, sizeSub_eq hc.head_lt.le (by omega), Nat.min_def]
  split_ifs <;> omega

theorem tailSize_eq : cbufTailSize c = c.capacity - max (cbufTail c) c.size := by
  have := hc.capacity_lt
  have := hc.tail_lt
  have := hc.size_le
  rw [cbufTailSize]
  split_ifs with h
  · rw [sizeSub_eq (by omega) (by omega), max_eq_left h.le]
  · rw [sizeSub_eq (by omega) (by omega), max_eq_right (by omega)]

theorem headSize_eq_zero : cbufHeadSize c = 0 ↔ c.size = 0 := by
  have := hc.head_lt
  rw [hc.headSize_eq]
  omega

theorem tailSize_le : cbufTailSize c ≤ c.capacity - c.size := by
  rw [hc.tailSize_eq]
  exact Nat.sub_le_sub_left (le_max_right _ _) _

theorem tailSize_eq_zero : cbufTailSize c = 0 ↔ c.size = c.capacity := by
  have := hc.tail_lt
  have := hc.size_le
  rw [hc.tailSize_eq]
  omega

theorem headAdvance_eq (n : ℕ) : cbufHeadAdvance c n =
    { c with size := c.size - n, head := (c.head + min n c.size) % c.capacity } := by
  have := hc.capacity_lt
  have := hc.head_lt
  have := hc.size_le
  simp only [cbufHeadAdvance]
  split_ifs with h
  · rw [sizeSub_eq le_rfl (by omega), sizeAdd_eq (by omega), min_eq_right h.le,
      Nat.sub_eq_zero_of_le h.le, Nat.sub_self]
  · rw [sizeSub_eq (by omega) (by omega), sizeAdd_eq (by omega), min_eq_left (by omega)]

theorem tailAdvance_eq (n : ℕ) : cbufTailAdvance c n =
    { c with size := c.size + min n (c.capacity - c.size) } := by
  have := hc.capacity_lt
  have := hc.size_le
  simp only [cbufTailAdvance, hc.avail_eq]
  split_ifs with h
  · rw [sizeAdd_eq (by omega), min_eq_right h.le]
  · rw [sizeAdd_eq (by omega), min_eq_left (by omega)]

theorem headAdvance (n : ℕ) : Valid (cbufHeadAdvance c n) := by
  have := hc.head_lt
  have := hc.size_le
  rw [hc.headAdvance_eq]
  exact ⟨hc.length_data, Nat.mod_lt _ (by omega), by simp; omega, hc.capacity_lt⟩

theorem tailAdvance (n : ℕ) : Valid (cbufTailAdvance c n) := by
  have := hc.size_le
  rw [hc.tailAdvance_eq]
  exact ⟨hc.length_data, hc.head_lt, by simp; omega, hc.capacity_lt⟩

theorem clear : Valid (cbufClear c) :=
  ⟨hc.length_data, by have := hc.head_lt; simp only [cbufClear]; omega, Nat.zero_le _,
    hc.capacity_lt⟩

theorem contents_headAdvance (n : ℕ) : contents (cbufHeadAdvance c n) = (contents c).drop n := by
  rw [hc.headAdvance_eq]
  refine List.ext_getElem (by simp) fun i h₁ h₂ => ?_
  simp only [length_contents] at h₁
  simp only [contents, List.getElem_map, List.getElem_range, List.getElem_drop]
  rw [Nat.mod_add_mod, min_eq_left (by omega), Nat.add_assoc]

/-- The bytes of a piece that is read from the head. -/
theorem read_head {x : ℕ} (hx : x ≤ cbufHeadSize c) :
    readBytes c.data c.head x = some ((contents c).take x) := by
  have := hc.head_lt
  have := hc.length_data
  rw [hc.headSize_eq] at hx
  rw [readBytes, if_pos (by omega)]
  congr 1
  refine List.ext_getElem (by simp; omega) fun i h₁ h₂ => ?_
  simp only [List.length_take, length_contents] at h₂
  simp only [contents, List.getElem_take, List.getElem_drop, List.getElem_map, List.getElem_range]
  rw [Nat.mod_eq_of_lt (by omega), List.getD_eq_getElem _ _ (by omega)]

/-- The bytes of the buffer after `bs` was written to the tail: it does not reach the head. -/
theorem getD_overwrite_tail {bs : List UInt8} (hx : bs.length ≤ cbufTailSize c) {i : ℕ}
    (hi : i < c.size + bs.length) :
    (overwrite c.data (cbufTail c) bs).getD ((c.head + i) % c.capacity) 0 =
      if i < c.size then c.data.getD ((c.head + i) % c.capacity) 0 else bs.getD (i - c.size) 0 := by
  have hh := hc.head_lt
  have hl := hc.length_data
  have hs := hc.size_le
  have ht := hc.tail_lt
  rw [hc.tailSize_eq] at hx
  rw [getD_overwrite (by omega)]
  have htail := hc.tail_eq
  have hpos : (c.head + i) % c.capacity = _ := mod_wrap (by omega)
  rw [mod_wrap (by omega)] at htail
  -- The tail and the byte number `i` may each be before or after the end of the array.
  by_cases h : i < c.size
  · rw [if_pos h, if_neg]
    split_ifs at hpos htail <;> omega
  · rw [if_neg h, if_pos (by split_ifs at hpos htail <;> omega)]
    congr 1
    split_ifs at hpos htail <;> omega

/-- A piece that is written to the tail. -/
theorem write_tail (bs : List UInt8) (hx : bs.length ≤ cbufTailSize c) :
    writeBytes c.data (cbufTail c) bs = some (overwrite c.data (cbufTail c) bs) ∧
      Valid { c with data := overwrite c.data (cbufTail c) bs } ∧
      contents (cbufTailAdvance { c with data := overwrite c.data (cbufTail c) bs } bs.length) =
        contents c ++ bs := by
  have hl := hc.length_data
  have hs := hc.size_le
  have hle : cbufTail c + bs.length ≤ c.data.length ∧ c.size + bs.length ≤ c.capacity := by
    rw [hc.tailSize_eq] at hx
    have := hc.tail_lt
    omega
  have hv : Valid { c with data := overwrite c.data (cbufTail c) bs } :=
    ⟨(length_overwrite hle.1).trans hl, hc.head_lt, hs, hc.capacity_lt⟩
  refine ⟨if_pos hle.1, hv, ?_⟩
  rw [hv.tailAdvance_eq, min_eq_left (by simp; omega)]
  refine List.ext_getElem (by simp) fun i h₁ h₂ => ?_
  simp only [List.length_append, length_contents] at h₂
  simp only [contents, List.getElem_map, List.getElem_range, List.getElem_append, List.length_map,
    List.length_range, hc.getD_overwrite_tail hx h₂]
  split_ifs with h
  · rfl
  · rw [List.getD_eq_getElem]

end Valid

/-! ## Transfers -/

/-- The buffer `c'` is `c` with `bs` after its contents. -/
structure Appends (c : Cbuf) (bs : List UInt8) (c' : Cbuf) : Prop where
  valid : Valid c'
  capacity : c'.capacity = c.capacity
  head : c'.head = c.head
  contents : contents c' = contents c ++ bs

/-- The buffer `c'` is `c` without its `k` oldest bytes. -/
structure Drops (c : Cbuf) (k : ℕ) (c' : Cbuf) : Prop where
  valid : Valid c'
  capacity : c'.capacity = c.capacity
  contents : contents c' = (contents c).drop k

theorem Appends.size {bs : List UInt8} {c' : Cbuf} (h : Appends c bs c') :
    c'.size = c.size + bs.length := by
  simpa using congrArg List.length h.contents

theorem Appends.trans {bs bs' : List UInt8} {c' c'' : Cbuf} (h : Appends c bs c')
    (h' : Appends c' bs' c'') : Appends c (bs ++ bs') c'' :=
  ⟨h'.valid, h'.capacity.trans h.capacity, h'.head.trans h.head, by
    rw [h'.contents, h.contents, List.append_assoc]⟩

/-- The bytes of a buffer were written with a copy of it, before it is advanced. -/
theorem Appends.tailAdvance_eq (hc : Valid c) {bs : List UInt8} {c' : Cbuf}
    (h : Appends c (bs.take (c.capacity - c.size)) c') :
    cbufTailAdvance { c with data := c'.data } bs.length = c' := by
  have hv : Valid { c with data := c'.data } :=
    ⟨h.valid.length_data.trans h.capacity, hc.head_lt, hc.size_le, hc.capacity_lt⟩
  have hs := h.size
  rw [List.length_take, min_comm] at hs
  rw [hv.tailAdvance_eq]
  cases c'
  simpa using ⟨h.capacity.symm, h.head.symm, hs.symm⟩

theorem Drops.size {k : ℕ} {c' : Cbuf} (h : Drops c k c') : c'.size = c.size - k := by
  simpa using congrArg List.length h.contents

theorem Drops.trans {k k' : ℕ} {c' c'' : Cbuf} (h : Drops c k c') (h' : Drops c' k' c'') :
    Drops c (k + k') c'' :=
  ⟨h'.valid, h'.capacity.trans h.capacity, by rw [h'.contents, h.contents, List.drop_drop]⟩

theorem Valid.appends_nil (hc : Valid c) : Appends c [] c := ⟨hc, rfl, rfl, by simp⟩

theorem Valid.drops_zero (hc : Valid c) : Drops c 0 c := ⟨hc, rfl, rfl⟩

/-- A piece of a transfer into the buffer. -/
theorem Valid.appends (hc : Valid c) (bs : List UInt8) (hx : bs.length ≤ cbufTailSize c) :
    Appends c bs
      (cbufTailAdvance { c with data := overwrite c.data (cbufTail c) bs } bs.length) := by
  obtain ⟨-, hv, hcon⟩ := hc.write_tail bs hx
  refine ⟨hv.tailAdvance _, ?_, ?_, hcon⟩ <;> rw [hv.tailAdvance_eq]

/-- A piece of a transfer out of the buffer. -/
theorem Valid.drops (hc : Valid c) (n : ℕ) : Drops c n (cbufHeadAdvance c n) :=
  ⟨hc.headAdvance n, by rw [hc.headAdvance_eq], hc.contents_headAdvance n⟩

theorem readBytes_eq {l : List UInt8} {pos n : ℕ} (h : pos + n ≤ l.length) :
    readBytes l pos n = some ((l.drop pos).take n) := if_pos h

theorem take_drop_append (l : List UInt8) (pos m n : ℕ) :
    (l.drop pos).take m ++ (l.drop (pos + m)).take n = (l.drop pos).take (m + n) := by
  rw [List.take_add, List.drop_drop]

/-- The size of a piece. -/
theorem ite_sizeSub {a maxSize count : ℕ} (hle : count ≤ maxSize) (hm : maxSize < 2 ^ 64) :
    (if a < sizeSub maxSize count then a else sizeSub maxSize count) = min a (maxSize - count) := by
  rw [sizeSub_eq hle hm, Nat.min_def]
  split_ifs <;> omega

theorem add_min_sub {a b t x : ℕ} (hx : x = min t a) (ht : t ≤ b) :
    x + min (a - x) (b - x) = min a b := by omega

theorem cbufMoveInLoop_spec {data : List UInt8} {maxSize : ℕ} (hd : maxSize ≤ data.length)
    (hm : maxSize < 2 ^ 64) (fuel count : ℕ) (hc : Valid c) (hle : count ≤ maxSize)
    (hf : maxSize - count < fuel) :
    ∃ k c', k = min (maxSize - count) (c.capacity - c.size) ∧
      (cbufMoveInLoop data maxSize fuel count).run c = some (count + k, c') ∧
      Appends c ((data.drop count).take k) c' := by
  induction fuel generalizing count c with
  | zero => omega
  | succ fuel ih =>
    obtain ⟨x, hx⟩ : ∃ x, x = min (cbufTailSize c) (maxSize - count) := ⟨_, rfl⟩
    have hx' : (if cbufTailSize c < sizeSub maxSize count then cbufTailSize c
        else sizeSub maxSize count) = x := hx ▸ ite_sizeSub hle hm
    have hz := hc.tailSize_eq_zero
    have hs := hc.size_le
    by_cases h₀ : x = 0
    · -- All bytes are transferred, or the buffer is full.
      refine ⟨0, c, by omega, ?_, by simpa using hc.appends_nil⟩
      simp [cbufMoveInLoop, hx', h₀]
    · have hlen : ((data.drop count).take x).length = x := by simp; omega
      have ha := hc.appends ((data.drop count).take x) (by omega)
      have hw := (hc.write_tail ((data.drop count).take x) (by omega)).1
      rw [hlen] at ha
      have hsz := ha.size
      rw [hlen] at hsz
      obtain ⟨k, c', hk, hrun, ha'⟩ := ih (count + x) ha.valid (by omega) (by omega)
      refine ⟨x + k, c', ?_, ?_, ?_⟩
      · rw [hk, hsz, ha.capacity, ← Nat.sub_sub, ← Nat.sub_sub]
        exact add_min_sub hx hc.tailSize_le
      · rw [cbufMoveInLoop]
        simp [hx', h₀, readBytes_eq (show count + x ≤ data.length by omega), hw,
          sizeAdd_eq (show count + x < 2 ^ 64 by omega), hrun, Nat.add_assoc]
      · rw [← take_drop_append]
        exact ha.trans ha'

theorem overwrite_nil (l : List UInt8) (pos : ℕ) : overwrite l pos [] = l := by simp [overwrite]

theorem overwrite_append {l bs : List UInt8} (bs' : List UInt8) {pos : ℕ} (h : pos + bs.length ≤ l.length) :
    overwrite (overwrite l pos bs) (pos + bs.length) bs' = overwrite l pos (bs ++ bs') := by
  have hl : (l.take pos ++ bs).length = pos + bs.length := by simp; omega
  have ht : (overwrite l pos bs).take (pos + bs.length) = l.take pos ++ bs := by
    rw [overwrite, ← hl, List.take_left]
  have hd : (overwrite l pos bs).drop (pos + bs.length + bs'.length) =
      l.drop (pos + (bs ++ bs').length) := by
    rw [overwrite, ← hl, List.drop_append, Nat.add_sub_cancel_left, List.drop_drop, hl,
      List.drop_eq_nil_of_le (by omega), List.nil_append, List.length_append, Nat.add_assoc]
  rw [overwrite, ht, hd, overwrite]
  simp

theorem cbufMoveOutLoop_spec {maxSize : ℕ} (hm : maxSize < 2 ^ 64) (fuel count : ℕ)
    (data : List UInt8) (hd : maxSize ≤ data.length) (hc : Valid c) (hle : count ≤ maxSize)
    (hf : maxSize - count < fuel) :
    ∃ k c', k = min (maxSize - count) c.size ∧
      (cbufMoveOutLoop maxSize fuel data count).run c =
        some ((count + k, overwrite data count ((contents c).take k)), c') ∧ Drops c k c' := by
  induction fuel generalizing count data c with
  | zero => omega
  | succ fuel ih =>
    obtain ⟨x, hx⟩ : ∃ x, x = min (cbufHeadSize c) (maxSize - count) := ⟨_, rfl⟩
    have hx' : (if cbufHeadSize c < sizeSub maxSize count then cbufHeadSize c
        else sizeSub maxSize count) = x := hx ▸ ite_sizeSub hle hm
    have hz := hc.headSize_eq_zero
    by_cases h₀ : x = 0
    · -- All bytes are transferred, or the buffer is empty.
      refine ⟨0, c, by omega, ?_, hc.drops_zero⟩
      simp [cbufMoveOutLoop, hx', h₀, overwrite_nil]
    · have hxs : x ≤ c.size := by
        rw [hx, hc.headSize_eq]
        omega
      have hlen : ((contents c).take x).length = x := by simp [hxs]
      have hov := length_overwrite (show count + ((contents c).take x).length ≤ data.length by omega)
      have ha := hc.drops x
      obtain ⟨k, c', hk, hrun, ha'⟩ := ih (count + x) (overwrite data count ((contents c).take x))
        (hov.symm ▸ hd) ha.valid (by omega) (by omega)
      refine ⟨x + k, c', ?_, ?_, ha.trans ha'⟩
      · rw [hk, ha.size, ← Nat.sub_sub]
        exact add_min_sub hx (by rw [hc.headSize_eq]; exact min_le_right _ _)
      · have hw : writeBytes data count ((contents c).take x) = some _ := if_pos (by omega)
        have happ := overwrite_append ((contents (cbufHeadAdvance c x)).take k)
          (show count + ((contents c).take x).length ≤ data.length by omega)
        rw [hlen, ha.contents, ← List.take_add] at happ
        rw [cbufMoveOutLoop]
        simp [hx', h₀, hc.read_head (show x ≤ cbufHeadSize c by omega), hw,
          sizeAdd_eq (show count + x < 2 ^ 64 by omega), hrun, ha.contents, happ, Nat.add_assoc]

theorem cbufMoveLoop_spec {maxSize : ℕ} (hm : maxSize < 2 ^ 64) (fuel count : ℕ) {dst src : Cbuf}
    (hd : Valid dst) (hs : Valid src) (hle : count ≤ maxSize) (hf : maxSize - count < fuel) :
    ∃ k dst' src', k = min (maxSize - count) (min src.size (dst.capacity - dst.size)) ∧
      (cbufMoveLoop maxSize fuel count).run (dst, src) = some (count + k, dst', src') ∧
      Appends dst ((contents src).take k) dst' ∧ Drops src k src' := by
  induction fuel generalizing count dst src with
  | zero => omega
  | succ fuel ih =>
    obtain ⟨t, ht⟩ : ∃ t, t = min (cbufHeadSize src) (cbufTailSize dst) := ⟨_, rfl⟩
    obtain ⟨y, hy⟩ : ∃ y, y = min t (maxSize - count) := ⟨_, rfl⟩
    have ht' : (if cbufHeadSize src < cbufTailSize dst then cbufHeadSize src
        else cbufTailSize dst) = t := by
      rw [ht, Nat.min_def]
      split_ifs <;> omega
    have hy' : (if t < sizeSub maxSize count then t else sizeSub maxSize count) = y :=
      hy ▸ ite_sizeSub hle hm
    have htle : t ≤ min src.size (dst.capacity - dst.size) := by
      rw [ht, hs.headSize_eq]
      exact min_le_min (min_le_right _ _) hd.tailSize_le
    by_cases h₀ : y = 0
    · have hz := hs.headSize_eq_zero
      have hz' := hd.tailSize_eq_zero
      refine ⟨0, dst, src, by omega, ?_, hd.appends_nil, hs.drops_zero⟩
      simp [cbufMoveLoop, ht', hy', h₀]
    · have hyt : y ≤ t := hy ▸ min_le_left _ _
      have hcy : count + y ≤ maxSize :=
        Nat.add_le_of_le_sub' hle (hy ▸ min_le_right _ _)
      have hyh : y ≤ cbufHeadSize src := hyt.trans (ht ▸ min_le_left _ _)
      have hlen : ((contents src).take y).length = y := by
        rw [List.length_take, length_contents]
        exact min_eq_left (hyt.trans (htle.trans (min_le_left _ _)))
      have hyl : ((contents src).take y).length ≤ cbufTailSize dst :=
        hlen.trans_le (hyt.trans (ht ▸ min_le_right _ _))
      have ha := hd.appends _ hyl
      have hw := (hd.write_tail _ hyl).1
      have hr := hs.drops y
      rw [hlen] at ha
      have hsz := ha.size
      rw [hlen] at hsz
      have hpos : count < count + y := Nat.lt_add_of_pos_right (Nat.pos_of_ne_zero h₀)
      have hfuel : maxSize - (count + y) < fuel :=
        (Nat.sub_lt_sub_left (hpos.trans_le hcy) hpos).trans_le (Nat.le_of_lt_succ hf)
      obtain ⟨k, dst', src', hk, hrun, ha', hr'⟩ := ih (count + y) ha.valid hr.valid hcy hfuel
      refine ⟨y + k, dst', src', ?_, ?_, ?_, hr.trans hr'⟩
      · rw [hk, hsz, hr.size, ha.capacity, ← Nat.sub_sub, ← Nat.sub_sub, Nat.sub_min_sub_right]
        exact add_min_sub hy htle
      · rw [cbufMoveLoop]
        simp [ht', hy', h₀, hs.read_head hyh, hw, sizeAdd_eq (hcy.trans_lt hm), hrun,
          Nat.add_assoc]
      · rw [List.take_add, ← hr.contents]
        exact ha.trans ha'

/-! ## Runs -/

/-- The two queues. -/
abbrev Queues := Bool → List UInt8

/-- What a call returns, and what it does to the queues, of which the queue `i` has room for
    `room i` bytes. -/
def specStep (room : Bool → ℕ) (q : Queues) : Op → (ℕ × List UInt8) × Queues
  | .moveIn i data maxSize =>
    let k := min maxSize (room i - (q i).length)
    ((k, []), Function.update q i (q i ++ data.take k))
  | .moveOut i data maxSize =>
    let k := min maxSize (q i).length
    ((k, (q i).take k ++ data.drop k), Function.update q i ((q i).drop k))
  | .move i maxSize =>
    let limit := if maxSize = 0 then (q !i).length else maxSize
    let k := min limit (min (q !i).length (room i - (q i).length))
    ((k, []), Function.update (Function.update q i (q i ++ (q !i).take k)) (!i) ((q !i).drop k))
  | .headAdvance i count => ((0, []), Function.update q i ((q i).drop count))
  | .tailAdvance i bytes =>
    ((0, []), Function.update q i (q i ++ bytes.take (room i - (q i).length)))
  | .clear i => ((0, []), Function.update q i [])

/-- What a sequence of calls returns, and what it does to the queues. -/
def specRun (room : Bool → ℕ) (q : Queues) : List Op → List (ℕ × List UInt8) × Queues
  | [] => ([], q)
  | op :: ops =>
    let (r, q') := specStep room q op
    let (rs, q'') := specRun room q' ops
    (r :: rs, q'')

/-- A run of the code, with enough fuel for each of the calls. -/
inductive Run : (Bool → Cbuf) → List Op → List (ℕ × List UInt8) → (Bool → Cbuf) → Prop
  | nil (s : Bool → Cbuf) : Run s [] [] s
  | cons {s s' s'' : Bool → Cbuf} {op : Op} {ops : List Op} {r : ℕ × List UInt8}
      {rs : List (ℕ × List UInt8)} (h : Returns (exec · op) s r s') (hr : Run s' ops rs s'') :
      Run s (op :: ops) (r :: rs) s''

/-- The buffers hold the queues. -/
structure Holds (room : Bool → ℕ) (s : Bool → Cbuf) (q : Queues) : Prop where
  valid : ∀ i, Valid (s i)
  capacity : ∀ i, (s i).capacity = room i
  contents : ∀ i, contents (s i) = q i

theorem Holds.update {room : Bool → ℕ} {s : Bool → Cbuf} {q : Queues} (h : Holds room s q)
    (i : Bool) {c' : Cbuf} {l : List UInt8} (hv : Valid c') (hc : c'.capacity = (s i).capacity)
    (hl : Cbuf.contents c' = l) :
    Holds room (Function.update s i c') (Function.update q i l) := by
  refine ⟨fun j => ?_, fun j => ?_, fun j => ?_⟩ <;> rcases eq_or_ne j i with rfl | hj
  · simpa using hv
  · simpa [hj] using h.valid j
  · simpa using hc.trans (h.capacity j)
  · simpa [hj] using h.capacity j
  · simpa using hl
  · simpa [hj] using h.contents j

theorem Holds.length {room : Bool → ℕ} {s : Bool → Cbuf} {q : Queues} (h : Holds room s q)
    (i : Bool) : (q i).length = (s i).size := by
  rw [← h.contents i, length_contents]

@[simp] theorem run_onBuffer {α : Type} (i : Bool) (p : StateT Cbuf Option α) (s : Bool → Cbuf) :
    (onBuffer i p).run s = (p.run (s i)).map fun r => (r.1, Function.update s i r.2) := rfl

@[simp] theorem run_onBuffers {α : Type} (i : Bool) (p : StateT (Cbuf × Cbuf) Option α)
    (s : Bool → Cbuf) : (onBuffers i p).run s = (p.run (s i, s !i)).map fun r =>
      (r.1, Function.update (Function.update s i r.2.1) (!i) r.2.2) := rfl

theorem approx_onBuffer {α : Type} {i : Bool} {p p' : StateT Cbuf Option α} (h : Approx p p') :
    Approx (onBuffer i p) (onBuffer i p') := by
  rintro s r hr
  obtain ⟨r', h₁, rfl⟩ := Option.map_eq_some_iff.1 hr
  exact Option.map_eq_some_iff.2 ⟨r', h _ _ h₁, rfl⟩

theorem approx_onBuffers {α : Type} {i : Bool} {p p' : StateT (Cbuf × Cbuf) Option α}
    (h : Approx p p') : Approx (onBuffers i p) (onBuffers i p') := by
  rintro s r hr
  obtain ⟨r', h₁, rfl⟩ := Option.map_eq_some_iff.1 hr
  exact Option.map_eq_some_iff.2 ⟨r', h _ _ h₁, rfl⟩

theorem fuelled_cbufMoveInLoop (data : List UInt8) (maxSize count : ℕ) :
    Fuelled (cbufMoveInLoop data maxSize · count) := by
  intro m
  induction m generalizing count with
  | zero => exact fun n _ => .failure _
  | succ m ih =>
    rintro (- | n) hn
    · omega
    · refine .bind_right fun c => .ite (.refl _) (.bind_right fun _ => .bind_right fun _ =>
        .bind_right fun _ => ?_)
      exact ih _ (by omega)

theorem fuelled_cbufMoveOutLoop (maxSize : ℕ) (data : List UInt8) (count : ℕ) :
    Fuelled (cbufMoveOutLoop maxSize · data count) := by
  intro m
  induction m generalizing data count with
  | zero => exact fun n _ => .failure _
  | succ m ih =>
    rintro (- | n) hn
    · omega
    · refine .bind_right fun c => .ite (.refl _) (.bind_right fun _ => .bind_right fun _ =>
        .bind_right fun _ => ?_)
      exact ih _ _ (by omega)

theorem fuelled_cbufMoveLoop (maxSize count : ℕ) : Fuelled (cbufMoveLoop maxSize · count) := by
  intro m
  induction m generalizing count with
  | zero => exact fun n _ => .failure _
  | succ m ih =>
    rintro (- | n) hn
    · omega
    · refine .bind_right fun c => .ite (.refl _) (.bind_right fun _ => .bind_right fun _ =>
        .bind_right fun _ => ?_)
      exact ih _ (by omega)

theorem fuelled_exec (op : Op) : Fuelled (exec · op) := by
  intro m n hmn
  cases op with
  | moveIn i data maxSize =>
    exact .bind (approx_onBuffer (fuelled_cbufMoveInLoop data maxSize 0 hmn)) fun _ => .refl _
  | moveOut i data maxSize =>
    exact approx_onBuffer (fuelled_cbufMoveOutLoop maxSize data 0 hmn)
  | move i maxSize =>
    exact .bind (approx_onBuffers (.bind_right fun _ => fuelled_cbufMoveLoop _ 0 hmn))
      fun _ => .refl _
  | headAdvance i count => exact .refl _
  | tailAdvance i bytes =>
    exact .bind (approx_onBuffer (.bind_right fun _ =>
      .bind (fuelled_cbufMoveInLoop bytes _ 0 hmn) fun _ => .refl _)) fun _ => .refl _
  | clear i => exact .refl _

/-- Every call does to the buffers what it does to the queues. -/
theorem exec_spec {room : Bool → ℕ} {s : Bool → Cbuf} {q : Queues} (h : Holds room s q) {op : Op}
    (hop : op.Legal) :
    ∃ s', Returns (exec · op) s (specStep room q op).1 s' ∧
      Holds room s' (specStep room q op).2 := by
  have hlen := h.length
  cases op with
  | moveIn i data maxSize =>
    obtain ⟨k, c', hk, hrun, ha⟩ := cbufMoveInLoop_spec hop.1 hop.2 (maxSize + 1) 0 (h.valid i)
      (Nat.zero_le _) (Nat.lt_succ_self _)
    rw [h.capacity, ← hlen, Nat.sub_zero] at hk
    refine ⟨Function.update s i c', (fuelled_exec _).returns (maxSize + 1) ?_, ?_⟩
    · simp [exec, cbufMoveIn, hrun, specStep, ← hk]
    · simp only [specStep, ← hk]
      exact h.update i ha.valid ha.capacity (by simpa [h.contents] using ha.contents)
  | moveOut i data maxSize =>
    obtain ⟨k, c', hk, hrun, ha⟩ := cbufMoveOutLoop_spec hop.2 (maxSize + 1) 0 data hop.1
      (h.valid i) (Nat.zero_le _) (Nat.lt_succ_self _)
    rw [← hlen, Nat.sub_zero] at hk
    refine ⟨Function.update s i c', (fuelled_exec _).returns (maxSize + 1) ?_, ?_⟩
    · have hkl : min k (q i).length = k := by omega
      simp [exec, cbufMoveOut, hrun, specStep, ← hk, overwrite, h.contents, hkl]
    · simp only [specStep, ← hk]
      exact h.update i ha.valid ha.capacity (by simpa [h.contents] using ha.contents)
  | move i maxSize =>
    obtain ⟨limit, hlim⟩ : ∃ limit, limit = if maxSize = 0 then (s !i).size else maxSize := ⟨_, rfl⟩
    have hlt : limit < 2 ^ 64 := by
      have h₁ := (h.valid !i).capacity_lt
      have h₂ := (h.valid !i).size_le
      have h₃ : maxSize < 2 ^ 64 := hop
      split_ifs at hlim <;> omega
    obtain ⟨k, dst, src, hk, hrun, ha, hr⟩ := cbufMoveLoop_spec hlt (limit + 1) 0 (h.valid i)
      (h.valid !i) (Nat.zero_le _) (Nat.lt_succ_self _)
    rw [h.capacity, ← hlen, ← hlen, Nat.sub_zero] at hk
    rw [← hlen] at hlim
    refine ⟨Function.update (Function.update s i dst) (!i) src,
      (fuelled_exec _).returns (limit + 1) ?_, ?_⟩
    · simp [exec, cbufMove, ← hlen, ← hlim, hrun, specStep, ← hk]
    · simp only [specStep, ← hlim, ← hk]
      refine (h.update i ha.valid ha.capacity ?_).update (!i) hr.valid ?_ ?_
      · simpa [h.contents] using ha.contents
      · simpa using hr.capacity
      · simpa [h.contents] using hr.contents
  | headAdvance i count =>
    have ha := (h.valid i).drops count
    exact ⟨_, (fuelled_exec _).returns 0 rfl, h.update i ha.valid ha.capacity
      (by simpa [h.contents] using ha.contents)⟩
  | tailAdvance i bytes =>
    obtain ⟨k, c', hk, hrun, ha⟩ := cbufMoveInLoop_spec le_rfl hop (bytes.length + 1) 0 (h.valid i)
      (Nat.zero_le _) (Nat.lt_succ_self _)
    rw [Nat.sub_zero] at hk
    have ht : bytes.take k = bytes.take ((s i).capacity - (s i).size) := by
      rw [hk, min_comm, ← List.take_take, List.take_length]
    rw [List.drop_zero, ht] at ha
    refine ⟨Function.update s i c', (fuelled_exec _).returns (bytes.length + 1) ?_, ?_⟩
    · simp [exec, writeAndAdvance, cbufMoveIn, hrun, ha.tailAdvance_eq (h.valid i), specStep]
    · refine h.update i ha.valid ha.capacity ?_
      rw [ha.contents, h.contents, h.capacity, hlen]
  | clear i =>
    exact ⟨_, (fuelled_exec _).returns 0 rfl, h.update i (h.valid i).clear rfl rfl⟩

theorem Run.unique {s s₁ s₂ : Bool → Cbuf} {ops : List Op} {rs₁ rs₂ : List (ℕ × List UInt8)}
    (h₁ : Run s ops rs₁ s₁) (h₂ : Run s ops rs₂ s₂) : rs₁ = rs₂ ∧ s₁ = s₂ := by
  induction h₁ generalizing rs₂ s₂ with
  | nil s =>
    cases h₂
    exact ⟨rfl, rfl⟩
  | cons h hr ih =>
    cases h₂ with
    | cons h' hr' =>
      obtain ⟨rfl, rfl⟩ := h.unique h'
      obtain ⟨rfl, rfl⟩ := ih hr'
      exact ⟨rfl, rfl⟩

theorem Holds.run {room : Bool → ℕ} {s : Bool → Cbuf} {q : Queues} (h : Holds room s q)
    {ops : List Op} (hops : ∀ op ∈ ops, op.Legal) :
    ∃ s', Run s ops (specRun room q ops).1 s' ∧ Holds room s' (specRun room q ops).2 := by
  induction ops generalizing s q with
  | nil => exact ⟨s, .nil s, h⟩
  | cons op ops ih =>
    obtain ⟨s', hr, h'⟩ := exec_spec h (hops op (by simp))
    obtain ⟨s'', hr', h''⟩ := ih h' fun op hop => hops op (by simp [hop])
    exact ⟨s'', .cons hr hr', h''⟩

/-- Two buffers after `cbuf_init`. -/
def start (storage : Bool → List UInt8) (i : Bool) : Cbuf :=
  cbufInit (storage i) (storage i).length

theorem holds_start {storage : Bool → List UInt8} (hpos : ∀ i, storage i ≠ [])
    (hlt : ∀ i, (storage i).length < 2 ^ 63) :
    Holds (fun i => (storage i).length) (start storage) fun _ => [] :=
  ⟨fun i => ⟨rfl, List.length_pos_iff.2 (hpos i), Nat.zero_le _, hlt i⟩, fun _ => rfl, fun _ => rfl⟩

/-- Every sequence of calls on two buffers returns, and returns what it returns on two bounded
    queues, which are the contents of the buffers afterwards. -/
theorem run_queues (storage : Bool → List UInt8) (hpos : ∀ i, storage i ≠ [])
    (hlt : ∀ i, (storage i).length < 2 ^ 63) (ops : List Op) (hops : ∀ op ∈ ops, op.Legal) :
    ∃ s', (∀ rs s, Run (start storage) ops rs s ↔
        rs = (specRun (fun i => (storage i).length) (fun _ => []) ops).1 ∧ s = s') ∧
      ∀ i, contents (s' i) = (specRun (fun i => (storage i).length) (fun _ => []) ops).2 i ∧
        (s' i).capacity = (storage i).length ∧ (s' i).head < (s' i).capacity ∧
        (s' i).size ≤ (s' i).capacity := by
  obtain ⟨s', hr, h⟩ := (holds_start hpos hlt).run hops
  refine ⟨s', fun rs s => ⟨fun hr' => hr'.unique hr, ?_⟩, fun i => ?_⟩
  · rintro ⟨rfl, rfl⟩
    exact hr
  · exact ⟨h.contents i, h.capacity i, (h.valid i).head_lt, (h.valid i).size_le⟩

/-- Four bytes for a buffer of three, of which two are taken out; the next byte wraps, and
    two bytes are moved to the other buffer. -/
theorem run_queues_wrap : ∃ s',
    (∀ rs s, Run (start fun i => cond i [0, 0] [0, 0, 0])
      [.moveIn false [1, 2, 3, 4] 4, .moveOut false [0, 0] 2, .moveIn false [5] 1, .move true 0]
        rs s ↔ rs = [(3, []), (2, [1, 2]), (1, []), (2, [])] ∧ s = s') ∧
      contents (s' true) = [3, 5] ∧ contents (s' false) = [] := by
  obtain ⟨s', h₁, h₂⟩ := run_queues (fun i => cond i [0, 0] [0, 0, 0]) (by decide) (by decide)
    [.moveIn false [1, 2, 3, 4] 4, .moveOut false [0, 0] 2, .moveIn false [5] 1, .move true 0]
    (by simp [Op.Legal])
  exact ⟨s', h₁, (h₂ true).1, (h₂ false).1⟩

end Dlb.Cbuf
