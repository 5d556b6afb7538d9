import Dlb.Strbuf.Append

/-!
# Reserving room in a string buffer

`strbuf_capacity_hint` makes the capacity the least power of two that is large enough for the length it is
given, which may be less than the capacity before. As every function that appends calls it, a reservation
lasts only if there is nothing to give back: up to a length of 31.
-/

namespace Dlb.Strbuf

variable {buf buf' : Strbuf} {a a' : Answer} {src bs : List UInt8} {r len : ℤ} {b c k n pos : ℕ}

/-! ## Writing -/

theorem write_eq (hb : buf.blank = false) (hle : pos + bs.length ≤ buf.text.length) :
    buf.write pos bs = some (buf.text.take pos ++ bs ++ buf.text.drop (pos + bs.length)) := by
  rw [write, if_pos ⟨hb, hle⟩]

/-- What two texts have in common. -/
theorem take_eq_of_take {text text' : List UInt8} (h : text'.take k = text.take k) (hn : n ≤ k) :
    text'.take n = text.take n := by
  rw [← Nat.min_eq_left hn, ← List.take_take, h, List.take_take]

theorem getElem?_eq_of_take {text text' : List UInt8} (h : text'.take k = text.take k) (hn : n < k) :
    text'[n]? = text[n]? := by
  rw [← List.getElem?_take_of_lt hn, h, List.getElem?_take_of_lt hn]

/-- What is in the text after some bytes have been written. -/
structure Written (text : List UInt8) (pos : ℕ) (bs text' : List UInt8) : Prop where
  length : text'.length = text.length
  before : ∀ k ≤ pos, text'.take k = text.take k
  upTo : text'.take (pos + bs.length) = text.take pos ++ bs
  get : ∀ i < bs.length, text'[pos + i]? = bs[i]?

theorem written_write (hle : pos + bs.length ≤ buf.text.length) :
    Written buf.text pos bs (buf.text.take pos ++ bs ++ buf.text.drop (pos + bs.length)) := by
  have hlen : (buf.text.take pos).length = pos := by
    rw [List.length_take]
    omega
  have hup : (buf.text.take pos ++ bs).length = pos + bs.length := by
    rw [List.length_append, hlen]
  refine ⟨?_, fun k hk => ?_, List.take_left' hup, fun i hi => ?_⟩
  · rw [List.length_append, hup, List.length_drop]
    omega
  · rw [List.append_assoc, List.take_append_of_le_length (by omega), List.take_take,
      Nat.min_eq_left hk]
  · rw [List.append_assoc, List.getElem?_append_right (by omega), hlen, Nat.add_sub_cancel_left,
      List.getElem?_append_left hi]

/-! ## `strbuf_capacity_hint` -/

theorem capLoop_spec {need fuel x : ℕ} (hx : x = 0 ∧ 0 < need ∨ ∃ j, 5 ≤ j ∧ j ≤ 63 ∧ x = 2 ^ j)
    (e : capLoop need fuel x = some c) : need ≤ c ∧ ∃ j, 5 ≤ j ∧ j ≤ 63 ∧ c = 2 ^ j := by
  induction fuel generalizing x with
  | zero => cases e
  | succ fuel ih =>
    rw [capLoop] at e
    split at e
    next hlt =>
      refine ih ?_ e
      rcases hx with ⟨rfl, -⟩ | ⟨j, h₅, hj, rfl⟩
      · exact .inl ⟨rfl, hlt⟩
      · rw [← Nat.pow_succ]
        rcases Nat.eq_or_lt_of_le hj with rfl | hj
        · exact .inl ⟨rfl, by omega⟩
        · exact .inr ⟨j + 1, by omega, hj,
            Nat.mod_eq_of_lt (Nat.pow_lt_pow_right Nat.one_lt_two (by omega))⟩
    next hle =>
      obtain rfl := Option.some.inj e
      exact ⟨Nat.not_lt.1 hle, hx.resolve_left fun h₀ => hle (h₀.1 ▸ h₀.2)⟩

/-- The capacity is a power of two, and large enough unless the length is that of no string. -/
theorem newCap_spec (e : newCap n = some c) :
    (n + 1) % 2 ^ 64 ≤ c ∧ ∃ j, 5 ≤ j ∧ j ≤ 63 ∧ c = 2 ^ j :=
  capLoop_spec (.inr ⟨5, le_rfl, by omega, rfl⟩) e

/-- A buffer whose capacity is a power of two. -/
structure Rounded (buf : Strbuf) : Prop extends Valid buf where
  pow : buf.blank = false → ∃ j, 5 ≤ j ∧ buf.capacity = 2 ^ j

theorem rounded_init : Rounded strbufInit :=
  ⟨valid_init, fun h => by simp [strbufInit] at h⟩

/-- The memory that `strbuf_capacity_hint` asks for is refused. -/
def HintFails (a : Answer) (buf : Strbuf) (n : ℕ) : Prop :=
  buf.length ≤ n ∧ ∃ c, newCap n = some c ∧ c ≠ buf.capacity ∧
    realloc a (if buf.blank then [] else buf.text) c = none

/-- Whatever the length is: nothing changes, or the block gets another size. -/
theorem hint_cases (e : strbufCapacityHint a buf n = some (r, buf')) :
    r = -1 ∧ buf' = buf ∧ HintFails a buf n ∨ r = 0 ∧ ¬HintFails a buf n ∧
      (buf' = buf ∧ (n < buf.length ∨ newCap n = some buf.capacity) ∨
        buf.length ≤ n ∧ ∃ c text, newCap n = some c ∧
          realloc a (if buf.blank then [] else buf.text) c = some text ∧
          buf' = { buf with blank := false, text := text, capacity := c }) := by
  simp only [strbufCapacityHint, Option.bind_eq_bind, Option.pure_def] at e
  split at e
  next hlt =>
    cases e
    exact .inr ⟨rfl, fun hf => Nat.not_le.2 hlt hf.1, .inl ⟨rfl, .inl hlt⟩⟩
  next hle =>
    obtain ⟨c, hc, e⟩ := Option.bind_eq_some_iff.1 e
    split at e
    next heq =>
      cases e
      refine .inr ⟨rfl, ?_, .inl ⟨rfl, .inr (heq ▸ hc)⟩⟩
      rintro ⟨-, c', hc', hne, -⟩
      exact hne ((Option.some.inj (hc'.symm.trans hc)).trans heq)
    next hne =>
      split at e
      next hre =>
        cases e
        exact .inl ⟨rfl, rfl, Nat.not_lt.1 hle, c, hc, hne, hre⟩
      next hre =>
        cases e
        refine .inr ⟨rfl, ?_, .inr ⟨Nat.not_lt.1 hle, c, _, hc, hre, rfl⟩⟩
        rintro ⟨-, c', hc', -, hre'⟩
        obtain rfl := Option.some.inj (hc.symm.trans hc')
        rw [hre'] at hre
        cases hre

/-- Without memory nothing changes. -/
theorem hint_none (buf : Strbuf) (hc : newCap n = some c) : strbufCapacityHint none buf n =
    some (if n < buf.length ∨ c = buf.capacity then 0 else -1, buf) := by
  simp only [strbufCapacityHint, hc, Option.bind_eq_bind, Option.bind_some, Option.pure_def]
  by_cases hlt : n < buf.length
  · simp [hlt]
  · by_cases heq : c = buf.capacity
    · simp [heq]
    · simp [hlt, heq, realloc]

/-- The buffer `buf'` is `buf` with the capacity for a string of the length `n`; the nul is kept if
    `buf` has a block. -/
structure Roomy (buf : Strbuf) (n : ℕ) (buf' : Strbuf) : Prop extends Reserved buf n buf' where
  failed : buf'.failed = buf.failed
  take : buf.blank = false → buf'.text.take (buf.length + 1) = buf.text.take (buf.length + 1)

theorem Valid.hint (h : Valid buf) (hn : n < 2 ^ 63) (hle : buf.length ≤ n) (a : Answer) :
    ∃ r buf', strbufCapacityHint a buf n = some (r, buf') ∧
      (r = -1 ∧ buf' = buf ∧ HintFails a buf n ∨ r = 0 ∧ ¬HintFails a buf n ∧ Roomy buf n buf') := by
  obtain ⟨r, buf', e, hres⟩ := h.capacityHint hn hle a
  refine ⟨r, buf', e, ?_⟩
  rcases hint_cases e with hf | ⟨rfl, hf, hcase⟩
  · exact .inl hf
  · obtain ⟨h₀, -⟩ | ⟨-, hres⟩ := hres
    · cases h₀
    refine .inr ⟨rfl, hf, hres, ?_, fun hb => ?_⟩
    · rcases hcase with ⟨rfl, -⟩ | ⟨-, c, text, -, -, rfl⟩
      · rfl
      · rfl
    · rcases hcase with ⟨rfl, -⟩ | ⟨-, c, text, hc, hre, rfl⟩
      · rfl
      · have hlt : n < c := hres.lt
        rw [if_neg (by simp [hb])] at hre
        exact take_realloc hre h.lt (by omega)

/-! ## `strbuf_resize` -/

/-- The buffer `buf'` is `buf` with the length `n`. -/
structure Resized (buf : Strbuf) (n : ℕ) (buf' : Strbuf) : Prop where
  valid : Valid buf'
  blank : buf'.blank = false
  length : buf'.length = n
  failed : buf'.failed = buf.failed
  nul : buf'.text[n]? = some 0
  take : ∀ k ≤ n, k ≤ buf.length → buf'.text.take k = buf.text.take k
  capacity : buf.blank = false ∧ buf'.capacity = buf.capacity ∨
    ∃ m ≤ n + 1, newCap m = some buf'.capacity ∧ (n < buf.capacity → (n + 1) * 4 < buf.capacity)

/-- There is room for the length. -/
theorem Valid.setLength (h : Valid buf) (hb : buf.blank = false) (hlt : n < buf.capacity)
    (a : Answer) : ∃ buf', setLength a buf n = some buf' ∧ Resized buf n buf' := by
  have htext := h.text hb
  have hle := h.le
  have hroom : n + [(0 : UInt8)].length ≤ buf.text.length := by
    rw [List.length_singleton]
    omega
  obtain ⟨text, ht⟩ : ∃ text, text = buf.text.take n ++ [0] ++
    buf.text.drop (n + [(0 : UInt8)].length) := ⟨_, rfl⟩
  have hw : Written buf.text n [0] text := ht ▸ written_write hroom
  obtain ⟨buf₁, hbuf₁⟩ : ∃ buf₁, buf₁ = { buf with text := text, length := n } := ⟨_, rfl⟩
  have hset : buf₁.text = text ∧ buf₁.length = n ∧ buf₁.capacity = buf.capacity ∧
      buf₁.blank = false ∧ buf₁.failed = buf.failed := by
    rw [hbuf₁]
    exact ⟨rfl, rfl, rfl, hb, rfl⟩
  obtain ⟨h₁, h₂, h₃, h₄, h₅⟩ := hset
  have hlen : text.length = buf.capacity := hw.length.trans htext
  have hv : Valid buf₁ :=
    ⟨by rwa [h₁, h₂, hlen], fun _ => by rw [h₁, h₃, hlen], fun hb' => by simp [h₄] at hb', h₃ ▸ hle⟩
  have hres : Resized buf n buf₁ := by
    refine ⟨hv, h₄, h₂, h₅, ?_, fun k hk _ => ?_, .inl ⟨hb, h₃⟩⟩
    · rw [h₁]
      exact hw.get 0 (by simp)
    · rw [h₁, hw.before k hk]
  have hmod : (n + 1) % 2 ^ 64 = n + 1 := Nat.mod_eq_of_lt (by omega)
  rw [Strbuf.setLength, write_eq hb hroom, ← ht]
  simp only [Option.bind_eq_bind, Option.bind_some, Option.pure_def, hmod, ← hbuf₁]
  split
  next hsmall =>
    -- The nul is part of what is kept when the capacity is changed.
    obtain ⟨r, buf₂, e, hcase⟩ := hv.hint (n := n + 1) (by omega) (by omega) a
    rw [e]
    refine ⟨buf₂, rfl, ?_⟩
    rcases hcase with ⟨-, rfl, -⟩ | ⟨-, -, hr⟩
    · exact hres
    · have htake := hr.take h₄
      rw [h₂] at htake
      refine ⟨hr.valid, hr.blank, hr.length.trans h₂, hr.failed.trans h₅, ?_, fun k hk hk' => ?_,
        .inr ⟨n + 1, le_rfl, hr.capacity, fun _ => ?_⟩⟩
      · rw [getElem?_eq_of_take htake (Nat.lt_succ_self n)]
        exact hres.nul
      · rw [take_eq_of_take htake (Nat.le_succ_of_le hk)]
        exact hres.take k hk hk'
      · -- The product does not overflow, as there was memory for more than `n + 1` bytes.
        have hlt' := hr.lt
        have hle' := hr.valid.le
        omega
  · exact ⟨buf₁, rfl, hres⟩

/-- A length that memory can hold is set, or memory is refused and the flag is set. -/
theorem Valid.resize (h : Valid buf) (hn : n < 2 ^ 63) (a a' : Answer) :
    ∃ r buf', strbufResize a a' buf n = some (r, buf') ∧
      (r = -1 ∧ buf' = { buf with failed := true } ∧ HintFails a buf n ∨
        r = 0 ∧ Resized buf n buf') := by
  have hmod : (n + 1) % 2 ^ 64 = n + 1 := Nat.mod_eq_of_lt (by omega)
  rw [strbufResize, hmod]
  split
  next hgt =>
    have hle : buf.length ≤ n := by
      cases hb : buf.blank with
      | true => exact (h.blank hb).1.le.trans (Nat.zero_le n)
      | false =>
        have hlt := h.lt
        have htext := h.text hb
        omega
    obtain ⟨r, buf₁, e, ⟨rfl, rfl, hf⟩ | ⟨rfl, -, hr⟩⟩ := h.hint hn hle a
    · exact ⟨-1, { buf₁ with failed := true }, by simp [e], .inl ⟨rfl, rfl, hf⟩⟩
    · obtain ⟨buf₂, e₂, hres⟩ := hr.valid.setLength hr.blank hr.lt a'
      refine ⟨0, buf₂, by simp [e, e₂], .inr ⟨rfl, hres.valid, hres.blank, hres.length,
        hres.failed.trans hr.failed, hres.nul, fun k hk hk' => ?_, .inr ?_⟩⟩
      · have hcont := hr.content
        rw [content, content, hr.length] at hcont
        rw [hres.take k hk (by rwa [hr.length])]
        exact take_eq_of_take hcont hk'
      · rcases hres.capacity with ⟨-, hcap⟩ | ⟨m, hm, hcap, -⟩
        · exact ⟨n, Nat.le_succ n, hcap ▸ hr.capacity, fun hlt => by omega⟩
        · exact ⟨m, hm, hcap, fun hlt => by omega⟩
  next hle =>
    have hb : buf.blank = false := by
      cases hb : buf.blank with
      | true =>
        have := (h.blank hb).2.1
        omega
      | false => rfl
    obtain ⟨buf₁, e, hres⟩ := h.setLength hb (show n < buf.capacity by omega) a'
    exact ⟨0, buf₁, by simp [e], .inr ⟨rfl, hres⟩⟩

/-! ## `strbuf_add_string` -/

/-- The bytes that `strbuf_add_string` is given. -/
def given (src : List UInt8) (length : ℤ) : List UInt8 :=
  if length < 0 then src.takeWhile (· != 0) else src.take length.toNat

theorem strlen_eq (h : (0 : UInt8) ∈ src) : strlen src = some (src.takeWhile (· != 0)).length := by
  induction src with
  | nil => cases h
  | cons x src ih =>
    rw [strlen, List.findIdx?_cons]
    by_cases hx : x = 0
    · simp [hx]
    · have hmem : (0 : UInt8) ∈ src := (List.mem_cons.1 h).resolve_left (Ne.symm hx)
      have hsrc : src.findIdx? (· == 0) = some (src.takeWhile (· != 0)).length := ih hmem
      simp [hx, hsrc]

theorem given_isPrefix (src : List UInt8) (len : ℤ) : given src len <+: src := by
  rw [given]
  split
  · exact List.takeWhile_prefix _
  · exact List.take_prefix ..

theorem givenLength_eq (h : (Call.addString src len).Valid) (hlt : (given src len).length < 2 ^ 31) :
    givenLength src len = some ((given src len).length : ℤ) := by
  obtain ⟨-, h⟩ := h
  rw [given] at hlt ⊢
  rw [givenLength]
  split at h
  next hneg =>
    rw [if_pos hneg] at hlt ⊢
    rw [if_pos hneg, strlen_eq h, Option.map_some, toInt_eq hlt]
  next hpos =>
    rw [if_neg hpos, if_neg hpos, List.length_take, Nat.min_eq_left (by omega)]
    exact congrArg some (Int.toNat_of_nonneg (Int.not_lt.1 hpos)).symm

/-- A character is a string of one byte. -/
theorem valid_addChar (c : UInt8) : (Call.addString [c] 1).Valid := by
  constructor <;> simp

/-- A call with a string of less than 2^31 bytes. -/
theorem Valid.add (h : Valid buf) (hc : (Call.addString src len).Valid)
    (hlt : (given src len).length < 2 ^ 31) (a : Answer) :
    ∃ r buf', strbufAddString a buf src len = some (r, buf') ∧
      (r = -1 ∧ buf' = buf ∧ Refused a buf (buf.length + (given src len).length) ∨
        r = (given src len).length ∧ Appended buf (given src len) buf') :=
  h.addString (givenLength_eq hc hlt) (given_isPrefix src len) hlt a

/-! ## A reservation -/

/-- A call that leaves a length of at most `n`, and is an append or a change of the length. -/
def Call.Within (n : ℕ) (buf : Strbuf) : Call → Prop
  | .addChar _ => buf.length + 1 ≤ n
  | .addString src len =>
    (Call.addString src len).Valid ∧ buf.length + (given src len).length ≤ n
  | .resize m => m ≤ n
  | .init | .clear | .capacityHint _ | .printf _ => False

/-- Calls succeed, with these answers for memory, as long as they leave a length of at most `n`. -/
def Honours (n : ℕ) : Strbuf → List ((ℕ → Answer) × Call) → Prop
  | _, [] => True
  | buf, (a, c) :: cs => c.Within n buf →
    ∃ r buf', c.exec a buf = some (r, buf') ∧ 0 ≤ r ∧ Honours n buf' cs

theorem newCap_of_lt (hn : n < 32) : newCap n = some 32 := by
  rw [newCap, Nat.mod_eq_of_lt (by omega), capLoop, if_neg (by omega)]

/-- A buffer with the least capacity. -/
structure Least (buf : Strbuf) : Prop where
  valid : Valid buf
  blank : buf.blank = false
  capacity : buf.capacity = 32

theorem Least.length_lt (h : Least buf) : buf.length < 32 := by
  have hlt := h.valid.lt
  rw [h.valid.text h.blank, h.capacity] at hlt
  exact hlt

theorem Least.add (h : Least buf) (hc : (Call.addString src len).Valid)
    (hle : buf.length + (given src len).length < 32) (a : Answer) :
    ∃ r buf', strbufAddString a buf src len = some (r, buf') ∧ 0 ≤ r ∧ Least buf' := by
  have hcap := newCap_of_lt hle
  obtain ⟨r, buf', e, ⟨-, -, href, -⟩ | ⟨rfl, happ⟩⟩ := h.valid.add hc (by omega) a
  · exact absurd (hcap.trans (congrArg some h.capacity.symm)) href
  · refine ⟨_, buf', e, Int.natCast_nonneg _, happ.valid, happ.blank, ?_⟩
    exact Option.some.inj (happ.capacity.symm.trans hcap)

theorem Least.resize (h : Least buf) (hn : n < 32) (a a' : Answer) :
    ∃ buf', strbufResize a a' buf n = some (0, buf') ∧ Least buf' := by
  obtain ⟨r, buf', e, ⟨-, -, -, c, hc, hne, -⟩ | ⟨rfl, hres⟩⟩ :=
    h.valid.resize (show n < 2 ^ 63 by omega) a a'
  · rw [newCap_of_lt hn] at hc
    exact absurd ((Option.some.inj hc).symm.trans h.capacity.symm) hne
  · refine ⟨buf', e, hres.valid, hres.blank, ?_⟩
    rcases hres.capacity with ⟨-, hcap⟩ | ⟨m, hm, hcap, hlt⟩
    · rw [hcap, h.capacity]
    · rw [h.capacity] at hlt
      have hsmall := hlt hn
      exact Option.some.inj (hcap.symm.trans (newCap_of_lt (by omega)))

theorem Least.honours (h : Least buf) (hn : n < 32) (cs : List ((ℕ → Answer) × Call)) :
    Honours n buf cs := by
  induction cs generalizing buf with
  | nil => trivial
  | cons x cs ih =>
    obtain ⟨a, c⟩ := x
    intro hw
    cases c with
    | addChar c =>
      have hlen : buf.length + 1 ≤ n := hw
      obtain ⟨r, buf', e, hr, h'⟩ := h.add (valid_addChar c) (by simp [given]; omega) (a 0)
      exact ⟨r, buf', e, hr, ih h'⟩
    | addString src len =>
      obtain ⟨hv, hlen⟩ := hw
      obtain ⟨r, buf', e, hr, h'⟩ := h.add hv (by omega) (a 0)
      exact ⟨r, buf', e, hr, ih h'⟩
    | resize m =>
      have hm : m ≤ n := hw
      obtain ⟨buf', e, h'⟩ := h.resize (show m < 32 by omega) (a 0) (a 1)
      exact ⟨0, buf', e, le_rfl, ih h'⟩
    | init | clear | capacityHint | printf => cases hw

/-- A string is refused if the capacity for it is another one and there is no memory. -/
theorem Valid.add_none (h : Valid buf) (hc : (Call.addString src len).Valid)
    (hlt : (given src len).length < 2 ^ 31)
    (hcap : newCap (buf.length + (given src len).length) ≠ some buf.capacity) :
    strbufAddString none buf src len = some (-1, buf) := by
  have hle := h.length_lt
  have hsize : toSize (buf.length + ((given src len).length : ℤ)) =
      buf.length + (given src len).length := by
    rw [← Int.natCast_add]
    exact toSize_natCast (by omega)
  obtain ⟨j, -, hj, -⟩ := newCap_eq (n := buf.length + (given src len).length) (b := 63) (by omega)
    (by omega) le_rfl
  have hne : 2 ^ j ≠ buf.capacity := fun he => hcap (he ▸ hj)
  have hhint := hint_none buf hj
  rw [if_neg (by omega)] at hhint
  simp [strbufAddString, givenLength_eq hc hlt, hsize, hhint]

/-- The empty string in the block, when there is no memory. -/
theorem resize_zero_none (hb : buf.blank = false) (htext : buf.text.length = buf.capacity)
    (hpos : 0 < buf.capacity) (hle : buf.capacity ≤ 2 ^ 62) :
    ∃ buf', strbufResize none none buf 0 = some (0, buf') ∧ Valid buf' ∧ buf'.blank = false ∧
      buf'.length = 0 ∧ buf'.capacity = buf.capacity := by
  have hroom : 0 + [(0 : UInt8)].length ≤ buf.text.length := by
    rw [htext]
    exact hpos
  obtain ⟨text, ht⟩ : ∃ text, text = buf.text.take 0 ++ [0] ++
    buf.text.drop (0 + [(0 : UInt8)].length) := ⟨_, rfl⟩
  have hw : Written buf.text 0 [0] text := ht ▸ written_write hroom
  have hlen : text.length = buf.capacity := hw.length.trans htext
  refine ⟨{ buf with text := text, length := 0 }, ?_,
    ⟨hlen ▸ hpos, fun _ => hlen, fun hb' => by simp [hb] at hb', hle⟩, hb, rfl, rfl⟩
  have hset : setLength none buf 0 = some { buf with text := text, length := 0 } := by
    have hcap := hint_none { buf with text := text, length := 0 }
      (newCap_of_lt (show (0 + 1) % 2 ^ 64 < 32 by norm_num))
    rw [setLength, write_eq hb hroom, ← ht]
    simp only [Option.bind_eq_bind, Option.bind_some, Option.pure_def, hcap]
    split <;> rfl
  have hgt : ¬(0 + 1) % 2 ^ 64 > buf.capacity := by
    rw [Nat.mod_eq_of_lt (by norm_num)]
    omega
  rw [strbufResize, if_neg hgt]
  simp [hset]

/-- What a call of `strbuf_capacity_hint` that succeeds has made of the buffer. -/
theorem Valid.hint_zero (h : Valid buf) (hle : buf.length ≤ n)
    (e : strbufCapacityHint a buf n = some (0, buf')) :
    newCap n = some buf'.capacity ∧ buf'.blank = false ∧ buf'.text.length = buf'.capacity ∧
      buf'.capacity ≤ 2 ^ 62 := by
  rcases hint_cases e with ⟨h₀, -⟩ | ⟨-, -, ⟨rfl, hlt | hc⟩ | ⟨-, c, text, hc, hre, rfl⟩⟩
  · cases h₀
  · omega
  · have hb : buf'.blank = false := by
      cases hb : buf'.blank with
      | false => rfl
      | true =>
        obtain ⟨-, j, h₅, -, hj⟩ := newCap_spec hc
        have := Nat.two_pow_pos j
        have := (h.blank hb).2.1
        omega
    exact ⟨hc, hb, h.text hb, h.le⟩
  · obtain ⟨hlen, hlt⟩ := length_realloc hre
    obtain ⟨-, j, -, -, rfl⟩ := newCap_spec hc
    have hj : j < 63 := (Nat.pow_lt_pow_iff_right Nat.one_lt_two).1 hlt
    exact ⟨hc, rfl, hlen, Nat.pow_le_pow_right Nat.two_pos (by omega)⟩

/-- With another capacity than the least one, there is no memory for the first character. -/
theorem Valid.addChar_none (h : Valid buf) (hl : buf.length = 0) (hc : buf.capacity ≠ 32) :
    strbufAddChar none buf 1 = some (-1, buf) := by
  have hone : (given [1] 1).length = 1 := rfl
  refine h.add_none (valid_addChar 1) (by simp [hone]) ?_
  rw [hl, hone, newCap_of_lt (by decide)]
  exact fun he => hc (Option.some.inj he).symm

/-- With the least capacity, there is room for a character, but no memory for 31 more. -/
theorem Least.addString_none (h : Least buf) (hl : buf.length = 0) :
    ∃ buf', strbufAddChar none buf 1 = some (1, buf') ∧ buf'.length = 1 ∧
      strbufAddString none buf' (List.replicate 31 1) 31 = some (-1, buf') := by
  have hone : (given [1] 1).length = 1 := rfl
  obtain ⟨r, buf', e, ⟨-, -, href, -⟩ | ⟨rfl, happ⟩⟩ :=
    h.valid.add (valid_addChar 1) (by simp [hone]) none
  · rw [hl, hone, h.capacity] at href
    exact absurd (newCap_of_lt (by decide)) href
  have hl' : buf'.length = 1 := by rw [happ.length, hl, hone]
  have hc' : buf'.capacity = 32 := by
    have hcap := happ.capacity
    rw [hl, hone, newCap_of_lt (by decide)] at hcap
    exact (Option.some.inj hcap).symm
  have hbig : (given (List.replicate 31 1) 31).length = 31 := rfl
  refine ⟨buf', e, hl', happ.valid.add_none (by constructor <;> decide) (by decide) ?_⟩
  rw [hl', hbig, hc']
  decide

/-- A buffer with room for a length of 32 or more does not keep it without memory: the length is set to
    zero, and then a character and 31 more are added. -/
theorem not_honours (hb : buf.blank = false) (htext : buf.text.length = buf.capacity)
    (hpos : 0 < buf.capacity) (hle : buf.capacity ≤ 2 ^ 62) (hn : 32 ≤ n) :
    ¬Honours n buf [(fun _ => none, .resize 0), (fun _ => none, .addChar 1),
      (fun _ => none, .addString (List.replicate 31 1) 31)] := by
  intro hh
  obtain ⟨r, buf₁, e, -, hh⟩ := hh (Nat.zero_le n)
  obtain ⟨buf₁', e₁, hv, hb₁, hl₁, hc₁⟩ := resize_zero_none hb htext hpos hle
  obtain ⟨-, rfl⟩ := Prod.mk.inj (Option.some.inj (e.symm.trans e₁))
  obtain ⟨r, buf₂, e, hr, hh⟩ := hh (show buf₁.length + 1 ≤ n by omega)
  by_cases h₃₂ : buf₁.capacity = 32
  · obtain ⟨buf₂', e₂, hl₂, e₃⟩ := Least.addString_none ⟨hv, hb₁, h₃₂⟩ hl₁
    obtain ⟨-, rfl⟩ := Prod.mk.inj (Option.some.inj (e.symm.trans e₂))
    have hbig : (given (List.replicate 31 1) 31).length = 31 := rfl
    obtain ⟨r, buf₃, e, hr, -⟩ := hh ⟨by constructor <;> decide, by omega⟩
    obtain ⟨rfl, -⟩ := Prod.mk.inj (Option.some.inj (e.symm.trans e₃))
    omega
  · obtain ⟨rfl, -⟩ := Prod.mk.inj (Option.some.inj (e.symm.trans (hv.addChar_none hl₁ h₃₂)))
    omega

/-- The reservation for a length of `n` is kept without memory if and only if `n` is less than 32. -/
theorem hint_honoured_iff (h : Valid buf) (hn : n < 2 ^ 64) (hle : buf.length ≤ n)
    (e : strbufCapacityHint a buf n = some (0, buf')) : (∀ cs, Honours n buf' cs) ↔ n < 32 := by
  obtain ⟨hc, hb, htext, hcap⟩ := h.hint_zero hle e
  constructor
  · intro hh
    by_contra hlt
    obtain ⟨-, j, -, -, hj⟩ := newCap_spec hc
    exact not_honours hb htext (hj ▸ Nat.two_pow_pos j) hcap (Nat.not_lt.1 hlt) (hh _)
  · intro hlt
    obtain ⟨r, buf₁, e₁, ⟨hr, -⟩ | ⟨-, -, hr⟩⟩ := h.hint (show n < 2 ^ 63 by omega) hle a
    · obtain ⟨h₀, -⟩ := Prod.mk.inj (Option.some.inj (e₁.symm.trans e))
      omega
    · obtain ⟨-, rfl⟩ := Prod.mk.inj (Option.some.inj (e₁.symm.trans e))
      refine Least.honours ⟨hr.valid, hr.blank, ?_⟩ hlt
      exact Option.some.inj (hc.symm.trans (newCap_of_lt hlt))

/-- A reservation for 20 bytes is kept. -/
theorem hint_honoured_twenty : ∃ buf', strbufCapacityHint (some fun _ => 0) strbufInit 20 =
    some (0, buf') ∧ ((∀ cs, Honours 20 buf' cs) ↔ 20 < 32) :=
  ⟨⟨false, List.replicate 32 0, 0, 32, false⟩, by decide,
    hint_honoured_iff (a := some fun _ => 0) valid_init (by decide) (by decide) (by decide)⟩

/-- A reservation for 100 bytes is given back when a character is added, and if there is no memory for
    a smaller block, the character is not added. -/
theorem not_honoured : ∃ buf', strbufCapacityHint (some fun _ => 0) strbufInit 100 = some (0, buf') ∧
    ¬Honours 100 buf' [(fun _ => none, .addChar 120)] := by
  refine ⟨_, rfl, fun h => ?_⟩
  obtain ⟨r, buf', e, hr, -⟩ := h (show 0 + 1 ≤ 100 by decide)
  change some ((-1 : ℤ), _) = _ at e
  obtain ⟨rfl, -⟩ := Prod.mk.inj (Option.some.inj e)
  exact absurd hr (by decide)

end Dlb.Strbuf
