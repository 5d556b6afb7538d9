import Mathlib.Tactic.Common
import Mathlib.Data.List.Nodup
import Dlb.Memory

/-!
# Numbers as bytes

`src/src/bytes.h`. Each function goes through the bytes of a number from the lowest one on, and is
given by the places where they are: `readAt` and `writeAt` are for any places.

* `read_write`, `write_read`: the bytes of one number;
* `decode_encode`, `encode_decode`: the numbers of a record, one behind the other.
-/

namespace Dlb.Bytes

variable {m m' : Mem} {w k p q j : ℕ} {os : List ℕ} {v : BitVec w}

/-- The bytes at `data[o]`, for `o` in the list, as those from the `k`-th one on. -/
def readAt (w : ℕ) (m : Mem) (data : ℕ) : ℕ → List ℕ → BitVec w
  | _, [] => 0
  | k, o :: os => (m (data + o)).toBitVec.setWidth w <<< (8 * k) ||| readAt w m data (k + 1) os

/-- The bytes of `v` from the `k`-th one on are written to `data[o]`, for `o` in the list. -/
def writeAt (data : ℕ) (v : BitVec w) : ℕ → List ℕ → Mem → Mem
  | _, [], m => m
  | k, o :: os, m =>
    writeAt data v (k + 1) os (Function.update m (data + o) ⟨(v >>> (8 * k)).setWidth 8⟩)

def bytesR16le (m : Mem) (data : ℕ) : BitVec 16 := readAt 16 m data 0 [0, 1]

def bytesR16net (m : Mem) (data : ℕ) : BitVec 16 := readAt 16 m data 0 [1, 0]

def bytesW16le (m : Mem) (data : ℕ) (v : BitVec 16) : Mem := writeAt data v 0 [0, 1] m

def bytesW16net (m : Mem) (data : ℕ) (v : BitVec 16) : Mem := writeAt data v 0 [1, 0] m

def bytesR32le (m : Mem) (data : ℕ) : BitVec 32 := readAt 32 m data 0 [0, 1, 2, 3]

def bytesR32net (m : Mem) (data : ℕ) : BitVec 32 := readAt 32 m data 0 [3, 2, 1, 0]

def bytesW32le (m : Mem) (data : ℕ) (v : BitVec 32) : Mem := writeAt data v 0 [0, 1, 2, 3] m

def bytesW32net (m : Mem) (data : ℕ) (v : BitVec 32) : Mem := writeAt data v 0 [3, 2, 1, 0] m

def bytesR64le (m : Mem) (data : ℕ) : BitVec 64 := readAt 64 m data 0 [0, 1, 2, 3, 4, 5, 6, 7]

def bytesR64net (m : Mem) (data : ℕ) : BitVec 64 := readAt 64 m data 0 [7, 6, 5, 4, 3, 2, 1, 0]

def bytesW64le (m : Mem) (data : ℕ) (v : BitVec 64) : Mem :=
  writeAt data v 0 [0, 1, 2, 3, 4, 5, 6, 7] m

def bytesW64net (m : Mem) (data : ℕ) (v : BitVec 64) : Mem :=
  writeAt data v 0 [7, 6, 5, 4, 3, 2, 1, 0] m

/-! ## One number -/

theorem readAt_congr (h : ∀ o ∈ os, m (p + o) = m' (p + o)) :
    readAt w m p k os = readAt w m' p k os := by
  induction os generalizing k with
  | nil => rfl
  | cons o os ih =>
    rw [readAt, readAt, h o (by simp), ih fun x hx => h x (by simp [hx])]

theorem writeAt_of_not_mem (h : ∀ o ∈ os, q ≠ p + o) : writeAt p v k os m q = m q := by
  induction os generalizing k m with
  | nil => rfl
  | cons o os ih =>
    rw [writeAt, ih fun x hx => h x (by simp [hx]), Function.update_of_ne (h o (by simp))]

/-- The bits below the bytes that are read are zero. -/
theorem readAt_low (hj : j < 8 * k) : (readAt w m p k os).getLsbD j = false := by
  induction os generalizing k with
  | nil => simp [readAt]
  | cons o os ih => simp [readAt, hj, ih (show j < 8 * (k + 1) by omega)]

/-- A bit of a number that is read is in the byte that has its place. -/
theorem getLsbD_readAt (hj : j < w) (hk : 8 * k ≤ j) : (readAt w m p k os).getLsbD j =
    (os[j / 8 - k]?).any fun o => (m (p + o)).toBitVec.getLsbD (j % 8) := by
  induction os generalizing k with
  | nil => simp [readAt]
  | cons o os ih =>
    simp only [readAt, BitVec.getLsbD_or, BitVec.getLsbD_shiftLeft, BitVec.getLsbD_setWidth, hj,
      show ¬j < 8 * k by omega, show j - 8 * k < w by omega]
    rcases eq_or_ne (j / 8) k with rfl | hne
    · have hrest : (readAt w m p (j / 8 + 1) os).getLsbD j = false := readAt_low (by omega)
      have hbit : j - 8 * (j / 8) = j % 8 := by omega
      simp [hrest, hbit]
    · rw [ih (by omega), show j / 8 - k = j / 8 - (k + 1) + 1 by omega, List.getElem?_cons_succ]
      have hhigh : (m (p + o)).toBitVec.getLsbD (j - 8 * k) = false :=
        BitVec.getLsbD_of_ge _ _ (by omega)
      simp [hhigh]

/-- Each byte that is written is the one of its place. -/
theorem writeAt_get {i o : ℕ} (hd : os.Nodup) (hi : os[i]? = some o) :
    writeAt p v k os m (p + o) = ⟨(v >>> (8 * (k + i))).setWidth 8⟩ := by
  induction os generalizing k i m with
  | nil => simp at hi
  | cons x os ih =>
    obtain ⟨hx, hd⟩ := List.nodup_cons.1 hd
    rw [writeAt]
    cases i with
    | zero =>
      obtain rfl : x = o := by simpa using hi
      have hne : ∀ y ∈ os, p + x ≠ p + y := fun y hy e => hx (Nat.add_left_cancel e ▸ hy)
      rw [writeAt_of_not_mem hne, Function.update_self, Nat.add_zero]
    | succ i =>
      rw [ih hd (by simpa using hi), Nat.add_right_comm, Nat.add_assoc]

/-- A number that is written is read again. -/
theorem read_write (hd : os.Nodup) (hw : w = 8 * os.length) :
    readAt w (writeAt p v 0 os m) p 0 os = v := by
  refine BitVec.eq_of_getLsbD_eq fun j hj => ?_
  have hlt : j / 8 < os.length := by omega
  rw [getLsbD_readAt hj (Nat.zero_le j), Nat.sub_zero, List.getElem?_eq_getElem hlt, Option.any_some,
    writeAt_get hd (List.getElem?_eq_getElem hlt)]
  have hbit : 8 * (j / 8) + j % 8 = j := by omega
  simp [hbit, Nat.mod_lt]

/-- A number that is read is written back without a change. -/
theorem write_read (hd : os.Nodup) (hw : w = 8 * os.length) :
    writeAt p (readAt w m p 0 os) 0 os m = m := by
  funext q
  by_cases hq : ∃ o ∈ os, q = p + o
  · obtain ⟨o, ho, rfl⟩ := hq
    obtain ⟨i, hi, rfl⟩ := List.getElem_of_mem ho
    rw [writeAt_get hd (List.getElem?_eq_getElem hi)]
    refine UInt8.eq_of_toBitVec_eq (BitVec.eq_of_getLsbD_eq fun j hj => ?_)
    have hdiv : (8 * i + j) / 8 = i := by omega
    have hmod : (8 * i + j) % 8 = j := by omega
    have hbit : (readAt w m p 0 os).getLsbD (8 * i + j) = _ :=
      getLsbD_readAt (by omega) (Nat.zero_le _)
    rw [Nat.sub_zero, hdiv, hmod, List.getElem?_eq_getElem hi, Option.any_some] at hbit
    simp [hj, hbit]
  · exact writeAt_of_not_mem fun o ho e => hq ⟨o, ho, e⟩

/-! ## Records -/

/-- The formats of a number. -/
inductive Kind
  | u16le
  | u16net
  | u32le
  | u32net
  | u64le
  | u64net

namespace Kind

/-- The number of bytes. -/
def size : Kind → ℕ
  | u16le | u16net => 2
  | u32le | u32net => 4
  | u64le | u64net => 8

def read (m : Mem) (data : ℕ) : (k : Kind) → BitVec (8 * k.size)
  | u16le => bytesR16le m data
  | u16net => bytesR16net m data
  | u32le => bytesR32le m data
  | u32net => bytesR32net m data
  | u64le => bytesR64le m data
  | u64net => bytesR64net m data

def write (m : Mem) (data : ℕ) : (k : Kind) → BitVec (8 * k.size) → Mem
  | u16le => bytesW16le m data
  | u16net => bytesW16net m data
  | u32le => bytesW32le m data
  | u32net => bytesW32net m data
  | u64le => bytesW64le m data
  | u64net => bytesW64net m data

/-- The places of the bytes, from the lowest one on. -/
def offsets : Kind → List ℕ
  | u16le => [0, 1]
  | u16net => [1, 0]
  | u32le => [0, 1, 2, 3]
  | u32net => [3, 2, 1, 0]
  | u64le => [0, 1, 2, 3, 4, 5, 6, 7]
  | u64net => [7, 6, 5, 4, 3, 2, 1, 0]

variable {k : Kind}

theorem read_eq : k.read m p = readAt (8 * k.size) m p 0 k.offsets := by cases k <;> rfl

theorem write_eq {v : BitVec (8 * k.size)} : k.write m p v = writeAt p v 0 k.offsets m := by
  cases k <;> rfl

theorem offsets_nodup : k.offsets.Nodup := by cases k <;> decide

theorem size_eq : 8 * k.size = 8 * k.offsets.length := by cases k <;> rfl

/-- The highest byte is the first one. -/
def net : Kind → Bool
  | u16net | u32net | u64net => true
  | u16le | u32le | u64le => false

theorem offsets_eq :
    k.offsets = if k.net then (List.range k.size).reverse else List.range k.size := by
  cases k <;> rfl

theorem mem_offsets {o : ℕ} : o ∈ k.offsets ↔ o < k.size := by
  rw [offsets_eq]
  split_ifs <;> simp

/-- Where the bits of a number are. -/
theorem getLsbD_read (hj : j < 8 * k.size) : (k.read m p).getLsbD j =
    (m (p + if k.net then k.size - 1 - j / 8 else j / 8)).toBitVec.getLsbD (j % 8) := by
  have hlt : j / 8 < k.size := by omega
  have hplace : k.offsets[j / 8]? = some (if k.net then k.size - 1 - j / 8 else j / 8) := by
    rw [offsets_eq]
    split_ifs
    · rw [List.getElem?_reverse (by simpa using hlt), List.length_range,
        List.getElem?_range (by omega)]
    · exact List.getElem?_range hlt
  rw [read_eq, getLsbD_readAt hj (Nat.zero_le j), Nat.sub_zero, hplace, Option.any_some]

theorem read_congr (h : ∀ q, p ≤ q → q < p + k.size → m q = m' q) : k.read m p = k.read m' p := by
  rw [read_eq, read_eq]
  refine readAt_congr fun o ho => h _ (Nat.le_add_right ..) ?_
  have := mem_offsets.1 ho
  omega

theorem write_of_not_mem {v : BitVec (8 * k.size)} (h : q < p ∨ p + k.size ≤ q) :
    k.write m p v q = m q := by
  rw [write_eq]
  refine writeAt_of_not_mem fun o ho => ?_
  have := mem_offsets.1 ho
  omega

theorem read_write {v : BitVec (8 * k.size)} : k.read (k.write m p v) p = v := by
  rw [read_eq, write_eq]
  exact Bytes.read_write offsets_nodup size_eq

theorem write_read : k.write m p (k.read m p) = m := by
  rw [write_eq, read_eq]
  exact Bytes.write_read offsets_nodup size_eq

end Kind

/-- A number in a format. -/
abbrev Field := (k : Kind) × BitVec (8 * k.size)

/-- The fields are written one behind the other. -/
def encode : Mem → ℕ → List Field → Mem
  | m, _, [] => m
  | m, p, ⟨k, v⟩ :: fs => encode (k.write m p v) (p + k.size) fs

def decode (m : Mem) : ℕ → List Kind → List Field
  | _, [] => []
  | p, k :: ks => ⟨k, k.read m p⟩ :: decode m (p + k.size) ks

/-- The number of bytes of a record. -/
def size : List Kind → ℕ
  | [] => 0
  | k :: ks => k.size + size ks

variable {fs : List Field} {ks : List Kind}

/-- Nothing else is written. -/
theorem encode_of_not_mem (h : q < p ∨ p + size (fs.map Sigma.fst) ≤ q) : encode m p fs q = m q := by
  induction fs generalizing m p with
  | nil => rfl
  | cons f fs ih =>
    obtain ⟨k, v⟩ := f
    simp only [List.map_cons, size] at h
    rw [encode, ih (by omega), Kind.write_of_not_mem (by omega)]

theorem decode_encode : decode (encode m p fs) p (fs.map Sigma.fst) = fs := by
  induction fs generalizing m p with
  | nil => rfl
  | cons f fs ih =>
    obtain ⟨k, v⟩ := f
    have hread : k.read (encode (k.write m p v) (p + k.size) fs) p = v :=
      (Kind.read_congr fun q _ hq => encode_of_not_mem (.inl hq)).trans Kind.read_write
    simp only [List.map_cons, decode, encode, hread, ih]

theorem encode_decode : encode m p (decode m p ks) = m := by
  induction ks generalizing p with
  | nil => rfl
  | cons k ks ih => rw [decode, encode, Kind.write_read, ih]

/-- What is written is read again, whatever the formats; no other byte is changed, and a record that
was read is written back as it is. The bits of each number are where its byte order has them. -/
theorem record_round_trip (m : Mem) (p : ℕ) (fs : List Field) (ks : List Kind) :
    decode (encode m p fs) p (fs.map Sigma.fst) = fs ∧
      (∀ q, q < p ∨ p + size (fs.map Sigma.fst) ≤ q → encode m p fs q = m q) ∧
      encode m p (decode m p ks) = m ∧
      ∀ (k : Kind) (q j : ℕ), j < 8 * k.size → (k.read m q).getLsbD j =
        (m (q + if k.net then k.size - 1 - j / 8 else j / 8)).toBitVec.getLsbD (j % 8) :=
  ⟨decode_encode, fun _ => encode_of_not_mem, encode_decode, fun _ _ _ => Kind.getLsbD_read⟩

example : bytesR32net (bytesW32le (fun _ => 0) 0 0x11223344) 0 = 0x44332211 := by decide

end Dlb.Bytes
