import Mathlib.Data.List.DropRight
import Dlb.Bint.Value

/-!
# Chunks are allocated and freed

What the functions that manage chunks do, with an account of the chunks which are
allocated and not freed. `extend_length` either makes room by chunks of zeroes or
fails and changes nothing, and `trim_chunks` makes a number canonical.
-/

namespace Dlb.Bint

variable {α β : Type} {h h' h'' : Heap} {a b : Bint}

/-! ## Programs -/

theorem bind_eq_some {m : Prog α} {f : α → Prog β} {r : β × Heap} :
    (m >>= f) h = some r ↔ ∃ x h', m h = some (x, h') ∧ f x h' = some r := by
  change (m h).bind (fun p => f p.1 p.2) = some r ↔ _
  rw [Option.bind_eq_some_iff]
  constructor
  · rintro ⟨⟨x, h'⟩, e₁, e₂⟩
    exact ⟨x, h', e₁, e₂⟩
  · rintro ⟨x, h', e₁, e₂⟩
    exact ⟨(x, h'), e₁, e₂⟩

theorem pure_eq_some {x : α} {r : α × Heap} : (pure x : Prog α) h = some r ↔ (x, h) = r :=
  Option.some_inj

theorem lift_eq_some {o : Option α} {r : α × Heap} :
    (liftM o : Prog α) h = some r ↔ ∃ x, o = some x ∧ (x, h) = r := by
  cases o with
  | none => simp [liftM, monadLift, MonadLift.monadLift, StateT.lift]
  | some x => simp [liftM, monadLift, MonadLift.monadLift, StateT.lift]

/-! ## The account of the chunks -/

/-- The number of chunks which are allocated and not freed. -/
def Heap.live (h : Heap) : ℤ := h.allocated - h.freed

/-- All allocations succeed. -/
def Heap.Ok (h : Heap) : Prop := ∀ n, h.answers n = true

/-- From `h` to `h'`, `n` more chunks are allocated than freed. -/
structure Gains (h h' : Heap) (n : ℤ) : Prop where
  live : h'.live = h.live + n
  ok : h.Ok → h'.Ok

theorem Gains.refl (h : Heap) : Gains h h 0 := ⟨(add_zero _).symm, id⟩

theorem Gains.trans {m n : ℤ} (g : Gains h h' m) (g' : Gains h' h'' n) : Gains h h'' (m + n) :=
  ⟨by rw [g'.live, g.live, add_assoc], fun hk => g'.ok (g.ok hk)⟩

theorem Gains.of_eq {m n : ℤ} (g : Gains h h' m) (e : m = n) : Gains h h' n := e ▸ g

theorem destroyChain_eq (cs : List Chunk) (h : Heap) :
    destroyChain cs h = some ((), { h with freed := h.freed + cs.length }) := by
  induction cs generalizing h with
  | nil => rfl
  | cons c cs ih =>
    rw [destroyChain, bind_eq_some]
    refine ⟨(), _, rfl, ?_⟩
    rw [ih, List.length_cons, add_assoc, add_comm 1]

theorem gains_freed (h : Heap) (n : ℕ) : Gains h { h with freed := h.freed + n } (-n) :=
  ⟨by simp only [Heap.live]; push_cast; ring, id⟩

theorem destroyChain_gains {cs : List Chunk} {x : Unit} (e : destroyChain cs h = some (x, h')) :
    Gains h h' (-cs.length) := by
  rw [destroyChain_eq, Option.some_inj] at e
  obtain ⟨-, rfl⟩ := Prod.mk.inj e
  exact gains_freed h cs.length

theorem bintChunkAlloc_spec (h : Heap) :
    (∃ h', bintChunkAlloc h = some (true, h') ∧ Gains h h' 1) ∨
      ∃ h', bintChunkAlloc h = some (false, h') ∧ Gains h h' 0 ∧ ¬h.Ok := by
  by_cases h₀ : h.answers 0 = true
  · refine .inl ⟨_, by rw [bintChunkAlloc, if_pos h₀], ?_, fun hk n => hk (n + 1)⟩
    simp only [Heap.live]
    push_cast
    ring
  · refine .inr ⟨_, by rw [bintChunkAlloc, if_neg h₀], ⟨?_, fun hk n => hk (n + 1)⟩,
      fun hk => h₀ (hk 0)⟩
    simp [Heap.live]

theorem allocChainLoop_spec (n k : ℕ) (h : Heap) :
    (∃ h', allocChainLoop n (List.replicate k .zero) h = some (List.replicate (n + k) .zero, h') ∧
        Gains h h' n) ∨
      ∃ h', allocChainLoop n (List.replicate k .zero) h = some ([], h') ∧ Gains h h' (-k) ∧
        ¬h.Ok := by
  induction n generalizing k h with
  | zero => exact .inl ⟨h, by simp [allocChainLoop, pure_eq_some], by simpa using Gains.refl h⟩
  | succ n ih =>
    obtain ⟨h₁, e₁, g₁⟩ | ⟨h₁, e₁, g₁, hk⟩ := bintChunkAlloc_spec h
    · obtain ⟨h₂, e₂, g₂⟩ | ⟨h₂, e₂, g₂, hk⟩ := ih (k + 1) h₁
      · refine .inl ⟨h₂, ?_, (g₁.trans g₂).of_eq (by push_cast; ring)⟩
        rw [allocChainLoop, bind_eq_some]
        refine ⟨_, _, e₁, ?_⟩
        rw [if_pos rfl, ← List.replicate_succ, e₂]
        congr 3
        omega
      · refine .inr ⟨h₂, ?_, (g₁.trans g₂).of_eq (by push_cast; ring), fun hk' => hk (g₁.ok hk')⟩
        rw [allocChainLoop, bind_eq_some]
        exact ⟨_, _, e₁, by rwa [if_pos rfl, ← List.replicate_succ]⟩
    · refine .inr ⟨_, ?_, (g₁.trans (gains_freed h₁ k)).of_eq (by ring), hk⟩
      rw [allocChainLoop, bind_eq_some]
      refine ⟨_, _, e₁, ?_⟩
      rw [if_neg (by simp), bind_eq_some]
      exact ⟨_, _, destroyChain_eq _ _, by simp [pure_eq_some]⟩

/-- `alloc_chain` returns a chain of zeroes, or it fails and keeps nothing. -/
theorem allocChain_spec (n : ℕ) (h : Heap) :
    (∃ h', allocChain n h = some (List.replicate n .zero, h') ∧ Gains h h' n) ∨
      ∃ h', allocChain n h = some ([], h') ∧ Gains h h' 0 ∧ ¬h.Ok :=
  allocChainLoop_spec n 0 h

/-! ## Outcomes -/

/-- An allocator that never fails. -/
def freshHeap : Heap := ⟨fun _ => true, 0, 0⟩

/-- How a call ends which changes the object `b`: it returns 0 and the object
    meets `P`, or it returns -1, which has the reason `F`, and nothing is changed. -/
inductive Ends (b : Bint) (P : Bint → Prop) (F : Prop) (h : Heap) : (ℤ × Bint) × Heap → Prop
  | done {b' : Bint} {h' : Heap} (hp : P b') (g : Gains h h' (b'.next.length - b.next.length)) :
    Ends b P F h ((0, b'), h')
  | failed {h' : Heap} (g : Gains h h' 0) (hf : F) : Ends b P F h ((-1, b), h')

/-- How a call ends that only fails if an allocation does. -/
abbrev Outcome (b : Bint) (P : Bint → Prop) (h : Heap) : (ℤ × Bint) × Heap → Prop :=
  Ends b P (¬h.Ok) h

theorem Ends.imp {P Q : Bint → Prop} {F G : Prop} {r : (ℤ × Bint) × Heap} (he : Ends b P F h r)
    (hpq : ∀ b', P b' → Q b') (hfg : F → G) : Ends b Q G h r := by
  cases he with
  | done hp g => exact .done (hpq _ hp) g
  | failed g hf => exact .failed g (hfg hf)

/-- The number `b` with chunks of zeroes appended until `n` chunks are allocated. -/
def extend (b : Bint) (n : ℕ) : Bint :=
  { b with next := b.next ++ List.replicate (n - b.next.length) .zero }

@[simp] theorem length_extend (b : Bint) (n : ℕ) :
    (extend b n).next.length = max n b.next.length := by
  simp [extend]
  omega

@[simp] theorem negative_extend (b : Bint) (n : ℕ) : (extend b n).negative = b.negative := rfl

theorem digits_extend (b : Bint) (n : ℕ) :
    (extend b n).digits = b.digits ++ List.replicate (n - b.next.length) .zero := rfl

@[simp] theorem mag_extend (b : Bint) (n : ℕ) : mag (extend b n) = mag b := by
  rw [mag, digits_extend, chain_append, chain_replicate_zero, mul_zero, add_zero, mag]

theorem extend_of_le {n : ℕ} (hn : n ≤ b.next.length) : extend b n = b := by
  simp [extend, Nat.sub_eq_zero_of_le hn]

theorem extendLoop_spec (next : List Chunk) (count : ℕ) (h : Heap) :
    (∃ h', extendLoop next count h =
          some ((0, next ++ List.replicate (count / 128 - next.length) .zero), h') ∧
        Gains h h' (count / 128 - next.length : ℕ)) ∨
      ∃ h', extendLoop next count h = some ((-1, next), h') ∧ Gains h h' 0 ∧ ¬h.Ok := by
  induction next generalizing count with
  | nil =>
    rw [extendLoop]
    by_cases hc : count < 128
    · rw [if_pos hc, Nat.div_eq_of_lt hc]
      exact .inl ⟨h, rfl, Gains.refl h⟩
    · rw [if_neg hc]
      obtain ⟨h', e, g⟩ | ⟨h', e, g, hk⟩ := allocChain_spec (count / 128) h
      · refine .inl ⟨h', bind_eq_some.2 ⟨_, _, e, ?_⟩, by simpa using g⟩
        rw [if_neg (by simp; omega)]
        simp [pure_eq_some]
      · exact .inr ⟨h', bind_eq_some.2 ⟨_, _, e, rfl⟩, g, hk⟩
  | cons c cs ih =>
    rw [extendLoop]
    by_cases hc : 128 ≤ count
    · rw [if_pos hc]
      have hd : (count - 128) / 128 - cs.length = count / 128 - (c :: cs).length := by
        rw [List.length_cons]
        omega
      obtain ⟨h', e, g⟩ | ⟨h', e, g, hk⟩ := ih (count - 128)
      · rw [hd] at e g
        exact .inl ⟨h', bind_eq_some.2 ⟨_, _, e, rfl⟩, g⟩
      · exact .inr ⟨h', bind_eq_some.2 ⟨_, _, e, rfl⟩, g, hk⟩
    · rw [if_neg hc, Nat.div_eq_of_lt (by omega)]
      refine .inl ⟨h, ?_, by simpa using Gains.refl h⟩
      simp [pure_eq_some]

theorem extendLength_returns (b : Bint) (count : ℕ) (h : Heap) :
    ∃ r, extendLength b count h = some r ∧ Outcome b (· = extend b (count / 128)) h r := by
  obtain ⟨h', e, g⟩ | ⟨h', e, g, hk⟩ := extendLoop_spec b.next count h
  · refine ⟨_, bind_eq_some.2 ⟨_, _, e, rfl⟩, .done rfl (g.of_eq ?_)⟩
    simp
  · exact ⟨_, bind_eq_some.2 ⟨_, _, e, rfl⟩, .failed g hk⟩

theorem extendLength_spec {count : ℕ} {r : (ℤ × Bint) × Heap}
    (e : extendLength b count h = some r) : Outcome b (· = extend b (count / 128)) h r := by
  obtain ⟨r', e', ho⟩ := extendLength_returns b count h
  rwa [Option.some_inj.1 (e.symm.trans e')]

/-! ## Trimming -/

/-- The number `b` without the chunks of zeroes at the end of its chain. -/
def trimmed (b : Bint) : Bint := { b with next := b.next.rdropWhile chunkIsZero }

@[simp] theorem negative_trimmed (b : Bint) : (trimmed b).negative = b.negative := rfl

theorem trimmed_canonical (b : Bint) : Canonical (trimmed b) := by
  intro c hc
  have hn : b.next.rdropWhile chunkIsZero ≠ [] := by
    rintro e
    simp [trimmed, e] at hc
  have := List.rdropWhile_last_not chunkIsZero b.next hn
  rw [trimmed, List.getLast?_eq_some_getLast hn, Option.mem_some_iff] at hc
  rw [← hc]
  exact eq_false_of_ne_true this

@[simp] theorem mag_trimmed (b : Bint) : mag (trimmed b) = mag b := by
  have hz : chain (b.next.rtakeWhile chunkIsZero) = 0 :=
    chain_eq_zero fun c hc => chunkIsZero_iff.1 (List.mem_rtakeWhile_imp hc)
  have : chain b.next = chain (b.next.rdropWhile chunkIsZero) := by
    conv_lhs => rw [← List.rdropWhile_append_rtakeWhile (p := chunkIsZero) (l := b.next), chain_append,
      hz]
    simp
  simp [mag, digits, trimmed, this]

theorem trimLoop_eq (stack : List Chunk) (h : Heap) : trimLoop stack h =
    some (stack.dropWhile chunkIsZero,
      { h with freed := h.freed + (stack.takeWhile chunkIsZero).length }) := by
  induction stack generalizing h with
  | nil => rfl
  | cons c stack ih =>
    rw [trimLoop]
    by_cases hc : chunkIsZero c = true
    · rw [if_pos hc, bind_eq_some]
      refine ⟨_, _, rfl, ?_⟩
      rw [ih]
      simp [hc]
      omega
    · rw [if_neg hc]
      simp [hc, pure_eq_some]

theorem trimChunks_returns (b : Bint) (h : Heap) : ∃ h', trimChunks b h = some (trimmed b, h') ∧
    Gains h h' ((trimmed b).next.length - b.next.length) := by
  refine ⟨_, bind_eq_some.2 ⟨_, _, trimLoop_eq _ _, rfl⟩, (gains_freed h _).of_eq ?_⟩
  have := congrArg List.length (List.takeWhile_append_dropWhile (p := chunkIsZero)
    (l := b.next.reverse))
  rw [List.length_append, List.length_reverse] at this
  simp only [Bint.trimmed, List.rdropWhile, List.length_reverse]
  omega

theorem trimChunks_spec {b' : Bint} (e : trimChunks b h = some (b', h')) :
    b' = trimmed b ∧ Gains h h' ((trimmed b).next.length - b.next.length) := by
  obtain ⟨h₁, e₁, g⟩ := trimChunks_returns b h
  rw [e, Option.some_inj, Prod.mk.injEq] at e₁
  exact ⟨e₁.1, e₁.2 ▸ g⟩

/-! ## Copies -/

theorem copyLoop_spec {ds ss cs : List Chunk} (hs : ss ≠ [])
    (e : copyLoop ds ss h = some (cs, h')) :
    cs = ss ∧ ss.length ≤ ds.length ∧ Gains h h' (ss.length - ds.length) := by
  induction ds generalizing ss cs with
  | nil =>
    cases ss with
    | nil => exact absurd rfl hs
    | cons s ss => cases e
  | cons d ds ih =>
    cases ss with
    | nil => exact absurd rfl hs
    | cons s ss =>
      rw [copyLoop] at e
      split_ifs at e with hn
      · obtain ⟨x, h₁, e₁, e₂⟩ := bind_eq_some.1 e
        obtain ⟨rfl, rfl⟩ := Prod.mk.inj (pure_eq_some.1 e₂)
        refine ⟨by rw [hn], by simp [hn], (destroyChain_gains e₁).of_eq ?_⟩
        simp [hn]
      · obtain ⟨cs', h₁, e₁, e₂⟩ := bind_eq_some.1 e
        obtain ⟨rfl, rfl⟩ := Prod.mk.inj (pure_eq_some.1 e₂)
        obtain ⟨rfl, hl, g⟩ := ih hn e₁
        exact ⟨rfl, by simpa using hl, g.of_eq (by simp)⟩

theorem copyLoop_returns {ds ss : List Chunk} (hl : ss.length ≤ ds.length) (h : Heap) :
    ∃ cs h', copyLoop ds ss h = some (cs, h') := by
  induction ss generalizing ds with
  | nil => exact ⟨ds, h, by cases ds <;> rfl⟩
  | cons s ss ih =>
    cases ds with
    | nil => simp at hl
    | cons d ds =>
      rw [copyLoop]
      split_ifs with hs
      · exact ⟨_, _, bind_eq_some.2 ⟨_, _, destroyChain_eq ds h, rfl⟩⟩
      · obtain ⟨cs, h', e⟩ := ih (by simpa using hl)
        exact ⟨_, h', bind_eq_some.2 ⟨_, _, e, rfl⟩⟩

/-- What `bint_copy` leaves in its destination. If the source is the destination,
    room may have been made in it. -/
def copied (dst : Bint) : Operand → Bint
  | .self => extend dst (bintBitLength dst / 128)
  | .other b => b

theorem setDigits_digits (hn : a.negative = b.negative) : a.setDigits b.digits = b := by
  rw [setDigits_congr hn b.digits_ne_nil]
  rfl

/-- `bint_copy` dereferences `NULL` if the room is not enough. -/
theorem bintCopy_spec {dst : Bint} {src : Operand} {r : (ℤ × Bint) × Heap}
    (e : bintCopy dst src h = some r) : Outcome dst (fun d => d = copied dst src ∧
      (src.get dst).next.length ≤ max (bintBitLength (src.get dst) / 128) dst.next.length) h r := by
  obtain ⟨⟨rc, d⟩, h₁, e₁, e₂⟩ := bind_eq_some.1 e
  cases extendLength_spec e₁ with
  | failed g hk =>
    obtain rfl := pure_eq_some.1 e₂
    exact .failed g hk
  | done hd g =>
    subst hd
    obtain ⟨cs, h₂, e₃, e₄⟩ := bind_eq_some.1 e₂
    obtain rfl := pure_eq_some.1 e₄
    obtain ⟨rfl, hl, g'⟩ := copyLoop_spec (digits_ne_nil _) e₃
    refine .done ⟨?_, ?_⟩ ((g.trans g').of_eq ?_)
    · cases src <;> exact setDigits_digits rfl
    · cases src with
      | self => simp [Operand.get]
      | other b => simpa [digits, Operand.get] using hl
    · rw [length_next_setDigits _ (digits_ne_nil _)]
      simp only [length_digits]
      omega

/-- A number that `bint_copy` copies into another object without allocated chunks
    has less than `2 ^ 32` bits. -/
theorem size_lt_of_bintCopy {src d : Bint} (hs : Canonical src)
    (e : bintCopy bintZero (.other src) h = some ((0, d), h')) :
    Nat.size (mag src) < 2 ^ 32 := by
  cases bintCopy_spec e with
  | done hd g =>
    have hl := hd.2
    have hb := size_mag_le src
    rw [Operand.get, hs.bintBitLength] at hl
    change src.next.length ≤ max _ 0 at hl
    omega

theorem bintCopy_returns {src : Bint} (hs : Canonical src) (hlt : Nat.size (mag src) < 2 ^ 32)
    (hk : h.Ok) : ∃ h', bintCopy bintZero (.other src) h = some ((0, src), h') ∧ h'.Ok := by
  have hl : src.next.length ≤ bintBitLength src / 128 := by
    rw [hs.bintBitLength, Nat.mod_eq_of_lt hlt]
    exact hs.length_le_size
  obtain ⟨⟨⟨rc, d⟩, h₁⟩, e₁, ho⟩ := extendLength_returns bintZero (bintBitLength src) h
  cases ho with
  | failed g hn => exact absurd hk hn
  | done hd g =>
    have hl' : src.digits.length ≤ d.digits.length := by
      rw [hd, length_digits, length_digits, length_extend]
      exact Nat.succ_le_succ (hl.trans (le_max_left _ _))
    obtain ⟨cs, h₂, e₂⟩ := copyLoop_returns hl' h₁
    obtain ⟨rfl, -, g'⟩ := copyLoop_spec src.digits_ne_nil e₂
    refine ⟨h₂, bind_eq_some.2 ⟨_, _, e₁, bind_eq_some.2 ⟨_, _, e₂, ?_⟩⟩, g'.ok (g.ok hk)⟩
    rw [pure_eq_some]
    exact congrArg (fun x => ((0, x), h₂)) (setDigits_digits rfl)

end Dlb.Bint
