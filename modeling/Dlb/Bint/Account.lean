import Mathlib.Algebra.BigOperators.Ring.Finset
import Mathlib.Tactic.Linarith
import Dlb.Bint.Atomic

/-!
# No chunk is lost

A run with the lifetimes of the objects: an object is used from `bint_init` to `bint_destroy`. All
chunks that are allocated and not freed are those of the objects in use, and an object has as
many as its value needs.
-/

namespace Dlb.Bint

variable {I : Type} [DecidableEq I] {h h' : Heap} {σ σ' : Store I} {op : Op I} {rc : ℤ}
  {A : Finset I}

/-! ## The chunks of the objects -/

/-- The number of chunks that are allocated for the objects in `A`. -/
def Store.chunks (σ : Store I) (A : Finset I) : ℤ := ∑ i ∈ A, ((σ i).next.length : ℤ)

theorem chunks_update {b : I} (hb : b ∈ A) (σ : Store I) (d : Bint) :
    Store.chunks (Function.update σ b d) A =
      Store.chunks σ A + (d.next.length - (σ b).next.length) := by
  have hrest : ∑ i ∈ A.erase b, ((Function.update σ b d i).next.length : ℤ) =
      ∑ i ∈ A.erase b, ((σ i).next.length : ℤ) := by
    refine Finset.sum_congr rfl fun i hi => ?_
    rw [Function.update_of_ne (Finset.ne_of_mem_erase hi)]
  rw [Store.chunks, Store.chunks, ← Finset.add_sum_erase A _ hb, ← Finset.add_sum_erase A _ hb, hrest,
    Function.update_self]
  ring

/-- An object outside of `A` is changed. -/
theorem chunks_update_of_not_mem {b : I} (hb : b ∉ A) (σ : Store I) (d : Bint) :
    Store.chunks (Function.update σ b d) A = Store.chunks σ A := by
  refine Finset.sum_congr rfl fun i hi => ?_
  rw [Function.update_of_ne (ne_of_mem_of_not_mem hi hb)]

theorem chunks_swapOut {o : Option I} (ho : ∀ i ∈ o, i ∈ A) (σ : Store I) (b : Bint) :
    Store.chunks (swapOut σ b o).1 A + (swapOut σ b o).2.next.length =
      Store.chunks σ A + b.next.length := by
  cases o with
  | none => rfl
  | some i =>
    rw [swapOut, chunks_update (ho i rfl)]
    ring

/-! ## Calls -/

/-- From `h` to `h'` the chunks are allocated that the objects in `A` have got. -/
def Balanced (A : Finset I) (h : Heap) (σ : Store I) (h' : Heap) (σ' : Store I) : Prop :=
  Gains h h' (Store.chunks σ' A - Store.chunks σ A)

omit [DecidableEq I] in
theorem Balanced.of_same (g : Gains h h' 0) : Balanced A h σ h' σ :=
  g.of_eq (sub_self _).symm

theorem Balanced.update {b : I} {d : Bint} (hb : b ∈ A)
    (g : Gains h h' (d.next.length - (σ b).next.length)) :
    Balanced A h σ h' (Function.update σ b d) :=
  g.of_eq (by rw [chunks_update hb]; ring)

theorem Ends.gains {b d : Bint} {P : Bint → Prop} {F : Prop} (he : Ends b P F h ((rc, d), h')) :
    Gains h h' (d.next.length - b.next.length) := by
  cases he with
  | done _ g => exact g
  | failed g _ => exact g.of_eq (sub_self _).symm

theorem bintSet_gains {b d : Bint} {value : Int32} (e : bintSet b value h = some (d, h')) :
    Gains h h' (d.next.length - b.next.length) := by
  obtain ⟨_, h₁, e₁, e₂⟩ := bind_eq_some.1 e
  obtain ⟨rfl, rfl⟩ := Prod.mk.inj (pure_eq_some.1 e₂)
  exact (destroyChain_gains e₁).of_eq (by simp [small])

theorem bintDiv_balanced {quotient remainder : Option I} {dividend divisor : I}
    (ha : Canonical (σ dividend)) (hb : Canonical (σ divisor)) (hq : ∀ i ∈ quotient, i ∈ A)
    (hr : ∀ i ∈ remainder, i ∈ A)
    (e : bintDiv quotient dividend divisor remainder σ h = some ((rc, σ'), h')) :
    Balanced A h σ h' σ' := by
  rw [bintDiv] at e
  split_ifs at e with hz
  · obtain ⟨hx, rfl⟩ := Prod.mk.inj (pure_eq_some.1 e)
    obtain ⟨-, rfl⟩ := Prod.mk.inj hx
    exact .of_same (.refl h)
  · have h₀ : mag (σ divisor) ≠ 0 := by
      intro h₀
      rw [hb.bintBitLength, h₀] at hz
      simp at hz
    obtain ⟨⟨rc₁, s, r, q⟩, h₁, e₁, e₂⟩ := bind_eq_some.1 e
    obtain ⟨hrc, g, -⟩ := divCore_spec ha hb h₀ e₁
    rcases hrc with rfl | rfl
    · obtain ⟨hy, g'⟩ := destroyAll_spec (a := (swapOut σ r remainder).2) (b := s)
        (c := (swapOut (swapOut σ r remainder).1 q quotient).2)
        (x := (0, divStore σ r q quotient remainder)) e₂
      obtain ⟨-, rfl⟩ := Prod.mk.inj hy
      -- What the objects had is destroyed in the place of the results.
      have hr' := chunks_swapOut hr σ r
      have hq' := chunks_swapOut hq (swapOut σ r remainder).1 q
      refine (g.trans g').of_eq ?_
      simp only [allocated, divStore]
      linarith only [hr', hq']
    · obtain ⟨hy, g'⟩ := destroyAll_spec e₂
      obtain ⟨-, rfl⟩ := Prod.mk.inj hy
      refine .of_same ((g.trans g').of_eq ?_)
      simp only [allocated]
      ring

theorem bintExpt_balanced {result base exponent : I} (hr : result ∈ A)
    (e : bintExpt result base exponent σ h = some ((rc, σ'), h')) : Balanced A h σ h' σ' := by
  obtain ⟨⟨rc₁, r, p, b⟩, h₁, e₁, e₂⟩ := bind_eq_some.1 e
  obtain ⟨hrc, g, -⟩ := exptCore_spec e₁
  rcases hrc with rfl | rfl
  · obtain ⟨hy, g'⟩ := destroyAll_spec (a := (swapOut σ r (some result)).2) (b := b) (c := p)
      (x := (0, (swapOut σ r (some result)).1)) e₂
    obtain ⟨-, rfl⟩ := Prod.mk.inj hy
    have hr' := chunks_swapOut (o := some result) (by simpa using hr) σ r
    refine (g.trans g').of_eq ?_
    simp only [allocated]
    linarith only [hr']
  · obtain ⟨hy, g'⟩ := destroyAll_spec e₂
    obtain ⟨-, rfl⟩ := Prod.mk.inj hy
    refine .of_same ((g.trans g').of_eq ?_)
    simp only [allocated]
    ring

/-- A call other than `bint_init` of an object in use. -/
theorem exec_balanced (hσ : ∀ i, Canonical (σ i)) (hA : ∀ i ∈ op.objects, i ∈ A)
    (hi : ∀ b value, op ≠ .init b value) (e : exec σ op h = some ((rc, σ'), h')) :
    Balanced A h σ h' σ' := by
  cases op with
  | init b value => exact absurd rfl (hi b value)
  | set b value =>
    obtain ⟨d, e₁, -, rfl⟩ := onObject'_eq_some e
    exact .update (hA b (by simp [Op.objects])) (bintSet_gains e₁)
  | setSign b sign =>
    obtain ⟨d, e₁, -, rfl⟩ := onObject'_eq_some e
    obtain ⟨rfl, rfl⟩ := Prod.mk.inj (pure_eq_some.1 e₁)
    exact .update (hA b (by simp [Op.objects])) ((Gains.refl h).of_eq (by simp [bintSetSign]))
  | copy dst src =>
    obtain ⟨d, e₁, rfl⟩ := onObject_eq_some e
    exact .update (hA dst (by simp [Op.objects])) (bintCopy_spec e₁).gains
  | swap a b =>
    have e := pure_eq_some.1 e
    simp only [Prod.mk.injEq] at e
    obtain ⟨⟨-, rfl⟩, rfl⟩ := e
    have hb : Function.update σ a (σ b) b = σ b := by
      by_cases hba : b = a
      · rw [hba, Function.update_self]
      · rw [Function.update_of_ne hba]
    refine (Gains.refl h).of_eq ?_
    rw [chunks_update (hA b (by simp [Op.objects])), chunks_update (hA a (by simp [Op.objects])), hb]
    ring
  | add dst src =>
    obtain ⟨d, e₁, rfl⟩ := onObject_eq_some e
    exact .update (hA dst (by simp [Op.objects])) (bintAdd_spec (hσ dst) (by simp [hσ]) e₁).gains
  | sub dst src =>
    obtain ⟨d, e₁, rfl⟩ := onObject_eq_some e
    exact .update (hA dst (by simp [Op.objects])) (bintSub_spec (hσ dst) (by simp [hσ]) e₁).gains
  | mul result a b =>
    obtain ⟨d, e₁, rfl⟩ := onObject_eq_some e
    exact .update (hA result (by simp [Op.objects])) (bintMul_spec e₁).gains
  | div quotient dividend divisor remainder =>
    refine bintDiv_balanced (hσ dividend) (hσ divisor) (fun i hi => hA i ?_) (fun i hi => hA i ?_) e
    · simp [Op.objects, Option.mem_def.1 hi]
    · simp [Op.objects, Option.mem_def.1 hi]
  | expt result base exponent => exact bintExpt_balanced (hA result (by simp [Op.objects])) e
  | bitSet b pos =>
    obtain ⟨d, e₁, rfl⟩ := onObject_eq_some e
    exact .update (hA b (by simp [Op.objects])) (bintBitSet_spec e₁).gains
  | bitClear b pos =>
    obtain ⟨d, e₁, -, rfl⟩ := onObject'_eq_some e
    exact .update (hA b (by simp [Op.objects])) (bintBitClear_spec (hσ b) e₁).2.2.2
  | or dst src =>
    obtain ⟨d, e₁, rfl⟩ := onObject_eq_some e
    exact .update (hA dst (by simp [Op.objects])) (bintOr_spec e₁).gains
  | and dst src =>
    obtain ⟨d, e₁, -, rfl⟩ := onObject'_eq_some e
    exact .update (hA dst (by simp [Op.objects])) (bintAnd_spec e₁).2.2.2
  | bic dst src =>
    obtain ⟨d, e₁, -, rfl⟩ := onObject'_eq_some e
    exact .update (hA dst (by simp [Op.objects])) (bintBic_spec (hσ dst) e₁).2.2.2
  | xor dst src =>
    obtain ⟨d, e₁, rfl⟩ := onObject_eq_some e
    exact .update (hA dst (by simp [Op.objects])) (bintXor_spec (hσ dst) e₁).gains
  | shiftLeft b count =>
    obtain ⟨d, e₁, rfl⟩ := onObject_eq_some e
    exact .update (hA b (by simp [Op.objects])) (bintShiftLeft_spec (hσ b) e₁).gains
  | shiftRight b count =>
    obtain ⟨d, e₁, -, rfl⟩ := onObject'_eq_some e
    exact .update (hA b (by simp [Op.objects])) (bintShiftRight_spec e₁).2.2.2
  | digitPush b base digit =>
    obtain ⟨d, e₁, rfl⟩ := onObject_eq_some e
    exact .update (hA b (by simp [Op.objects])) (bintDigitPush_spec e₁).gains
  | digitPop b base =>
    obtain ⟨d, e₁, rfl⟩ := onObject_eq_some e
    obtain ⟨⟨digit, v⟩, h₁, e₂, e₃⟩ := bind_eq_some.1 e₁
    obtain ⟨he, rfl⟩ := Prod.mk.inj (pure_eq_some.1 e₃)
    obtain ⟨-, rfl⟩ := Prod.mk.inj he
    exact .update (hA b (by simp [Op.objects])) (bintDigitPop_spec e₂).1

/-! ## Lifetimes -/

/-- The objects, those of them that are in use, and the allocator. -/
structure World (I : Type) where
  store : Store I
  alive : Finset I
  heap : Heap

/-- Before the first call. -/
def World.init (answers : ℕ → Bool) : World I := ⟨fun _ => bintZero, ∅, ⟨answers, 0, 0⟩⟩

/-- What `src/bint.h` allows: all objects are in use, apart from the argument of `bint_init`. The
call keeps the invariant of the header comment. -/
def Op.Allowed (w : World I) : Op I → Prop
  | .init b _ => b ∉ w.alive
  | op => op.Legal ∧ TidyCall w.store op ∧ ∀ i ∈ op.objects, i ∈ w.alive

/-- The objects in use after a call. -/
def Op.alive (A : Finset I) : Op I → Finset I
  | .init b _ => insert b A
  | _ => A

/-- A call of the interface, which may fail, or of `bint_destroy`. -/
inductive World.Step : World I → World I → Prop
  | call {w : World I} {op : Op I} {rc : ℤ} {σ' : Store I} {h' : Heap} : op.Allowed w →
      exec w.store op w.heap = some ((rc, σ'), h') → Step w ⟨σ', op.alive w.alive, h'⟩
  | destroy {w : World I} {b : I} {h' : Heap} : b ∈ w.alive →
      bintDestroy (w.store b) w.heap = some ((), h') → Step w ⟨w.store, w.alive.erase b, h'⟩

variable {w w' : World I} {answers : ℕ → Bool}

/-- The chunks that are allocated are those of the objects in use. -/
structure Accounted (w : World I) : Prop where
  canonical : ∀ i, Canonical (w.store i)
  live : w.heap.live = w.store.chunks w.alive

omit [DecidableEq I] in
theorem accounted_init : Accounted (World.init answers : World I) :=
  ⟨fun _ => canonical_of_next_eq_nil rfl, rfl⟩

theorem Accounted.step (h : Accounted w) (hs : World.Step w w') : Accounted w' := by
  cases hs with
  | @call op rc σ' h' ha e =>
    cases op with
    | init b value =>
      have hb : b ∉ w.alive := ha
      obtain ⟨d, e₁, -, rfl⟩ := onObject'_eq_some e
      have g := bintSet_gains e₁
      have ht : TidyCall w.store (.init b value) := trivial
      refine ⟨exec_canonical h.canonical ht e, ?_⟩
      have hnil : d.next.length = 0 := by rw [bintSet_spec e₁]; rfl
      have hins : Store.chunks (Function.update w.store b d) (insert b w.alive) =
          d.next.length + w.store.chunks w.alive := by
        rw [Store.chunks, Finset.sum_insert hb, Function.update_self]
        exact congrArg _ (chunks_update_of_not_mem hb w.store d)
      change h'.live = Store.chunks (Function.update w.store b d) (insert b w.alive)
      rw [hins, g.live, h.live, hnil]
      simp [bintZero, small]
    | _ =>
      obtain ⟨-, ht, hA⟩ := ha
      refine ⟨exec_canonical h.canonical ht e, ?_⟩
      have g := exec_balanced h.canonical hA (by simp) e
      change h'.live = Store.chunks σ' w.alive
      rw [g.live, h.live]
      ring
  | @destroy b h' hb e =>
    refine ⟨h.canonical, ?_⟩
    have g := bintDestroy_gains e
    change h'.live = Store.chunks w.store (w.alive.erase b)
    rw [g.live, h.live, Store.chunks, ← Finset.add_sum_erase _ _ hb, Store.chunks]
    ring

/-- A run of calls from the start, with any answers of the allocator. -/
def World.Run (answers : ℕ → Bool) (w : World I) : Prop :=
  Relation.ReflTransGen World.Step (World.init answers) w

theorem World.Run.accounted (hr : World.Run answers w) : Accounted w := by
  induction hr with
  | refl => exact accounted_init
  | tail _ hs ih => exact ih.step hs

/-- In every run, failed calls included, as many chunks are allocated and not freed as the values of
the objects in use need. So all are freed when no object is in use. -/
theorem run_account (hr : World.Run answers w) :
    w.heap.allocated = w.heap.freed + ∑ i ∈ w.alive, chunks (mag (w.store i)) := by
  obtain ⟨hc, hl⟩ := hr.accounted
  have hsum : w.store.chunks w.alive = ((∑ i ∈ w.alive, chunks (mag (w.store i)) : ℕ) : ℤ) := by
    rw [Store.chunks, Nat.cast_sum]
    exact Finset.sum_congr rfl fun i _ => by rw [(hc i).length_eq_chunks]
  rw [hsum, Heap.live] at hl
  omega

/-- One is set, shifted by one chunk, and destroyed. -/
theorem run_account_destroyed : ∃ w : World Unit, w.alive = ∅ ∧ w.heap.allocated = 1 ∧
    w.heap.allocated = w.heap.freed + ∑ i ∈ w.alive, chunks (mag (w.store i)) := by
  obtain ⟨σ₁, h₁, e₁, hv₁⟩ : ∃ σ₁ h₁, exec (fun _ : Unit => bintZero) (.init () 1) freshHeap =
      some ((0, σ₁), h₁) ∧ σ₁ () = bintOne := ⟨_, _, rfl, rfl⟩
  obtain ⟨d, h₂, e₂, ha⟩ : ∃ d h₂, bintShiftLeft bintOne 128 h₁ = some ((0, d), h₂) ∧
      h₂.allocated = 1 := by
    obtain rfl : freshHeap = h₁ := (Prod.mk.inj (Option.some.inj e₁)).2
    exact ⟨_, _, rfl, by decide +kernel⟩
  have s₁ : World.Step (World.init fun _ => true) ⟨σ₁, {()}, h₁⟩ :=
    .call (show Op.Allowed (World.init fun _ => true) (.init () 1) from Finset.notMem_empty ()) e₁
  have hal : Op.Allowed (⟨σ₁, {()}, h₁⟩ : World Unit) (.shiftLeft () 128) := by
    refine ⟨trivial, ?_, by simp⟩
    simp only [TidyCall, hv₁]
    decide
  have e₃ : exec σ₁ (.shiftLeft () 128) h₁ = some ((0, Function.update σ₁ () d), h₂) := by
    refine bind_eq_some.2 ⟨(0, d), h₂, ?_, rfl⟩
    rw [hv₁]
    exact e₂
  have s₂ : World.Step ⟨σ₁, {()}, h₁⟩ ⟨Function.update σ₁ () d, {()}, h₂⟩ := .call hal e₃
  have s₃ := World.Step.destroy (w := ⟨Function.update σ₁ () d, {()}, h₂⟩) (b := ())
    (Finset.mem_singleton_self ()) (destroyChain_eq _ _)
  exact ⟨_, rfl, ha, run_account (((Relation.ReflTransGen.single s₁).tail s₂).tail s₃)⟩

end Dlb.Bint
