import Mathlib.Logic.Relation
import Dlb.Istr.Inv

/-!
# Every run of a string pool

Strings are created, referenced and collected. In a run with enough memory, each string keeps the bytes
it was created with, and a collection reclaims just the strings without references
(`run_collects`). If memory runs out during a collection, its strings are safe only if each append of
`gc_text` finds the memory it needs, since the capacity that has been reserved is given up by the
first one (`run_survives`).
-/

namespace Dlb.Istr

open Strbuf

variable {P : Type} [DecidableEq P]

/-! ## Runs -/

/-- The pool, and the bytes that each string was created with. -/
structure Sys (P : Type) where
  pool : Pool P
  born : P → List UInt8

/-- The calls, with the descriptor that `slab_alloc` returns and the answers of `malloc` and
    `realloc`. -/
inductive Call (P : Type)
  | alloc (d : Option P) (a b : Answer) (g : Answers) (src : List UInt8) (len : ℤ)
  | ref (d : P)
  | unref (d : P)
  | gc (g : Answers)

namespace Call

/-- The calls that may be made: a length is an `int`, and a reference is to a string of the pool. The
    descriptor from `slab_alloc` is a new one. -/
def Valid (p : Pool P) : Call P → Prop
  | alloc d _ _ _ _ len => (∀ x ∈ d, x ∉ p.descs) ∧ len < 2 ^ 31
  | ref d => d ∈ p.descs
  | unref d => d ∈ p.descs
  | gc _ => True

/-- The text of a string has as many bytes as are read. -/
def Readable : Call P → Prop
  | alloc _ _ _ _ src len =>
    ∃ bs, bs <+: src ∧ givenLength src len = some (bs.length : ℤ) ∧ bs.length < 2 ^ 31
  | _ => True

/-- What a call returns, and the pool after it. -/
def exec (fuel : ℕ) (p : Pool P) : Call P → Option ((ℤ × Option P) × Pool P)
  | alloc d a b g src len => (istrPoolAlloc d a b g fuel p src len).map fun q => ((0, q.1), q.2)
  | ref d => some ((0, none), istrRef p d)
  | unref d => some ((0, none), istrUnref p d)
  | gc g => (istrPoolGc g fuel p).map fun q => ((q.1, none), q.2)

/-- The bytes that each string was created with, after a call that has returned `n`. -/
def born (t : Sys P) (n : Option P) : Call P → P → List UInt8
  | alloc _ _ _ _ src len =>
    match n with
    | some d => Function.update t.born d (src.take ((givenLength src len).getD 0).toNat)
    | none => t.born
  | _ => t.born

end Call

/-- A call that meets the condition `C`. -/
inductive Step (C : Pool P → Call P → Prop) : Sys P → Sys P → Prop
  | call (t : Sys P) (c : Call P) (r : ℤ) (n : Option P) (p' : Pool P) (hv : c.Valid t.pool)
      (hc : C t.pool c) (h : Yields (fun fuel => c.exec fuel t.pool) ((r, n), p')) :
      Step C t ⟨p', c.born t n⟩

/-- The pool has just been initialized. -/
def Sys.init (desc : P → Desc P) (born : P → List UInt8) : Sys P := ⟨istrPoolInit desc, born⟩

/-- A run of calls that meet the condition `C`. -/
def Run (C : Pool P → Call P → Prop) (t : Sys P) : Prop :=
  ∃ desc born, Relation.ReflTransGen (Step C) (.init desc born) t

/-- The string reads back as `bs`, with a nul behind it. -/
def Reads (p : Pool P) (d : P) (bs : List UInt8) : Prop :=
  istrLength p d = bs.length ∧ bs ++ [0] <+: istrText p d

variable {t t' : Sys P} {l : List P} {c : Call P} {p p' : Pool P} {born : P → List UInt8} {d : P}
  {g : Answers} {r : ℤ} {n : Option P}

omit [DecidableEq P] in
theorem Inv.reads (h : Inv p born l) (hd : d ∈ l) : Reads p d (born d) := by
  obtain ⟨hlen, hpre⟩ := h.holds d hd
  have hsmall := h.small d hd
  refine ⟨?_, hpre.trans ((List.take_prefix ..).drop _)⟩
  rw [istrLength, hlen]
  exact Nat.mod_eq_of_lt (by omega)

/-! ## Runs with collections that are safe -/

/-- A collection that the call makes can copy the strings. -/
def Call.Safe (p : Pool P) : Call P → Prop
  | alloc d a b g src len => ∀ x p', allocDesc d a b p src len = some (some x, p') →
      p'.gcThreshold ≤ p'.descCount → Collectable g p'
  | ref _ => True
  | unref _ => True
  | gc g => Collectable g p

omit [DecidableEq P] in
theorem mem_live {desc : P → Desc P} : d ∈ live desc l ↔ d ∈ l ∧ (desc d).refcnt ≠ 0 := by
  rw [live, List.mem_filter, decide_eq_true_iff]

section

variable {x : Option P} {a b : Answer} {src bs : List UInt8} {len : ℤ} {p₁ : Pool P}

theorem exec_alloc_none (e : allocDesc x a b p src len = some (none, p₁)) :
    Yields (fun fuel => (Call.alloc x a b g src len).exec fuel p) ((0, none), p₁) :=
  .of_forall fun fuel => by simp [Call.exec, istrPoolAlloc, e]

theorem exec_alloc_some (e : allocDesc x a b p src len = some (some d, p₁))
    (hy : Yields (fun fuel => gcIfMany g fuel p₁) p') :
    Yields (fun fuel => (Call.alloc x a b g src len).exec fuel p) ((0, some d), p') := by
  refine (hy.bind (f := fun _ p' => some (((0 : ℤ), some d), p')) (.of_forall fun _ => rfl)).congr
    fun fuel => ?_
  simp [Call.exec, istrPoolAlloc, e]

theorem allocDesc_of_exec
    (hy : Yields (fun fuel => (Call.alloc x a b g src len).exec fuel p) ((r, n), p')) :
    ∃ n₁ p₁, allocDesc x a b p src len = some (n₁, p₁) := by
  simp only [Call.exec, istrPoolAlloc, Option.map_eq_bind, Option.bind_eq_bind,
    Option.bind_assoc] at hy
  obtain ⟨⟨n₁, p₁⟩, e⟩ := hy.exists_of_bind
  exact ⟨n₁, p₁, e⟩

omit [DecidableEq P] in
theorem take_givenLength (hbs : bs <+: src) (hlen : givenLength src len = some (bs.length : ℤ)) :
    src.take ((givenLength src len).getD 0).toNat = bs := by
  rw [hlen, Option.getD_some, Int.toNat_natCast]
  exact (List.prefix_iff_eq_take.1 hbs).symm

end

theorem Call.exec_succ {fuel : ℕ} {s : (ℤ × Option P) × Pool P} (h : c.exec fuel p = some s) :
    c.exec (fuel + 1) p = some s := by
  cases c with
  | alloc x a b g src len =>
    obtain ⟨q, e, rfl⟩ := Option.map_eq_some_iff.1 h
    refine Option.map_eq_some_iff.2 ⟨q, ?_, rfl⟩
    rw [istrPoolAlloc, Option.bind_eq_bind, Option.bind_eq_some_iff] at e ⊢
    obtain ⟨⟨n, p₁⟩, e₁, e⟩ := e
    refine ⟨(n, p₁), e₁, ?_⟩
    cases n with
    | none => exact e
    | some d =>
      obtain ⟨p₂, e₂, e⟩ := Option.bind_eq_some_iff.1 e
      refine Option.bind_eq_some_iff.2 ⟨p₂, ?_, e⟩
      rw [gcIfMany] at e₂ ⊢
      split at e₂
      next hmany =>
        rw [if_pos hmany]
        obtain ⟨q', e₃, rfl⟩ := Option.map_eq_some_iff.1 e₂
        exact Option.map_eq_some_iff.2 ⟨q', istrPoolGc_succ e₃, rfl⟩
      next hfew =>
        rw [if_neg hfew]
        exact e₂
  | ref d => exact h
  | unref d => exact h
  | gc g =>
    obtain ⟨q, e, rfl⟩ := Option.map_eq_some_iff.1 h
    exact Option.map_eq_some_iff.2 ⟨q, istrPoolGc_succ e, rfl⟩

theorem Call.yields {fuel : ℕ} {s : (ℤ × Option P) × Pool P} (h : c.exec fuel p = some s) :
    Yields (fun fuel => c.exec fuel p) s :=
  .of_eq (fun _ _ => Call.exec_succ) h

/-- After a call, a string that had references is still there, and no two begin at one place. -/
theorem Inv.exec (h : Inv t.pool t.born l) (hv : c.Valid t.pool) (hs : c.Safe t.pool)
    (hy : Yields (fun fuel => c.exec fuel t.pool) ((r, n), p')) :
    ∃ l', Inv p' (c.born t n) l' ∧
      ((offsets t.pool.desc l).Nodup → (offsets p'.desc l').Nodup) ∧
      ∀ d ∈ l, (t.pool.desc d).refcnt ≠ 0 → d ∈ l' ∧ c.born t n d = t.born d := by
  cases c with
  | alloc x a b g src len =>
    obtain ⟨n₁, p₁, e⟩ := allocDesc_of_exec hy
    have hapart := h.allocDesc_offsets hv.1 e
    obtain ⟨hcnt, ⟨rfl, h₁⟩ | ⟨d, bs, rfl, rfl, hbs, hlen, -, -, h₁⟩⟩ := h.allocDesc hv.1 hv.2 e
    · cases hy.unique (exec_alloc_none e)
      exact ⟨l, h₁, hapart, fun d hd _ => ⟨hd, rfl⟩⟩
    · obtain ⟨p₂, hy₂, hcases⟩ := h₁.gcIfMany (hs d p₁ e)
      cases hy.unique (exec_alloc_some e hy₂)
      have hborn : Call.born t (some d) (.alloc (some d) a b g src len) =
          Function.update t.born d bs := by
        rw [Call.born, take_givenLength hbs hlen]
      have hkeep : ∀ y ∈ l, Function.update t.born d bs y = t.born y := by
        intro y hmem
        refine Function.update_of_ne ?_ _ _
        rintro rfl
        exact hv.1 y rfl ((h.mem y).1 hmem)
      rw [hborn]
      rcases hcases with ⟨-, rfl⟩ | ⟨-, h₂, -, hgc, -⟩
      · exact ⟨d :: l, h₁, hapart, fun y hy _ => ⟨List.mem_cons_of_mem d hy, hkeep y hy⟩⟩
      · refine ⟨_, h₂, fun ha => hgc (hapart ha), fun y hy hne => ⟨mem_live.2 ⟨List.mem_cons_of_mem d hy, ?_⟩, hkeep y hy⟩⟩
        rwa [hcnt y hy]
  | ref d =>
    cases hy.unique (.of_forall fun _ => rfl)
    exact ⟨l, h.refcnt d _, (offsets_refcnt d _).symm ▸ id, fun x hx _ => ⟨hx, rfl⟩⟩
  | unref d =>
    cases hy.unique (.of_forall fun _ => rfl)
    exact ⟨l, h.refcnt d _, (offsets_refcnt d _).symm ▸ id, fun x hx _ => ⟨hx, rfl⟩⟩
  | gc g =>
    obtain ⟨r, p₁, hy₁, h₁, -, hgc, -⟩ := h.gc hs
    simp only [Call.exec, Option.map_eq_bind] at hy
    cases hy.unique (hy₁.bind (.of_forall fun _ => rfl))
    exact ⟨_, h₁, hgc, fun d hd hne => ⟨mem_live.2 ⟨hd, hne⟩, rfl⟩⟩

theorem Inv.call (h : Inv t.pool t.born l) (hv : c.Valid t.pool) (hs : c.Safe t.pool)
    (hy : Yields (fun fuel => c.exec fuel t.pool) ((r, n), p')) :
    ∃ l', Inv p' (c.born t n) l' ∧
      ∀ d ∈ l, (t.pool.desc d).refcnt ≠ 0 → d ∈ l' ∧ c.born t n d = t.born d := by
  obtain ⟨l', h', -, hkeep⟩ := h.exec hv hs hy
  exact ⟨l', h', hkeep⟩

/-- A call that may be made returns. -/
theorem Inv.exists_call (h : Inv t.pool t.born l) (hv : c.Valid t.pool) (hr : c.Readable)
    (hs : c.Safe t.pool) : ∃ r n p', Yields (fun fuel => c.exec fuel t.pool) ((r, n), p') := by
  cases c with
  | alloc x a b g src len =>
    obtain ⟨bs, hbs, hlen, hlt⟩ := hr
    obtain ⟨n, p₁, e, -⟩ := h.exists_allocDesc x hbs hlen hlt a b
    obtain ⟨-, ⟨rfl, -⟩ | ⟨d, bs, rfl, -, -, -, -, -, h₁⟩⟩ := h.allocDesc hv.1 hv.2 e
    · exact ⟨_, _, _, exec_alloc_none e⟩
    · obtain ⟨p₂, hy₂, -⟩ := h₁.gcIfMany (hs d p₁ e)
      exact ⟨_, _, _, exec_alloc_some e hy₂⟩
  | ref d => exact ⟨_, _, _, .of_forall fun _ => rfl⟩
  | unref d => exact ⟨_, _, _, .of_forall fun _ => rfl⟩
  | gc g =>
    obtain ⟨r, p₁, hy₁, -⟩ := h.gc hs
    refine ⟨r, none, p₁, ?_⟩
    simp only [Call.exec, Option.map_eq_bind]
    exact hy₁.bind (.of_forall fun _ => rfl)

theorem Run.inv (hrun : Run Call.Safe t) : ∃ l, Inv t.pool t.born l := by
  obtain ⟨desc, born, hrun⟩ := hrun
  induction hrun with
  | refl => exact ⟨[], inv_init desc born⟩
  | tail _ hs ih =>
    obtain ⟨l, h⟩ := ih
    cases hs with
    | call c r n p' hv hs hy =>
      obtain ⟨l', h', -⟩ := h.call hv hs hy
      exact ⟨l', h'⟩

/-- In every run whose collections are safe, the strings read back as they were created, and the ones
    with references still do so after a further call. -/
theorem run_survives (hrun : Run Call.Safe t) :
    (∀ d ∈ t.pool.descs, Reads t.pool d (t.born d)) ∧
      ∀ c : Call P, c.Valid t.pool → c.Readable → c.Safe t.pool →
        ∃ r n p', Yields (fun fuel => c.exec fuel t.pool) ((r, n), p') ∧
          ∀ d ∈ t.pool.descs, (t.pool.desc d).refcnt ≠ 0 → d ∈ p'.descs ∧ Reads p' d (t.born d) := by
  obtain ⟨l, h⟩ := hrun.inv
  refine ⟨fun d hd => h.reads ((h.mem d).2 hd), fun c hv hr hs => ?_⟩
  obtain ⟨r, n, p', hy⟩ := h.exists_call hv hr hs
  obtain ⟨l', h', hkeep⟩ := h.call hv hs hy
  refine ⟨r, n, p', hy, fun d hd hne => ?_⟩
  obtain ⟨hmem, hborn⟩ := hkeep d ((h.mem d).2 hd) hne
  exact ⟨(h'.mem d).1 hmem, hborn ▸ h'.reads hmem⟩

def noMemory : Answers := ⟨none, fun _ => none, none⟩

/-- The string of 20 bytes `v` is created, for which there is memory. -/
def create (g : Answers) (d : ℕ) (v : UInt8) : Call ℕ :=
  .alloc (some d) (some fun _ => 0) (some fun _ => 0) g (List.replicate 20 v) 20

/-- A string survives a collection for which there is no memory. -/
theorem run_survives_refused : ∃ (t : Sys ℕ) (r : ℤ) (n : Option ℕ) (p' : Pool ℕ),
    Run Call.Safe t ∧ (t.pool.desc 0).refcnt = 1 ∧
      Yields (fun fuel => (Call.gc noMemory).exec fuel t.pool) ((r, n), p') ∧
      Reads p' 0 (List.replicate 20 65) := by
  have heval : ((create noMemory 0 65).exec 0
      (istrPoolInit fun _ => ⟨none, 0, 0, 0⟩)).any fun q =>
        decide (q.1 = (0, some 0) ∧ 0 ∈ q.2.descs ∧ (q.2.desc 0).refcnt = 1) := by
    decide +kernel
  obtain ⟨⟨s, p⟩, e, hobs⟩ := (Option.any_eq_true ..).1 heval
  simp only [decide_eq_true_iff] at hobs
  obtain ⟨rfl, hmem, href⟩ := hobs
  have hstep := Step.call (C := Call.Safe) (.init (fun _ => ⟨none, 0, 0, 0⟩) fun _ => [])
    (create noMemory 0 65) 0 (some 0) p
    ⟨by simp [Sys.init, istrPoolInit], by decide⟩ (fun _ _ _ _ => .inl rfl) (Call.yields e)
  have hrun : Run Call.Safe _ := ⟨_, _, .single hstep⟩
  obtain ⟨r, n, p', hy, hreads⟩ :=
    (run_survives hrun).2 (.gc noMemory) trivial trivial (.inl rfl)
  exact ⟨_, r, n, p', hrun, href, hy, (hreads 0 hmem (href ▸ Nat.one_ne_zero)).2⟩

/-- Memory is given, except for the answer to the second append of a collection. -/
def secondRefused : Answers :=
  ⟨some fun _ => 0, fun j => if j = 1 then none else some fun _ => 0, some fun _ => 0⟩

/-- Two strings are created and collected, in an empty pool. -/
def lossy : Option (((ℤ × Option ℕ) × Pool ℕ) × ((ℤ × Option ℕ) × Pool ℕ) ×
    ((ℤ × Option ℕ) × Pool ℕ)) := do
  let q₁ ← (create secondRefused 0 65).exec 0 (istrPoolInit fun _ => ⟨none, 0, 0, 0⟩)
  let q₂ ← (create secondRefused 1 66).exec 0 q₁.2
  let q₃ ← (Call.gc secondRefused).exec 3 q₂.2
  return (q₁, q₂, q₃)

/-- The memory of 64 bytes that is reserved for the strings is given up for one of 32 bytes with the
    first append; if the second append is refused then its string is lost. -/
theorem not_survives : ∃ (t : Sys ℕ) (g : Answers) (r : ℤ) (p' : Pool ℕ),
    Run (fun _ _ => True) t ∧ Yields (fun fuel => (Call.gc g).exec fuel t.pool) ((r, none), p') ∧
      ∃ d ∈ t.pool.descs, (t.pool.desc d).refcnt ≠ 0 ∧ d ∈ p'.descs ∧
        ¬t.born d <+: istrText p' d := by
  have heval : lossy.any fun q => decide (q.1.1 = (0, some 0) ∧ q.2.1.1 = (0, some 1) ∧
      q.2.2.1.2 = none ∧ 1 ∉ q.1.2.descs ∧ 0 ∈ q.2.1.2.descs ∧ 0 ∈ q.2.2.2.descs ∧
      (q.2.1.2.desc 0).refcnt = 1 ∧ (istrText q.2.2.2 0).take 20 ≠ List.replicate 20 65) := by
    decide +kernel
  obtain ⟨⟨⟨s₁, p₁⟩, ⟨s₂, p₂⟩, ⟨⟨r, n⟩, p₃⟩⟩, e, hobs⟩ := (Option.any_eq_true ..).1 heval
  simp only [decide_eq_true_iff] at hobs
  obtain ⟨rfl, rfl, rfl, h₁, h₂, h₃, href, hlost⟩ := hobs
  simp only [lossy, Option.bind_eq_bind, Option.bind_eq_some_iff] at e
  obtain ⟨q₁, e₁, q₂, e₂, q₃, e₃, e⟩ := e
  cases e
  have step₁ := Step.call (C := fun _ _ => True) (.init (fun _ => ⟨none, 0, 0, 0⟩) fun _ => [])
    (create secondRefused 0 65) 0 (some 0) p₁ ⟨by simp [Sys.init, istrPoolInit], by decide⟩ trivial (Call.yields e₁)
  have step₂ := Step.call (C := fun _ _ => True)
    ⟨p₁, Call.born (.init (fun _ => ⟨none, 0, 0, 0⟩) fun _ => []) (some 0) (create secondRefused 0 65)⟩
    (create secondRefused 1 66) 0 (some 1) p₂ ⟨by simpa using h₁, by decide⟩ trivial (Call.yields e₂)
  refine ⟨_, secondRefused, r, p₃, ⟨_, _, .tail (.single step₁) step₂⟩, Call.yields e₃, 0, h₂, ?_, h₃,
    fun hpre => hlost ?_⟩
  · simp only [href]
    decide
  · exact (List.prefix_iff_eq_take.1 hpre).symm

/-! ## Runs with enough memory -/

/-- No allocation fails, and the text stays below `2 ^ 31` bytes. -/
def Answers.Granted (g : Answers) : Prop :=
  g.reserve.isSome ∧ (∀ j, (g.append j).isSome) ∧ g.trim.isSome

def Call.Granted (p : Pool P) : Call P → Prop
  | alloc d a b g src len => d.isSome ∧ a.isSome ∧ b.isSome ∧ g.Granted ∧
      ∃ bs, bs <+: src ∧ givenLength src len = some (bs.length : ℤ) ∧
        p.text.length + (bs.length + 1) < 2 ^ 31
  | ref _ => True
  | unref _ => True
  | gc g => g.Granted

/-- The pool `p'` is `p`, which had the list `l`, after a collection. -/
structure Collected (p : Pool P) (l : List P) (p' : Pool P) : Prop where
  chain : Chain (nexts p'.desc) p'.all (live p.desc l)
  mem : ∀ d, d ∈ p'.descs ↔ d ∈ l ∧ (p.desc d).refcnt ≠ 0
  count : p'.descCount = (live p.desc l).length
  length : p'.text.length = ((live p.desc l).map fun d => (p'.desc d).length + 1).sum
  refcnt : ∀ d, (p'.desc d).refcnt = (p.desc d).refcnt

/-- What a call does to a pool with the list `l`. -/
def Call.Effect (t : Sys P) (l : List P) (n : Option P) (p' : Pool P) : Call P → Prop
  | alloc d a b _ src len => ∃ x p₁, d = some x ∧ n = some x ∧
      allocDesc d a b t.pool src len = some (some x, p₁) ∧
      Chain (nexts p₁.desc) p₁.all (x :: l) ∧ (p₁.desc x).refcnt = 1 ∧
      (∀ y ∈ l, (p₁.desc y).refcnt = (t.pool.desc y).refcnt) ∧
      (p₁.descCount < p₁.gcThreshold ∧ p' = p₁ ∨
        p₁.gcThreshold ≤ p₁.descCount ∧ Collected p₁ (x :: l) p')
  | ref _ => Chain (nexts p'.desc) p'.all l
  | unref _ => Chain (nexts p'.desc) p'.all l
  | gc _ => Collected t.pool l p'

theorem fits_of_isSome {answer : ℕ → Answer} (ha : ∀ j, (answer j).isSome) {j k : ℕ}
    {cap : Option ℕ} {ls : List ℕ} (h : k + size ls < 2 ^ 31) : Fits answer j cap k ls := by
  induction ls generalizing j k cap with
  | nil => trivial
  | cons l ls ih =>
    rw [size_cons] at h
    exact ⟨by omega, by omega, .inr (ha j), ih (by omega)⟩

theorem length_le_size (ls : List ℕ) : ls.length ≤ size ls := by
  induction ls with
  | nil => exact Nat.zero_le _
  | cons n ls ih =>
    rw [size_cons, List.length_cons]
    omega

omit [DecidableEq P] in
theorem Inv.size_live (h : Inv p born l) (hlt : p.text.length < 2 ^ 31) :
    size (lengths p.desc (live p.desc l)) < 2 ^ 31 :=
  ((size_live_le p.desc l).trans h.total).trans_lt hlt

omit [DecidableEq P] in
theorem Inv.collectable (h : Inv p born l) (hg : g.Granted) (hlt : p.text.length < 2 ^ 31) :
    Collectable g p := by
  refine .inr fun l' hl' => fits_of_isSome hg.2.1 ?_
  rw [hl'.unique h.chain, Nat.zero_add]
  exact h.size_live hlt

omit [DecidableEq P] in
theorem Inv.collected (h : Inv p born l) (hlt : p.text.length < 2 ^ 31)
    (h' : Inv p' born (live p.desc l))
    (hsame : ∀ d, (p'.desc d).refcnt = (p.desc d).refcnt ∧ (p'.desc d).length = (p.desc d).length)
    (hlen : p'.text.length = size (lengths p.desc (live p.desc l))) : Collected p l p' := by
  refine ⟨h'.chain, fun d => (h'.mem d).symm.trans mem_live, ?_, ?_, fun d => (hsame d).1⟩
  · have hle := length_le_size (lengths p.desc (live p.desc l))
    have hsize := h.size_live hlt
    rw [lengths, List.length_map] at hle
    rw [h'.count]
    exact Nat.mod_eq_of_lt (by rw [lengths] at hsize; omega)
  · rw [hlen, size, ← lengths_congr fun d _ => (hsame d).2, lengths, List.map_map]
    rfl

theorem Inv.safe (h : Inv p born l) (hlt : p.text.length < 2 ^ 31) (hv : c.Valid p)
    (hg : c.Granted p) : c.Safe p := by
  cases c with
  | alloc d a b g src len =>
    intro x p₁ e _
    obtain ⟨-, -, -, hg, bs, -, hlen, hsmall⟩ := hg
    obtain ⟨-, ⟨h₀, -⟩ | ⟨x, bs', -, -, -, hlen', -, htext, h₁⟩⟩ := h.allocDesc hv.1 hv.2 e
    · cases h₀
    · have hsame : bs'.length = bs.length := by
        exact_mod_cast Option.some.inj (hlen'.symm.trans hlen)
      exact h₁.collectable hg (by omega)
  | ref d => trivial
  | unref d => trivial
  | gc g => exact h.collectable hg hlt

/-- A call with enough memory does what it should. -/
theorem Inv.effect (h : Inv t.pool t.born l) (hlt : t.pool.text.length < 2 ^ 31)
    (hv : c.Valid t.pool) (hg : c.Granted t.pool) :
    ∃ r n p', Yields (fun fuel => c.exec fuel t.pool) ((r, n), p') ∧ c.Effect t l n p' ∧
      p'.text.length < 2 ^ 31 := by
  have hs := h.safe hlt hv hg
  cases c with
  | alloc d a b g src len =>
    obtain ⟨hd, ha, hb, hg, bs, hbs, hlen, hsmall⟩ := hg
    obtain ⟨n, p₁, e, hn⟩ := h.exists_allocDesc d hbs hlen (by omega) a b
    obtain rfl := hn hd ha hb (by omega)
    obtain ⟨hcnt, ⟨rfl, -⟩ | ⟨x, bs', rfl, -, -, hlen', hone, htext, h₁⟩⟩ := h.allocDesc hv.1 hv.2 e
    · cases hd
    · have hsame : bs'.length = bs.length := by
        exact_mod_cast Option.some.inj (hlen'.symm.trans hlen)
      have hlt₁ : p₁.text.length < 2 ^ 31 := by omega
      obtain ⟨p₂, hy, hcases⟩ := h₁.gcIfMany (hs x p₁ e)
      refine ⟨0, some x, p₂, exec_alloc_some e hy, ⟨x, p₁, rfl, rfl, e, h₁.chain, hone, hcnt, ?_⟩, ?_⟩
      · refine hcases.imp_right fun ⟨hge, h₂, hsame₂, _, hr⟩ => ⟨hge, h₁.collected hlt₁ h₂ hsame₂ ?_⟩
        exact hr.resolve_left fun h₀ => by simpa [h₀] using hg.1
      · rcases hcases with ⟨-, rfl⟩ | ⟨-, -, -, -, hr⟩
        · exact hlt₁
        · rw [hr.resolve_left fun h₀ => by simpa [h₀] using hg.1]
          exact h₁.size_live hlt₁
  | ref d => exact ⟨_, _, _, .of_forall fun _ => rfl, (h.refcnt d _).chain, hlt⟩
  | unref d => exact ⟨_, _, _, .of_forall fun _ => rfl, (h.refcnt d _).chain, hlt⟩
  | gc g =>
    obtain ⟨r, p₁, hy, h₁, hsame, -, hr⟩ := h.gc hs
    have htext := (hr.resolve_left fun h₀ => by simpa [h₀.2] using hg.1).2
    refine ⟨r, none, p₁, ?_, h.collected hlt h₁ hsame htext, htext ▸ h.size_live hlt⟩
    simp only [Call.exec, Option.map_eq_bind]
    exact hy.bind (.of_forall fun _ => rfl)

theorem Run.inv_granted (hrun : Run Call.Granted t) :
    (∃ l, Inv t.pool t.born l) ∧ t.pool.text.length < 2 ^ 31 := by
  obtain ⟨desc, born, hrun⟩ := hrun
  induction hrun with
  | refl => exact ⟨⟨[], inv_init desc born⟩, by simp [Sys.init, istrPoolInit, strbufInit]⟩
  | tail _ hs ih =>
    obtain ⟨⟨l, h⟩, hlt⟩ := ih
    cases hs with
    | call c r n p' hv hg hy =>
      obtain ⟨l', h', -⟩ := h.call hv (h.safe hlt hv hg) hy
      obtain ⟨r', n', p'', hy', -, hlt'⟩ := h.effect hlt hv hg
      cases hy.unique hy'
      exact ⟨⟨l', h'⟩, hlt'⟩

/-- In every run with enough memory, the strings of the pool read back as they were created, and a
    collection keeps just those with references, in their order. -/
theorem run_collects (hrun : Run Call.Granted t) :
    ∃ l, Chain (nexts t.pool.desc) t.pool.all l ∧ l.Nodup ∧ (∀ d, d ∈ l ↔ d ∈ t.pool.descs) ∧
      (∀ d ∈ l, Reads t.pool d (t.born d)) ∧
      ∀ c : Call P, c.Valid t.pool → c.Granted t.pool →
        ∃ r n p', Yields (fun fuel => c.exec fuel t.pool) ((r, n), p') ∧ c.Effect t l n p' := by
  obtain ⟨⟨l, h⟩, hlt⟩ := hrun.inv_granted
  refine ⟨l, h.chain, h.nodup, h.mem, fun d hd => h.reads hd, fun c hv hg => ?_⟩
  obtain ⟨r, n, p', hy, he, -⟩ := h.effect hlt hv hg
  exact ⟨r, n, p', hy, he⟩

def zeroed : Answers := ⟨some fun _ => 0, fun _ => some fun _ => 0, some fun _ => 0⟩

theorem zeroed_granted : zeroed.Granted := ⟨rfl, fun _ => rfl, rfl⟩

/-- A string is created, and its reference is given up; a collection then leaves the pool empty. -/
theorem run_collects_unref : ∃ (t : Sys ℕ) (r : ℤ) (n : Option ℕ) (p' : Pool ℕ),
    Run Call.Granted t ∧ Reads t.pool 0 (List.replicate 20 65) ∧
      Yields (fun fuel => (Call.gc zeroed).exec fuel t.pool) ((r, n), p') ∧
      p'.all = none ∧ p'.text.length = 0 := by
  have heval : ((create zeroed 0 65).exec 0 (istrPoolInit fun _ => ⟨none, 0, 0, 0⟩)).any fun q =>
      decide (q.1 = (0, some 0) ∧ q.2.descs = {0} ∧ (q.2.desc 0).refcnt = 1) := by
    decide +kernel
  obtain ⟨⟨s, p⟩, e, hobs⟩ := (Option.any_eq_true ..).1 heval
  simp only [decide_eq_true_iff] at hobs
  obtain ⟨rfl, hdescs, href⟩ := hobs
  have hmem : ∀ d, d ∈ p.descs ↔ d = 0 := fun d => by rw [hdescs, Finset.mem_singleton]
  have step₁ := Step.call (C := Call.Granted) (.init (fun _ => ⟨none, 0, 0, 0⟩) fun _ => [])
    (create zeroed 0 65) 0 (some 0) p ⟨by simp [Sys.init, istrPoolInit], by decide⟩
    ⟨rfl, rfl, rfl, zeroed_granted, List.replicate 20 65, List.prefix_rfl, rfl, by decide⟩
    (Call.yields e)
  have step₂ := Step.call (C := Call.Granted)
    ⟨p, Call.born (.init (fun _ => ⟨none, 0, 0, 0⟩) fun _ => []) (some 0) (create zeroed 0 65)⟩
    (.unref 0) 0 none (istrUnref p 0) ((hmem 0).2 rfl) trivial (.of_forall fun _ => rfl)
  have hrun : Run Call.Granted _ := ⟨_, _, .tail (.single step₁) step₂⟩
  obtain ⟨l, -, -, hl, hreads, hcalls⟩ := run_collects hrun
  obtain ⟨r, n, p', hy, hgc⟩ := hcalls (.gc zeroed) trivial zeroed_granted
  have hlive : live (istrUnref p 0).desc l = [] := by
    refine List.eq_nil_iff_forall_not_mem.2 fun d hd => (mem_live.1 hd).2 ?_
    obtain rfl := (hmem d).1 ((hl d).1 (mem_live.1 hd).1)
    simp [istrUnref, setRefcnt, href]
  obtain ⟨hchain, -, -, hlen, -⟩ := hgc
  rw [hlive] at hchain hlen
  exact ⟨_, r, n, p', hrun, hreads 0 ((hl 0).2 ((hmem 0).2 rfl)), hy, hchain, hlen⟩

end Dlb.Istr
