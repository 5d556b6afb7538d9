import Mathlib.Algebra.BigOperators.Group.List.Basic
import Mathlib.Tactic.Common
import Dlb.Chain
import Dlb.Fuel
import Dlb.Istr.Code
import Dlb.Strbuf.Append

/-!
# A collection

The list is filtered by the reference counts and keeps its order (`gcDesc_yields`). The strings that
remain are copied one behind the other if every append finds the memory it needs (`Fits`), and each
descriptor then refers to the copy of its string (`gcText_yields`).
-/

namespace Dlb.Istr

open Strbuf

variable {P : Type} [DecidableEq P]

def nexts (desc : P → Desc P) (d : P) : Option P := (desc d).next

/-- Only the links are different. -/
def Relinked (desc desc' : P → Desc P) : Prop := ∀ d, ∃ v, desc' d = { desc d with next := v }

variable {p q : Option P} {l m : List P} {desc desc' desc'' : P → Desc P} {descs : Finset P} {d : P}
  {f : P → Bool} {born : P → List UInt8} {g : Answers} {j n c : ℕ} {newBuf : Strbuf}

omit [DecidableEq P] in
theorem Relinked.refl (desc : P → Desc P) : Relinked desc desc := fun d => ⟨(desc d).next, rfl⟩

omit [DecidableEq P] in
theorem Relinked.trans (h : Relinked desc desc') (h' : Relinked desc' desc'') :
    Relinked desc desc'' := by
  intro d
  obtain ⟨v, e⟩ := h d
  obtain ⟨w, e'⟩ := h' d
  exact ⟨w, by rw [e', e]⟩

theorem relinked_setNext (desc : P → Desc P) (d : P) (v : Option P) :
    Relinked desc (setNext desc d v) := by
  intro x
  by_cases hx : x = d
  · subst hx
    exact ⟨v, Function.update_self ..⟩
  · exact ⟨(desc x).next, Function.update_of_ne hx ..⟩

omit [DecidableEq P] in
theorem Relinked.refcnt (h : Relinked desc desc') (d : P) : (desc' d).refcnt = (desc d).refcnt := by
  obtain ⟨v, e⟩ := h d
  rw [e]

theorem nexts_setNext (desc : P → Desc P) (d : P) (v : Option P) :
    nexts (setNext desc d v) = Function.update (nexts desc) d v := by
  funext x
  by_cases hx : x = d
  · subst hx
    simp [nexts, setNext]
  · simp [nexts, setNext, hx]

/-! ## `gc_desc` -/

/-- The descriptor `d` is taken off a list and pushed on another one. -/
theorem Chain.move (hp : Chain (nexts desc) (nexts desc d) l) (hq : Chain (nexts desc) q m)
    (hd : (d :: l ++ m).Nodup) :
    Chain (nexts (setNext desc d q)) (nexts desc d) l ∧
      Chain (nexts (setNext desc d q)) (some d) (d :: m) ∧ (l ++ d :: m).Nodup := by
  obtain ⟨hnot, -⟩ := List.nodup_cons.1 (List.cons_append ▸ hd)
  rw [List.mem_append, not_or] at hnot
  rw [nexts_setNext]
  exact ⟨hp.update_of_not_mem hnot.1, hq.push hnot.2, List.nodup_middle.2 hd⟩

theorem filterLoop_yields (descs : Finset P) (hp : Chain (nexts desc) p l) (hq : Chain (nexts desc) q m)
    (hd : (l ++ m).Nodup) (hf : ∀ d, f d = decide ((desc d).refcnt ≠ 0)) :
    ∃ q' desc' descs', Yields (fun fuel => filterLoop fuel p q desc descs) (q', desc', descs') ∧
      Chain (nexts desc') q' ((l.filter f).reverse ++ m) ∧ Relinked desc desc' ∧
      ∀ d, d ∈ descs' ↔ d ∈ descs ∧ (d ∈ l → f d) := by
  induction l generalizing p q m desc descs with
  | nil =>
    obtain rfl : p = none := hp
    exact ⟨q, desc, descs, .of_forall fun fuel => by cases fuel <;> rfl, hq, .refl desc, by simp⟩
  | cons d l ih =>
    obtain ⟨rfl, hp⟩ := hp
    cases hl : f d with
    | true =>
      obtain ⟨hp', hq', hd'⟩ := Chain.move hp hq hd
      obtain ⟨q', desc', descs', hy, hc, hr, hmem⟩ := ih descs hp' hq' hd' fun x => by
        rw [hf, (relinked_setNext desc d q).refcnt]
      refine ⟨q', desc', descs', hy.succ fun fuel => ?_, ?_, (relinked_setNext desc d q).trans hr, ?_⟩
      · rw [filterLoop, if_pos (by simpa [hf] using hl)]
        rfl
      · simpa [hl] using hc
      · intro x
        rw [hmem, List.mem_cons]
        grind
    | false =>
      have hd' := (List.nodup_cons.1 (List.cons_append ▸ hd)).2
      obtain ⟨q', desc', descs', hy, hc, hr, hmem⟩ := ih (descs.erase d) hp hq hd' hf
      refine ⟨q', desc', descs', hy.succ fun fuel => ?_, ?_, hr, ?_⟩
      · rw [filterLoop, if_neg (by simpa [hf] using hl)]
        rfl
      · simpa [hl] using hc
      · intro x
        rw [hmem, Finset.mem_erase, List.mem_cons]
        grind

theorem reverseLoop_yields (hq : Chain (nexts desc) q l) (hp : Chain (nexts desc) p m)
    (hd : (l ++ m).Nodup) :
    ∃ p' desc', Yields (fun fuel => reverseLoop fuel q p (n % 2 ^ 32) desc)
        (p', (n + l.length) % 2 ^ 32, desc') ∧
      Chain (nexts desc') p' (l.reverse ++ m) ∧ Relinked desc desc' := by
  induction l generalizing p q m n desc with
  | nil =>
    obtain rfl : q = none := hq
    exact ⟨p, desc, .of_forall fun fuel => by cases fuel <;> rfl, hp, .refl desc⟩
  | cons d l ih =>
    obtain ⟨rfl, hq⟩ := hq
    obtain ⟨hq', hp', hd'⟩ := Chain.move hq hp hd
    obtain ⟨p', desc', hy, hc, hr⟩ := ih (n := n + 1) hq' hp' hd'
    refine ⟨p', desc', ?_, by simpa using hc, (relinked_setNext desc d p).trans hr⟩
    rw [List.length_cons, Nat.add_comm l.length, ← Nat.add_assoc]
    refine hy.succ fun fuel => ?_
    rw [reverseLoop, Nat.mod_add_mod]
    rfl

/-- The descriptors with references. -/
def live (desc : P → Desc P) (l : List P) : List P := l.filter fun d => (desc d).refcnt ≠ 0

/-- The descriptors with references remain, in the same order. -/
theorem gcDesc_yields {p : Pool P} (hc : Chain (nexts p.desc) p.all l) (hd : l.Nodup) :
    ∃ p', Yields (fun fuel => gcDesc fuel p) p' ∧
      Chain (nexts p'.desc) p'.all (live p.desc l) ∧ Relinked p.desc p'.desc ∧
      p'.descCount = (live p.desc l).length % 2 ^ 32 ∧ p'.text = p.text ∧
      ∀ d, d ∈ p'.descs ↔ d ∈ p.descs ∧ (d ∈ l → (p.desc d).refcnt ≠ 0) := by
  obtain ⟨q, desc₁, descs', hy₁, hc₁, hr₁, hmem⟩ := filterLoop_yields p.descs (m := [])
    hc rfl (by rwa [List.append_nil]) fun _ => rfl
  rw [List.append_nil] at hc₁
  obtain ⟨all', desc', hy₂, hc₂, hr₂⟩ := reverseLoop_yields (n := 0) (m := []) hc₁ rfl
    (by rw [List.append_nil, List.nodup_reverse]; exact hd.filter _)
  rw [List.length_reverse, Nat.zero_add] at hy₂
  rw [List.reverse_reverse, List.append_nil] at hc₂
  refine ⟨_, hy₁.bind (hy₂.bind (.of_forall fun _ => rfl)), hc₂, hr₁.trans hr₂, rfl, rfl, fun d => ?_⟩
  rw [hmem, decide_eq_true_iff]

/-! ## `gc_text` -/

/-- The string `bs` and a nul are in the text where the descriptor says. -/
def Holds (text : List UInt8) (x : Desc P) (bs : List UInt8) : Prop :=
  x.length = bs.length ∧ bs ++ [0] <+: text.drop x.offset

omit [DecidableEq P] in
theorem Holds.mono {text text' : List UInt8} {x : Desc P} {bs : List UInt8} (h : Holds text x bs)
    (ht : text <+: text') : Holds text' x bs :=
  ⟨h.1, h.2.trans (ht.drop x.offset)⟩

/-- Strings of the given lengths can be copied to a new buffer of the capacity `cap`, from the offset
    `n` on: the offsets and lengths are `int`s, and each append needs just the capacity that there is,
    or it is given memory. -/
def Fits (answer : ℕ → Answer) : ℕ → Option ℕ → ℕ → List ℕ → Prop
  | _, _, _, [] => True
  | j, cap, n, l :: ls => n < 2 ^ 31 ∧ l + 1 < 2 ^ 31 ∧
      (newCap (n + (l + 1)) = cap ∨ (answer j).isSome) ∧
      Fits answer (j + 1) (newCap (n + (l + 1))) (n + (l + 1)) ls

/-- The size of strings of the given lengths. -/
def size (ls : List ℕ) : ℕ := (ls.map (· + 1)).sum

theorem size_cons (n : ℕ) (ls : List ℕ) : size (n :: ls) = n + 1 + size ls := by
  simp [size]

def lengths (desc : P → Desc P) (l : List P) : List ℕ := l.map fun d => (desc d).length

omit [DecidableEq P] in
theorem lengths_cons (desc : P → Desc P) (d : P) (l : List P) :
    lengths desc (d :: l) = (desc d).length :: lengths desc l := rfl

omit [DecidableEq P] in
theorem lengths_congr (h : ∀ d ∈ l, (desc' d).length = (desc d).length) :
    lengths desc' l = lengths desc l :=
  List.map_congr_left h

def offsets (desc : P → Desc P) (l : List P) : List ℕ := l.map fun d => (desc d).offset

omit [DecidableEq P] in
theorem offsets_congr (h : ∀ d ∈ l, (desc' d).offset = (desc d).offset) :
    offsets desc' l = offsets desc l :=
  List.map_congr_left h

theorem copyLoop_yields {answer : ℕ → Answer} {text : List UInt8}
    (hc : Chain (nexts desc) p l) (hd : l.Nodup) (hv : newBuf.Valid)
    (hs : ∀ d ∈ l, Holds text (desc d) (born d))
    (hf : Fits answer j (some newBuf.capacity) newBuf.length (lengths desc l))
    (hn : newBuf.length + size (lengths desc l) < 2 ^ 62) :
    ∃ newBuf' desc', Yields (fun fuel => copyLoop answer text fuel j p newBuf desc) (newBuf', desc') ∧
      newBuf'.Valid ∧ newBuf'.length = newBuf.length + size (lengths desc l) ∧
      newBuf.content <+: newBuf'.content ∧
      (∀ d ∈ l, Holds newBuf'.content (desc' d) (born d)) ∧
      (∀ d, ∃ v, desc' d = { desc d with offset := v }) ∧ (∀ d, d ∉ l → desc' d = desc d) ∧
      (∀ n ∈ offsets desc' l, newBuf.length ≤ n) ∧ (offsets desc' l).Nodup := by
  induction l generalizing p newBuf desc j with
  | nil =>
    obtain rfl : p = none := hc
    exact ⟨newBuf, desc, .of_forall fun fuel => by cases fuel <;> rfl, hv, rfl, List.prefix_rfl,
      by simp, fun d => ⟨(desc d).offset, rfl⟩, fun _ _ => rfl, by simp [offsets],
      by simp [offsets]⟩
  | cons d l ih =>
    obtain ⟨rfl, hc⟩ := hc
    obtain ⟨hd₀, hd⟩ := List.nodup_cons.1 hd
    obtain ⟨hlen, hprefix⟩ := hs d List.mem_cons_self
    rw [lengths_cons, size_cons, hlen] at hn
    rw [lengths_cons, hlen] at hf
    obtain ⟨hoff, hlt, hcap, hf⟩ := hf
    have hbs : (born d ++ [0]).length = (born d).length + 1 := by simp
    -- The append is not refused.
    obtain ⟨r, buf₁, e, happ⟩ : ∃ r buf₁, strbufAddString (answer j) newBuf
        (text.drop (desc d).offset) (toInt ((desc d).length + 1)) = some (r, buf₁) ∧
        Appended newBuf (born d ++ [0]) buf₁ := by
      have hgiven : givenLength (text.drop (desc d).offset) (toInt ((desc d).length + 1)) =
          some ((born d ++ [0]).length : ℤ) := by
        rw [hlen, hbs, toInt_eq hlt, givenLength, if_neg (by omega)]
      obtain ⟨r, buf₁, e, ⟨-, -, hne, href⟩ | ⟨-, happ⟩⟩ :=
        hv.addString hgiven hprefix (by omega) (answer j)
      · rw [hbs] at hne href
        rw [href.resolve_right (by omega)] at hcap
        exact absurd (hcap.resolve_right (by simp)) hne
      · exact ⟨r, buf₁, e, happ⟩
    obtain ⟨desc₁, hdesc⟩ : ∃ desc₁, desc₁ =
        Function.update desc d { desc d with offset := toSize (toInt newBuf.length) } := ⟨_, rfl⟩
    have hself : desc₁ d = { desc d with offset := newBuf.length } := by
      rw [hdesc, Function.update_self, toInt_eq hoff, toSize_natCast (by omega)]
    have hother : ∀ x ∈ l, desc₁ x = desc x := by
      intro x hx
      rw [hdesc]
      refine Function.update_of_ne ?_ _ _
      rintro rfl
      exact hd₀ hx
    have hmap : lengths desc₁ l = lengths desc l := lengths_congr fun x hx => by rw [hother x hx]
    have hc₁ : Chain (nexts desc₁) (nexts desc d) l :=
      hc.congr fun x hx => by rw [nexts, hother x hx, nexts]
    obtain ⟨newBuf', desc', hy, hv', hlen', hpre, hs', hoffs, hframe, hge, hapart⟩ :=
      ih (j := j + 1) hc₁ hd
      happ.valid (fun x hx => hother x hx ▸ hs x (List.mem_cons_of_mem d hx))
      (by rw [hmap, happ.length, hbs, ← happ.capacity, hbs]; exact hf)
      (by rw [hmap, happ.length, hbs]; omega)
    rw [hmap, happ.length, hbs] at hlen'
    rw [happ.content] at hpre
    rw [happ.length, hbs] at hge
    have hcons : offsets desc' (d :: l) = newBuf.length :: offsets desc' l := by
      rw [offsets, List.map_cons, hframe d hd₀, hself, offsets]
    refine ⟨newBuf', desc', ?_, hv', ?_, (List.prefix_append ..).trans hpre, ?_, ?_, ?_, ?_, ?_⟩
    · refine hy.succ fun fuel => ?_
      simp only [copyLoop, e, Option.bind_eq_bind, Option.bind_some, hdesc]
      rfl
    · rw [hlen', lengths_cons, size_cons, hlen]
      omega
    · intro x hx
      rcases List.mem_cons.1 hx with rfl | hx
      · -- The copy is at the end of what was there before.
        rw [hframe x hd₀, hself]
        have htail := hpre.drop newBuf.length
        rw [List.drop_left' hv.length_content] at htail
        exact ⟨hlen, htail⟩
      · exact hs' x hx
    · intro x
      obtain ⟨v, hv⟩ := hoffs x
      by_cases hx : x = d
      · subst hx
        exact ⟨v, by rw [hv, hself]⟩
      · exact ⟨v, by rw [hv, hdesc, Function.update_of_ne hx]⟩
    · intro x hx
      rw [List.mem_cons, not_or] at hx
      rw [hframe x hx.2, hdesc, Function.update_of_ne hx.1]
    · intro n hn
      rcases List.mem_cons.1 (hcons ▸ hn) with rfl | hn
      · exact le_rfl
      · exact (Nat.le_add_right ..).trans (hge n hn)
    · rw [hcons]
      refine List.nodup_cons.2 ⟨fun hmem => ?_, hapart⟩
      have := hge _ hmem
      omega

/-- The reservation is refused and nothing changes, or the strings are copied. -/
theorem gcText_yields {p : Pool P} (hc : Chain (nexts p.desc) p.all l) (hd : l.Nodup)
    (hv : p.text.Valid) (hs : ∀ d ∈ l, Holds p.text.content (p.desc d) (born d))
    (hle : size (lengths p.desc l) ≤ p.text.length)
    (hf : g.reserve = none ∨
      Fits g.append 0 (newCap p.text.length) 0 (lengths p.desc l)) :
    ∃ r text' desc', Yields (fun fuel => gcText g fuel p) (r, { p with text := text', desc := desc' }) ∧
      text'.Valid ∧ (∀ d ∈ l, Holds text'.content (desc' d) (born d)) ∧
      (∀ d, ∃ v, desc' d = { p.desc d with offset := v }) ∧
      ((offsets p.desc l).Nodup → (offsets desc' l).Nodup) ∧
      (r = -1 ∧ g.reserve = none ∧ text' = p.text ∨
        r = 0 ∧ text'.length = size (lengths p.desc l)) := by
  have hlt := hv.length_lt
  obtain ⟨r₀, buf₀, e₀, ⟨rfl, -, -, href⟩ | ⟨rfl, hres⟩⟩ :=
    valid_init.capacityHint (n := p.text.length) (by omega) (Nat.zero_le _) g.reserve
  · refine ⟨-1, p.text, p.desc, .of_forall fun fuel => ?_, hv, hs, fun d => ⟨(p.desc d).offset, rfl⟩,
      id, .inl ⟨rfl, href.resolve_right (by omega), rfl⟩⟩
    simp [gcText, e₀]
  · have hlen₀ : buf₀.length = 0 := hres.length
    have hfit : Fits g.append 0 (some buf₀.capacity) buf₀.length
        (lengths p.desc l) := by
      rw [hlen₀, ← hres.capacity]
      refine hf.resolve_left fun hnone => ?_
      rw [hnone, capacityHint_init (by omega)] at e₀
      cases e₀
    have hs₀ : ∀ d ∈ l, Holds p.text.text (p.desc d) (born d) :=
      fun d hd => (hs d hd).mono (List.take_prefix ..)
    obtain ⟨buf₁, desc', hy, hv₁, hlen₁, -, hs₁, hoffs, -, -, hapart⟩ :=
      copyLoop_yields hc hd hres.valid hs₀ hfit (by omega)
    obtain ⟨r₂, buf₂, e₂, h₂⟩ := hv₁.capacityHint (n := buf₁.length) (by have := hv₁.length_lt; omega)
      le_rfl g.trim
    obtain ⟨hv₂, hlen₂, hcont₂⟩ : buf₂.Valid ∧ buf₂.length = buf₁.length ∧
        buf₂.content = buf₁.content := by
      rcases h₂ with ⟨-, rfl, -⟩ | ⟨-, h₂⟩
      · exact ⟨hv₁, rfl, rfl⟩
      · exact ⟨h₂.valid, h₂.length, h₂.content⟩
    have hy₂ : Yields (fun _ : ℕ => (strbufCapacityHint g.trim buf₁ buf₁.length).bind fun r =>
        some ((0 : ℤ), { p with text := r.2, desc := desc' }))
        (0, { p with text := buf₂, desc := desc' }) :=
      .of_forall fun _ => by rw [e₂, Option.bind_some]
    refine ⟨0, buf₂, desc', ?_, hv₂, by rwa [hcont₂], hoffs, fun _ => hapart,
      .inr ⟨rfl, by omega⟩⟩
    refine (hy.bind (f := fun _ q => (strbufCapacityHint g.trim q.1 q.1.length).bind fun r =>
      some ((0 : ℤ), { p with text := r.2, desc := q.2 })) hy₂).congr fun fuel => ?_
    simp [gcText, e₀]

/-! ## More fuel -/

section

variable {fuel count : ℕ} {answer : ℕ → Answer} {text : List UInt8} {p₀ : Pool P}

theorem filterLoop_succ {s : Option P × (P → Desc P) × Finset P}
    (h : filterLoop fuel p q desc descs = some s) :
    filterLoop (fuel + 1) p q desc descs = some s := by
  induction fuel generalizing p q desc descs with
  | zero =>
    cases p with
    | none => exact h
    | some d => cases h
  | succ fuel ih =>
    cases p with
    | none => exact h
    | some d =>
      rw [filterLoop] at h ⊢
      split at h
      next hd =>
        rw [if_pos hd]
        exact ih h
      next hd =>
        rw [if_neg hd]
        exact ih h

theorem reverseLoop_succ {s : Option P × ℕ × (P → Desc P)}
    (h : reverseLoop fuel p q count desc = some s) :
    reverseLoop (fuel + 1) p q count desc = some s := by
  induction fuel generalizing p q count desc with
  | zero =>
    cases p with
    | none => exact h
    | some d => cases h
  | succ fuel ih =>
    cases p with
    | none => exact h
    | some d => exact ih h

theorem copyLoop_succ {s : Strbuf × (P → Desc P)}
    (h : copyLoop answer text fuel j p newBuf desc = some s) :
    copyLoop answer text (fuel + 1) j p newBuf desc = some s := by
  induction fuel generalizing p j newBuf desc with
  | zero =>
    cases p with
    | none => exact h
    | some d => cases h
  | succ fuel ih =>
    cases p with
    | none => exact h
    | some d =>
      rw [copyLoop, Option.bind_eq_bind, Option.bind_eq_some_iff] at h ⊢
      obtain ⟨r, e, h⟩ := h
      exact ⟨r, e, ih h⟩

theorem gcDesc_succ {p₁ : Pool P} (h : gcDesc fuel p₀ = some p₁) : gcDesc (fuel + 1) p₀ = some p₁ := by
  obtain ⟨q, e₁, h⟩ := Option.bind_eq_some_iff.1 h
  obtain ⟨q', e₂, h⟩ := Option.bind_eq_some_iff.1 h
  exact Option.bind_eq_some_iff.2 ⟨q, filterLoop_succ e₁,
    Option.bind_eq_some_iff.2 ⟨q', reverseLoop_succ e₂, h⟩⟩

theorem gcText_succ {s : ℤ × Pool P} (h : gcText g fuel p₀ = some s) :
    gcText g (fuel + 1) p₀ = some s := by
  rw [gcText, Option.bind_eq_bind, Option.bind_eq_some_iff] at h ⊢
  obtain ⟨⟨r, newBuf⟩, e, h⟩ := h
  refine ⟨(r, newBuf), e, ?_⟩
  dsimp only at h ⊢
  split at h
  next hr =>
    rw [if_pos hr]
    exact h
  next hr =>
    rw [if_neg hr]
    obtain ⟨q, e', h⟩ := Option.bind_eq_some_iff.1 h
    exact Option.bind_eq_some_iff.2 ⟨q, copyLoop_succ e', h⟩

theorem istrPoolGc_succ {s : ℤ × Pool P} (h : istrPoolGc g fuel p₀ = some s) :
    istrPoolGc g (fuel + 1) p₀ = some s := by
  obtain ⟨p₁, e, h⟩ := Option.bind_eq_some_iff.1 h
  exact Option.bind_eq_some_iff.2 ⟨p₁, gcDesc_succ e, gcText_succ h⟩

end

end Dlb.Istr
