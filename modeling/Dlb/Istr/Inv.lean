import Mathlib.Algebra.Order.BigOperators.Group.List
import Mathlib.Data.Finset.Basic
import Dlb.Istr.Collect

/-!
# The invariant of a pool

The list of a pool consists of the descriptors that have been allocated, and the text of each one is
where it says (`Inv`). A collection keeps this if it can copy the strings (`Collectable`), and so
do the other operations whether there is memory or not.
-/

namespace Dlb.Istr

open Strbuf

variable {P : Type} [DecidableEq P]

/-- The pool `p` has the list `l`; each descriptor was created with the bytes `born`. -/
structure Inv (p : Pool P) (born : P → List UInt8) (l : List P) : Prop where
  chain : Chain (nexts p.desc) p.all l
  nodup : l.Nodup
  mem : ∀ d, d ∈ l ↔ d ∈ p.descs
  count : p.descCount = l.length % 2 ^ 32
  valid : p.text.Valid
  holds : ∀ d ∈ l, Holds p.text.content (p.desc d) (born d)
  small : ∀ d ∈ l, (born d).length < 2 ^ 31
  total : size (lengths p.desc l) ≤ p.text.length

variable {p p' : Pool P} {born : P → List UInt8} {l : List P} {d : P} {g : Answers} {a b : Answer}
  {src bs : List UInt8} {len : ℤ}

omit [DecidableEq P] in
theorem inv_init (desc : P → Desc P) (born : P → List UInt8) : Inv (istrPoolInit desc) born [] := by
  constructor <;> simp [istrPoolInit, Chain, valid_init, size, lengths]

/-! ## References -/

omit [DecidableEq P] in
/-- The descriptors outside of the list may change, and the text may be extended. -/
theorem Inv.frame (h : Inv p born l) (hdesc : ∀ y ∈ l, p'.desc y = p.desc y)
    (hall : p'.all = p.all) (hdescs : p'.descs = p.descs) (hcount : p'.descCount = p.descCount)
    (ht : Extends p.text p'.text) : Inv p' born l := by
  refine ⟨?_, h.nodup, fun y => hdescs ▸ h.mem y, hcount.trans h.count, ht.valid, fun y hy => ?_,
    h.small, ?_⟩
  · rw [hall]
    exact h.chain.congr fun y hy => by rw [nexts, hdesc y hy, nexts]
  · rw [hdesc y hy]
    exact (h.holds y hy).mono ht.content
  · rw [lengths_congr fun y hy => by rw [hdesc y hy]]
    exact h.total.trans ht.length

theorem Inv.refcnt (h : Inv p born l) (d : P) (v : ℕ) : Inv (setRefcnt p d v) born l := by
  have hsame : ∀ x, nexts (setRefcnt p d v).desc x = nexts p.desc x ∧
      ((setRefcnt p d v).desc x).length = (p.desc x).length ∧
      ((setRefcnt p d v).desc x).offset = (p.desc x).offset := by
    intro x
    by_cases hx : x = d
    · subst hx
      simp [setRefcnt, nexts]
    · simp [setRefcnt, nexts, hx]
  refine ⟨h.chain.congr fun x _ => (hsame x).1, h.nodup, h.mem, h.count, h.valid, ?_, h.small, ?_⟩
  · intro x hx
    rw [Holds, (hsame x).2.1, (hsame x).2.2]
    exact h.holds x hx
  · rw [lengths_congr fun x _ => (hsame x).2.1]
    exact h.total

theorem offsets_refcnt (d : P) (v : ℕ) : offsets (setRefcnt p d v).desc l = offsets p.desc l := by
  refine offsets_congr fun x _ => ?_
  by_cases hx : x = d
  · subst hx
    simp [setRefcnt]
  · simp [setRefcnt, hx]

/-! ## Collections -/

/-- The reservation is refused, or the strings with references can be copied. -/
def Collectable (g : Answers) (p : Pool P) : Prop :=
  g.reserve = none ∨ ∀ l, Chain (nexts p.desc) p.all l →
    Fits g.append 0 (newCap p.text.length) 0 (lengths p.desc (live p.desc l))

omit [DecidableEq P] in
theorem size_live_le (desc : P → Desc P) (l : List P) :
    size (lengths desc (live desc l)) ≤ size (lengths desc l) :=
  ((List.filter_sublist.map _).map _).sum_le_sum fun _ _ => Nat.zero_le _

/-- The list after a collection consists of the descriptors with references. -/
theorem Inv.gc (h : Inv p born l) (hg : Collectable g p) :
    ∃ r p', Yields (fun fuel => istrPoolGc g fuel p) (r, p') ∧ Inv p' born (live p.desc l) ∧
      (∀ d, (p'.desc d).refcnt = (p.desc d).refcnt ∧ (p'.desc d).length = (p.desc d).length) ∧
      ((offsets p.desc l).Nodup → (offsets p'.desc (live p.desc l)).Nodup) ∧
      (r = -1 ∧ g.reserve = none ∨
        r = 0 ∧ p'.text.length = size (lengths p.desc (live p.desc l))) := by
  obtain ⟨p₁, hy₁, hc₁, hr₁, hcount, htext, hmem₁⟩ := gcDesc_yields h.chain h.nodup
  have hsub : ∀ d ∈ live p.desc l, d ∈ l := fun d hd => (List.mem_filter.1 hd).1
  have hd : (live p.desc l).Nodup := h.nodup.filter _
  have hle : size (lengths p.desc (live p.desc l)) ≤ p₁.text.length := by
    rw [htext]
    exact (size_live_le p.desc l).trans h.total
  have hlen : lengths p₁.desc (live p.desc l) = lengths p.desc (live p.desc l) := by
    refine lengths_congr fun d _ => ?_
    obtain ⟨v, e⟩ := hr₁ d
    rw [e]
  have hoff₁ : ∀ d, (p₁.desc d).offset = (p.desc d).offset := by
    intro d
    obtain ⟨v, e⟩ := hr₁ d
    rw [e]
  have hholds : ∀ d ∈ live p.desc l, Holds p₁.text.content (p₁.desc d) (born d) := by
    intro d hd
    obtain ⟨v, e⟩ := hr₁ d
    rw [e, htext]
    exact h.holds d (hsub d hd)
  obtain ⟨r, text', desc', hy₂, hv, hs, hoffs, hapart, hr⟩ := gcText_yields hc₁ hd
    (by rw [htext]; exact h.valid) hholds (by rwa [hlen])
    (hg.imp_right fun hf => by rw [hlen, htext]; exact hf l h.chain)
  have hsame : ∀ d, (desc' d).next = (p₁.desc d).next ∧ (desc' d).length = (p.desc d).length ∧
      (desc' d).refcnt = (p.desc d).refcnt := by
    intro d
    obtain ⟨v, e⟩ := hr₁ d
    obtain ⟨w, e'⟩ := hoffs d
    rw [e', e]
    exact ⟨rfl, rfl, rfl⟩
  rw [hlen] at hr
  refine ⟨r, _, hy₁.bind hy₂, ⟨hc₁.congr fun d _ => (hsame d).1, hd, fun d => ?_, hcount, hv, hs,
    fun d hd => h.small d (hsub d hd), ?_⟩, fun d => ⟨(hsame d).2.2, (hsame d).2.1⟩, fun ha => hapart ?_, ?_⟩
  · rw [hmem₁, ← h.mem, live, List.mem_filter, decide_eq_true_iff]
    exact ⟨fun hd => ⟨hd.1, fun _ => hd.2⟩, fun hd => ⟨hd.1, hd.2 hd.1⟩⟩
  · rw [lengths_congr fun d _ => (hsame d).2.1]
    rcases hr with ⟨-, -, e⟩ | ⟨-, e⟩
    · exact e ▸ hle
    · exact e.ge
  · rw [offsets_congr fun d _ => (hoff₁ d)]
    exact ha.sublist (List.filter_sublist.map _)
  · exact hr.imp_left fun hr => ⟨hr.1, hr.2.1⟩

theorem Inv.gcIfMany (h : Inv p born l) (hg : p.gcThreshold ≤ p.descCount → Collectable g p) :
    ∃ p', Yields (fun fuel => gcIfMany g fuel p) p' ∧
      (p.descCount < p.gcThreshold ∧ p' = p ∨
        p.gcThreshold ≤ p.descCount ∧ Inv p' born (live p.desc l) ∧
        (∀ d, (p'.desc d).refcnt = (p.desc d).refcnt ∧ (p'.desc d).length = (p.desc d).length) ∧
        ((offsets p.desc l).Nodup → (offsets p'.desc (live p.desc l)).Nodup) ∧
        (g.reserve = none ∨ p'.text.length = size (lengths p.desc (live p.desc l)))) := by
  rcases Nat.lt_or_ge p.descCount p.gcThreshold with hlt | hge
  · refine ⟨p, .of_forall fun fuel => ?_, .inl ⟨hlt, rfl⟩⟩
    rw [Istr.gcIfMany, if_neg (Nat.not_le.2 hlt)]
  · obtain ⟨r, p', hy, h', hsame, hapart, hr⟩ := h.gc (hg hge)
    refine ⟨setThreshold p', ?_, .inr ⟨hge, ?_, hsame, hapart, hr.imp And.right And.right⟩⟩
    · simp only [Istr.gcIfMany, if_pos hge, Option.map_eq_bind]
      exact hy.bind (.of_forall fun _ => rfl)
    · exact h'.frame (fun _ _ => rfl) rfl rfl rfl (.refl h'.valid)

/-! ## `istr_pool_alloc` -/

variable {text text' : Strbuf} {failed : Bool} {k : ℤ} {n : Option P}

/-- The string and a nul have been added, or the text may have been extended. -/
theorem addText_cases (hv : text.Valid) (hk : givenLength src k = some k) (hlt : k < 2 ^ 31)
    (e : addText a b text src k = some (failed, text')) : Extends text text' ∧
      (failed = true ∨ failed = false ∧ ∃ bs, bs <+: src ∧ k = bs.length ∧
        bs ++ [0] <+: text'.content.drop text.length ∧
        text'.length = text.length + (bs.length + 1)) := by
  simp only [addText, Option.bind_eq_bind, Option.bind_eq_some_iff] at e
  obtain ⟨⟨r, text₁⟩, e₁, e⟩ := e
  obtain ⟨rfl, rfl⟩ | ⟨bs, hbs, hlen, -, rfl, h₁⟩ := hv.addString_cases hlt e₁
  · obtain ⟨rfl, rfl⟩ : true = failed ∧ text₁ = text' := by simpa using e
    exact ⟨.refl hv, .inl rfl⟩
  · rw [if_neg (by omega), Option.bind_eq_some_iff] at e
    obtain ⟨⟨r, text₂⟩, e₂, e⟩ := e
    obtain ⟨rfl, rfl⟩ : decide (r < 0) = failed ∧ text₂ = text' := by simpa using e
    obtain ⟨rfl, rfl⟩ | ⟨cs, hcs, hlen₂, -, rfl, h₂⟩ := h₁.valid.addString_cases (by decide) e₂
    · exact ⟨h₁.extends, .inl rfl⟩
    · obtain rfl : cs = [0] := by
        refine hcs.eq_of_length ?_
        rw [givenLength, if_neg (by decide), Option.some.injEq] at hlen₂
        exact_mod_cast hlen₂.symm
      refine ⟨h₁.extends.trans h₂.extends, .inr ⟨by simp, bs, hbs, ?_, ?_, ?_⟩⟩
      · exact Option.some.inj (hk.symm.trans hlen)
      · rw [h₂.content, h₁.content, List.append_assoc, List.drop_left' hv.length_content]
      · rw [h₂.length, h₁.length, List.length_singleton, Nat.add_assoc]

theorem Inv.link (h : Inv p born l) (hd : d ∉ p.descs) (ht : Extends p.text text')
    (hbs : bs ++ [0] <+: text'.content.drop p.text.length) (hlt : bs.length < 2 ^ 31)
    (hlen : text'.length = p.text.length + (bs.length + 1)) :
    Inv (linkDesc { setDesc p d bs.length with text := text' } d) (Function.update born d bs)
      (d :: l) := by
  have hdl : d ∉ l := fun hmem => hd ((h.mem d).1 hmem)
  have hne : ∀ y ∈ l, y ≠ d := by
    rintro y hy rfl
    exact hdl hy
  obtain ⟨p', hp⟩ : ∃ p', p' = linkDesc { setDesc p d bs.length with text := text' } d := ⟨_, rfl⟩
  have hself : p'.desc d = ⟨p.all, p.text.length, bs.length, 1⟩ := by
    simp [hp, linkDesc, setDesc, setNext, toSize_natCast (show bs.length < 2 ^ 64 by omega)]
  have hother : ∀ y ∈ l, p'.desc y = p.desc y := by
    intro y hy
    simp [hp, linkDesc, setDesc, setNext, hne y hy]
  have htext : p'.text = text' := by rw [hp]; rfl
  rw [← hp]
  refine ⟨?_, List.nodup_cons.2 ⟨hdl, h.nodup⟩, fun y => ?_, ?_, htext ▸ ht.valid, fun y hy => ?_,
    fun y hy => ?_, ?_⟩
  · have hall : p'.all = some d := by rw [hp]; rfl
    refine ⟨hall, ?_⟩
    rw [nexts, hself]
    exact h.chain.congr fun y hy => by rw [nexts, hother y hy, nexts]
  · have hdescs : p'.descs = insert d p.descs := by rw [hp]; rfl
    rw [hdescs, Finset.mem_insert, List.mem_cons, h.mem]
  · have hcount : p'.descCount = (p.descCount + 1) % 2 ^ 32 := by rw [hp]; rfl
    rw [hcount, h.count, Nat.mod_add_mod, List.length_cons]
  · rw [htext]
    rcases List.mem_cons.1 hy with rfl | hy
    · rw [hself, Function.update_self]
      exact ⟨rfl, hbs⟩
    · rw [hother y hy, Function.update_of_ne (hne y hy)]
      exact (h.holds y hy).mono ht.content
  · rcases List.mem_cons.1 hy with rfl | hy
    · rwa [Function.update_self]
    · rw [Function.update_of_ne (hne y hy)]
      exact h.small y hy
  · have hlen₀ : (p'.desc d).length = bs.length := by rw [hself]
    rw [lengths_cons, size_cons, hlen₀, lengths_congr fun y hy => by rw [hother y hy], htext, hlen]
    have := h.total
    omega

/-- The length that has been computed is not negative, or it is computed again. -/
theorem givenLength_self (e : givenLength src len = some k) : givenLength src k = some k := by
  rw [givenLength] at e ⊢
  split at e
  · rw [e, ite_self]
  next hneg =>
    obtain rfl := Option.some.inj e
    rw [if_neg hneg]

/-- A call has returned no string, or it has created one. -/
theorem Inv.allocDesc (h : Inv p born l) {d : Option P} (hd : ∀ x ∈ d, x ∉ p.descs)
    (hlt : len < 2 ^ 31) (e : allocDesc d a b p src len = some (n, p')) :
    (∀ y ∈ l, (p'.desc y).refcnt = (p.desc y).refcnt) ∧
      (n = none ∧ Inv p' born l ∨ ∃ x bs, n = some x ∧ d = some x ∧ bs <+: src ∧
        givenLength src len = some (bs.length : ℤ) ∧ (p'.desc x).refcnt = 1 ∧
        p'.text.length = p.text.length + (bs.length + 1) ∧
        Inv p' (Function.update born x bs) (x :: l)) := by
  simp only [Istr.allocDesc, Option.bind_eq_bind, Option.bind_eq_some_iff] at e
  obtain ⟨k, hk, e⟩ := e
  cases d with
  | none =>
    cases e
    exact ⟨fun _ _ => rfl, .inl ⟨rfl, h⟩⟩
  | some x =>
    rw [Option.bind_eq_some_iff] at e
    obtain ⟨⟨failed, text'⟩, hadd, e⟩ := e
    have hx : x ∉ p.descs := hd x rfl
    have hne : ∀ y ∈ l, y ≠ x := by
      rintro y hy rfl
      exact hx ((h.mem y).1 hy)
    have hk' := givenLength_self hk
    have hklt := (givenLength_cases hlt hk).1
    obtain ⟨ht, rfl | ⟨rfl, bs, hbs, rfl, hpre, hlen⟩⟩ := addText_cases h.valid hk' hklt hadd
    · obtain ⟨rfl, rfl⟩ := Prod.mk.inj (Option.some.inj e)
      have hdesc : ∀ y ∈ l, (slabFree { setDesc p x k with text := text' } x).desc y = p.desc y :=
        fun y hy => Function.update_of_ne (hne y hy) _ _
      exact ⟨fun y hy => by rw [hdesc y hy],
        .inl ⟨rfl, h.frame hdesc rfl (Finset.erase_insert hx) rfl ht⟩⟩
    · obtain ⟨rfl, rfl⟩ := Prod.mk.inj (Option.some.inj e)
      refine ⟨fun y hy => ?_, .inr ⟨x, bs, rfl, rfl, hbs, hk, ?_, hlen,
        h.link hx ht hpre (by omega) hlen⟩⟩
      · simp [linkDesc, setDesc, setNext, hne y hy]
      · simp [linkDesc, setDesc, setNext]

omit [DecidableEq P] in
/-- A string begins before the end of the text. -/
theorem Inv.offset_lt (h : Inv p born l) (hd : d ∈ l) : (p.desc d).offset < p.text.length := by
  obtain ⟨-, hpre⟩ := h.holds d hd
  have hle := hpre.length_le
  rw [List.length_append, List.length_singleton, List.length_drop, h.valid.length_content] at hle
  omega

/-- The new string is behind the others. -/
theorem Inv.allocDesc_offsets (h : Inv p born l) {d : Option P} (hd : ∀ x ∈ d, x ∉ p.descs)
    (e : Istr.allocDesc d a b p src len = some (n, p')) (ha : (offsets p.desc l).Nodup) :
    (offsets p'.desc (n.toList ++ l)).Nodup := by
  simp only [Istr.allocDesc, Option.bind_eq_bind, Option.bind_eq_some_iff] at e
  obtain ⟨k, -, e⟩ := e
  cases d with
  | none =>
    cases e
    exact ha
  | some x =>
    rw [Option.bind_eq_some_iff] at e
    obtain ⟨⟨failed, text'⟩, -, e⟩ := e
    have hne : ∀ y ∈ l, y ≠ x := by
      rintro y hy rfl
      exact hd y rfl ((h.mem y).1 hy)
    cases failed with
    | true =>
      obtain ⟨rfl, rfl⟩ := Prod.mk.inj (Option.some.inj e)
      refine (offsets_congr fun y hy => ?_).symm ▸ ha
      simp [slabFree, setDesc, hne y hy]
    | false =>
      obtain ⟨rfl, hp⟩ := Prod.mk.inj (Option.some.inj e)
      have hself : (p'.desc x).offset = p.text.length := by
        simp [← hp, linkDesc, setDesc, setNext]
      have hother : offsets p'.desc l = offsets p.desc l :=
        offsets_congr fun y hy => by simp [← hp, linkDesc, setDesc, setNext, hne y hy]
      have hcons : offsets p'.desc (x :: l) = p.text.length :: offsets p.desc l := by
        rw [offsets, List.map_cons, hself, ← hother, offsets]
      refine hcons ▸ List.nodup_cons.2 ⟨fun hmem => ?_, ha⟩
      obtain ⟨y, hy, e⟩ := List.mem_map.1 hmem
      exact (h.offset_lt hy).ne e

/-- A string that can be read is added if there is memory. -/
theorem exists_addText (hv : text.Valid) (hbs : bs <+: src) (hlt : bs.length < 2 ^ 31)
    (a b : Answer) : ∃ failed text', addText a b text src bs.length = some (failed, text') ∧
      (a.isSome → b.isSome → text.length + (bs.length + 1) < 2 ^ 62 → failed = false) := by
  have hgiven : givenLength src bs.length = some (bs.length : ℤ) := by
    rw [givenLength, if_neg (by omega)]
  obtain ⟨r, text₁, e₁, ⟨rfl, rfl, -, hno⟩ | ⟨rfl, h₁⟩⟩ := hv.addString hgiven hbs hlt a
  · refine ⟨true, text₁, by simp [addText, e₁], fun ha _ hsmall => ?_⟩
    rw [hno.resolve_right (by omega)] at ha
    cases ha
  · have hnul : givenLength [0] 1 = some (([0] : List UInt8).length : ℤ) := rfl
    obtain ⟨r, text₂, e₂, h₂⟩ := h₁.valid.addString hnul List.prefix_rfl (by decide) b
    have hnonneg : ¬((bs.length : ℤ) < 0) := by omega
    refine ⟨decide (r < 0), text₂, by simp [addText, e₁, hnonneg, strbufAddChar, e₂], ?_⟩
    intro _ hb hsmall
    rcases h₂ with ⟨-, -, -, hno⟩ | ⟨rfl, -⟩
    · rw [h₁.length, List.length_singleton] at hno
      rw [hno.resolve_right (by omega)] at hb
      cases hb
    · rfl

theorem Inv.exists_allocDesc (h : Inv p born l) (d : Option P) (hbs : bs <+: src)
    (hlen : givenLength src len = some (bs.length : ℤ)) (hlt : bs.length < 2 ^ 31) (a b : Answer) :
    ∃ n p', Istr.allocDesc d a b p src len = some (n, p') ∧
      (d.isSome → a.isSome → b.isSome → p.text.length + (bs.length + 1) < 2 ^ 62 → n = d) := by
  cases d with
  | none => exact ⟨none, p, by simp [Istr.allocDesc, hlen], fun _ _ _ _ => rfl⟩
  | some x =>
    obtain ⟨failed, text', e, hok⟩ := exists_addText h.valid hbs hlt a b
    have e' : addText a b (setDesc p x bs.length).text src bs.length = some (failed, text') := e
    cases failed with
    | true =>
      refine ⟨none, slabFree { setDesc p x bs.length with text := text' } x, ?_,
        fun _ ha hb hsmall => ?_⟩
      · simp [Istr.allocDesc, hlen, e']
      · cases hok ha hb hsmall
    | false =>
      refine ⟨some x, linkDesc { setDesc p x bs.length with text := text' } x, ?_, fun _ _ _ _ => rfl⟩
      simp [Istr.allocDesc, hlen, e']

end Dlb.Istr
