import Mathlib.Data.List.Basic
import Mathlib.Order.Nat
import Mathlib.Tactic.Common
import Dlb.Mailbox.Code

/-!
# The log of the sections

What the sections of a mailbox decide, and what they should decide, over all sections so far.

* `First`: the section after which the condition of a wait holds for the first time;
* `Decides`: the section that decides to submit the callback of a wait;
* `Agree.snoc`, `Agree.snoc_wait`: that these are the same is kept by one more section.
-/

namespace Dlb.Mailbox

variable {Φ : Type} {op : Op Φ} {log : List (Section Φ)} {x : Section Φ}
  {i j : ℕ}

/-! ## Conditions -/

/-- The condition of a wait holds of the flags. -/
def Op.Meets (flags : Flags) : Op Φ → Prop
  | .wait set _ => ∃ k, set.getLsbD k = true ∧ flags.getLsbD k = true
  | .waitAll set _ => ∀ k, set.getLsbD k = true → flags.getLsbD k = true
  | .take _ | .raise _ => False

/-- The callback of a wait. -/
def Op.callback : Op Φ → Option Φ
  | .wait _ cb | .waitAll _ cb => some cb
  | .take _ | .raise _ => none

/-- The section `j` decides to submit the callback of the wait `i`, which is the last one. -/
def Decides (log : List (Section Φ)) (i j : ℕ) : Prop :=
  i ≤ j ∧ (∃ x, log[j]? = some x ∧ x.fire = true) ∧
    ∀ k y, i < k → k ≤ j → log[k]? = some y → y.op.isWait = false

/-- The section `j` is the first one from `i` on after which the condition of `op` holds. -/
def First (log : List (Section Φ)) (op : Op Φ) (i j : ℕ) : Prop :=
  i ≤ j ∧ (∃ x, log[j]? = some x ∧ op.Meets x.after) ∧
    ∀ k y, i ≤ k → k < j → log[k]? = some y → ¬op.Meets y.after

/-- The flag was raised, and not cleared since. -/
def Raised (log : List (Section Φ)) (k : ℕ) : Prop :=
  ∃ (j : ℕ) (x : Section Φ) (mask : Flags), log[j]? = some x ∧ x.op = .raise mask ∧ mask.getLsbD k = true ∧
    ∀ j' y mask', j < j' → log[j']? = some y → y.op = Op.take mask' → mask'.getLsbD k = false

theorem and_ne_zero_iff {a b : Flags} :
    (a &&& b != 0) = true ↔ ∃ k, b.getLsbD k = true ∧ a.getLsbD k = true := by
  rw [bne_iff_ne, ne_eq, BitVec.eq_of_getLsbD_eq_iff, not_forall]
  refine exists_congr fun k => ?_
  have hk : a.getLsbD k = true → k < 32 := BitVec.lt_of_getLsbD
  rw [BitVec.getLsbD_and, BitVec.ofNat_eq_ofNat, BitVec.getLsbD_zero]
  cases ha : a.getLsbD k <;> cases b.getLsbD k <;> simp_all

theorem and_eq_iff {a b : Flags} :
    (a &&& b == b) = true ↔ ∀ k, b.getLsbD k = true → a.getLsbD k = true := by
  rw [beq_iff_eq, BitVec.eq_of_getLsbD_eq_iff]
  refine forall_congr' fun k => ?_
  have hk : b.getLsbD k = true → k < 32 := BitVec.lt_of_getLsbD
  rw [BitVec.getLsbD_and]
  cases a.getLsbD k <;> cases hb : b.getLsbD k <;> simp_all

/-! ## The log -/

theorem getElem?_snoc {y : Section Φ} :
    (log ++ [x])[j]? = some y ↔ log[j]? = some y ∨ j = log.length ∧ y = x := by
  rcases lt_trichotomy j log.length with hj | rfl | hj
  · simp [List.getElem?_append_left hj, hj.ne]
  · simp [eq_comm]
  · have hlen : (log ++ [x]).length ≤ j := by
      rw [List.length_append]
      exact hj
    rw [List.getElem?_eq_none hlen, List.getElem?_eq_none hj.le]
    simp [hj.ne']

theorem forall_snoc {p : ℕ → Prop} {q : Section Φ → Prop} :
    (∀ k y, p k → (log ++ [x])[k]? = some y → q y) ↔
      (∀ k y, p k → log[k]? = some y → q y) ∧ (p log.length → q x) := by
  simp only [getElem?_snoc]
  constructor
  · exact fun h => ⟨fun k y hk hy => h k y hk (.inl hy), fun hk => h _ x hk (.inr ⟨rfl, rfl⟩)⟩
  · rintro ⟨h, hx⟩ k y hk (hy | ⟨rfl, rfl⟩)
    · exact h k y hk hy
    · exact hx hk

/-- The condition did not hold from the section `i` on. -/
def Open (log : List (Section Φ)) (op : Op Φ) (i : ℕ) : Prop :=
  ∀ k y, i ≤ k → log[k]? = some y → ¬op.Meets y.after

/-- There is no wait after the section `i`. -/
def Last (log : List (Section Φ)) (i : ℕ) : Prop :=
  ∀ k y, i < k → log[k]? = some y → y.op.isWait = false

theorem open_snoc : Open (log ++ [x]) op i ↔
    Open log op i ∧ (i ≤ log.length → ¬op.Meets x.after) :=
  forall_snoc (p := fun k => i ≤ k) (q := fun y => ¬op.Meets y.after)

theorem last_snoc : Last (log ++ [x]) i ↔
    Last log i ∧ (i < log.length → x.op.isWait = false) :=
  forall_snoc (p := fun k => i < k) (q := fun y => y.op.isWait = false)

theorem lt_length {y : Section Φ} (hy : log[j]? = some y) : j < log.length :=
  (List.getElem?_eq_some_iff.1 hy).1

theorem first_snoc : First (log ++ [x]) op i j ↔ First log op i j ∨
    j = log.length ∧ i ≤ j ∧ op.Meets x.after ∧ Open log op i := by
  constructor
  · rintro ⟨hij, ⟨y, hy, hm⟩, hb⟩
    -- An old section is as before; the new one comes first if the wait was open until then.
    rcases getElem?_snoc.1 hy with hy | ⟨rfl, rfl⟩
    · exact .inl ⟨hij, ⟨y, hy, hm⟩, fun k z hk hkj hz => hb k z hk hkj (getElem?_snoc.2 (.inl hz))⟩
    · exact .inr ⟨rfl, hij, hm, fun k z hk hz =>
        hb k z hk (lt_length hz) (getElem?_snoc.2 (.inl hz))⟩
  · rintro (⟨hij, ⟨y, hy, hm⟩, hb⟩ | ⟨rfl, hij, hm, hb⟩)
    · refine ⟨hij, ⟨y, getElem?_snoc.2 (.inl hy), hm⟩, fun k z hk hkj hz => ?_⟩
      rcases getElem?_snoc.1 hz with hz | ⟨rfl, -⟩
      · exact hb k z hk hkj hz
      · exact absurd (lt_length hy) hkj.le.not_gt
    · refine ⟨hij, ⟨x, getElem?_snoc.2 (.inr ⟨rfl, rfl⟩), hm⟩, fun k z hk hkj hz => ?_⟩
      rcases getElem?_snoc.1 hz with hz | ⟨rfl, -⟩
      · exact hb k z hk hz
      · exact absurd hkj (lt_irrefl _)

theorem decides_snoc : Decides (log ++ [x]) i j ↔ Decides log i j ∨
    j = log.length ∧ i ≤ j ∧ x.fire = true ∧ (i < j → x.op.isWait = false) ∧ Last log i := by
  constructor
  · rintro ⟨hij, ⟨y, hy, hf⟩, hb⟩
    rcases getElem?_snoc.1 hy with hy | ⟨rfl, rfl⟩
    · exact .inl ⟨hij, ⟨y, hy, hf⟩, fun k z hk hkj hz => hb k z hk hkj (getElem?_snoc.2 (.inl hz))⟩
    · exact .inr ⟨rfl, hij, hf, fun hlt => hb _ y hlt le_rfl hy, fun k z hk hz =>
        hb k z hk (lt_length hz).le (getElem?_snoc.2 (.inl hz))⟩
  · rintro (⟨hij, ⟨y, hy, hf⟩, hb⟩ | ⟨rfl, hij, hf, hx, hb⟩)
    · refine ⟨hij, ⟨y, getElem?_snoc.2 (.inl hy), hf⟩, fun k z hk hkj hz => ?_⟩
      rcases getElem?_snoc.1 hz with hz | ⟨rfl, -⟩
      · exact hb k z hk hkj hz
      · exact absurd (lt_length hy) hkj.not_gt
    · refine ⟨hij, ⟨x, getElem?_snoc.2 (.inr ⟨rfl, rfl⟩), hf⟩, fun k z hk hkj hz => ?_⟩
      rcases getElem?_snoc.1 hz with hz | ⟨rfl, rfl⟩
      · exact hb k z hk hz
      · exact hx hk

theorem raised_snoc {k : ℕ} : Raised (log ++ [x]) k ↔
    (∃ mask, x.op = .raise mask ∧ mask.getLsbD k = true) ∨
      Raised log k ∧ ∀ mask, x.op = .take mask → mask.getLsbD k = false := by
  constructor
  · rintro ⟨j, y, mask, hy, hop, hk, hb⟩
    rcases getElem?_snoc.1 hy with hy | ⟨rfl, rfl⟩
    · refine .inr ⟨⟨j, y, mask, hy, hop, hk, fun j' z m hj' hz => ?_⟩, fun m => ?_⟩
      · exact hb j' z m hj' (getElem?_snoc.2 (.inl hz))
      · exact hb _ x m (lt_length hy) (getElem?_snoc.2 (.inr ⟨rfl, rfl⟩))
    · exact .inl ⟨mask, hop, hk⟩
  · rintro (⟨mask, hop, hk⟩ | ⟨⟨j, y, mask, hy, hop, hk, hb⟩, hx⟩)
    · refine ⟨_, x, mask, getElem?_snoc.2 (.inr ⟨rfl, rfl⟩), hop, hk, fun j' z m hj' hz => ?_⟩
      rcases getElem?_snoc.1 hz with hz | ⟨rfl, -⟩
      · exact absurd (lt_length hz) hj'.le.not_gt
      · exact absurd hj' (lt_irrefl _)
    · refine ⟨j, y, mask, getElem?_snoc.2 (.inl hy), hop, hk, fun j' z m hj' hz => ?_⟩
      rcases getElem?_snoc.1 hz with hz | ⟨rfl, rfl⟩
      · exact hb j' z m hj' hz
      · exact hx m

/-- The waits are decided as they should. -/
def Agree (log : List (Section Φ)) : Prop :=
  ∀ i w, log[i]? = some w → w.op.isWait = true → ∀ j, Decides log i j ↔ First log w.op i j

/-- A wait is no longer open, or it is the last one. -/
def Settled (log : List (Section Φ)) : Prop :=
  ∀ i w, log[i]? = some w → w.op.isWait = true → Open log w.op i → Last log i

theorem last_unique {w w' : Section Φ} {i' : ℕ} (hw : log[i]? = some w) (hop : w.op.isWait = true)
    (hl : Last log i) (hw' : log[i']? = some w') (hop' : w'.op.isWait = true)
    (hl' : Last log i') : i = i' := by
  rcases lt_trichotomy i i' with hlt | rfl | hlt
  · rw [hl i' w' hlt hw'] at hop'
    cases hop'
  · rfl
  · rw [hl' i w hlt hw] at hop
    cases hop

/-- A section that is not the one of a wait. It decides for the wait that is open, if there is one. -/
theorem Agree.snoc (h : Agree log) (hs : Settled log) (hx : x.op.isWait = false)
    (hf : ∀ i w, log[i]? = some w → w.op.isWait = true → Open log w.op i →
      (x.fire = true ↔ w.op.Meets x.after))
    (ho : x.fire = true → ∃ i w, log[i]? = some w ∧ w.op.isWait = true ∧ Open log w.op i) :
    Agree (log ++ [x]) := by
  intro i w hw hop j
  rcases getElem?_snoc.1 hw with hw | ⟨rfl, rfl⟩
  · rw [decides_snoc, first_snoc, h i w hw hop j]
    refine or_congr_right (and_congr_right fun _ => and_congr_right fun _ => ?_)
    constructor
    · rintro ⟨hfire, -, hlast⟩
      -- What is decided is the open wait; it is the last one, like `w`.
      obtain ⟨i', w', hw', hop', hopen'⟩ := ho hfire
      obtain rfl := last_unique hw hop hlast hw' hop' (hs i' w' hw' hop' hopen')
      obtain rfl := Option.some.inj (hw.symm.trans hw')
      exact ⟨(hf i w hw hop hopen').1 hfire, hopen'⟩
    · rintro ⟨hm, hopen⟩
      exact ⟨(hf i w hw hop hopen).2 hm, fun _ => hx, hs i w hw hop hopen⟩
  · rw [hx] at hop
    cases hop

/-- The section of a wait, while none is open. -/
theorem Agree.snoc_wait (h : Agree log) (hx : x.op.isWait = true)
    (hno : ∀ i w, log[i]? = some w → w.op.isWait = true → ¬Open log w.op i)
    (hf : x.fire = true ↔ x.op.Meets x.after) : Agree (log ++ [x]) := by
  intro i w hw hop j
  rw [decides_snoc, first_snoc]
  rcases getElem?_snoc.1 hw with hw | ⟨rfl, rfl⟩
  · rw [h i w hw hop j]
    refine or_congr_right (and_congr_right fun hj => and_congr_right fun _ => ?_)
    constructor
    · rintro ⟨-, hwait, -⟩
      rw [hwait (hj ▸ lt_length hw)] at hx
      cases hx
    · rintro ⟨-, hopen⟩
      exact absurd hopen (hno i w hw hop)
  · -- The new wait: nothing before it counts.
    have hnone : ∀ {k y}, log.length ≤ k → log[k]? ≠ some y :=
      fun hk hy => (lt_length hy).not_ge hk
    have hd : ¬Decides log log.length j := by
      rintro ⟨hj, ⟨y, hy, -⟩, -⟩
      exact hnone hj hy
    have hfi : ¬First log w.op log.length j := by
      rintro ⟨hj, ⟨y, hy, -⟩, -⟩
      exact hnone hj hy
    simp only [hd, hfi, false_or]
    refine and_congr_right fun hj => and_congr_right fun _ => ?_
    rw [hf]
    constructor
    · exact fun hm => ⟨hm.1, fun k y hk hy => absurd hy (hnone hk)⟩
    · exact fun hm => ⟨hm.1, fun hlt => absurd hj hlt.ne', fun k y hk hy => absurd hy (hnone hk.le)⟩

end Dlb.Mailbox
