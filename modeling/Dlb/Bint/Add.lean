import Dlb.Bint.Alloc
import Dlb.Bint.Interface

/-!
# Magnitude addition

`mag_add` adds chunk by chunk over the chunks of the source. If a carry is left
then, the second loop adds it to the next chunk of the destination, but its own
carry is `r & (1LL << 32)` converted to an `int`, which is 0: it does not get
beyond the lowest component of that chunk. `addLoop_spec` says how much is lost, and
`bintAdd_bintSub_exact_iff` when nothing is.
-/

namespace Dlb.Bint

variable {I : Type} [DecidableEq I] {h h' : Heap} {dst b : Bint}

/-! ## The loops -/

/-- What the second loop of `mag_add` loses. -/
def carryLost (carry : UInt32) (ds : List Chunk) : ℕ :=
  if carry = 0 then 0
  else if ds = [] then 1
  else if chain ds % 2 ^ 32 = 2 ^ 32 - 1 then 2 ^ 32
  else 0

theorem carryLoop_zero (ds : List Chunk) : carryLoop 0 ds = ds := by
  cases ds <;> rfl

theorem chain_mod_word (d : Chunk) (ds : List Chunk) :
    chain (d :: ds) % 2 ^ 32 = d.val % 2 ^ 32 := by
  have hr : radix = 2 ^ 32 * 2 ^ 96 := by rw [radix, ← pow_add]
  rw [chain_cons, hr, mul_assoc, Nat.add_mul_mod_self_left]

theorem carryLoop_spec (carry : UInt32) (ds : List Chunk) :
    chain (carryLoop carry ds) + carryLost carry ds = chain ds + flag carry := by
  cases ds with
  | nil =>
    simp only [carryLoop, carryLost, chain_nil, flag]
    split_ifs <;> simp_all
  | cons d ds =>
    rw [carryLoop, carryLost]
    by_cases hc : carry = 0
    · simp [hc]
    · obtain ⟨h₁, h₂⟩ := scan_carryComponent carry d
      rw [if_pos hc, if_neg hc, if_neg (by simp), h₁, carryLoop_zero, chain_mod_word, chain_cons,
        chain_cons, add_right_comm, add_right_comm d.val, ← h₂]
      simp [hc]

/-- The first loop of `mag_add`, over the chunks of the source. -/
theorem addLoop_append (carry : UInt32) {ds ss : List Chunk} (hi : List Chunk)
    (hl : ds.length = ss.length) : addLoop carry (ds ++ hi) ss =
      (scan (fun c p => p.1.scan₂ addComponent c p.2) carry (ds.zip ss)).1 ++
        carryLoop (scan (fun c p => p.1.scan₂ addComponent c p.2) carry (ds.zip ss)).2 hi := by
  induction ds generalizing carry ss with
  | nil =>
    cases ss with
    | nil => cases hi <;> rfl
    | cons s ss => simp at hl
  | cons d ds ih =>
    cases ss with
    | nil => simp at hl
    | cons s ss => simp [addLoop, ih _ (by simpa using hl)]

theorem length_carryLoop (carry : UInt32) (ds : List Chunk) :
    (carryLoop carry ds).length = ds.length := by
  induction ds generalizing carry with
  | nil => rfl
  | cons d ds ih =>
    rw [carryLoop]
    split_ifs <;> simp [ih]

theorem length_addLoop (carry : UInt32) (ds ss : List Chunk) :
    (addLoop carry ds ss).length = ds.length := by
  induction ds generalizing carry ss with
  | nil => cases ss <;> rfl
  | cons d ds ih =>
    cases ss with
    | nil => rw [addLoop, length_carryLoop]
    | cons s ss => simp [addLoop, ih]

/-- What `mag_add` loses of the sum of the chunks `ds` and `ss`. -/
def addLost (ds ss : List Chunk) : ℕ :=
  if chain ds % radix ^ ss.length + chain ss < radix ^ ss.length then 0
  else if ds.length = ss.length then radix ^ ss.length
  else if chain ds / radix ^ ss.length % 2 ^ 32 = 2 ^ 32 - 1 then 2 ^ 32 * radix ^ ss.length
  else 0

theorem addLoop_spec (ds ss : List Chunk) (hl : ss.length ≤ ds.length) :
    chain (addLoop 0 ds ss) + addLost ds ss = chain ds + chain ss := by
  obtain ⟨lo, hi, rfl, hlo⟩ : ∃ lo hi, ds = lo ++ hi ∧ lo.length = ss.length :=
    ⟨ds.take ss.length, ds.drop ss.length, (List.take_append_drop _ ds).symm, by simp [hl]⟩
  have hs := (eval_scan (p := fun _ => True) (β := radix) (v := Chunk.val) (w := flag)
    (fun c (p : Chunk × Chunk) _ => ⟨val_addComponent c p.1 p.2, trivial⟩) (s := 0) trivial
    (lo.zip ss)).1
  rw [eval_zip (g := Chunk.val) (k := Chunk.val) hlo, List.length_zip, hlo, min_self, flag_zero,
    add_zero] at hs
  rw [addLoop_append 0 hi hlo]
  generalize hr : scan (fun c (p : Chunk × Chunk) => p.1.scan₂ addComponent c p.2) 0 (lo.zip ss) = r
  rw [hr] at hs
  change chain r.1 + _ = chain lo + chain ss at hs
  have hrl : r.1.length = ss.length := by simp [← hr, hlo]
  have hlt := chain_lt r.1
  rw [hrl] at hlt
  have hc := carryLoop_spec r.2 hi
  have hm : chain (lo ++ hi) % radix ^ ss.length = chain lo := by
    rw [← chain_take, List.take_left' hlo]
  have hd : chain (lo ++ hi) / radix ^ ss.length = chain hi := by
    rw [← chain_drop, List.drop_left' hlo]
  have hlost : addLost (lo ++ hi) ss = radix ^ ss.length * carryLost r.2 hi := by
    rw [addLost, hm, hd, ← hs, carryLost]
    by_cases h₀ : r.2 = 0
    · rw [h₀, flag_zero, mul_zero, add_zero, if_pos hlt, if_pos rfl, mul_zero]
    · rw [flag_of_ne h₀, mul_one, if_neg (by omega), if_neg h₀]
      by_cases hn : hi = []
      · simp [hn, hlo]
      · rw [if_neg (by simpa [hlo] using hn), if_neg hn]
        split_ifs <;> ring
  rw [chain_append, chain_append, hlost, hrl, hlo]
  calc chain r.1 + radix ^ ss.length * chain (carryLoop r.2 hi) +
        radix ^ ss.length * carryLost r.2 hi
      = chain r.1 + radix ^ ss.length * (chain (carryLoop r.2 hi) + carryLost r.2 hi) := by ring
    _ = chain r.1 + radix ^ ss.length * flag r.2 + radix ^ ss.length * chain hi := by rw [hc]; ring
    _ = chain lo + radix ^ ss.length * chain hi + chain ss := by rw [hs]; ring

/-! ## The sum -/

/-- The length for which `mag_add` makes room. -/
def addLength (dst src : Bint) : ℕ := (max (bintBitLength dst) (bintBitLength src) + 1) % 2 ^ 32

/-- The number of chunks in which `mag_add` computes. -/
def addRoom (dst src : Bint) : ℕ := max (addLength dst src / 128) dst.next.length + 1

/-- The chunks of the sum before they are trimmed. -/
def addDigits (dst : Bint) (src : Operand) : List Chunk :=
  let dst' := extend dst (addLength dst (src.get dst) / 128)
  addLoop 0 dst'.digits (src.get dst').digits

/-- There is room for the sum, and no carry beyond the chunks of `src` is lost. -/
def AddExact (dst src : Bint) : Prop :=
  mag dst + mag src < radix ^ addRoom dst src ∧
    ¬(radix ^ src.digits.length ≤ mag dst % radix ^ src.digits.length + mag src ∧
      mag dst / radix ^ src.digits.length % 2 ^ 32 = 2 ^ 32 - 1)

instance (dst src : Bint) : Decidable (AddExact dst src) := inferInstanceAs (Decidable (_ ∧ _))

theorem length_addDigits (dst : Bint) (src : Operand) :
    (addDigits dst src).length = addRoom dst (src.get dst) := by
  simp [addDigits, length_addLoop, addRoom]

theorem addDigits_ne_nil (dst : Bint) (src : Operand) : addDigits dst src ≠ [] := by
  rw [← List.length_pos_iff, length_addDigits]
  exact Nat.succ_pos _

/-- `mag_add` never faults, and its result is canonical. -/
theorem magAdd_returns (dst : Bint) (src : Operand) (h : Heap) :
    ∃ r, magAdd dst src h = some r ∧
      Outcome dst (· = trimmed (dst.setDigits (addDigits dst src))) h r := by
  have hmax : (if bintBitLength dst > bintBitLength (src.get dst) then bintBitLength dst
      else bintBitLength (src.get dst)) = max (bintBitLength dst) (bintBitLength (src.get dst)) := by
    split_ifs <;> omega
  obtain ⟨⟨⟨rc, d⟩, h₁⟩, e₁, ho⟩ := extendLength_returns dst (addLength dst (src.get dst)) h
  rw [magAdd, hmax]
  cases ho with
  | failed g hk => exact ⟨_, bind_eq_some.2 ⟨_, _, e₁, rfl⟩, .failed g hk⟩
  | done hd g =>
    have hn := addDigits_ne_nil dst src
    obtain ⟨h₂, e₂, g₂⟩ := trimChunks_returns (dst.setDigits (addDigits dst src)) h₁
    refine ⟨_, bind_eq_some.2 ⟨_, _, e₁, ?_⟩, .done rfl ((g.trans g₂).of_eq ?_)⟩
    · subst hd
      refine bind_eq_some.2 ⟨_, _, ?_, rfl⟩
      rw [← e₂]
      exact congrArg (trimChunks · h₁) (setDigits_congr (negative_extend dst _) hn)
    · rw [length_next_setDigits _ hn, length_addDigits, hd, length_extend, addRoom]
      push_cast
      ring

theorem magAdd_spec {src : Operand} {r : (ℤ × Bint) × Heap} (e : magAdd dst src h = some r) :
    Outcome dst (· = trimmed (dst.setDigits (addDigits dst src))) h r := by
  obtain ⟨r', e', ho⟩ := magAdd_returns dst src h
  rwa [Option.some_inj.1 (e.symm.trans e')]

theorem chain_addDigits_lt (dst : Bint) (src : Operand) :
    chain (addDigits dst src) < radix ^ addRoom dst (src.get dst) :=
  length_addDigits dst src ▸ chain_lt _

theorem addLost_eq_zero_iff (ds ss : List Chunk)
    (hd : ds.length = ss.length → chain ds + chain ss < radix ^ ss.length) :
    addLost ds ss = 0 ↔ ¬(radix ^ ss.length ≤ chain ds % radix ^ ss.length + chain ss ∧
      chain ds / radix ^ ss.length % 2 ^ 32 = 2 ^ 32 - 1) := by
  have hp := Nat.pow_pos (n := ss.length) radix_pos
  rw [addLost]
  split_ifs with h₁ h₂ h₃
  · simp [h₁]
  · have := Nat.mod_le (chain ds) (radix ^ ss.length)
    have := hd h₂
    omega
  · exact iff_of_false (Nat.mul_pos (by simp) hp).ne' (not_not_intro ⟨not_lt.1 h₁, h₃⟩)
  · exact iff_of_true rfl fun hx => h₃ hx.2

theorem chain_addDigits_other_iff (hs : Canonical b)
    (hr : mag dst + mag b < radix ^ addRoom dst b) :
    chain (addDigits dst (.other b)) = mag dst + mag b ↔
      ¬(radix ^ b.digits.length ≤ mag dst % radix ^ b.digits.length + mag b ∧
        mag dst / radix ^ b.digits.length % 2 ^ 32 = 2 ^ 32 - 1) := by
  have hl : b.next.length + 1 ≤ addRoom dst b := Nat.succ_le_succ (hs.length_le (by
    rw [addRoom] at hr
    omega))
  have hd : (extend dst (addLength dst b / 128)).digits.length = addRoom dst b := by simp [addRoom]
  have ha := addLoop_spec (extend dst (addLength dst b / 128)).digits b.digits
    (by rw [hd]; exact hl)
  have hz := addLost_eq_zero_iff (extend dst (addLength dst b / 128)).digits
    b.digits (fun e => by
      rw [← e, hd]
      exact (congrArg (· + mag b) (mag_extend dst _)).trans_lt hr)
  rw [← mag, mag_extend, ← mag] at ha hz
  rw [← hz]
  change chain (addDigits dst (.other b)) + _ = _ at ha
  omega

theorem chain_addDigits_self_iff (hr : mag dst + mag dst < radix ^ addRoom dst dst) :
    chain (addDigits dst .self) = mag dst + mag dst := by
  have hd : (extend dst (addLength dst dst / 128)).digits.length = addRoom dst dst := by
    simp [addRoom]
  have ha := addLoop_spec _ _ (le_refl (extend dst (addLength dst dst / 128)).digits.length)
  have hz := addLost_eq_zero_iff (extend dst (addLength dst dst / 128)).digits
    (extend dst (addLength dst dst / 128)).digits (fun _ => by
      rw [hd, ← mag, mag_extend]
      exact hr)
  rw [← mag, mag_extend] at ha hz
  rw [hz.2, add_zero] at ha
  · exact ha
  · rintro ⟨-, h₂⟩
    rw [hd, Nat.div_eq_of_lt (by omega)] at h₂
    simp at h₂

/-- The sum is exact under the condition `AddExact`, and only then. -/
theorem chain_addDigits_eq_iff {src : Operand} (hs : Canonical (src.get dst)) :
    chain (addDigits dst src) = mag dst + mag (src.get dst) ↔ AddExact dst (src.get dst) := by
  have hlt := chain_addDigits_lt dst src
  cases src with
  | self =>
    refine ⟨fun e => ⟨e ▸ hlt, ?_⟩, fun hx => chain_addDigits_self_iff hx.1⟩
    rintro ⟨-, h₂⟩
    rw [Operand.get, mag, Nat.div_eq_of_lt (chain_lt dst.digits)] at h₂
    simp at h₂
  | other b =>
    refine ⟨fun e => ?_, fun hx => (chain_addDigits_other_iff hs hx.1).2 hx.2⟩
    have hr : mag dst + mag b < radix ^ addRoom dst b := e ▸ hlt
    exact ⟨hr, (chain_addDigits_other_iff hs hr).1 e⟩

theorem magAdd_computes_iff {σ : Store I} {o : Op I} {i : I} {s : Operand} {z : ℤ}
    (hs : Canonical (s.get (σ i))) (hk : h.Ok)
    (ho : exec σ o = onObject σ i (magAdd (σ i) s))
    (hz : z = if (σ i).negative then -(mag (σ i) + mag (s.get (σ i)) : ℤ)
      else mag (σ i) + mag (s.get (σ i))) :
    Computes σ o i (fun d => Canonical d ∧ toInt d = z) h ↔ AddExact (σ i) (s.get (σ i)) := by
  obtain ⟨⟨⟨rc, d⟩, h₁⟩, e, hr⟩ := magAdd_returns (σ i) s h
  have he : exec σ o h = some ((rc, Function.update σ i d), h₁) := by
    rw [ho]
    exact bind_eq_some.2 ⟨_, _, e, rfl⟩
  rw [← chain_addDigits_eq_iff hs]
  cases hr with
  | failed g hn => exact absurd hk hn
  | done hd g =>
    have hm : mag d = chain (addDigits (σ i) s) := by
      rw [hd, mag_trimmed, mag_setDigits _ (addDigits_ne_nil _ _)]
    have hneg : d.negative = (σ i).negative := by simp [hd]
    have hv : toInt d = z ↔ mag d = mag (σ i) + mag (s.get (σ i)) := by
      rw [toInt, hz, hneg]
      split_ifs <;> omega
    rw [← hm, ← hv]
    rw [computes_iff he rfl]
    simp [hd, trimmed_canonical]

/-- Magnitude addition is exact if and only if there is room for the sum, and no
    carry gets lost in the second loop. -/
theorem bintAdd_bintSub_exact_iff (σ : Store I) (dst src : I) (h : Heap)
    (hs : Canonical (σ src)) (hk : h.Ok) :
    ((σ dst).negative = (σ src).negative →
      (Computes σ (.add dst src) dst
          (fun d => Canonical d ∧ toInt d = toInt (σ dst) + toInt (σ src)) h ↔
        AddExact (σ dst) (σ src))) ∧
    ((σ dst).negative ≠ (σ src).negative →
      (Computes σ (.sub dst src) dst
          (fun d => Canonical d ∧ toInt d = toInt (σ dst) - toInt (σ src)) h ↔
        AddExact (σ dst) (σ src))) := by
  have hg := operand_get σ dst src
  refine ⟨fun hn => ?_, fun hn => ?_⟩
  · have := magAdd_computes_iff (σ := σ) (o := .add dst src) (i := dst)
      (s := operand σ dst src) (z := toInt (σ dst) + toInt (σ src)) (hg.symm ▸ hs) hk
      (by simp [exec, bintAdd, hn]) (by simp only [hg, toInt, hn]; split_ifs <;> ring)
    rwa [hg] at this
  · have hn : (σ dst).negative = !(σ src).negative := Bool.eq_not.2 hn
    have := magAdd_computes_iff (σ := σ) (o := .sub dst src) (i := dst)
      (s := operand σ dst src) (z := toInt (σ dst) - toInt (σ src)) (hg.symm ▸ hs) hk
      (by simp only [exec, bintSub, hg, hn]; cases (σ src).negative <;> rfl)
      (by simp only [hg, toInt, hn]; cases (σ src).negative <;> simp; ring)
    rwa [hg] at this

/-- The number `2 ^ 160 - 1`. -/
def ones160 : Bint := ⟨false, .ones, [⟨[0xffffffff, 0, 0, 0], rfl⟩]⟩

/-- The sum of `2 ^ 160 - 1` and 1 is computed as 0. -/
theorem bintAdd_loses_carry : Canonical ones160 ∧ Canonical bintOne ∧ freshHeap.Ok ∧
    toInt ones160 = 2 ^ 160 - 1 ∧ ones160.negative = bintOne.negative ∧
    (∃ h, bintAdd ones160 (.other bintOne) freshHeap = some ((0, bintZero), h)) ∧
    ¬Computes (pair ones160 bintOne) (.add false true) false
      (fun d => Canonical d ∧ toInt d = toInt ones160 + toInt bintOne) freshHeap := by
  refine ⟨by decide, by decide, fun _ => rfl, by decide, rfl, ⟨_, rfl⟩, ?_⟩
  rw [magAdd_computes_iff (s := .other bintOne) (by decide) (fun _ => rfl) rfl (by decide)]
  decide

/-- A sum that needs another chunk, and a difference of operands with different signs. -/
theorem bintAdd_bintSub_exact_iff_ones :
    Computes (pair ⟨false, .ones, [.ones]⟩ bintOne) (.add true false) true
      (fun d => Canonical d ∧ toInt d = toInt bintOne + toInt ⟨false, .ones, [.ones]⟩) freshHeap ∧
    Computes (pair ⟨false, .ones, []⟩ (small true 1)) (.sub false true) false
      (fun d => Canonical d ∧ toInt d = toInt ⟨false, .ones, []⟩ - toInt (small true 1)) freshHeap :=
  ⟨((bintAdd_bintSub_exact_iff (pair ⟨false, .ones, [.ones]⟩ bintOne) true false freshHeap
      (by decide) fun _ => rfl).1 rfl).2 (by decide),
    ((bintAdd_bintSub_exact_iff (pair ⟨false, .ones, []⟩ (small true 1)) false true freshHeap
      (by decide) fun _ => rfl).2 (by decide)).2 (by decide)⟩

end Dlb.Bint
