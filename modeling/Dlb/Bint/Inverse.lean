import Dlb.Bint.Base
import Dlb.Bint.Interface
import Dlb.Bint.Shift

/-!
# Shifts and digits that cancel out

A shift to the right undoes a shift to the left, and popped digits are those which
were pushed, in the reverse order. The result is canonical at the end, so that the
original chain is restored chunk for chunk (`Canonical.eq_of_mag_eq`), also where the
chain in between has a chunk too many.

* `shift_cancels`: the shifts, where the length does not overflow;
* `digits_exact_iff`: the digits, where `bint_digit_push` makes room for the number.
-/

namespace Dlb.Bint

variable {I : Type} [DecidableEq I] {h h' : Heap} {σ σ' : Store I} {a b : Bint}

/-! ## Shifts -/

theorem shiftLeft_computes {b : I} {count : UInt32} (hb : Canonical (σ b))
    (hlt : Nat.size (mag (σ b)) + count.toNat < 2 ^ 32) (hk : h.Ok) :
    ∃ d h', exec σ (.shiftLeft b count) h = some ((0, Function.update σ b d), h') ∧
      d.negative = (σ b).negative ∧ mag d = mag (σ b) * 2 ^ count.toNat := by
  obtain ⟨⟨⟨rc, d⟩, h'⟩, e⟩ := bintShiftLeft_returns hb hlt h
  cases bintShiftLeft_spec hb e with
  | failed g hn => exact absurd hk hn
  | done hd g =>
    refine ⟨d, h', bind_eq_some.2 ⟨_, _, e, rfl⟩, ?_⟩
    by_cases h₀ : mag (σ b) = 0
    · rw [if_pos h₀] at hd
      rw [hd, h₀, zero_mul]
      exact ⟨rfl, rfl⟩
    · rw [if_neg h₀] at hd
      exact ⟨(hd hlt).negative, (hd hlt).value⟩

theorem shiftRight_computes (σ : Store I) (b : I) (count : UInt32) (h : Heap) :
    ∃ d h', exec σ (.shiftRight b count) h = some ((0, Function.update σ b d), h') ∧
      Canonical d ∧ d.negative = (σ b).negative ∧ mag d = mag (σ b) / 2 ^ count.toNat := by
  obtain ⟨d, h', e, hc, hn, hm, -⟩ := bintShiftRight_returns (σ b) count.toNat h
  exact ⟨d, h', bind_eq_some.2 ⟨_, _, e, rfl⟩, hc, hn, hm⟩

/-- The shifts multiply and divide by powers of two, and a shift to the left and one to the right
    by the same count leave all objects as they were. -/
theorem shift_cancels (σ : Store I) (b : I) (count : UInt32) (h : Heap) (hb : Canonical (σ b))
    (hk : h.Ok) :
    (Nat.size (mag (σ b)) + count.toNat < 2 ^ 32 →
      Computes σ (.shiftLeft b count) b (fun d => d.negative = (σ b).negative ∧
        mag d = mag (σ b) * 2 ^ count.toNat) h ∧
      ∃ σ' h₁ h₂, exec σ (.shiftLeft b count) h = some ((0, σ'), h₁) ∧
        exec σ' (.shiftRight b count) h₁ = some ((0, σ), h₂)) ∧
    Computes σ (.shiftRight b count) b (fun d => Canonical d ∧ d.negative = (σ b).negative ∧
      mag d = mag (σ b) / 2 ^ count.toNat) h := by
  refine ⟨fun hlt => ?_, ?_⟩
  · obtain ⟨d, h₁, e₁, hn₁, hm₁⟩ := shiftLeft_computes hb hlt hk
    refine ⟨(computes_iff e₁ rfl).2 ⟨hn₁, hm₁⟩, Function.update σ b d, h₁, ?_⟩
    obtain ⟨d', h₂, e₂, hc, hn₂, hm₂⟩ := shiftRight_computes (Function.update σ b d) b count h₁
    rw [Function.update_self] at hn₂ hm₂
    -- The chain is canonical again, so that it is the original one.
    have hd : d' = σ b := by
      refine hc.eq_of_mag_eq hb (hn₂.trans hn₁) ?_
      rw [hm₂, hm₁, Nat.mul_div_cancel _ (Nat.two_pow_pos _)]
    rw [Function.update_idem, hd, Function.update_eq_self] at e₂
    exact ⟨h₂, e₁, e₂⟩
  · obtain ⟨d, h', e, hd⟩ := shiftRight_computes σ b count h
    exact (computes_iff e rfl).2 hd

/-- The number 1 is shifted by 128, which leaves a chunk too many in between. -/
theorem shift_cancels_one : ∃ σ' h₁ h₂,
    exec (pair bintOne bintZero) (.shiftLeft false 128) freshHeap = some ((0, σ'), h₁) ∧
    exec σ' (.shiftRight false 128) h₁ = some ((0, pair bintOne bintZero), h₂) :=
  ((shift_cancels (pair bintOne bintZero) false 128 freshHeap (by decide) fun _ => rfl).1
    (by decide)).2

/-! ## A list of calls -/

/-- The calls `ops` in turn: what they return, and the objects after them. -/
def execAll : List (Op I) → Store I → Prog (List ℤ × Store I)
  | [], σ => pure ([], σ)
  | op :: ops, σ => do
    let (rc, σ) ← exec σ op
    let (rcs, σ) ← execAll ops σ
    return (rc :: rcs, σ)

theorem execAll_cons {op : Op I} {ops : List (Op I)} {rc : ℤ} {rcs : List ℤ} {σ₁ σ₂ : Store I}
    {h₁ h₂ : Heap} (e₁ : exec σ op h = some ((rc, σ₁), h₁))
    (e₂ : execAll ops σ₁ h₁ = some ((rcs, σ₂), h₂)) :
    execAll (op :: ops) σ h = some ((rc :: rcs, σ₂), h₂) :=
  bind_eq_some.2 ⟨_, _, e₁, bind_eq_some.2 ⟨_, _, e₂, rfl⟩⟩

theorem execAll_append {ops ops' : List (Op I)} {rcs rcs' : List ℤ} {σ₁ σ₂ : Store I}
    {h₁ h₂ : Heap} (e₁ : execAll ops σ h = some ((rcs, σ₁), h₁))
    (e₂ : execAll ops' σ₁ h₁ = some ((rcs', σ₂), h₂)) :
    execAll (ops ++ ops') σ h = some ((rcs ++ rcs', σ₂), h₂) := by
  induction ops generalizing σ h rcs with
  | nil =>
    have e₁ := pure_eq_some.1 e₁
    simp only [Prod.mk.injEq] at e₁
    obtain ⟨⟨rfl, rfl⟩, rfl⟩ := e₁
    exact e₂
  | cons op ops ih =>
    obtain ⟨⟨rc, σ₃⟩, h₃, e₃, e₄⟩ := bind_eq_some.1 e₁
    obtain ⟨⟨rcs₄, σ₄⟩, h₄, e₅, e₆⟩ := bind_eq_some.1 e₄
    have e₆ := pure_eq_some.1 e₆
    simp only [Prod.mk.injEq] at e₆
    obtain ⟨⟨rfl, rfl⟩, rfl⟩ := e₆
    exact execAll_cons e₃ (ih e₅)

/-! ## Digits that are pushed -/

/-- The number of chunks in which `bint_digit_push` computes, for a canonical number with the
    magnitude `m`. -/
def digitRoom (base : UInt32) (m : ℕ) : ℕ :=
  max ((Nat.size m % 2 ^ 32 + bitLength base + 1) % 2 ^ 32 / 128) (chunks m) + 1

theorem pushRoom_eq (hb : Canonical b) (base : UInt32) :
    pushRoom b base = digitRoom base (mag b) := by
  rw [pushRoom, pushLength, hb.bintBitLength, hb.length_eq_chunks, digitRoom]

/-- There is room for the number with another digit. -/
def PushExact (base : UInt32) (m : ℕ) (digit : UInt32) : Prop :=
  base.toNat * m + digit.toNat < radix ^ digitRoom base m

instance (base : UInt32) (m : ℕ) (digit : UInt32) : Decidable (PushExact base m digit) :=
  inferInstanceAs (Decidable (_ < _))

/-- There is room for the number with each of the digits in turn. -/
def PushesExact (base : UInt32) : ℕ → List UInt32 → Prop
  | _, [] => True
  | m, d :: ds => PushExact base m d ∧ PushesExact base (base.toNat * m + d.toNat) ds

/-- The number with all of the digits. -/
def withDigits (base : UInt32) (m : ℕ) (ds : List UInt32) : ℕ :=
  ds.foldl (fun m d => base.toNat * m + d.toNat) m

theorem withDigits_lt {base : UInt32} (hbase : base ≠ 0) {m m' : ℕ} (hlt : m < m')
    (ds : List UInt32) : withDigits base m ds < withDigits base m' ds := by
  induction ds generalizing m m' with
  | nil => exact hlt
  | cons d ds ih =>
    refine ih (Nat.add_lt_add_right ?_ _)
    exact Nat.mul_lt_mul_of_pos_left hlt (Nat.pos_of_ne_zero (toNat_ne_zero.2 hbase))

theorem withDigits_le {base : UInt32} (hbase : base ≠ 0) {m m' : ℕ} (hle : m ≤ m')
    (ds : List UInt32) : withDigits base m ds ≤ withDigits base m' ds := by
  rcases hle.eq_or_lt with rfl | hlt
  · exact le_rfl
  · exact (withDigits_lt hbase hlt ds).le

theorem withDigits_append (base : UInt32) (m : ℕ) (ds : List UInt32) (d : UInt32) :
    withDigits base m (ds ++ [d]) = base.toNat * withDigits base m ds + d.toNat := by
  rw [withDigits, List.foldl_append]
  rfl

theorem digitPush_computes {b : I} {base digit : UInt32} (hb : Canonical (σ b)) (hk : h.Ok)
    (hd : digit < base) : ∃ d h', exec σ (.digitPush b base digit) h =
        some ((0, Function.update σ b d), h') ∧ h'.Ok ∧ Canonical d ∧
      d.negative = (σ b).negative ∧
      mag d = (base.toNat * mag (σ b) + digit.toNat) % radix ^ digitRoom base (mag (σ b)) := by
  obtain ⟨⟨⟨rc, d⟩, h'⟩, e⟩ := bintDigitPush_returns (σ b) base digit h
  cases bintDigitPush_spec e with
  | failed g hf => exact absurd hf (not_or.2 ⟨UInt32.not_le.2 hd, not_not_intro hk⟩)
  | done hr g =>
    obtain ⟨hc, hn, -, hm⟩ := hr
    rw [pushRoom_eq hb] at hm
    exact ⟨d, h', bind_eq_some.2 ⟨_, _, e, rfl⟩, g.ok hk, hc, hn, hm⟩

theorem digitPush_computes_iff {b : I} {base digit : UInt32} (hb : Canonical (σ b)) (hk : h.Ok)
    (hd : digit < base) : Computes σ (.digitPush b base digit) b (fun d => Canonical d ∧
        d.negative = (σ b).negative ∧ mag d = base.toNat * mag (σ b) + digit.toNat) h ↔
      PushExact base (mag (σ b)) digit := by
  obtain ⟨d, h', e, -, hc, hn, hm⟩ := digitPush_computes hb hk hd
  rw [computes_iff e rfl, hm]
  simp only [hc, hn, true_and]
  exact Nat.mod_eq_iff_lt (Nat.pow_pos radix_pos).ne'

/-- Digits pushed in turn. If there is no room for one of them, the number is too small from
    then on. -/
theorem execAll_digitPush {b : I} {base : UInt32} {ds : List UInt32} (hbase : base ≠ 0)
    (hb : Canonical (σ b)) (hk : h.Ok) (hds : ∀ d ∈ ds, d < base) :
    ∃ v h', execAll (ds.map (.digitPush b base)) σ h =
        some ((List.replicate ds.length 0, Function.update σ b v), h') ∧ Canonical v ∧
      v.negative = (σ b).negative ∧ mag v ≤ withDigits base (mag (σ b)) ds ∧
      (mag v = withDigits base (mag (σ b)) ds ↔ PushesExact base (mag (σ b)) ds) := by
  induction ds generalizing σ h with
  | nil =>
    refine ⟨σ b, h, ?_, hb, rfl, le_rfl, iff_of_true rfl trivial⟩
    rw [Function.update_eq_self]
    rfl
  | cons d ds ih =>
    obtain ⟨v₁, h₁, e₁, hk₁, hc₁, hn₁, hm₁⟩ := digitPush_computes hb hk (hds d (by simp))
    have hle₁ : mag v₁ ≤ base.toNat * mag (σ b) + d.toNat := by
      rw [hm₁]
      exact Nat.mod_le _ _
    have hx₁ : mag v₁ = base.toNat * mag (σ b) + d.toNat ↔ PushExact base (mag (σ b)) d := by
      rw [hm₁]
      exact Nat.mod_eq_iff_lt (Nat.pow_pos radix_pos).ne'
    obtain ⟨v, h', e₂, hc, hn, hle, hx⟩ := ih (σ := Function.update σ b v₁)
      (by rwa [Function.update_self]) hk₁ fun x hx => hds x (by simp [hx])
    rw [Function.update_self] at hn hle hx
    rw [Function.update_idem] at e₂
    refine ⟨v, h', execAll_cons e₁ e₂, hc, hn.trans hn₁,
      hle.trans (withDigits_le hbase hle₁ ds), ?_⟩
    change mag v = withDigits base (base.toNat * mag (σ b) + d.toNat) ds ↔ _
    constructor
    · intro hv
      have he : mag v₁ = base.toNat * mag (σ b) + d.toNat := by
        refine le_antisymm hle₁ (not_lt.1 fun hlt => ?_)
        have := withDigits_lt hbase hlt ds
        omega
      rw [he] at hx
      exact ⟨hx₁.1 he, hx.1 hv⟩
    · rintro ⟨hp, hps⟩
      have he := hx₁.2 hp
      rw [he] at hx
      exact hx.2 hps

/-! ## Digits that are popped -/

/-- The last `k` digits of the number `m`, from the last one on. -/
def lastDigits (base : UInt32) : ℕ → ℕ → List ℤ
  | _, 0 => []
  | m, k + 1 => ((m % base.toNat : ℕ) : ℤ) :: lastDigits base (m / base.toNat) k

/-- The number `m` without its last `k` digits. -/
def dropDigits (base : UInt32) : ℕ → ℕ → ℕ
  | m, 0 => m
  | m, k + 1 => dropDigits base (m / base.toNat) k

theorem digitPop_computes {b : I} {base : UInt32} (hbase : base ≠ 0) (σ : Store I) (h : Heap) :
    ∃ d h', exec σ (.digitPop b base) h =
        some ((((mag (σ b) % base.toNat : ℕ) : ℤ), Function.update σ b d), h') ∧ Canonical d ∧
      d.negative = (σ b).negative ∧ mag d = mag (σ b) / base.toNat := by
  obtain ⟨digit, d, h', e⟩ := bintDigitPop_returns (σ b) base h
  obtain ⟨-, hr⟩ := bintDigitPop_spec e
  rw [if_neg hbase] at hr
  obtain ⟨hc, hn, hm, hd⟩ := hr
  refine ⟨d, h', ?_, hc, hn, hm⟩
  rw [← hd]
  exact bind_eq_some.2 ⟨_, _, bind_eq_some.2 ⟨_, _, e, rfl⟩, rfl⟩

theorem execAll_digitPop {b : I} {base : UInt32} (hbase : base ≠ 0) (k : ℕ)
    (hb : Canonical (σ b)) (h : Heap) :
    ∃ v h', execAll (List.replicate k (.digitPop b base)) σ h =
        some ((lastDigits base (mag (σ b)) k, Function.update σ b v), h') ∧ Canonical v ∧
      v.negative = (σ b).negative ∧ mag v = dropDigits base (mag (σ b)) k := by
  induction k generalizing σ h with
  | zero =>
    refine ⟨σ b, h, ?_, hb, rfl, rfl⟩
    rw [Function.update_eq_self]
    rfl
  | succ k ih =>
    obtain ⟨v₁, h₁, e₁, hc₁, hn₁, hm₁⟩ := digitPop_computes (b := b) hbase σ h
    obtain ⟨v, h', e₂, hc, hn, hm⟩ := ih (σ := Function.update σ b v₁)
      (by rwa [Function.update_self]) h₁
    rw [Function.update_self] at hn hm e₂
    rw [Function.update_idem, hm₁] at e₂
    rw [hm₁] at hm
    exact ⟨v, h', execAll_cons e₁ e₂, hc, hn.trans hn₁, hm⟩

/-- The digits of a number are those with which it was made. -/
theorem lastDigits_withDigits {base : UInt32} (m : ℕ) (ds : List UInt32)
    (hds : ∀ d ∈ ds, d < base) :
    lastDigits base (withDigits base m ds) ds.length = ds.reverse.map (fun d => (d.toNat : ℤ)) ∧
      dropDigits base (withDigits base m ds) ds.length = m := by
  induction ds using List.reverseRecOn with
  | nil => exact ⟨rfl, rfl⟩
  | append_singleton ds d ih =>
    obtain ⟨ih₁, ih₂⟩ := ih fun x hx => hds x (by simp [hx])
    have hd : d.toNat < base.toNat := UInt32.lt_iff_toNat_lt.1 (hds d (by simp))
    have hmod : (base.toNat * withDigits base m ds + d.toNat) % base.toNat = d.toNat := by
      rw [Nat.mul_add_mod, Nat.mod_eq_of_lt hd]
    have hdiv : (base.toNat * withDigits base m ds + d.toNat) / base.toNat =
        withDigits base m ds := by
      rw [Nat.mul_add_div (Nat.zero_lt_of_lt hd), Nat.div_eq_of_lt hd, add_zero]
    rw [withDigits_append, List.length_append, List.length_singleton, lastDigits, dropDigits, hmod,
      hdiv, ih₁, ih₂, List.reverse_append]
    exact ⟨rfl, rfl⟩

/-- A number is determined by its last digits and the rest. -/
theorem eq_of_lastDigits {base : UInt32} {m m' k : ℕ}
    (h₁ : lastDigits base m k = lastDigits base m' k)
    (h₂ : dropDigits base m k = dropDigits base m' k) : m = m' := by
  induction k generalizing m m' with
  | zero => exact h₂
  | succ k ih =>
    obtain ⟨hmod, hrest⟩ := List.cons.inj h₁
    rw [← Nat.div_add_mod m base.toNat, ih hrest h₂, Int.ofNat_inj.1 hmod, Nat.div_add_mod]

/-! ## The digits -/

/-- `bint_digit_push` appends a digit if and only if there is room for the number with it, and
    `bint_digit_pop` always removes the last one. Digits that are pushed are popped again, and the
    objects are as they were, if and only if there is room for each of them. -/
theorem digits_exact_iff (σ : Store I) (b : I) (base : UInt32) (h : Heap) (hbase : base ≠ 0)
    (hb : Canonical (σ b)) (hk : h.Ok) :
    (∀ digit < base, (Computes σ (.digitPush b base digit) b (fun d => Canonical d ∧
        d.negative = (σ b).negative ∧ mag d = base.toNat * mag (σ b) + digit.toNat) h ↔
      PushExact base (mag (σ b)) digit)) ∧
    (∃ d h', exec σ (.digitPop b base) h =
        some ((((mag (σ b) % base.toNat : ℕ) : ℤ), Function.update σ b d), h') ∧ Canonical d ∧
      d.negative = (σ b).negative ∧ mag d = mag (σ b) / base.toNat) ∧
    ∀ ds : List UInt32, (∀ d ∈ ds, d < base) →
      ((∃ h', execAll (ds.map (.digitPush b base) ++
          List.replicate ds.length (.digitPop b base)) σ h =
        some ((List.replicate ds.length 0 ++ ds.reverse.map (fun d => (d.toNat : ℤ)), σ), h')) ↔
      PushesExact base (mag (σ b)) ds) := by
  refine ⟨fun digit hd => digitPush_computes_iff hb hk hd, digitPop_computes hbase σ h,
    fun ds hds => ?_⟩
  · obtain ⟨v, h₁, e₁, hc₁, hn₁, -, hx⟩ := execAll_digitPush hbase hb hk hds
    obtain ⟨w, h₂, e₂, hc₂, hn₂, hm₂⟩ := execAll_digitPop (σ := Function.update σ b v) (b := b)
      hbase ds.length (by rwa [Function.update_self]) h₁
    rw [Function.update_self] at e₂ hn₂ hm₂
    rw [Function.update_idem] at e₂
    have e := execAll_append e₁ e₂
    obtain ⟨hl, hr⟩ := lastDigits_withDigits (mag (σ b)) ds hds
    rw [← hx]
    constructor
    · rintro ⟨h', e'⟩
      have he := Option.some_inj.1 (e.symm.trans e')
      simp only [Prod.mk.injEq, List.append_cancel_left_eq] at he
      obtain ⟨⟨hdigits, hstore⟩, -⟩ := he
      have hw : w = σ b := by rw [← congrFun hstore b, Function.update_self]
      refine eq_of_lastDigits (k := ds.length) (hdigits.trans hl.symm) ?_
      rw [← hm₂, hr, hw]
    · intro hv
      rw [hv] at hm₂ e
      have hw : w = σ b := hc₂.eq_of_mag_eq hb (hn₂.trans hn₁) (hm₂.trans hr)
      rw [hw, Function.update_eq_self, hl] at e
      exact ⟨h₂, e⟩

/-- A number whose bit length is taken for 0 does not get room for another bit. -/
theorem not_pushExact_two {k : ℕ} (hk : (k + 1) % 2 ^ 32 = 0) : ¬PushExact 2 (2 ^ k) 0 := by
  have hroom : digitRoom 2 (2 ^ k) = (k + 1) / 128 := by
    rw [digitRoom, chunks, Nat.size_pow, hk, show bitLength 2 = 2 by decide]
    omega
  have hbase : (2 : UInt32).toNat = 2 := rfl
  rw [PushExact, hroom, pow_radix, Nat.mul_div_cancel' (by omega : 128 ∣ k + 1), hbase, pow_succ',
    UInt32.toNat_zero, add_zero]
  exact lt_irrefl _

theorem bintDigitPush_lacks_room_of {w : Bint} {k : ℕ} (hw : Canonical w) (hm : mag w = 2 ^ k)
    (hk : (k + 1) % 2 ^ 32 = 0) : ¬Computes (pair w bintZero) (.digitPush false 2 0) false
      (fun d => Canonical d ∧ d.negative = w.negative ∧
        mag d = (2 : UInt32).toNat * mag w + (0 : UInt32).toNat) freshHeap := by
  intro hc
  have hx := (digitPush_computes_iff (σ := pair w bintZero) (b := false) hw (fun _ => rfl)
    (by decide)).1 hc
  change PushExact 2 (mag w) 0 at hx
  rw [hm] at hx
  exact not_pushExact_two hk hx

/-- The number `2 ^ (2 ^ 32 - 1)` is not doubled. -/
theorem bintDigitPush_lacks_room : Canonical topBit ∧ freshHeap.Ok ∧
    mag topBit = 2 ^ (2 ^ 32 - 1) ∧
    ¬Computes (pair topBit bintZero) (.digitPush false 2 0) false (fun d => Canonical d ∧
      d.negative = topBit.negative ∧
      mag d = (2 : UInt32).toNat * mag topBit + (0 : UInt32).toNat) freshHeap :=
  ⟨canonical_topBit, fun _ => rfl, mag_topBit, bintDigitPush_lacks_room_of canonical_topBit
    mag_topBit (by rw [Nat.sub_add_cancel Nat.one_le_two_pow, Nat.mod_self])⟩

/-- Three decimal digits are appended to -7 and removed again. -/
theorem digits_exact_iff_ten : ∃ h',
    execAll ([Op.digitPush false 10 1, .digitPush false 10 2, .digitPush false 10 3] ++
      List.replicate 3 (.digitPop false 10)) (pair (small true 7) bintZero) freshHeap =
    some (([0, 0, 0, 3, 2, 1], pair (small true 7) bintZero), h') :=
  ((digits_exact_iff (pair (small true 7) bintZero) false 10 freshHeap (by decide) (by decide)
    fun _ => rfl).2.2 [1, 2, 3] (by simp)).2 ⟨by decide, by decide, by decide, trivial⟩

end Dlb.Bint
