import Dlb.Bint.Component

/-!
# What the loops over the components of a chunk compute

For every loop over the components of a chunk it is stated which balance it keeps
between the values of the chunks and of the carry. The two loops which do not
keep the balance one expects are the second loop of `mag_add`, whose carry does
not leave the lowest component (`scan_carryComponent`), and `chunk_mac`, which
drops the carry of its first addition (`chunkMac_val`).
-/

namespace Dlb.Bint

/-! ## The loops over the components of a chunk -/

section

variable {σ : Type*} {w : σ → ℕ} {p : σ → Prop}

theorem Chunk.val_scan {f : σ → UInt32 → UInt32 × σ} {inp : UInt32 → ℕ}
    (hf : ∀ s d, p s → (f s d).1.toNat + 2 ^ 32 * w (f s d).2 = inp d + w s ∧ p (f s d).2)
    {s : σ} (hs : p s) (c : Chunk) :
    (c.scan f s).1.val + radix * w (c.scan f s).2 = eval (2 ^ 32) inp c.data + w s ∧
      p (c.scan f s).2 := by
  have := eval_scan hf hs c.data
  rwa [c.length_data, ← radix_eq] at this

theorem Chunk.val_scan₂ {f : σ → UInt32 × UInt32 → UInt32 × σ}
    (hf : ∀ s q, (f s q).1.toNat + 2 ^ 32 * w (f s q).2 = q.1.toNat + q.2.toNat + w s)
    (s : σ) (a b : Chunk) :
    (a.scan₂ f s b).1.val + radix * w (a.scan₂ f s b).2 = a.val + b.val + w s := by
  have := (eval_scan (p := fun _ => True) (fun s q _ => ⟨hf s q, trivial⟩) (s := s) trivial
    (a.data.zip b.data)).1
  rwa [eval_zip (a.length_data.trans b.length_data.symm), List.length_zip, a.length_data,
    b.length_data, min_self, ← radix_eq] at this

theorem Chunk.val_scanDown {f : σ → UInt32 → UInt32 × σ} {m : ℕ}
    (hf : ∀ s d, p s → m * (f s d).1.toNat + w (f s d).2 = d.toNat + 2 ^ 32 * w s ∧ p (f s d).2)
    {s : σ} (hs : p s) (c : Chunk) :
    m * (c.scanDown f s).1.val + w (c.scanDown f s).2 = c.val + radix * w s ∧
      p (c.scanDown f s).2 := by
  have := eval_scanDown hf hs c.data
  rwa [c.length_data, ← radix_eq] at this

end

/-- The value of a chunk whose components are multiplied by `m`. -/
theorem Chunk.eval_mul_data (m : ℕ) (c : Chunk) :
    eval (2 ^ 32) (fun d => m * d.toNat) c.data = m * c.val := eval_mul _ _ m c.data

theorem val_addComponent (c : UInt32) (d s : Chunk) :
    (d.scan₂ addComponent c s).1.val + radix * flag (d.scan₂ addComponent c s).2 =
      d.val + s.val + flag c :=
  Chunk.val_scan₂ addComponent_spec c d s

theorem val_subComponent (c : UInt32) (d s : Chunk) :
    (d.scan₂ subComponent c s).1.val + s.val + flag c =
      d.val + radix * flag (d.scan₂ subComponent c s).2 := by
  have hl := d.length_data.trans s.length_data.symm
  have h := eval_scan_borrow subComponent_spec c (d.data.zip s.data)
  rw [← eval_map _ _ Prod.fst, ← eval_map _ _ Prod.snd, List.map_fst_zip hl.le,
    List.map_snd_zip hl.ge, List.length_zip, d.length_data, s.length_data, min_self,
    ← radix_eq] at h
  exact h

theorem scan_borrowComponent (c : UInt32) (d : Chunk) :
    d.scan borrowComponent c = d.scan₂ subComponent c .zero := by
  obtain ⟨data, h⟩ := d
  match data, h with
  | [d₀, d₁, d₂, d₃], _ => simp [Chunk.scan, Chunk.scan₂, Chunk.zero, borrowComponent_eq]

/-- The second loop of `mag_add` does not carry beyond the lowest component. -/
theorem scan_carryComponent (c : UInt32) (d : Chunk) :
    (d.scan carryComponent c).2 = 0 ∧ (d.scan carryComponent c).1.val +
        (if c ≠ 0 ∧ d.val % 2 ^ 32 = 2 ^ 32 - 1 then 2 ^ 32 else 0) = d.val + flag c := by
  obtain ⟨data, h⟩ := d
  match data, h with
  | [d₀, d₁, d₂, d₃], _ =>
    have h₀ := d₀.toNat_lt
    simp only [Chunk.scan, scan_cons, scan_nil, carryComponent_eq, Chunk.val, limbs_cons, limbs_nil,
      true_and, ne_eq, not_true_eq_false, if_false, Nat.add_mul_mod_self_left]
    rw [Nat.mod_eq_of_lt h₀]
    by_cases hc : c = 0
    · simp [hc]
    · have hs : (d₀ + 1).toNat = (d₀.toNat + 1) % 2 ^ 32 := by simp
      simp only [hc, not_false_eq_true, true_and, if_true, hs, flag_of_ne hc]
      split_ifs <;> omega

theorem val_mulComponent (base c : UInt32) (d : Chunk) :
    (d.scan (mulComponent base) c).1.val + radix * (d.scan (mulComponent base) c).2.toNat =
      base.toNat * d.val + c.toNat := by
  have h := (Chunk.val_scan (p := fun _ => True)
    (fun s d _ => ⟨mulComponent_spec base s d, trivial⟩) trivial d (s := c)).1
  rwa [Chunk.eval_mul_data] at h

theorem val_digitComponent (c : UInt32) (d : Chunk) :
    (d.scan digitComponent c).1.val + radix * (d.scan digitComponent c).2.toNat =
      d.val + c.toNat :=
  (Chunk.val_scan (p := fun _ => True) (fun s d _ => ⟨digitComponent_spec s d, trivial⟩) trivial
    d (s := c)).1

theorem val_popComponent {base : UInt32} {r : UInt64} (hr : r.toNat < base.toNat) (d : Chunk) :
    base.toNat * (d.scanDown (popComponent base) r).1.val +
        (d.scanDown (popComponent base) r).2.toNat = d.val + radix * r.toNat ∧
      (d.scanDown (popComponent base) r).2.toNat < base.toNat :=
  Chunk.val_scanDown (p := fun r : UInt64 => r.toNat < base.toNat)
    (fun _ d h => popComponent_spec h d) hr d

/-! ## The product of two chunks -/

theorem limbs_macCarry {c : UInt32} {mm : List UInt32}
    (h : limbs mm + c.toNat < (2 ^ 32) ^ mm.length) :
    limbs (macCarry c mm) = limbs mm + c.toNat := by
  induction mm generalizing c with
  | nil =>
    have : c.toNat = 0 := by simpa using h
    simp [macCarry, this]
  | cons m mm ih =>
    rw [macCarry]
    by_cases hc : c = 0
    · simp [hc]
    · rw [if_pos hc]
      have hs : (m.toUInt64 + c.toUInt64).toUInt32.toNat +
          2 ^ 32 * ((m.toUInt64 + c.toUInt64) >>> 32).toUInt32.toNat = m.toNat + c.toNat :=
        digitComponent_spec c m
      rw [limbs_cons, List.length_cons, pow_succ (2 ^ 32)] at h
      rw [limbs_cons, limbs_cons, ih]
      · omega
      · by_contra hn
        have : (2 ^ 32) ^ mm.length * 2 ^ 32 ≤
            (limbs mm + ((m.toUInt64 + c.toUInt64) >>> 32).toUInt32.toNat) * 2 ^ 32 :=
          Nat.mul_le_mul_right _ (not_lt.1 hn)
        omega

theorem limbs_macRow (ad : UInt32) (b : Chunk) {mm : List UInt32} (hm : 4 ≤ mm.length)
    (h : limbs mm + ad.toNat * b.val < (2 ^ 32) ^ mm.length) :
    limbs (macRow ad b mm) = limbs mm + ad.toNat * b.val := by
  obtain ⟨lo, hi, rfl, hlo⟩ : ∃ lo hi, mm = lo ++ hi ∧ lo.length = 4 :=
    ⟨mm.take 4, mm.drop 4, (List.take_append_drop 4 mm).symm, by simp [hm]⟩
  have hl : b.data.length = lo.length := b.length_data.trans hlo.symm
  have hz : b.data.zip (lo ++ hi) = b.data.zip lo := by
    simpa using @List.zip_append _ _ _ [] _ hi hl
  have hs := (eval_scan (p := fun _ => True) (u := fun q => ad.toNat * q.1.toNat + q.2.toNat)
    (fun c q _ => ⟨macComponent_spec ad c q, trivial⟩) (s := 0) trivial (b.data.zip lo)).1
  rw [eval_zip (g := fun d => ad.toNat * d.toNat) hl, b.eval_mul_data, List.length_zip, ← hl,
    b.length_data, min_self, UInt32.toNat_zero, add_zero] at hs
  rw [limbs_append, hlo, List.length_append, hlo, pow_add] at h
  rw [macRow, hz, List.drop_left' hlo, limbs_append, limbs_append, length_scan, List.length_zip,
    ← hl, b.length_data, min_self, limbs_macCarry]
  · change eval _ _ _ + _ = ad.toNat * b.val + limbs lo at hs
    change eval _ _ _ + _ = _
    rw [mul_add]
    omega
  · change eval _ _ _ + _ = ad.toNat * b.val + limbs lo at hs
    refine lt_of_mul_lt_mul_left (lt_of_le_of_lt ?_ h) (Nat.zero_le _)
    rw [mul_add]
    omega

theorem limbs_macRows (b : Chunk) (as mm : List UInt32) (hm : as.length + 4 ≤ mm.length)
    (h : limbs mm + limbs as * b.val < (2 ^ 32) ^ mm.length) :
    limbs (macRows b as mm) = limbs mm + limbs as * b.val := by
  induction as generalizing mm with
  | nil => simp [macRows]
  | cons ad as ih =>
    rw [List.length_cons] at hm
    have hle : ad.toNat * b.val ≤ limbs (ad :: as) * b.val :=
      Nat.mul_le_mul_right _ (by simp)
    have hr := limbs_macRow ad b (show 4 ≤ mm.length by omega) (by omega)
    have hl := length_macRow ad b (show 4 ≤ mm.length by omega)
    rw [macRows]
    split
    · rename_i e
      rw [e, List.length_nil] at hl
      omega
    · rename_i m mm' e
      rw [e, limbs_cons] at hr
      rw [e, List.length_cons] at hl
      rw [limbs_cons] at h
      rw [limbs_cons, limbs_cons ad]
      have hx : (ad.toNat + 2 ^ 32 * limbs as) * b.val =
          ad.toNat * b.val + 2 ^ 32 * (limbs as * b.val) := by ring
      rw [hx] at h ⊢
      rw [ih mm' (by omega)]
      · omega
      · rw [← hl, pow_succ (2 ^ 32)] at h
        refine lt_of_mul_lt_mul_left (a := 2 ^ 32) (lt_of_le_of_lt ?_ (mul_comm _ (2 ^ 32) ▸ h))
          (Nat.zero_le _)
        omega

theorem limbs_macAcc (r c : Chunk) : limbs (macAcc r c) = (r.val + c.val) % radix := by
  have h := Chunk.val_scan₂ (w := UInt32.toNat) accComponent_spec 0 r c
  have hv := (r.scan₂ accComponent 0 c).1.val_lt
  rw [UInt32.toNat_zero, add_zero] at h
  rw [macAcc, limbs_append, ← h, Nat.add_mul_mod_self_left, Nat.mod_eq_of_lt hv]
  simp [Chunk.val]

/-- What `chunk_mac` computes. The carry of the first addition is lost. -/
theorem chunkMac_val (a b r c : Chunk) :
    (chunkMac (some (a, b)) r c).1.val + radix * (chunkMac (some (a, b)) r c).2.val =
      (r.val + c.val) % radix + a.val * b.val := by
  have hl := length_macArray (some (a, b)) r c
  have ha := a.val_lt
  have hb := b.val_lt
  have hab : a.val * b.val ≤ (radix - 1) * (radix - 1) :=
    Nat.mul_le_mul (Nat.le_pred_of_lt ha) (Nat.le_pred_of_lt hb)
  have hr := Nat.mod_lt (r.val + c.val) radix_pos
  have hlt : (r.val + c.val) % radix + a.val * b.val < (2 ^ 32) ^ 8 := by
    rw [show (2 ^ 32) ^ 8 = radix * radix by rw [radix_eq, ← pow_add]]
    have : (radix - 1) * (radix - 1) + (radix - 1) < radix * radix := by decide
    omega
  have hm := limbs_macRows b a.data (macAcc r c)
    (by simp [length_macAcc, a.length_data]) (by rw [limbs_macAcc, length_macAcc]; exact hlt)
  rw [limbs_macAcc] at hm
  have ht := limbs_append ((macArray (some (a, b)) r c).take 4) ((macArray (some (a, b)) r c).drop 4)
  rw [List.take_append_drop, List.length_take, hl, Nat.min_eq_left (by omega), ← radix_eq] at ht
  exact ht.symm.trans hm

theorem chunkMac_none (r c : Chunk) :
    (chunkMac none r c).1.val = (r.val + c.val) % radix ∧ (chunkMac none r c).2 = .zero := by
  have h₄ : (r.scan₂ accComponent 0 c).1.data.length = 4 := (r.scan₂ accComponent 0 c).1.length_data
  have hm := limbs_macAcc r c
  refine ⟨?_, ?_⟩
  · rw [← hm]
    simp [chunkMac, macArray, Chunk.val, macAcc, List.take_left' h₄, limbs_append]
  · simp [chunkMac, macArray, macAcc, List.drop_left' h₄, Chunk.zero]

end Dlb.Bint
