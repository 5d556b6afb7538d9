import Mathlib.Data.Nat.Init
import Mathlib.Order.Lattice
import Dlb.Machine

/-!
# Fair executions

An execution goes on forever. In each of its moments the system takes a step or rests, so that an
execution may come to an end as well.

* `Execution.Fair`: an action that stays possible is taken at some time (weak fairness);
* `Execution.FairFor`: the same for a thread, which has several actions;
* `Execution.LeadsTo`: whenever the one thing holds, the other holds then or later;
* `Execution.FairFor.leadsTo`: the rule for the progress that one thread makes;
* `Execution.LeadsTo.rank`: progress that counts down;
* `exists_execution`: given actions, and then rest.
-/

namespace Dlb.Machine

variable {σ α : Type*} {step : σ → α → Option σ} {P : σ → α → Prop} {s₀ s : σ}

/-- A system that starts in `s₀`; all its steps meet the condition `P`. -/
structure Execution (step : σ → α → Option σ) (P : σ → α → Prop) (s₀ : σ) where
  state : ℕ → σ
  act : ℕ → Option α
  zero : state 0 = s₀
  stays : ∀ k, act k = none → state (k + 1) = state k
  takes : ∀ k a, act k = some a → P (state k) a ∧ step (state k) a = some (state (k + 1))

namespace Execution

variable {x : Execution step P s₀} {p q r : σ → Prop}

theorem reached (x : Execution step P s₀) (k : ℕ) : Reached step P s₀ (x.state k) := by
  induction k with
  | zero =>
    rw [x.zero]
    exact .refl
  | succ k ih =>
    cases ha : x.act k with
    | none =>
      rw [x.stays k ha]
      exact ih
    | some a =>
      obtain ⟨hP, e⟩ := x.takes k a ha
      exact ih.next hP e

/-- A step keeps `p`, unless it leads to `q`, which never holds. -/
theorem persists (hs : ∀ {s a s'}, Reached step P s₀ s → p s → P s a → step s a = some s' →
      p s' ∨ q s') {k : ℕ} (hk : p (x.state k)) (hq : ∀ j, k ≤ j → ¬ q (x.state j)) {j : ℕ}
    (hkj : k ≤ j) : p (x.state j) := by
  induction j, hkj using Nat.le_induction with
  | base => exact hk
  | succ j hkj ih =>
    cases ha : x.act j with
    | none => rwa [x.stays j ha]
    | some a =>
      obtain ⟨hP, e⟩ := x.takes j a ha
      exact (hs (x.reached j) ih hP e).resolve_right (hq (j + 1) (by omega))

/-- What a step keeps holds from then on. -/
theorem keeps (hs : ∀ {s a s'}, p s → P s a → step s a = some s' → p s') {k j : ℕ} (hkj : k ≤ j)
    (h : p (x.state k)) : p (x.state j) :=
  persists (q := fun _ => False) (fun _ hp ha e => .inl (hs hp ha e)) h (fun _ _ => id) hkj

/-! ## Leads to -/

/-- Whenever `p` holds, `q` holds at that time or later. -/
def LeadsTo (x : Execution step P s₀) (p q : σ → Prop) : Prop :=
  ∀ k, p (x.state k) → ∃ j, k ≤ j ∧ q (x.state j)

namespace LeadsTo

theorem of_imp (h : ∀ k, p (x.state k) → q (x.state k)) : x.LeadsTo p q :=
  fun k hp => ⟨k, le_rfl, h k hp⟩

theorem trans (h : x.LeadsTo p q) (h' : x.LeadsTo q r) : x.LeadsTo p r := by
  intro k hp
  obtain ⟨j, hkj, hq⟩ := h k hp
  obtain ⟨i, hji, hr⟩ := h' j hq
  exact ⟨i, hkj.trans hji, hr⟩

theorem or (h : x.LeadsTo p r) (h' : x.LeadsTo q r) : x.LeadsTo (fun s => p s ∨ q s) r :=
  fun k hk => hk.elim (h k) (h' k)

/-- Either the goal is met on the way, or what was to be reached is reached. -/
theorem trans_or (h : x.LeadsTo p fun s => q s ∨ r s) (h' : x.LeadsTo q r) : x.LeadsTo p r :=
  h.trans (h'.or (of_imp fun _ => id))

/-- What a step keeps, or else meets the goal, still holds when something else is reached. -/
theorem keeping (h : x.LeadsTo p q) {g : σ → Prop}
    (hs : ∀ {s a s'}, Reached step P s₀ s → r s → P s a → step s a = some s' → r s' ∨ g s') :
    x.LeadsTo (fun s => p s ∧ r s) fun s => (q s ∧ r s) ∨ g s := by
  intro k hk
  by_cases hg : ∃ j, k ≤ j ∧ g (x.state j)
  · obtain ⟨j, hkj, hg⟩ := hg
    exact ⟨j, hkj, .inr hg⟩
  · push Not at hg
    obtain ⟨j, hkj, hq⟩ := h k hk.1
    exact ⟨j, hkj, .inl ⟨hq, persists hs hk.2 hg hkj⟩⟩

/-- A rank that falls as long as the goal is not met. -/
theorem ranked {p : ℕ → σ → Prop} (h : ∀ n, x.LeadsTo (p n) fun s => (∃ m < n, p m s) ∨ q s) (n : ℕ) :
    x.LeadsTo (p n) q := by
  induction n using Nat.strong_induction_on with
  | _ n ih =>
    refine (h n).trans_or fun k hk => ?_
    obtain ⟨m, hm, hk⟩ := hk
    exact ih m hm k hk

/-- The same for a rank that is a function of the state. -/
theorem rank (f : σ → ℕ) (h : ∀ n, x.LeadsTo (fun s => p s ∧ f s = n)
    fun s => (p s ∧ f s < n) ∨ q s) : x.LeadsTo p q := by
  have hn := ranked (p := fun n s => p s ∧ f s = n) (q := q) fun n =>
    (h n).trans (of_imp fun _ => Or.imp_left fun hk => ⟨_, hk.2, hk.1, rfl⟩)
  exact fun k hp => hn _ k ⟨hp, rfl⟩

/-- What holds until something else does, and not forever. -/
theorem of_unless (hs : ∀ {s a s'}, Reached step P s₀ s → p s → P s a → step s a = some s' →
      p s' ∨ q s') (h : x.LeadsTo p fun s => ¬ p s) : x.LeadsTo p q := by
  intro k hk
  obtain ⟨j, hkj, hj⟩ := h k hk
  by_contra hq
  push Not at hq
  exact hj (persists hs hk hq hkj)

end LeadsTo

/-! ## Fairness -/

/-- If `a` stays possible, it is taken. -/
def Fair (x : Execution step P s₀) (a : α) : Prop :=
  ∀ k, ∃ j, k ≤ j ∧ (x.act j = some a ∨ step (x.state j) a = none)

/-- If one of the actions `A` is possible at all times, one of them is taken. -/
def FairFor (x : Execution step P s₀) (A : α → Prop) : Prop :=
  ∀ k, ∃ j, k ≤ j ∧ ((∃ a, A a ∧ x.act j = some a) ∨ ∀ a, A a → step (x.state j) a = none)

/-- One of the actions `A` is possible as long as `p` holds, each of them leads to `q`, and every
other step keeps `p`, unless it leads to `q` as well. -/
theorem FairFor.leadsTo {A : α → Prop} (hf : x.FairFor A)
    (he : ∀ {s}, Reached step P s₀ s → p s → ∃ a, A a ∧ step s a ≠ none)
    (ha : ∀ {s a s'}, A a → Reached step P s₀ s → p s → P s a → step s a = some s' → q s')
    (hs : ∀ {s b s'}, Reached step P s₀ s → p s → P s b → step s b = some s' → p s' ∨ q s') :
    x.LeadsTo p q := by
  intro k hk
  by_contra hq
  push Not at hq
  obtain ⟨j, hkj, ⟨a, hA, hj⟩ | hj⟩ := hf k
  · obtain ⟨hP, e⟩ := x.takes j a hj
    exact hq (j + 1) (by omega) (ha hA (x.reached j) (persists hs hk hq hkj) hP e)
  · obtain ⟨a, hA, hne⟩ := he (x.reached j) (persists hs hk hq hkj)
    exact hne (hj a hA)

theorem Fair.fairFor {a : α} (hf : x.Fair a) : x.FairFor (· = a) := by
  intro k
  obtain ⟨j, hkj, hj⟩ := hf k
  refine ⟨j, hkj, hj.imp (fun hj => ⟨a, rfl, hj⟩) ?_⟩
  rintro hj _ rfl
  exact hj

/-- The rule for one action. -/
theorem Fair.leadsTo {a : α} (hf : x.Fair a)
    (he : ∀ {s}, Reached step P s₀ s → p s → step s a ≠ none)
    (ha : ∀ {s s'}, Reached step P s₀ s → p s → P s a → step s a = some s' → q s')
    (hs : ∀ {s b s'}, Reached step P s₀ s → p s → P s b → step s b = some s' → p s' ∨ q s') :
    x.LeadsTo p q :=
  hf.fairFor.leadsTo (fun hr hp => ⟨a, rfl, he hr hp⟩) (fun hA => hA ▸ ha) hs

/-- Actions that are possible at no time from some time on. -/
theorem fairFor_of_rest {A : α → Prop} {m : ℕ}
    (h : ∀ k, m ≤ k → ∀ a, A a → step (x.state k) a = none) : x.FairFor A :=
  fun k => ⟨max k m, le_max_left .., .inr (h _ (le_max_right ..))⟩

/-- The same for one action. -/
theorem fair_of_rest {a : α} {m : ℕ} (h : ∀ k, m ≤ k → step (x.state k) a = none) : x.Fair a :=
  fun k => ⟨max k m, le_max_left .., .inr (h _ (le_max_right ..))⟩

end Execution

/-! ## Executions that come to rest -/

variable [∀ s a, Decidable (P s a)]

theorem trace_take_succ {as : List α} {k : ℕ} (hk : k < as.length) :
    trace step P s (as.take (k + 1)) =
      (trace step P s (as.take k)).bind fun s' => if P s' as[k] then step s' as[k] else none := by
  induction as generalizing s k with
  | nil => cases hk
  | cons a as ih =>
    cases k with
    | zero =>
      simp only [List.take_zero, List.take_succ_cons, trace, List.getElem_cons_zero,
        Option.bind_some]
      split <;> simp
    | succ k =>
      simp only [List.take_succ_cons, trace, List.getElem_cons_succ]
      split
      · cases step s a with
        | none => rfl
        | some s' => exact ih (by simpa using hk)
      · rfl

theorem trace_take_ne_none {as : List α} (h : trace step P s as ≠ none) (k : ℕ) :
    trace step P s (as.take k) ≠ none := by
  induction as generalizing s k with
  | nil => simpa using h
  | cons a as ih =>
    cases k with
    | zero => simp [trace]
    | succ k =>
      simp only [trace, List.take_succ_cons] at h ⊢
      split at h
      · rename_i hP
        rw [if_pos hP]
        cases e : step s a with
        | none => simp [e] at h
        | some s' =>
          rw [e] at h
          exact ih h k
      · exact absurd rfl h

/-- The system takes the actions `as`, and rests. -/
theorem exists_execution {as : List α} {s' : σ} (h : trace step P s₀ as = some s') :
    ∃ x : Execution step P s₀, (∀ k, trace step P s₀ (as.take k) = some (x.state k)) ∧
      ∀ k, as.length ≤ k → x.state k = s' := by
  have hne : ∀ k, trace step P s₀ (as.take k) ≠ none := trace_take_ne_none (by simp [h])
  choose state hstate using fun k => Option.ne_none_iff_exists'.1 (hne k)
  have hend : ∀ k, as.length ≤ k → state k = s' := by
    intro k hk
    have := hstate k
    rw [List.take_of_length_le hk, h] at this
    exact (Option.some.inj this).symm
  refine ⟨⟨state, fun k => as[k]?, ?_, fun k hk => ?_, fun k a hk => ?_⟩, hstate, hend⟩
  · exact (Option.some.inj (hstate 0)).symm
  · have hk : as.length ≤ k := by simpa using hk
    rw [hend k hk, hend (k + 1) (by omega)]
  · obtain ⟨hlt, rfl⟩ := List.getElem?_eq_some_iff.1 hk
    have hs := hstate (k + 1)
    rw [trace_take_succ hlt, hstate k, Option.bind_some] at hs
    simpa using hs

end Dlb.Machine
