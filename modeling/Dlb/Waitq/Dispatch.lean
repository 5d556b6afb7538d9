import Dlb.Waitq.Once

/-!
# A call of `waitq_dispatch`

The whole call, as a function of the state it starts from, and what a thread does that makes this
call alone (`waitqDispatch_reached`). The waiting set is in the order of the deadlines, so the
expired timers are a first part of it. The loop takes them out one by one, until there are none left
or the limit is reached, and submits the task of each.

The number that is returned is an `unsigned int`. It stays below the limit, if there is one; without
a limit it is the number of tasks modulo `2 ^ 32`.
-/

namespace Dlb.Waitq

open Machine Rbt

variable {T Θ Φ : Type}

/-! ## The code -/

/-- What a call of `waitq_dispatch` has done so far: the number that it returns, the timers whose
tasks it has submitted, in order, and the state. -/
structure Dispatched (T Θ Φ : Type) where
  count : UInt32
  submitted : List T
  state : State T Θ Φ

variable [LinearOrder T]

/-- The loop of `waitq_dispatch`, for at most the given number of iterations. -/
def dispatchLoop (fuel : ℕ) (limit : UInt32) (now : UInt64) :
    ℕ → Dispatched T Θ Φ → Option (Dispatched T Θ Φ)
  | 0, _ => none
  | n + 1, d =>
    if limit = 0 ∨ d.count < limit then
      (expireOne fuel d.state now).bind fun r =>
        match r.1 with
        | none => some { d with state := r.2 }
        | some t =>
          dispatchLoop fuel limit now n ⟨d.count + 1, d.submitted ++ [t], taskExec r.2 t⟩
    else some d

/-- `waitq_dispatch` -/
def waitqDispatch (fuel : ℕ) (s : State T Θ Φ) (limit : UInt32) (now : UInt64) :
    Option (Dispatched T Θ Φ) :=
  dispatchLoop fuel limit now fuel ⟨0, [], s⟩

/-! ## What is dispatched -/

/-- The timers of the list that have expired. -/
def expired (s : State T Θ Φ) (now : UInt64) (l : List T) : List T :=
  l.filter fun t => s.deadline t ≤ now

/-- As many of the list as the limit leaves. -/
def upTo (limit count : UInt32) (l : List T) : List T :=
  if limit = 0 then l else l.take (limit.toNat - count.toNat)

/-- The timers that the call is to submit, if the waiting set is the list. -/
def due (s : State T Θ Φ) (limit : UInt32) (now : UInt64) (l : List T) : List T :=
  if limit = 0 then expired s now l else (expired s now l).take limit.toNat

variable {s : State T Θ Φ} {d d' : Dispatched T Θ Φ} {tr : Tree (Cell T)} {limit count : UInt32}
  {now : UInt64} {t : T} {l : List T}

omit [LinearOrder T] in
theorem upTo_cons (h : limit = 0 ∨ count < limit) :
    upTo limit count (t :: l) = t :: upTo limit (count + 1) l := by
  rcases h with rfl | hlt
  · rfl
  · rw [UInt32.lt_iff_toNat_lt] at hlt
    have hne : limit ≠ 0 := by
      rintro rfl
      exact absurd hlt (Nat.not_lt_zero _)
    have hcount : (count + 1).toNat = count.toNat + 1 := by
      have := limit.toNat_lt
      rw [UInt32.toNat_add, UInt32.toNat_one]
      exact Nat.mod_eq_of_lt (by omega)
    obtain ⟨k, hk⟩ : ∃ k, limit.toNat - count.toNat = k + 1 :=
      ⟨limit.toNat - count.toNat - 1, by omega⟩
    rw [upTo, upTo, if_neg hne, if_neg hne, hk, List.take_succ_cons, hcount]
    congr 1
    congr 1
    omega

omit [LinearOrder T] in
theorem upTo_nil : upTo limit count ([] : List T) = [] := by
  rw [upTo, List.take_nil, ite_self]

omit [LinearOrder T] in
theorem upTo_eq_nil (h : ¬(limit = 0 ∨ count < limit)) : upTo limit count l = [] := by
  rw [not_or, UInt32.not_lt, UInt32.le_iff_toNat_le] at h
  rw [upTo, if_neg h.1, Nat.sub_eq_zero_of_le h.2, List.take_zero]

/-- If the first timer has not expired, none has. -/
theorem expired_eq_nil (h : Holds s.tree tr) (ht : ∀ t ∈ (order tr).head?, now < s.deadline t) :
    expired s now (order tr) = [] := by
  have hk := List.pairwise_map.1 h.keys
  cases ho : order tr with
  | nil => rfl
  | cons t l =>
    rw [ho] at ht hk
    have hlt : now < s.deadline t := ht t rfl
    simp only [expired, List.filter_eq_nil_iff, decide_eq_true_eq, UInt64.not_le, List.mem_cons]
    rintro t' (rfl | ht')
    · exact hlt
    · exact UInt64.lt_of_lt_of_le hlt
        (deadline_le_of_key_lt ((List.pairwise_cons.1 hk).1 t' ht'))

/-- Submissions do not touch the waiting set. -/
theorem submitAll_mem (s : State T Θ Φ) (m : Rbt.Mem T) (l : List T) :
    l.foldl taskExec { s with mem := m } = { l.foldl taskExec s with mem := m } := by
  induction l generalizing s with
  | nil => rfl
  | cons t l ih => exact ih (taskExec s t)

theorem submitAll_call (s : State T Θ Φ) (l : List T) : (l.foldl taskExec s).call = s.call := by
  induction l generalizing s with
  | nil => rfl
  | cons t l ih => exact ih (taskExec s t)

omit [LinearOrder T] in
theorem expired_cons (h : ¬now < s.deadline t) :
    expired s now (t :: l) = t :: expired s now l := by
  simp [expired, UInt64.not_lt.1 h]

/-- `expire_one` finds nothing if the first timer has not expired. -/
theorem expireOne_none (h : Holds s.tree tr) (ht : ∀ t ∈ (order tr).head?, now < s.deadline t) :
    Yields (fun fuel => expireOne fuel s now) (none, s) := by
  rcases expireSection_spec h now with ⟨hret, -⟩ | ⟨t, m, tr', ys, -, hnow, -, ho, -⟩
  · exact hret.yields fun r => (r.1, { s with mem := r.2 })
  · exact absurd (ht t (by simp [ho])) hnow

/-- From `d` on, the loop submits the tasks of the first timers `ys` of the set and takes them out of
it. -/
def Drains (limit : UInt32) (now : UInt64) (d : Dispatched T Θ Φ) (tr : Tree (Cell T))
    (ys : List T) : Prop :=
  ∃ m tr' N, Holds { d.state with mem := m }.tree tr' ∧ order tr = ys ++ order tr' ∧
    ∀ fuel ≥ N, ∀ n > (order tr).length, dispatchLoop fuel limit now n d =
      some ⟨d.count + UInt32.ofNat ys.length, d.submitted ++ ys,
        ys.foldl taskExec { d.state with mem := m }⟩

/-- The loop ends when the limit is reached, or when the first timer has not expired. -/
theorem Drains.stop (h : Holds d.state.tree tr) (hs : (limit = 0 ∨ d.count < limit) →
    ∀ t ∈ (order tr).head?, now < d.state.deadline t) : Drains limit now d tr [] := by
  have hloop : ∃ N, ∀ fuel ≥ N, ∀ n, dispatchLoop fuel limit now (n + 1) d = some d := by
    by_cases hlim : limit = 0 ∨ d.count < limit
    · obtain ⟨N, hN⟩ := expireOne_none h (hs hlim)
      refine ⟨N, fun fuel hf n => ?_⟩
      have e : expireOne fuel d.state now = some (none, d.state) := hN fuel hf
      rw [dispatchLoop, if_pos hlim, e]
      rfl
    · refine ⟨0, fun fuel _ n => ?_⟩
      rw [dispatchLoop, if_neg hlim]
  obtain ⟨N, hN⟩ := hloop
  refine ⟨d.state.mem, tr, N, h, rfl, fun fuel hf n hn => ?_⟩
  obtain ⟨n, rfl⟩ := Nat.exists_eq_succ_of_ne_zero (Nat.ne_zero_of_lt hn)
  rw [hN fuel hf n]
  simp

/-- One more iteration. -/
theorem Drains.cons {m : Rbt.Mem T} {tr' : Tree (Cell T)} {ys : List T}
    (hlim : limit = 0 ∨ d.count < limit) (ho : order tr = t :: order tr')
    (hexp : Returns (fun fuel => expireSection d.state fuel now) d.state.mem (some t) m)
    (h : Drains limit now
      ⟨d.count + 1, d.submitted ++ [t], taskExec { d.state with mem := m } t⟩ tr' ys) :
    Drains limit now d tr (t :: ys) := by
  obtain ⟨m', tr'', N, h', ho', hN⟩ := h
  obtain ⟨N', hN'⟩ : Yields (fun fuel => expireOne fuel d.state now)
      (some t, { d.state with mem := m }) :=
    hexp.yields _
  refine ⟨m', tr'', max N N', h', by rw [ho, ho', List.cons_append], fun fuel hf n hn => ?_⟩
  obtain ⟨n, rfl⟩ := Nat.exists_eq_succ_of_ne_zero (Nat.ne_zero_of_lt hn)
  have e : expireOne fuel d.state now = some (some t, { d.state with mem := m }) :=
    hN' fuel (by omega)
  have hn' : n > (order tr').length := by
    rw [ho, List.length_cons] at hn
    omega
  rw [dispatchLoop, if_pos hlim, e]
  refine (hN fuel (by omega) n hn').trans ?_
  have hcount : d.count + 1 + UInt32.ofNat ys.length = d.count + UInt32.ofNat (t :: ys).length := by
    rw [List.length_cons, UInt32.ofNat_add, UInt32.add_assoc, UInt32.add_comm 1]
    rfl
  simp [hcount, taskExec]

/-- The loop submits the expired timers that the limit leaves. -/
theorem dispatchLoop_spec (h : Holds d.state.tree tr) :
    Drains limit now d tr (upTo limit d.count (expired d.state now (order tr))) := by
  induction hl : order tr generalizing d tr with
  | nil =>
    rw [expired, List.filter_nil, upTo_nil]
    exact .stop h fun _ => by simp [hl]
  | cons t l ih =>
    by_cases hlim : limit = 0 ∨ d.count < limit
    · rcases expireSection_spec h now with ⟨-, ht⟩ | ⟨t', m, tr', ys, hexp, hnow, h', ho, ho'⟩
      · rw [← hl, expired_eq_nil h ht, upTo_nil]
        exact .stop h fun _ => ht
      · obtain ⟨rfl, rfl⟩ := List.cons.inj (hl.symm.trans ho)
        rw [expired_cons hnow, upTo_cons hlim]
        exact .cons hlim (by rw [ho, ho']) hexp (ih h' ho')
    · rw [upTo_eq_nil hlim]
      exact .stop h fun h => absurd h hlim

/-! ## The whole call -/

/-- What a call is to have done, if the waiting set is the list: it has submitted the tasks that are
due, in order, has taken their timers out of the set, and has changed nothing else. -/
structure Dispatches (s : State T Θ Φ) (limit : UInt32) (now : UInt64) (l : List T)
    (d : Dispatched T Θ Φ) : Prop where
  submitted : d.submitted = due s limit now l
  executed : d.state = { d.submitted.foldl taskExec s with mem := d.state.mem }
  remaining : Inorder d.state.mem d.state.mem.root (l.drop d.submitted.length)
  reach : ∀ t, Reach d.state.mem t ↔ Reach s.mem t ∧ t ∉ d.submitted

theorem waitqDispatch_spec (h : Holds s.tree tr) (limit : UInt32) (now : UInt64) :
    ∃ d, Yields (fun fuel => waitqDispatch fuel s limit now) d ∧
      Dispatches s limit now (order tr) d ∧ d.count = UInt32.ofNat d.submitted.length := by
  have h₀ : Holds (⟨0, [], s⟩ : Dispatched T Θ Φ).state.tree tr := h
  have hdrains : Drains limit now ⟨0, [], s⟩ tr (upTo limit 0 (expired s now (order tr))) :=
    dispatchLoop_spec h₀
  obtain ⟨m, tr', N, h', ho, hN⟩ := hdrains
  set ys := upTo limit 0 (expired s now (order tr)) with hys
  have hnd := h.nodup
  rw [ho, List.nodup_append] at hnd
  have hroot : m.root = ptr tr' := h'.mem.ctx
  refine ⟨⟨UInt32.ofNat ys.length, ys, { ys.foldl taskExec s with mem := m }⟩,
    ⟨max N ((order tr).length + 1), fun fuel hf => ?_⟩, ⟨?_, rfl, ?_, fun t => ?_⟩, rfl⟩
  · rw [← submitAll_mem, ← UInt32.zero_add (UInt32.ofNat _), ← List.nil_append ys]
    exact hN fuel (by omega) fuel (by omega)
  · rw [hys, due, upTo]
    rfl
  · dsimp only
    rw [ho, List.drop_left, hroot]
    exact h'.mem.tree.inorder
  · rw [reach_iff h, ho, List.mem_append]
    refine (reach_iff h').trans ⟨fun ht => ⟨.inr ht, fun hy => hnd.2.2 t hy t ht rfl⟩, ?_⟩
    rintro ⟨hy | ht, hn⟩
    · exact absurd hy hn
    · exact ht

omit [LinearOrder T] in
/-- The number that is returned is right unless it wraps around, which it may without a limit. -/
theorem count_due_iff (s : State T Θ Φ) (limit : UInt32) (now : UInt64) (l : List T) :
    (UInt32.ofNat (due s limit now l).length).toNat = (due s limit now l).length ↔
      limit ≠ 0 ∨ (expired s now l).length < 2 ^ 32 := by
  rw [UInt32.toNat_ofNat', Nat.mod_eq_iff_lt (by decide), due]
  split
  · simp [*]
  · refine iff_of_true ?_ (.inl ‹_›)
    exact Nat.lt_of_le_of_lt (List.length_take_le _ _) limit.toNat_lt

/-! ## The steps of the call -/

variable [DecidableEq Θ] {θ : Θ}

theorem expireOne_goto (fuel : ℕ) (s : State T Θ Φ) (now : UInt64) (θ : Θ) (c : Call T) :
    expireOne fuel (s.goto θ c) now =
      (expireOne fuel s now).map fun r => (r.1, r.2.goto θ c) := by
  simp only [expireOne, Option.map_map]
  rfl

omit [LinearOrder T] in
theorem goto_goto (s : State T Θ Φ) (θ : Θ) (c c' : Call T) :
    (s.goto θ c).goto θ c' = s.goto θ c' := by
  simp [State.goto]

/-- The thread alone goes through the loop. -/
theorem dispatchLoop_reached {fuel n : ℕ} (e : dispatchLoop fuel limit now n d = some d') :
    Reached step (Alone θ) (d.state.goto θ (.dispatch limit d.count now))
      (d'.state.goto θ .idle) := by
  induction n generalizing d with
  | zero => cases e
  | succ n ih =>
    have hθ : (d.state.goto θ (.dispatch limit d.count now)).call θ =
        .dispatch limit d.count now := Function.update_self _ _ _
    by_cases hlim : limit = 0 ∨ d.count < limit
    · rw [dispatchLoop, if_pos hlim] at e
      obtain ⟨⟨r, s⟩, hexp, e⟩ := Option.bind_eq_some_iff.1 e
      have hstep : step (d.state.goto θ (.dispatch limit d.count now)) (fuel, .expire θ) =
          some (match r with
            | some t => s.goto θ (.expired limit d.count now t)
            | none => s.goto θ .idle) := by
        simp only [step, dispatchStep, hθ, if_pos hlim, expireOne_goto, hexp, Option.map_some]
        cases r <;> simp only [goto_goto]
      cases r with
      | none =>
        obtain rfl := Option.some.inj e
        exact Alone.reached rfl hstep
      | some t =>
        -- The task of the timer is submitted, and the loop goes on.
        have hexec : step (s.goto θ (.expired limit d.count now t)) (0, .expireExec θ) =
            some ((taskExec s t).goto θ (.dispatch limit (d.count + 1) now)) := by
          have hθ' : (s.goto θ (.expired limit d.count now t)).call θ =
              .expired limit d.count now t := Function.update_self _ _ _
          simp only [step, dispatchStep, hθ', goto_goto]
          rfl
        exact ((Alone.reached rfl hstep).trans (Alone.reached rfl hexec)).trans (ih e)
    · rw [dispatchLoop, if_neg hlim] at e
      obtain rfl := Option.some.inj e
      refine Alone.reached (a := (fuel, .expire θ)) rfl ?_
      simp only [step, dispatchStep, hθ, if_neg hlim, goto_goto]

omit [DecidableEq Θ] in
theorem Dispatches.call_eq (h : Dispatches s limit now l d) : d.state.call = s.call := by
  rw [h.executed]
  exact submitAll_call s _

/-- What the call does are steps of the thread that makes it, if nobody interferes. -/
theorem waitqDispatch_reached {fuel : ℕ} (hθ : s.call θ = .idle)
    (e : waitqDispatch fuel s limit now = some d) (h : Dispatches s limit now l d) :
    Reached step (Alone θ) s d.state := by
  have hstart : step s (0, .dispatch θ limit now) = some (s.goto θ (.dispatch limit 0 now)) := by
    simp only [step, dispatchStep, hθ, if_true]
  have hend : d.state.goto θ .idle = d.state := by
    rw [State.goto, ← hθ, ← h.call_eq, Function.update_eq_self]
  rw [← hend]
  exact (Alone.reached rfl hstart).trans (dispatchLoop_reached e)

end Dlb.Waitq
