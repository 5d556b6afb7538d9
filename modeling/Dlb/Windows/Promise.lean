import Dlb.Machine
import Dlb.Windows.Inv

/-!
# What the operations on Windows promise

* `Promise`: what a client sees of the operations;
* `Inv.run`: the run queue calls back;
* `run_promise`, `run_handles`: the results.
-/

namespace Dlb.Windows

open Machine

variable {O F S Φ : Type} [DecidableEq O] [DecidableEq F] {s s' : State O F S Φ}
  {k : Key O F} {t : O} {f : Φ} {op : Op Φ} {d : Done} {c : Completion}

/-! ## The system and the run queue -/

section system

/-- An operation goes from one place to another. -/
theorem Inv.move (hI : Inv s) (hw : s'.work.Perm s.work) (hop : s'.op = s.op) (hsock : s'.sock = s.sock)
    (hclient : s'.caClient = s.caClient) (hacc : s'.caAcceptSock = s.caAcceptSock)
    (hopened : s'.opened = s.opened) : Inv s' ∧ s'.outstanding = s.outstanding := by
  obtain ⟨hT, hout⟩ := hI.toTasks.move hw hop
  refine ⟨⟨hT, hI.frame hsock hclient hacc hopened (fun t => hw.mem_iff.1) (fun t ht _ => ?_)
    fun t _ => by rw [hop]⟩, hout⟩
  exact hw.mem_iff.2 ht

theorem Inv.complete (hI : Inv s) (hk : k ∈ s.pending) :
    ∃ s', complete s k = some s' ∧ Inv s' ∧ s'.outstanding = s.outstanding := by
  refine ⟨_, if_pos hk, hI.move ?_ rfl rfl rfl rfl rfl⟩
  have hwork : s.pending.erase k ++ ((s.packets ++ [some k]).reduceOption ++ s.jobs) =
      s.pending.erase k ++ s.packets.reduceOption ++ k :: s.jobs := by
    simp [List.reduceOption_append]
  have hpending := (List.perm_cons_erase hk).append_right (s.packets.reduceOption ++ s.jobs)
  rw [State.work, hwork]
  refine List.perm_middle.trans ?_
  rw [List.append_assoc]
  exact hpending.symm

theorem Inv.notify (hI : Inv s) : Inv (ioqNotify s) ∧ (ioqNotify s).outstanding = s.outstanding := by
  refine hI.move (.of_eq ?_) rfl rfl rfl rfl rfl
  simp [State.work, ioqNotify, List.reduceOption_append]

theorem Inv.iterate (hI : Inv s) (hpackets : s.packets ≠ []) :
    ∃ s', ioqIterate s = some s' ∧ Inv s' ∧ s'.outstanding = s.outstanding := by
  cases hp : s.packets with
  | nil => exact absurd hp hpackets
  | cons packet packets =>
    cases packet with
    | none =>
      refine ⟨{ s with packets := packets }, by rw [ioqIterate, hp], hI.move ?_ rfl rfl rfl rfl rfl⟩
      simp [State.work, hp, List.reduceOption_cons_of_none]
    | some k =>
      have hwork : s.work = s.pending ++ k :: (packets.reduceOption ++ s.jobs) := by
        simp [State.work, hp, List.reduceOption_cons_of_some]
      have hjobs : k ∉ s.jobs := by
        have hnodup := List.nodup_middle.1 (hwork ▸ hI.nodup)
        intro hk
        exact (List.nodup_cons.1 hnodup).1 (by simp [hk])
      refine ⟨{ s with packets := packets, jobs := s.jobs ++ [k] }, ?_, hI.move ?_ rfl rfl rfl rfl rfl⟩
      · rw [ioqIterate, hp]
        exact if_neg hjobs
      · rw [hwork, State.work, ← List.append_assoc packets.reduceOption]
        exact (List.perm_append_singleton k _).append_left s.pending

/-- What the system says of an operation. -/
def Completion.outcome (c : Completion) : ℕ × ℕ := (c.error, if c.error = 0 then c.size else 0)

theorem settled_eq : settled op c = (op.early.getD c.outcome).1 := by
  rw [settled, Op.early]
  split_ifs <;> rfl

theorem transferDone_size :
    (if settled op c ≠ 0 then 0 else if op.error = ioPending then c.size else op.size) =
      (op.early.getD c.outcome).2 := by
  by_cases h : op.error = ioPending
  · simp only [settled, Op.early, if_pos h, Option.getD_none, Completion.outcome]
    by_cases hc : c.error = 0 <;> simp [hc]
  · simp only [settled, Op.early, if_neg h, Option.getD_some]
    by_cases h0 : op.error = 0 <;> simp [h0]

omit [DecidableEq O] [DecidableEq F] in
/-- What is left when the first task of the run queue is called. -/
theorem popped {jobs : List (Key O F)} (hjobs : s.jobs = k :: jobs) :
    s.work.Perm (k :: ({ s with jobs := jobs } : State O F S Φ).work) := by
  rw [State.work, hjobs, ← List.append_assoc, State.work, ← List.append_assoc]
  exact List.perm_middle

/-- The task of an operation has run. -/
structure Ran (s s' : State O F S Φ) (k : Key O F) (c : Completion) : Prop where
  inv : Inv s'
  outstanding : s'.outstanding = Function.update s.outstanding k none
  func : (s'.op k).func = (s.op k).func
  error : (s'.op k).error = ((s.op k).early.getD c.outcome).1
  size : (∀ t, k ≠ .ca t) → (s'.op k).size = ((s.op k).early.getD c.outcome).2

theorem Inv.ran (hI : Inv s) (hw : s.work.Perm (k :: s'.work)) {size : ℕ}
    (hop : s'.op = Function.update s.op k
      { s.op k with error := settled (s.op k) c, size := size }) (hH : Handles s')
    (hsize : (∀ t, k ≠ .ca t) → size = ((s.op k).early.getD c.outcome).2) : Ran s s' k c := by
  obtain ⟨hT, hout⟩ := hI.finish hw hop rfl rfl
  have hself : s'.op k = { s.op k with error := settled (s.op k) c, size := size } := by
    rw [hop, Function.update_self]
  refine ⟨⟨hT, hH⟩, hout, by rw [hself], ?_, fun h => ?_⟩
  · rw [hself]
    exact settled_eq
  · rw [hself]
    exact hsize h

/-- A task has run that does not touch any handle. -/
theorem Inv.ran_frame (hI : Inv s) (hw : s.work.Perm (k :: s'.work)) {size : ℕ}
    (hop : s'.op = Function.update s.op k
      { s.op k with error := settled (s.op k) c, size := size })
    (hk : ∀ t, k = .ca t → (s.op k).done ≠ some .accept)
    (hsize : (∀ t, k ≠ .ca t) → size = ((s.op k).early.getD c.outcome).2)
    (hsock : s'.sock = s.sock) (hclient : s'.caClient = s.caClient)
    (hacc : s'.caAcceptSock = s.caAcceptSock) (hopened : s'.opened = s.opened) : Ran s s' k c := by
  have hnot := (List.nodup_cons.1 (hw.nodup_iff.1 hI.nodup)).1
  refine hI.ran hw hop (hI.frame hsock hclient hacc hopened (fun t ht => ?_) (fun t ht hdone => ?_)
    fun t ht => ?_) hsize
  · exact hw.mem_iff.2 (List.mem_cons_of_mem k ht)
  · refine (List.mem_cons.1 (hw.mem_iff.1 ht)).resolve_left fun he => hk t he.symm ?_
    rwa [← he]
  · rw [hop, Function.update_of_ne fun he => hnot ?_]
    rwa [← he]

theorem Inv.transferDone (hI : Inv s) {jobs : List (Key O F)} (hjobs : s.jobs = k :: jobs)
    (hca : ∀ t, k ≠ .ca t) : Ran s (transferDone { s with jobs := jobs } k c) k c :=
  hI.ran_frame (popped hjobs) rfl (fun t ht => absurd ht (hca t)) (fun _ => transferDone_size) rfl rfl rfl
    rfl

theorem Inv.connectDone (hI : Inv s) {jobs : List (Key O F)} (hjobs : s.jobs = .ca t :: jobs)
    (hdone : (s.op (.ca t)).done = some .connect) :
    Ran s (connectDone { s with jobs := jobs } t c) (.ca t) c := by
  refine hI.ran_frame (popped hjobs) rfl (fun _ _ h => ?_) (fun h => absurd rfl (h t)) rfl rfl rfl rfl
  rw [hdone] at h
  cases h

omit [DecidableEq F] in
/-- An accept is not outstanding any more. -/
theorem Handles.finish (h : Handles s) (hw : s.work.Perm (.ca t :: s'.work)) (hnot : .ca t ∉ s'.work)
    (hop : ∀ t', t' ≠ t → s'.op (.ca t') = s.op (.ca t')) (hclient : s'.caClient = s.caClient)
    (hacc : s'.caAcceptSock = Function.update s.caAcceptSock t none)
    (hcustody : Custody (fun p => {h | s'.handle p = some h}) {h | h ∈ s'.opened})
    (hsock : ∀ t' c, t' ≠ t → Accepting s t' → s.caClient t' = some c → s.sock c = none →
      s'.sock c = none) : Handles s' := by
  have hne : ∀ {t'}, (.ca t' : Key O F) ∈ s'.work → t' ≠ t := by
    rintro t' ht' rfl
    exact hnot ht'
  have hAcc : ∀ t', Accepting s' t' → Accepting s t' ∧ s'.caClient t' = s.caClient t' := by
    rintro t' ⟨hwork, hdone, herror⟩
    rw [hop t' (hne hwork)] at hdone herror
    exact ⟨⟨hw.mem_iff.2 (List.mem_cons_of_mem _ hwork), hdone, herror⟩, by rw [hclient]⟩
  refine h.next hcustody (fun t' h' ht' => ?_) hAcc fun c hc hnone => ?_
  · rw [hacc] at ht'
    have ht : t' ≠ t := by
      rintro rfl
      rw [Function.update_self] at ht'
      cases ht'
    rw [Function.update_of_ne ht] at ht'
    obtain ⟨hwork, hdone⟩ := h.accepted t' h' ht'
    refine ⟨(List.mem_cons.1 (hw.mem_iff.1 hwork)).resolve_left fun he => ht (Key.ca.inj he), ?_⟩
    rwa [hop t' ht]
  · obtain ⟨t', ht', hc'⟩ := hc
    obtain ⟨hacc', hc₂⟩ := hAcc t' ht'
    exact hsock t' c (hne ht'.1) hacc' (hc₂.symm.trans hc') hnone

/-- The task of an accept has run, and the handle was closed or is now that of the client. -/
theorem Inv.acceptDone [DecidableEq S] (hI : Inv s) {jobs : List (Key O F)}
    (hjobs : s.jobs = .ca t :: jobs) (hdone : (s.op (.ca t)).done = some .accept) :
    ∃ s', acceptDone { s with jobs := jobs } t c = some s' ∧ Ran s s' (.ca t) c := by
  have hw := popped hjobs
  have hnot := (List.nodup_cons.1 (hw.nodup_iff.1 hI.nodup)).1
  have hop : ∀ t', t' ≠ t → Function.update s.op (.ca t)
      { s.op (.ca t) with error := settled (s.op (.ca t)) c } (.ca t') = s.op (.ca t') :=
    fun t' ht' => Function.update_of_ne (fun he => ht' (Key.ca.inj he)) ..
  by_cases he : settled (s.op (.ca t)) c = 0
  · -- The operation was successful, so it was not one that failed early.
    have hpending : (s.op (.ca t)).error = ioPending := by
      by_contra hne
      rw [settled, if_neg hne] at he
      exact hI.nonzero t (hw.mem_iff.2 List.mem_cons_self) he
    have hAcc : Accepting s t := ⟨hw.mem_iff.2 List.mem_cons_self, hdone, hpending⟩
    obtain ⟨client, hclient, hnone, hunique⟩ := hI.client t hAcc
    refine ⟨((({ s with jobs := jobs } : State O F S Φ).setError (.ca t)
      (settled (s.op (.ca t)) c)).setSock client (s.caAcceptSock t)).setAcceptSock t none, ?_, ?_⟩
    · rw [Windows.acceptDone]
      simp [he, State.setError, State.setOp, hclient]
    · refine hI.ran hw rfl (hI.toHandles.finish hw hnot hop rfl rfl ?_ fun t' c ht' hacc' hc hfree => ?_)
        fun h => absurd rfl (h t)
      · rw [handle_setAcceptSock, handle_setSock]
        have hfree : s.handle (.sock client) = none := hnone
        exact hI.custody.hand (p := .accept t) (by simp) hfree
      · refine (Function.update_of_ne ?_ ..).trans hfree
        rintro rfl
        exact ht' (hunique t' hacc' hc)
  · have hclose := hI.closeValid (({ s with jobs := jobs } : State O F S Φ).setError (.ca t)
      (settled (s.op (.ca t)) c)) (.accept t) rfl
    refine ⟨({ ({ s with jobs := jobs } : State O F S Φ).setError (.ca t) (settled (s.op (.ca t)) c) with
      opened := closed s.opened (s.caAcceptSock t) } : State O F S Φ).setAcceptSock t none, ?_, ?_⟩
    · change (if settled (s.op (.ca t)) c ≠ 0 then _ else _) = _
      rw [if_pos he]
      exact congrArg (Option.bind · _) hclose
    · refine hI.ran hw rfl (hI.toHandles.finish hw hnot hop rfl rfl ?_ fun _ _ _ _ _ hfree => hfree)
        fun h => absurd rfl (h t)
      have hclear := hI.custody.clear (.accept t)
      rw [show s.handle (.accept t) = s.caAcceptSock t from rfl, ← coe_closed] at hclear
      rw [handle_setAcceptSock]
      exact hclear

omit [DecidableEq O] [DecidableEq F] in
theorem done_cases (hd : d.For k) : (∃ t, k = .ca t ∧ d = .accept) ∨ (∃ t, k = .ca t ∧ d = .connect) ∨
    (∀ t, k ≠ .ca t) := by
  cases k with
  | ca t =>
    cases d with
    | accept => exact .inl ⟨t, rfl, rfl⟩
    | connect => exact .inr (.inl ⟨t, rfl, rfl⟩)
    | _ => exact hd.elim
  | _ => exact .inr (.inr fun t h => by cases h)

theorem callDone_transfer [DecidableEq S] (hd : d.For k) (hk : ∀ t, k ≠ .ca t) :
    callDone s d k c = some (transferDone s k c) := by
  cases k with
  | ca t => exact absurd rfl (hk t)
  | _ =>
    cases d <;> first
      | exact hd.elim
      | rfl

/-- The run queue calls back. -/
theorem Inv.run [DecidableEq S] (hI : Inv s) (hjobs : s.jobs ≠ []) :
    ∃ s' k jobs f, s.jobs = k :: jobs ∧ (s.op k).func = some f ∧ runOne s c = some s' ∧ Ran s s' k c := by
  cases hj : s.jobs with
  | nil => exact absurd hj hjobs
  | cons k jobs =>
    have hbusy : k ∈ s.work := (popped hj).mem_iff.2 List.mem_cons_self
    obtain ⟨d, f, hdone, hfunc, hd⟩ := hI.ready k (hI.busy k hbusy)
    have hcall : ∃ s', callDone { s with jobs := jobs } d k c = some s' ∧ Ran s s' k c := by
      rcases done_cases hd with ⟨t, rfl, rfl⟩ | ⟨t, rfl, rfl⟩ | hk
      · exact hI.acceptDone hj hdone
      · exact ⟨_, rfl, hI.connectDone hj hdone⟩
      · exact ⟨_, callDone_transfer hd hk, hI.transferDone hj hk⟩
    obtain ⟨s', e, hran⟩ := hcall
    refine ⟨s', k, jobs, f, rfl, hfunc, ?_, hran⟩
    rw [runOne, hj]
    simp [hdone, e, hran.func, hfunc]

end system

/-! ## What clients see -/

/-- An operation is started, with what its caller knows at once, or called back, with what the system
    said of it and what the callback finds. -/
inductive Event (O F Φ : Type)
  | start (k : Key O F) (f : Φ) (early : Option (ℕ × ℕ))
  | callback (k : Key O F) (f : Φ) (c : Completion) (error size : ℕ)

def seen (s s' : State O F S Φ) : Act O F S Φ → Option (Event O F Φ)
  | .accept t _ f cr ans | .connect t f cr ans => some (.start (.ca t) f (cr.early ans))
  | .send t f ans => some (.start (.send t) f ans.earlySock)
  | .recv t f ans => some (.start (.recv t) f ans.earlySock)
  | .read a f ans => some (.start (.read a) f ans.earlyFile)
  | .write a f ans => some (.start (.write a) f ans.earlyFile)
  | .run c =>
    match s.jobs with
    | [] => none
    | k :: _ => (s'.op k).func.map fun f => .callback k f c (s'.op k).error (s'.op k).size
  | .close _ | .listen _ _ | .complete _ | .notify | .iterate => none

/-- An operation that is started is called back before it is started again, by its own callback, which
    finds what was known at once or else what the system says. -/
inductive Promise : (Key O F → Option (Φ × Option (ℕ × ℕ))) → Option (Event O F Φ) →
    (Key O F → Option (Φ × Option (ℕ × ℕ))) → Prop
  | start {out k f early} (h : out k = none) :
    Promise out (some (.start k f early)) (Function.update out k (some (f, early)))
  | callback {out k f early c error size} (h : out k = some (f, early))
    (herror : error = (early.getD c.outcome).1)
    (hsize : (∀ t, k ≠ .ca t) → size = (early.getD c.outcome).2) :
    Promise out (some (.callback k f c error size)) (Function.update out k none)
  | other {out} : Promise out none out

variable [DecidableEq S]

/-- A step of the calls that work. -/
def Does (s : State O F S Φ) (e : Option (Event O F Φ)) (s' : State O F S Φ) : Prop :=
  ∃ a, Legal s a ∧ Exact s a ∧ step s a = some s' ∧ seen s s' a = e

omit [DecidableEq S] in
theorem not_busy (hk : k ∉ s.work) : s.outstanding k = none := if_neg hk

omit [DecidableEq S] in
/-- The operation that is called back was outstanding. -/
theorem Ran.promise (h : Ran s s' k c) (hbusy : k ∈ s.work) (hf : (s.op k).func = some f) :
    Promise s.outstanding (some (.callback k f c (s'.op k).error (s'.op k).size)) s'.outstanding := by
  rw [h.outstanding]
  refine .callback ?_ h.error h.size
  rw [State.outstanding, if_pos hbusy, hf]
  rfl

/-- The invariant is preserved, and the promise is kept. -/
theorem Inv.exec {a : Act O F S Φ} (hI : Inv s) (hl : Legal s a) (hx : Exact s a) :
    ∃ s', step s a = some s' ∧ Inv s' ∧ Promise s.outstanding (seen s s' a) s'.outstanding := by
  -- A call that starts an operation, and a step that is not seen.
  have starts : ∀ {x : Option (State O F S Φ)} {k : Key O F} {f : Φ} {early : Option (ℕ × ℕ)}
      {e : State O F S Φ → Option (Event O F Φ)}, (∀ s', e s' = some (.start k f early)) → k ∉ s.work →
      (∃ s', x = some s' ∧ Inv s' ∧
        s'.outstanding = Function.update s.outstanding k (some (f, early))) →
      ∃ s', x = some s' ∧ Inv s' ∧ Promise s.outstanding (e s') s'.outstanding := by
    rintro x k f early e he hk ⟨s', hs', hI', hout⟩
    refine ⟨s', hs', hI', ?_⟩
    rw [he, hout]
    exact .start (not_busy hk)
  have moves : ∀ {x : Option (State O F S Φ)} {e : State O F S Φ → Option (Event O F Φ)},
      (∀ s', e s' = none) → (∃ s', x = some s' ∧ Inv s' ∧ s'.outstanding = s.outstanding) →
      ∃ s', x = some s' ∧ Inv s' ∧ Promise s.outstanding (e s') s'.outstanding := by
    rintro x e he ⟨s', hs', hI', hout⟩
    refine ⟨s', hs', hI', ?_⟩
    rw [he, hout]
    exact .other
  cases a with
  | close t => exact moves (fun _ => rfl) hI.close
  | listen t cr => exact moves (fun _ => rfl) (hI.listen hl.1 hl.2 hx)
  | accept t client f cr ans =>
    obtain ⟨hk, hsock, hnew, hcr, hans⟩ := hl
    exact starts (fun _ => rfl) hk (hI.accept hk hsock hnew hcr hans)
  | connect t f cr ans =>
    obtain ⟨hk, hnew, hcr, hans⟩ := hl
    exact starts (fun _ => rfl) hk (hI.connect hk hnew hcr hans hx)
  | send t f ans =>
    exact starts (fun _ => rfl) hl.1 (hI.transferSock hl.1 trivial (fun _ h => by cases h) hl.2)
  | recv t f ans =>
    exact starts (fun _ => rfl) hl.1 (hI.transferSock hl.1 trivial (fun _ h => by cases h) hl.2)
  | read a f ans =>
    exact starts (fun _ => rfl) hl.1 (hI.transferFile hl.1 trivial (fun _ h => by cases h) hl.2 hx)
  | write a f ans =>
    exact starts (fun _ => rfl) hl.1 (hI.transferFile hl.1 trivial (fun _ h => by cases h) hl.2 hx)
  | complete k => exact moves (fun _ => rfl) (hI.complete hl)
  | notify => exact moves (fun _ => rfl) ⟨_, rfl, hI.notify⟩
  | iterate => exact moves (fun _ => rfl) (hI.iterate hl)
  | run c =>
    obtain ⟨s', k, jobs, f, hjobs, hfunc, e, hran⟩ := hI.run (c := c) hl
    refine ⟨s', e, hran.inv, ?_⟩
    have hseen : seen s s' (.run c) = some (.callback k f c (s'.op k).error (s'.op k).size) := by
      rw [seen, hjobs]
      simp [hran.func, hfunc]
    rw [hseen]
    exact hran.promise ((popped hjobs).mem_iff.2 List.mem_cons_self) hfunc

omit [DecidableEq O] [DecidableEq F] [DecidableEq S] in
theorem inv_init : Inv (State.init : State O F S Φ) where
  nodup := List.nodup_nil
  ready _ h := by cases h
  busy _ h := by cases h
  nonzero _ h := by cases h
  custody := by
    have h : Custody (fun p => {h | (State.init : State O F S Φ).handle p = some h}) ∅ :=
      Custody.empty fun p => by
        ext h
        cases p <;> simp [State.handle, State.init]
    have hnone : {h | h ∈ (State.init : State O F S Φ).opened} = ∅ := by
      ext h
      simp [State.init]
    rwa [hnone]
  accepted _ _ h := by cases h
  client _ h := by cases h.1

theorem Inv.labelled {es : List (Option (Event O F Φ))} (hr : Labelled Does State.init es s) :
    Inv s ∧ Labelled Promise (State.init : State O F S Φ).outstanding es s.outstanding := by
  refine hr.image (I := Inv) inv_init State.outstanding fun {s e s'} hI h => ?_
  obtain ⟨a, hl, hx, hstep, rfl⟩ := h
  obtain ⟨s₁, e₁, hI₁, hp⟩ := hI.exec hl hx
  obtain rfl := Option.some.inj (hstep.symm.trans e₁)
  exact ⟨hI₁, hp⟩

/-- A socket is connected. -/
theorem labelled_connect : ∃ s : State Unit Unit ℕ ℕ, Labelled Does State.init
    [some (.start (.ca ()) 7 none), none, none, some (.callback (.ca ()) 7 ⟨0, 0⟩ 0 0)] s ∧
      s.sock () = some 3 := by
  have hnew : ¬IsClient (State.init : State Unit Unit ℕ ℕ) () := by
    rintro ⟨t, ⟨h, -⟩, -⟩
    cases h
  have hcr : (Created.created 3 none).Legal fun h =>
      h ∈ (State.init : State Unit Unit ℕ ℕ).opened →
        (State.init : State Unit Unit ℕ ℕ).sock () = some h :=
    ⟨fun h => absurd h (by decide), fun e he => by cases he⟩
  have h₁ : Labelled Does (State.init : State Unit Unit ℕ ℕ) ([] ++ [some (.start (.ca ()) 7 none)]) _ :=
    .snoc .nil ⟨.connect () 7 (.created 3 none) (.failed ioPending),
      ⟨by decide, hnew, hcr, show ioPending ≠ 0 by decide⟩, fun h => h.elim, rfl, rfl⟩
  have h₂ := h₁.snoc (a := none) ⟨.complete (.ca ()), List.mem_singleton_self _, trivial, rfl, rfl⟩
  have h₃ := h₂.snoc (a := none) ⟨.iterate, List.cons_ne_nil _ _, trivial, rfl, rfl⟩
  have h₄ := h₃.snoc ⟨.run ⟨0, 0⟩, List.cons_ne_nil _ _, trivial, rfl, rfl⟩
  exact ⟨_, h₄, rfl⟩

/-- In every run of the calls that work, each operation that is started is called back exactly once
before it is started again, by its own callback and with its own result, and no step goes wrong; and an
`asock_connect` that fails early will call back what was to be called back before it. -/
theorem run_promise {es : List (Option (Event O F Φ))} (hr : Labelled Does State.init es s) :
    Labelled Promise (fun _ => none) es s.outstanding ∧
      (∀ a, Legal s a → Exact s a → ∃ s', step s a = some s') ∧
      ∀ t f cr ans, Legal s (.connect t f cr ans) → cr.Fails → ∃ s',
        step s (.connect t f cr ans) = some s' ∧ .ca t ∈ s'.work ∧
        (s'.op (.ca t)).func = (s.op (.ca t)).func := by
  obtain ⟨hI, hp⟩ := Inv.labelled hr
  refine ⟨hp, fun a hl hx => ?_, fun t f cr ans hl hfails => ?_⟩
  · obtain ⟨s', e, -⟩ := hI.exec hl hx
    exact ⟨s', e⟩
  · obtain ⟨hk, -, hcr, -⟩ := hl
    obtain ⟨s', e, e', -, -, hs, -⟩ := asockConnect_fails f ans hI hk hcr hfails
    refine ⟨s', e', hs.work.mem_iff.2 List.mem_cons_self, ?_⟩
    rw [hs.op, Function.update_self]

theorem run_promise_connect : ∃ s : State Unit Unit ℕ ℕ, s.sock () = some 3 ∧
    Labelled Promise (fun _ => none)
        [some (.start (.ca ()) 7 none), none, none, some (.callback (.ca ()) 7 ⟨0, 0⟩ 0 0)]
        s.outstanding ∧
      (∀ a, Legal s a → Exact s a → ∃ s', step s a = some s') ∧
      ∀ t f cr ans, Legal s (.connect t f cr ans) → cr.Fails → ∃ s',
        step s (.connect t f cr ans) = some s' ∧ .ca t ∈ s'.work ∧
        (s'.op (.ca t)).func = (s.op (.ca t)).func := by
  obtain ⟨s, hr, hsock⟩ := labelled_connect
  exact ⟨s, hsock, run_promise hr⟩

end Dlb.Windows
