import Mathlib.Data.List.Perm.Basic
import Mathlib.Data.List.Nodup
import Mathlib.Tactic.Common
import Dlb.Custody
import Dlb.Windows.Code

/-!
# Where the operations and handles are

An operation that is started is in one place until it is called back: the system has it, or its packet
is in the port, or its task is in the run queue. The handle of a socket is in one place too.

* `Inv`: the invariant, with `Tasks` for the operations and `Handles` for the handles;
* `Inv.transfer`, `Inv.accept`, `Inv.connect`, `Inv.listen`, `Inv.close`: the calls.
-/

namespace Dlb.Windows

variable {O F S Φ : Type} [DecidableEq O] [DecidableEq F] {s s' : State O F S Φ}
  {k : Key O F} {t t' client : O} {f : Φ} {h : S} {e n : ℕ} {op : Op Φ} {d : Done} {c : Completion}
  {ans : Start} {cr : Created S}

/-! ## Starting an operation -/

/-- What a call knows at once of the operation of a socket that it has started. -/
def Start.earlySock : Start → Option (ℕ × ℕ)
  | .done .. => none
  | .failed e => if e = ioPending then none else some (e, 0)

def Start.earlyFile : Start → Option (ℕ × ℕ)
  | .done _ n => some (0, n)
  | .failed e => if e = ioPending then none else some (e, 0)

/-- The same for `asock_accept` and `asock_connect`. -/
def Created.early (ans : Start) : Created S → Option (ℕ × ℕ)
  | .refused e | .created _ (some e) => some (e, 0)
  | .created _ none => ans.earlySock

/-- The operation `k` is outstanding from now on, and it is `op`. -/
structure Queued (s s' : State O F S Φ) (k : Key O F) (op : Op Φ) : Prop where
  work : s'.work.Perm (k :: s.work)
  op : s'.op = Function.update s.op k op

/-- Nothing else has changed. -/
structure Started (s s' : State O F S Φ) (k : Key O F) (op : Op Φ) : Prop extends Queued s s' k op where
  sock : s'.sock = s.sock
  caClient : s'.caClient = s.caClient
  caAcceptSock : s'.caAcceptSock = s.caAcceptSock
  opened : s'.opened = s.opened

theorem ovlTrigger_spec (hk : k ∉ s.work) : ∃ s', ioqOvlTrigger s k = some s' ∧ Started s s' k (s.op k) := by
  have hjobs : k ∉ s.jobs := fun h => hk (by simp [State.work, h])
  refine ⟨_, if_neg hjobs, ⟨?_, (Function.update_eq_self k s.op).symm⟩, rfl, rfl, rfl, rfl⟩
  simp only [State.work, ← List.append_assoc]
  exact List.perm_append_singleton k _

theorem failSock_spec (hk : k ∉ s.work) :
    ∃ s', failSock s k e = some s' ∧ Started s s' k { s.op k with error := e } := by
  obtain ⟨s', e', h⟩ := ovlTrigger_spec (s := s.setError k e) hk
  refine ⟨s', e', ⟨h.work, ?_⟩, h.sock, h.caClient, h.caAcceptSock, h.opened⟩
  rw [h.op]
  simp [State.setError, State.setOp]

/-- An operation of which `early` is known. -/
def Op.known (op : Op Φ) : Option (ℕ × ℕ) → Op Φ
  | none => op
  | some (e, n) => { op with error := e, size := if e = 0 then n else op.size }

theorem startSock_spec (hk : k ∉ s.work) (hans : ans.OfSock) :
    ∃ s', startSock s k ans = some s' ∧ Started s s' k ((s.op k).known ans.earlySock) := by
  cases ans with
  | done posted n =>
    obtain rfl : posted = true := hans
    refine ⟨_, rfl, ⟨?_, (Function.update_eq_self k s.op).symm⟩, rfl, rfl, rfl, rfl⟩
    simp only [State.work, submit, if_true, List.reduceOption_append, List.reduceOption_singleton,
      Option.toList_some, List.append_assoc, List.singleton_append]
    rw [← List.append_assoc, ← List.append_assoc]
    exact List.perm_middle
  | failed e =>
    by_cases he : e = ioPending
    · subst he
      refine ⟨_, rfl, ⟨?_, ?_⟩, rfl, rfl, rfl, rfl⟩
      · simp [State.work, submit]
      · simp [Start.earlySock, Op.known, submit]
    · obtain ⟨s', e', h⟩ := failSock_spec (e := e) hk
      refine ⟨s', ?_, ?_⟩
      · simpa [startSock, submit, he, failSock] using e'
      · have he₀ : e ≠ 0 := hans
        simpa [Start.earlySock, Op.known, he, he₀] using h

theorem startFile_spec (hk : k ∉ s.work) (hans : ans.OfFile) (hposted : ans.Unposted) :
    ∃ s', startFile s k ans = some s' ∧ Started s s' k ((s.op k).known ans.earlyFile) := by
  cases ans with
  | done posted n =>
    obtain rfl : posted = false := hposted
    obtain ⟨s', e', h⟩ := ovlTrigger_spec (s := s.setOp k { s.op k with error := 0, size := n }) hk
    refine ⟨s', e', ⟨h.work, ?_⟩, h.sock, h.caClient, h.caAcceptSock, h.opened⟩
    rw [h.op]
    simp [State.setOp, Start.earlyFile, Op.known]
  | failed e =>
    have hsock : (Start.failed e).OfSock := hans
    obtain ⟨s', e', h⟩ := startSock_spec hk hsock
    exact ⟨s', e', h⟩

/-! ## Tasks -/

/-- The function belongs to the operation. -/
def Done.For : Done → Key O F → Prop
  | .accept, .ca _ | .connect, .ca _ | .send, .send _ | .recv, .recv _ | .read, .read _ |
    .write, .write _ => True
  | _, _ => False

/-- The callback and the task of the operation are set. -/
def Op.Ready (op : Op Φ) (k : Key O F) : Prop := ∃ d f, op.done = some d ∧ op.func = some f ∧ d.For k

/-- The operation is started, and will be called back by `f`. -/
structure Op.Begun (op : Op Φ) (k : Key O F) (f : Φ) (early : Option (ℕ × ℕ)) : Prop where
  func : op.func = some f
  ready : op.Ready k
  nonzero : op.error ≠ 0 ∨ ∀ t, k ≠ .ca t
  known : op.early = early

/-- An operation is in one place until it is called back. -/
structure Tasks (s : State O F S Φ) : Prop where
  nodup : s.work.Nodup
  ready : ∀ k, (s.op k).func.isSome → (s.op k).Ready k
  busy : ∀ k ∈ s.work, (s.op k).func.isSome
  nonzero : ∀ t, .ca t ∈ s.work → (s.op (.ca t)).error ≠ 0

theorem Tasks.start {early : Option (ℕ × ℕ)} (h : Tasks s) (hs : Queued s s' k op) (hk : k ∉ s.work)
    (hop : op.Begun k f early) :
    Tasks s' ∧ s'.outstanding = Function.update s.outstanding k (some (f, early)) := by
  have hmem : ∀ j, j ∈ s'.work ↔ j = k ∨ j ∈ s.work := fun j => by
    rw [hs.work.mem_iff, List.mem_cons]
  have hne : ∀ j ∈ s.work, s'.op j = s.op j := fun j hj => by
    rw [hs.op, Function.update_of_ne]
    rintro rfl
    exact hk hj
  have hself : s'.op k = op := by rw [hs.op, Function.update_self]
  refine ⟨⟨?_, fun j hj => ?_, fun j hj => ?_, fun t ht => ?_⟩, funext fun j => ?_⟩
  · exact hs.work.nodup_iff.2 (List.nodup_cons.2 ⟨hk, h.nodup⟩)
  · by_cases hjk : j = k
    · subst hjk
      rw [hself]
      exact hop.ready
    · rw [hs.op, Function.update_of_ne hjk] at hj ⊢
      exact h.ready j hj
  · rcases (hmem j).1 hj with rfl | hj
    · rw [hself, hop.func]
      rfl
    · rw [hne j hj]
      exact h.busy j hj
  · rcases (hmem _).1 ht with rfl | ht
    · rw [hself]
      exact hop.nonzero.resolve_right fun h' => h' t rfl
    · rw [hne _ ht]
      exact h.nonzero t ht
  · by_cases hjk : j = k
    · subst hjk
      rw [State.outstanding, if_pos ((hmem j).2 (.inl rfl)), hself, hop.func, ← hop.known,
        Function.update_self]
      rfl
    · have hiff : j ∈ s'.work ↔ j ∈ s.work := (hmem j).trans (or_iff_right hjk)
      simp only [State.outstanding, hiff, hs.op, Function.update_of_ne hjk]

/-- Operations go from one place to another. -/
theorem Tasks.move (h : Tasks s) (hw : s'.work.Perm s.work) (hop : s'.op = s.op) :
    Tasks s' ∧ s'.outstanding = s.outstanding := by
  refine ⟨⟨hw.nodup_iff.2 h.nodup, ?_, fun k hk => ?_, fun t ht => ?_⟩, funext fun k => ?_⟩
  · rw [hop]
    exact h.ready
  · rw [hop]
    exact h.busy k (hw.mem_iff.1 hk)
  · rw [hop]
    exact h.nonzero t (hw.mem_iff.1 ht)
  · simp only [State.outstanding, hw.mem_iff, hop]

/-- The error of an operation changes that is not outstanding. -/
theorem Tasks.setError (h : Tasks s) (hk : k ∉ s.work) :
    Tasks (s.setError k e) ∧ (s.setError k e).outstanding = s.outstanding := by
  have hne : ∀ j ∈ s.work, (s.setError k e).op j = s.op j := fun j hj => by
    refine Function.update_of_ne ?_ ..
    rintro rfl
    exact hk hj
  refine ⟨⟨h.nodup, fun j hj => ?_, fun j hj => ?_, fun t ht => ?_⟩, funext fun j => ?_⟩
  · by_cases hjk : j = k
    · subst hjk
      simpa [State.setError, State.setOp, Op.Ready] using
        h.ready j (by simpa [State.setError, State.setOp] using hj)
    · simp only [State.setError, State.setOp, Function.update_of_ne hjk] at hj ⊢
      exact h.ready j hj
  · rw [hne j hj]
    exact h.busy j hj
  · rw [hne _ ht]
    exact h.nonzero t ht
  · by_cases hj : j ∈ s.work
    · rw [State.outstanding, State.outstanding, hne j hj]
      rfl
    · rw [State.outstanding, State.outstanding, if_neg hj]
      exact if_neg hj

/-- The task of an operation has run. -/
theorem Tasks.finish (h : Tasks s) (hw : s.work.Perm (k :: s'.work))
    (hop : s'.op = Function.update s.op k op) (hdone : op.done = (s.op k).done)
    (hfunc : op.func = (s.op k).func) :
    Tasks s' ∧ s'.outstanding = Function.update s.outstanding k none := by
  have hnodup := List.nodup_cons.1 (hw.nodup_iff.1 h.nodup)
  have hne : ∀ j ∈ s'.work, s'.op j = s.op j := fun j hj => by
    rw [hop, Function.update_of_ne]
    rintro rfl
    exact hnodup.1 hj
  have hmem : ∀ j ∈ s'.work, j ∈ s.work := fun j hj => hw.mem_iff.2 (List.mem_cons_of_mem k hj)
  refine ⟨⟨hnodup.2, fun j hj => ?_, fun j hj => ?_, fun t ht => ?_⟩, funext fun j => ?_⟩
  · by_cases hjk : j = k
    · subst hjk
      rw [hop, Function.update_self] at hj ⊢
      rw [Op.Ready, hdone, hfunc]
      exact h.ready j (by rwa [← hfunc])
    · rw [hop, Function.update_of_ne hjk] at hj ⊢
      exact h.ready j hj
  · rw [hne j hj]
    exact h.busy j (hmem j hj)
  · rw [hne _ ht]
    exact h.nonzero t (hmem _ ht)
  · by_cases hjk : j = k
    · subst hjk
      rw [State.outstanding, if_neg hnodup.1, Function.update_self]
    · have hiff : j ∈ s'.work ↔ j ∈ s.work := by
        rw [hw.mem_iff, List.mem_cons, or_iff_right hjk]
      simp only [State.outstanding, hiff, hop, Function.update_of_ne hjk]

/-! ## Handles -/

section handles

variable [DecidableEq S] {A : Finset S} {x : Option S}

/-- Where the handle of a socket is. -/
inductive Place (O : Type)
  | sock (t : O)
  | accept (t : O)
  deriving DecidableEq

def State.handle (s : State O F S Φ) : Place O → Option S
  | .sock t => s.sock t
  | .accept t => s.caAcceptSock t

/-- Every handle that is open is in one place; one that is being accepted belongs to an accept that is
    outstanding, and will be given to a socket that has none. -/
structure Handles (s : State O F S Φ) : Prop where
  custody : Custody (fun p => {h | s.handle p = some h}) {h | h ∈ s.opened}
  accepted : ∀ t h, s.caAcceptSock t = some h → .ca t ∈ s.work ∧ (s.op (.ca t)).done = some .accept
  client : ∀ t, Accepting s t → ∃ client, s.caClient t = some client ∧ s.sock client = none ∧
    ∀ t', Accepting s t' → s.caClient t' = some client → t' = t

omit [DecidableEq F] [DecidableEq S] in
theorem handle_sock (hsock : s'.sock = Function.update s.sock t x)
    (hacc : s'.caAcceptSock = s.caAcceptSock) : s'.handle = Function.update s.handle (.sock t) x := by
  funext p
  cases p with
  | sock t' => by_cases ht : t' = t <;> simp [State.handle, hsock, ht]
  | accept t' => simp [State.handle, hacc]

omit [DecidableEq F] [DecidableEq S] in
theorem handle_accept (hsock : s'.sock = s.sock)
    (hacc : s'.caAcceptSock = Function.update s.caAcceptSock t x) :
    s'.handle = Function.update s.handle (.accept t) x := by
  funext p
  cases p with
  | sock t' => simp [State.handle, hsock]
  | accept t' => by_cases ht : t' = t <;> simp [State.handle, hacc, ht]

omit [DecidableEq F] [DecidableEq S] in
theorem handle_setSock : (s.setSock t x).handle = Function.update s.handle (.sock t) x :=
  handle_sock rfl rfl

omit [DecidableEq F] [DecidableEq S] in
theorem handle_setAcceptSock :
    (s.setAcceptSock t x).handle = Function.update s.handle (.accept t) x := handle_accept rfl rfl

/-- The handles that are open after a valid one was closed. -/
def closed (A : Finset S) : Option S → Finset S
  | none => A
  | some h => A.erase h

theorem coe_closed : {h | h ∈ closed A x} = {h | h ∈ A} \ {h | x = some h} := by
  cases x with
  | none => simp [closed]
  | some h =>
    ext h'
    simp [closed, and_comm, eq_comm]

omit [DecidableEq O] [DecidableEq F] in
theorem Handles.closeValid (h : Handles s) (s' : State O F S Φ) (p : Place O)
    (hopened : s'.opened = s.opened) :
    closeValid s' (s.handle p) = some { s' with opened := closed s.opened (s.handle p) } := by
  rw [← hopened]
  cases e : s.handle p with
  | none => rfl
  | some h' =>
    refine if_pos ?_
    rw [hopened]
    exact h.custody.subset p e

omit [DecidableEq O] [DecidableEq F] in
theorem Handles.closeValid_sock (h : Handles s) (t : O) :
    Windows.closeValid s (s.sock t) = some { s with opened := closed s.opened (s.sock t) } :=
  h.closeValid s (.sock t) rfl

/-- The new handle. -/
def Created.handle : Created S → Option S
  | .refused _ => none
  | .created h _ => some h

def Created.opened (A : Finset S) : Created S → Finset S
  | .refused _ => A
  | .created h _ => insert h A

omit [DecidableEq F] in
/-- A new handle is put in an empty place. -/
theorem custody_open {g : Place O → Option S} {p : Place O}
    (h : Custody (fun p => {h | g p = some h}) {h | h ∈ A}) (hp : g p = none)
    (hcr : cr.Legal (· ∉ A)) :
    Custody (fun q => {h | Function.update g p cr.handle q = some h}) {h | h ∈ cr.opened A} := by
  cases cr with
  | refused e => rwa [Created.handle, ← hp, Function.update_eq_self]
  | created h' e =>
    have hset : {h | h ∈ (Created.created h' e).opened A} = insert h' {h | h ∈ A} := by
      ext h''
      simp [Created.opened]
    rw [hset]
    exact h.put hp hcr.1

omit [DecidableEq F] in
/-- The socket `t` gets a new handle instead of the one that it has. -/
theorem Handles.custody_replace (h : Handles s)
    (hcr : cr.Legal fun h => h ∈ s.opened → s.sock t = some h) :
    Custody (fun p => {h | Function.update s.handle (.sock t) cr.handle p = some h})
      {h | h ∈ cr.opened (closed s.opened (s.sock t))} := by
  have hclear := h.custody.clear (.sock t)
  rw [show s.handle (.sock t) = s.sock t from rfl, ← coe_closed] at hclear
  have hnew : cr.Legal (· ∉ closed s.opened (s.sock t)) := by
    cases cr with
    | refused e => exact hcr
    | created h' e =>
      refine ⟨fun hmem => ?_, hcr.2⟩
      have hmem' : h' ∈ {x | x ∈ s.opened} \ {x | s.sock t = some x} := by
        rw [← coe_closed]
        exact hmem
      exact hmem'.2 (hcr.1 hmem'.1)
  simpa using custody_open hclear (Function.update_self ..) hnew

omit [DecidableEq O] [DecidableEq F] [DecidableEq S] in
/-- What a step does not change of the sockets that are being accepted. -/
theorem Handles.next (h : Handles s)
    (hcustody : Custody (fun p => {h | s'.handle p = some h}) {h | h ∈ s'.opened})
    (haccepted : ∀ t h, s'.caAcceptSock t = some h →
      .ca t ∈ s'.work ∧ (s'.op (.ca t)).done = some .accept)
    (hAcc : ∀ t, Accepting s' t → Accepting s t ∧ s'.caClient t = s.caClient t)
    (hsock : ∀ c, IsClient s' c → s.sock c = none → s'.sock c = none) : Handles s' where
  custody := hcustody
  accepted := haccepted
  client t ht := by
    obtain ⟨hacc, hc⟩ := hAcc t ht
    obtain ⟨c, hclient, hnone, hunique⟩ := h.client t hacc
    refine ⟨c, hc.trans hclient, hsock c ⟨t, ht, hc.trans hclient⟩ hnone, fun t' ht' hc' => ?_⟩
    obtain ⟨hacc', hc''⟩ := hAcc t' ht'
    exact hunique t' hacc' (hc''.symm.trans hc')

omit [DecidableEq O] [DecidableEq F] [DecidableEq S] in
/-- The handles stay where they are. -/
theorem Handles.frame (h : Handles s) (hsock : s'.sock = s.sock) (hclient : s'.caClient = s.caClient)
    (hacc : s'.caAcceptSock = s.caAcceptSock) (hopened : s'.opened = s.opened)
    (hca : ∀ t, .ca t ∈ s'.work → .ca t ∈ s.work)
    (hstay : ∀ t, .ca t ∈ s.work → (s.op (.ca t)).done = some .accept → .ca t ∈ s'.work)
    (hop : ∀ t, .ca t ∈ s'.work → s'.op (.ca t) = s.op (.ca t)) : Handles s' := by
  have hhandle : s'.handle = s.handle := by
    funext p
    cases p <;> simp [State.handle, hsock, hacc]
  refine h.next ?_ (fun t h' ht => ?_) (fun t ht => ?_) fun c _ hc => by rwa [hsock]
  · rw [hhandle, hopened]
    exact h.custody
  · rw [hacc] at ht
    obtain ⟨hwork, hdone⟩ := h.accepted t h' ht
    have hwork' := hstay t hwork hdone
    exact ⟨hwork', by rwa [hop t hwork']⟩
  · obtain ⟨hwork, hdone, herror⟩ := ht
    rw [hop t hwork] at hdone herror
    exact ⟨⟨hca t hwork, hdone, herror⟩, by rw [hclient]⟩

omit [DecidableEq F] [DecidableEq S] in
/-- The handle of the socket `t` is replaced, which is not being accepted. -/
theorem Handles.replace (h : Handles s) (hnew : x = none ∨ ¬IsClient s t)
    (hcustody : Custody (fun p => {h | s'.handle p = some h}) {h | h ∈ s'.opened})
    (hsock : s'.sock = Function.update s.sock t x) (hclient : s'.caClient = s.caClient)
    (hacc : s'.caAcceptSock = s.caAcceptSock)
    (hop : ∀ t, .ca t ∈ s.work → .ca t ∈ s'.work ∧ s'.op (.ca t) = s.op (.ca t))
    (hAcc : ∀ t, Accepting s' t → .ca t ∈ s.work) : Handles s' := by
  have hold : ∀ t, Accepting s' t → Accepting s t := fun t' ht' => by
    have hwork := hAcc t' ht'
    obtain ⟨-, hdone, herror⟩ := ht'
    rw [(hop t' hwork).2] at hdone herror
    exact ⟨hwork, hdone, herror⟩
  refine h.next hcustody (fun t' h' ht' => ?_) (fun t' ht' => ⟨hold t' ht', by rw [hclient]⟩)
    fun c hc hnone => ?_
  · rw [hacc] at ht'
    obtain ⟨hwork, hdone⟩ := h.accepted t' h' ht'
    exact ⟨(hop t' hwork).1, by rwa [(hop t' hwork).2]⟩
  · rw [hsock]
    by_cases hct : c = t
    · subst hct
      rw [Function.update_self]
      refine hnew.resolve_right fun hno => hno ?_
      obtain ⟨t', ht', hc'⟩ := hc
      exact ⟨t', hold t' ht', by rwa [← hclient]⟩
    · rwa [Function.update_of_ne hct]

end handles

/-! ## The calls -/

section calls

variable {early : Option (ℕ × ℕ)}

/-- What can be known of an operation early. -/
def Known (early : Option (ℕ × ℕ)) : Prop :=
  ∀ e n, early = some (e, n) → e ≠ ioPending ∧ (e ≠ 0 → n = 0)

theorem known_earlySock : Known ans.earlySock := by
  intro e n h
  cases ans with
  | done => cases h
  | failed e' =>
    rw [Start.earlySock] at h
    split_ifs at h with he
    obtain ⟨rfl, rfl⟩ := Prod.mk.inj (Option.some.inj h)
    exact ⟨he, fun _ => rfl⟩

theorem known_earlyFile : Known ans.earlyFile := by
  cases ans with
  | done posted n =>
    intro e n' h
    obtain ⟨rfl, rfl⟩ := Prod.mk.inj (Option.some.inj h)
    exact ⟨by decide, fun h => absurd rfl h⟩
  | failed e =>
    have h : Known (Start.failed e).earlySock := known_earlySock
    exact h

omit [DecidableEq O] [DecidableEq F] in
theorem begun_known (hd : d.For k) (he : Known early)
    (hca : (∀ e n, early = some (e, n) → e ≠ 0) ∨ ∀ t, k ≠ .ca t) :
    ((⟨some d, some f, ioPending, n⟩ : Op Φ).known early).Begun k f early := by
  cases early with
  | none => exact ⟨rfl, ⟨d, f, rfl, rfl, hd⟩, .inl (by simp [Op.known, ioPending]), if_pos rfl⟩
  | some r =>
    obtain ⟨e, n'⟩ := r
    obtain ⟨hpending, hsize⟩ := he e n' rfl
    refine ⟨rfl, ⟨d, f, rfl, rfl, hd⟩, hca.imp (fun h => h e n' rfl) id, (if_neg hpending).trans ?_⟩
    by_cases h0 : e = 0
    · simp [Op.known, h0]
    · simp [Op.known, h0, hsize h0]

theorem prepare_eq : prepare s k d f = s.setOp k ⟨some d, some f, ioPending, (s.op k).size⟩ := by
  simp [prepare, ioqOvlWait, State.setOp]

/-- The invariant. -/
structure Inv (s : State O F S Φ) : Prop extends Tasks s, Handles s

/-- A transfer is started. -/
theorem Inv.transfer (hI : Inv s) (hk : k ∉ s.work) (hd : d.For k) (hca : ∀ t, k ≠ .ca t)
    (he : Known early)
    (hs : Started (prepare s k d f) s' k (((prepare s k d f).op k).known early)) :
    Inv s' ∧ s'.outstanding = Function.update s.outstanding k (some (f, early)) := by
  rw [prepare_eq] at hs
  have hop : s'.op = Function.update s.op k
      ((⟨some d, some f, ioPending, (s.op k).size⟩ : Op Φ).known early) := by
    rw [hs.op]
    simp [State.setOp]
  obtain ⟨hT, hout⟩ := hI.start ⟨hs.work, hop⟩ hk (begun_known hd he (.inr hca))
  have hmem : ∀ t, .ca t ∈ s'.work ↔ .ca t ∈ s.work := fun t => by
    rw [hs.work.mem_iff, List.mem_cons, or_iff_right (hca t).symm]
    rfl
  refine ⟨⟨hT, hI.frame hs.sock hs.caClient hs.caAcceptSock hs.opened (fun t => (hmem t).1)
    (fun t ht _ => (hmem t).2 ht) fun t _ => ?_⟩, hout⟩
  rw [hop, Function.update_of_ne (hca t).symm]

theorem Inv.transferSock (hI : Inv s) (hk : k ∉ s.work) (hd : d.For k) (hca : ∀ t, k ≠ .ca t)
    (hans : ans.OfSock) : ∃ s', startSock (prepare s k d f) k ans = some s' ∧ Inv s' ∧
      s'.outstanding = Function.update s.outstanding k (some (f, ans.earlySock)) := by
  obtain ⟨s', e, hs⟩ := startSock_spec (s := prepare s k d f) hk hans
  exact ⟨s', e, hI.transfer hk hd hca known_earlySock hs⟩

theorem Inv.transferFile (hI : Inv s) (hk : k ∉ s.work) (hd : d.For k) (hca : ∀ t, k ≠ .ca t)
    (hans : ans.OfFile) (hposted : ans.Unposted) :
    ∃ s', startFile (prepare s k d f) k ans = some s' ∧ Inv s' ∧
      s'.outstanding = Function.update s.outstanding k (some (f, ans.earlyFile)) := by
  obtain ⟨s', e, hs⟩ := startFile_spec (s := prepare s k d f) hk hans hposted
  exact ⟨s', e, hI.transfer hk hd hca known_earlyFile hs⟩

/-- A connect or an accept that is prepared fails early. -/
theorem failSock_begun (hk : .ca t ∉ s.work) (hd : d.For (.ca t : Key O F))
    (hop : s.op (.ca t) = ⟨some d, some f, ioPending, n⟩) (he : Real e) :
    ∃ s', failSock s (.ca t) e = some s' ∧ Started s s' (.ca t) ⟨some d, some f, e, n⟩ ∧
      (⟨some d, some f, e, n⟩ : Op Φ).Begun (.ca t : Key O F) f (some (e, 0)) := by
  obtain ⟨s', e', hs⟩ := failSock_spec (e := e) hk
  rw [hop] at hs
  exact ⟨s', e', hs, rfl, ⟨d, f, rfl, rfl, hd⟩, .inl he.1, by simp [Op.early, he.1, he.2]⟩

theorem startSock_begun (hk : .ca t ∉ s.work) (hd : d.For (.ca t : Key O F))
    (hop : s.op (.ca t) = ⟨some d, some f, ioPending, n⟩) (hans : ans.OfSock) :
    ∃ s' op, startSock s (.ca t) ans = some s' ∧ Started s s' (.ca t) op ∧
      op.Begun (.ca t : Key O F) f ans.earlySock ∧ op.done = some d := by
  obtain ⟨s', e', hs⟩ := startSock_spec hk hans
  rw [hop] at hs
  refine ⟨s', _, e', hs, begun_known hd known_earlySock (.inl fun e n h => ?_), ?_⟩
  · cases ans with
    | done => cases h
    | failed e' =>
      rw [Start.earlySock] at h
      split_ifs at h
      obtain ⟨rfl, rfl⟩ := Prod.mk.inj (Option.some.inj h)
      exact hans
  · cases ans.earlySock <;> rfl

variable [DecidableEq S]

theorem asockAccept_spec {free : S → Prop} (hk : .ca t ∉ s.work) (hcr : cr.Legal free)
    (hans : ans.OfSock) : ∃ s' op, asockAccept s t client f cr ans = some s' ∧ Queued s s' (.ca t) op ∧
      op.Begun (.ca t : Key O F) f (cr.early ans) ∧ s'.sock = s.sock ∧
      s'.caClient = Function.update s.caClient t (some client) ∧
      s'.caAcceptSock = Function.update s.caAcceptSock t cr.handle ∧
      s'.opened = cr.opened s.opened ∧ op.done = some .accept := by
  have hset : ∀ op : Op Φ, Function.update (prepare
      { s with caClient := Function.update s.caClient t (some client) } (.ca t) .accept f).op (.ca t) op =
        Function.update s.op (.ca t) op := fun op => by
    simp [prepare_eq, State.setOp]
  have hop : (prepare { s with caClient := Function.update s.caClient t (some client) }
      (.ca t) .accept f).op (.ca t) = ⟨some .accept, some f, ioPending, (s.op (.ca t)).size⟩ := by
    simp [prepare_eq, State.setOp]
  cases cr with
  | refused e =>
    obtain ⟨s', e', hs, hb⟩ := failSock_begun (e := e) (d := .accept)
      (s := (prepare { s with caClient := Function.update s.caClient t (some client) }
        (.ca t) .accept f).setAcceptSock t none) hk trivial hop hcr
    exact ⟨s', _, e', ⟨hs.work, hs.op.trans (hset _)⟩, hb, hs.sock, hs.caClient, hs.caAcceptSock,
      hs.opened, rfl⟩
  | created h err =>
    cases err with
    | some e =>
      obtain ⟨s', e', hs, hb⟩ := failSock_begun (e := e) (d := .accept)
        (s := (wsaSocket (prepare { s with caClient := Function.update s.caClient t (some client) }
          (.ca t) .accept f) h).setAcceptSock t (some h)) hk trivial hop (hcr.2 e rfl)
      exact ⟨s', _, e', ⟨hs.work, hs.op.trans (hset _)⟩, hb, hs.sock, hs.caClient, hs.caAcceptSock,
        hs.opened, rfl⟩
    | none =>
      obtain ⟨s', op, e', hs, hb, hdone⟩ := startSock_begun (d := .accept)
        (s := (wsaSocket (prepare { s with caClient := Function.update s.caClient t (some client) }
          (.ca t) .accept f) h).setAcceptSock t (some h)) hk trivial hop hans
      exact ⟨s', _, e', ⟨hs.work, hs.op.trans (hset _)⟩, hb, hs.sock, hs.caClient, hs.caAcceptSock,
        hs.opened, hdone⟩

/-- An `asock_connect` that fails early replaces the error, but not the callback. -/
theorem asockConnect_fails (f : Φ) (ans : Start) (hI : Inv s) {free : S → Prop}
    (hk : .ca t ∉ s.work) (hcr : cr.Legal free) (hfails : cr.Fails) :
    ∃ s' e, asockConnect s t f cr ans = some s' ∧ Real e ∧ cr.early ans = some (e, 0) ∧
      Queued s s' (.ca t) { s.op (.ca t) with error := e } ∧
      s'.sock = Function.update s.sock t cr.handle ∧ s'.caClient = s.caClient ∧
      s'.caAcceptSock = s.caAcceptSock ∧ s'.opened = cr.opened (closed s.opened (s.sock t)) := by
  rw [asockConnect, hI.closeValid_sock t]
  cases cr with
  | refused e =>
    obtain ⟨s', e', hs⟩ := failSock_spec (e := e)
      (s := ({ s with opened := closed s.opened (s.sock t) } : State O F S Φ).setSock t none) hk
    exact ⟨s', e, e', hcr, rfl, ⟨hs.work, hs.op⟩, hs.sock, hs.caClient, hs.caAcceptSock, hs.opened⟩
  | created h err =>
    cases err with
    | none => exact hfails.elim
    | some e =>
      obtain ⟨s', e', hs⟩ := failSock_spec (e := e) (s := (wsaSocket
        ({ s with opened := closed s.opened (s.sock t) } : State O F S Φ) h).setSock t (some h)) hk
      exact ⟨s', e, e', hcr.2 e rfl, rfl, ⟨hs.work, hs.op⟩, hs.sock, hs.caClient, hs.caAcceptSock,
        hs.opened⟩

theorem asockConnect_spec (hI : Inv s) {free : S → Prop} (hk : .ca t ∉ s.work) (hcr : cr.Legal free)
    (hans : ans.OfSock) (hexact : cr.Fails → (s.op (.ca t)).func = some f) :
    ∃ s' op, asockConnect s t f cr ans = some s' ∧ Queued s s' (.ca t) op ∧
      op.Begun (.ca t : Key O F) f (cr.early ans) ∧ s'.sock = Function.update s.sock t cr.handle ∧
      s'.caClient = s.caClient ∧ s'.caAcceptSock = s.caAcceptSock ∧
      s'.opened = cr.opened (closed s.opened (s.sock t)) ∧
      (op.done = some .accept → op.error ≠ ioPending) := by
  by_cases hfails : cr.Fails
  · obtain ⟨s', e, e', he, hearly, hs, hrest⟩ := asockConnect_fails f ans hI hk hcr hfails
    have hf := hexact hfails
    have hready := hI.ready (.ca t) (by rw [hf]; rfl)
    refine ⟨s', _, e', hs, ⟨hf, hready, .inl he.1, ?_⟩, hrest.1, hrest.2.1, hrest.2.2.1, hrest.2.2.2,
      fun _ => he.2⟩
    simp [hearly, Op.early, he.1, he.2]
  · obtain ⟨h, rfl⟩ : ∃ h, cr = .created h none := by
      cases cr with
      | refused e => exact absurd trivial hfails
      | created h err =>
        cases err with
        | none => exact ⟨h, rfl⟩
        | some e => exact absurd trivial hfails
    rw [asockConnect, hI.closeValid_sock t]
    obtain ⟨s', op, e', hs, hb, hdone⟩ := startSock_begun (d := .connect) (f := f)
      (n := (s.op (.ca t)).size) (s := prepare ((wsaSocket
        ({ s with opened := closed s.opened (s.sock t) } : State O F S Φ) h).setSock t (some h))
          (.ca t) .connect f) hk trivial (by simp [prepare_eq, State.setOp, State.setSock, wsaSocket])
      hans
    refine ⟨s', op, e', ⟨hs.work, hs.op.trans ?_⟩, hb, hs.sock, hs.caClient, hs.caAcceptSock,
      hs.opened, fun h => ?_⟩
    · simp [prepare_eq, State.setOp, State.setSock, wsaSocket]
    · rw [hdone] at h
      cases h

theorem Inv.connect (hI : Inv s) (hk : .ca t ∉ s.work) (hnew : ¬IsClient s t)
    (hcr : cr.Legal fun h => h ∈ s.opened → s.sock t = some h) (hans : ans.OfSock)
    (hexact : cr.Fails → (s.op (.ca t)).func = some f) :
    ∃ s', asockConnect s t f cr ans = some s' ∧ Inv s' ∧
      s'.outstanding = Function.update s.outstanding (.ca t) (some (f, cr.early ans)) := by
  obtain ⟨s', op, e, hs, hb, hsock, hclient, hacc, hopened, hdone⟩ :=
    asockConnect_spec hI hk hcr hans hexact
  obtain ⟨hT, hout⟩ := hI.start hs hk hb
  have hne : ∀ t', .ca t' ∈ s.work → (.ca t' : Key O F) ≠ .ca t := fun t' ht' he => hk (he ▸ ht')
  refine ⟨s', e, ⟨hT, hI.replace (.inr hnew) ?_ hsock hclient hacc (fun t' ht' => ⟨?_, ?_⟩)
    fun t' ht' => ?_⟩, hout⟩
  · rw [handle_sock hsock hacc, hopened]
    exact hI.custody_replace hcr
  · exact hs.work.mem_iff.2 (List.mem_cons_of_mem _ ht')
  · rw [hs.op, Function.update_of_ne (hne t' ht')]
  · obtain ⟨hwork, hdone', herror⟩ := ht'
    refine (List.mem_cons.1 (hs.work.mem_iff.1 hwork)).resolve_left fun he => ?_
    rw [he, hs.op, Function.update_self] at hdone' herror
    exact hdone hdone' herror

omit [DecidableEq F] in
theorem asockClose_spec (hI : Inv s) : ∃ s', asockClose s t = some s' ∧
    s'.sock = Function.update s.sock t none ∧ s'.caClient = s.caClient ∧
    s'.caAcceptSock = s.caAcceptSock ∧ s'.opened = closed s.opened (s.sock t) ∧ s'.work = s.work ∧
    s'.op = s.op := by
  rw [asockClose, hI.closeValid_sock t]
  exact ⟨_, rfl, rfl, rfl, rfl, rfl, rfl, rfl⟩

theorem Inv.close (hI : Inv s) : ∃ s', asockClose s t = some s' ∧ Inv s' ∧
    s'.outstanding = s.outstanding := by
  obtain ⟨s', e, hsock, hclient, hacc, hopened, hwork, hop⟩ := asockClose_spec (t := t) hI
  obtain ⟨hT, hout⟩ := hI.toTasks.move (.of_eq hwork) hop
  refine ⟨s', e, ⟨hT, hI.replace (.inl rfl) ?_ hsock hclient hacc (fun t' ht' => ⟨?_, ?_⟩)
    fun t' ht' => ?_⟩, hout⟩
  · rw [handle_sock hsock hacc, hopened, coe_closed]
    exact hI.custody.clear (.sock t)
  · rwa [hwork]
  · rw [hop]
  · rw [← hwork]
    exact ht'.1

theorem asockListen_spec (hI : Inv s) (hexact : cr.Fails → .ca t ∉ s.work) :
    ∃ s', asockListen s t cr = some s' ∧ s'.sock = Function.update s.sock t cr.handle ∧
      s'.caClient = s.caClient ∧ s'.caAcceptSock = s.caAcceptSock ∧
      s'.opened = cr.opened (closed s.opened (s.sock t)) ∧ s'.work = s.work ∧
      (s'.op = s.op ∨ .ca t ∉ s.work ∧ ∃ e, s'.op = (s.setError (.ca t) e).op) := by
  rw [asockListen, hI.closeValid_sock t]
  cases cr with
  | refused e => exact ⟨_, rfl, rfl, rfl, rfl, rfl, rfl, .inr ⟨hexact trivial, e, rfl⟩⟩
  | created h err =>
    cases err with
    | some e => exact ⟨_, rfl, rfl, rfl, rfl, rfl, rfl, .inr ⟨hexact trivial, e, rfl⟩⟩
    | none => exact ⟨_, rfl, rfl, rfl, rfl, rfl, rfl, .inl rfl⟩

theorem Inv.listen (hI : Inv s) (hnew : ¬IsClient s t)
    (hcr : cr.Legal fun h => h ∈ s.opened → s.sock t = some h) (hexact : cr.Fails → .ca t ∉ s.work) :
    ∃ s', asockListen s t cr = some s' ∧ Inv s' ∧ s'.outstanding = s.outstanding := by
  obtain ⟨s', e, hsock, hclient, hacc, hopened, hwork, hop⟩ := asockListen_spec hI hexact
  have hT : Tasks s' ∧ s'.outstanding = s.outstanding := by
    rcases hop with hop | ⟨hk, e, hop⟩
    · exact hI.toTasks.move (.of_eq hwork) hop
    · obtain ⟨hT, hout⟩ := hI.toTasks.setError (e := e) hk
      obtain ⟨hT', hout'⟩ := hT.move (.of_eq hwork) hop
      exact ⟨hT', hout'.trans hout⟩
  refine ⟨s', e, ⟨hT.1, hI.replace (.inr hnew) ?_ hsock hclient hacc (fun t' ht' => ⟨?_, ?_⟩)
    fun t' ht' => ?_⟩, hT.2⟩
  · rw [handle_sock hsock hacc, hopened]
    exact hI.custody_replace hcr
  · rwa [hwork]
  · rcases hop with hop | ⟨hk, e, hop⟩
    · rw [hop]
    · rw [hop]
      refine Function.update_of_ne (fun he => hk ?_) ..
      rwa [← he]
  · rw [← hwork]
    exact ht'.1

theorem Inv.accept (hI : Inv s) (hk : .ca t ∉ s.work) (hsockc : s.sock client = none)
    (hnew : ¬IsClient s client) (hcr : cr.Legal (· ∉ s.opened)) (hans : ans.OfSock) :
    ∃ s', asockAccept s t client f cr ans = some s' ∧ Inv s' ∧
      s'.outstanding = Function.update s.outstanding (.ca t) (some (f, cr.early ans)) := by
  obtain ⟨s', op, e, hs, hb, hsock, hclient, hacc, hopened, hdone⟩ := asockAccept_spec hk hcr hans
  obtain ⟨hT, hout⟩ := hI.start hs hk hb
  have hmem : ∀ {t'}, .ca t' ∈ s'.work → t' ≠ t → .ca t' ∈ s.work := fun ht' hne =>
    (List.mem_cons.1 (hs.work.mem_iff.1 ht')).resolve_left fun he => hne (Key.ca.inj he)
  have hne : ∀ {t'}, t' ≠ t → s'.op (.ca t') = s.op (.ca t') := fun hne => by
    rw [hs.op, Function.update_of_ne fun he => hne (Key.ca.inj he)]
  have hAcc : ∀ {t'}, Accepting s' t' → t' ≠ t → Accepting s t' ∧ s'.caClient t' = s.caClient t' := by
    rintro t' ⟨hwork, hdone, herror⟩ hne'
    rw [hne hne'] at hdone herror
    exact ⟨⟨hmem hwork hne', hdone, herror⟩, by rw [hclient, Function.update_of_ne hne']⟩
  refine ⟨s', e, ⟨hT, ⟨?_, fun t' h' ht' => ?_, fun t' ht' => ?_⟩⟩, hout⟩
  · have hfree : s.handle (.accept t) = none := by
      cases hno : s.caAcceptSock t with
      | none => exact hno
      | some h' => exact absurd (hI.accepted t h' hno).1 hk
    rw [handle_accept hsock hacc, hopened]
    exact custody_open hI.custody hfree hcr
  · by_cases ht : t' = t
    · subst ht
      refine ⟨hs.work.mem_iff.2 List.mem_cons_self, ?_⟩
      rw [hs.op, Function.update_self, hdone]
    · rw [hacc, Function.update_of_ne ht] at ht'
      obtain ⟨hwork, hdone'⟩ := hI.accepted t' h' ht'
      exact ⟨hs.work.mem_iff.2 (List.mem_cons_of_mem _ hwork), by rwa [hne ht]⟩
  · by_cases ht : t' = t
    · subst ht
      refine ⟨client, by rw [hclient, Function.update_self], by rw [hsock, hsockc], fun t'' ht'' hc => ?_⟩
      by_contra hne'
      obtain ⟨hacc'', hc''⟩ := hAcc ht'' hne'
      exact hnew ⟨t'', hacc'', hc''.symm.trans hc⟩
    · obtain ⟨hacc', hc'⟩ := hAcc ht' ht
      obtain ⟨c, hc, hnone, hunique⟩ := hI.client t' hacc'
      refine ⟨c, hc'.trans hc, by rw [hsock, hnone], fun t'' ht'' hc'' => ?_⟩
      by_cases ht₂ : t'' = t
      · subst ht₂
        rw [hclient, Function.update_self] at hc''
        obtain rfl := Option.some.inj hc''
        exact absurd ⟨t', hacc', hc⟩ hnew
      · obtain ⟨hacc'', hc₂⟩ := hAcc ht'' ht₂
        exact hunique t'' hacc'' (hc₂.symm.trans hc'')

end calls

end Dlb.Windows
