/-
Module: Khor.A2a.Dispatch
Purpose: How a dispatched turn ends: the executor has returned, and what is unfinished is marked as failed
  (crates/a2a/src/executor.rs). What the lease of a claimant keeps from its task, and what each ending does.
Trusted boundary: drawn ids are new
Main exports: conclude, Held, Reached.held
-/
import Khor.A2a.Ownership

namespace Khor.A2a

variable {P M : Type} {x : Externals P M} {home : DeviceId} {s s' : Ledger P M} {w : World P M}

/-- `Message::new` for an agent, with one part. -/
def note (id : String) (rest : M) (part : P) : Message P M := ⟨id, .agent, none, none, [part], rest⟩

/-- What is said of a turn that its executor left: its error, or that it did not finish. -/
def failure (unfinished : P) (result : Option P) (state : TaskState) : Option P :=
  match result with
  | some error => some error
  | none => if state = .working then some unfinished else none

/-- What `dispatch` does once the executor has returned; `result` is its error. -/
def conclude (x : Externals P M) (home : DeviceId) (s : Ledger P M) (h : Handed P M) (id : String)
    (rest : M) (unfinished : P) (result : Option P) : Ledger P M × Except Error (Record P M) :=
  match Store.get home s h.caller h.target h.task with
  | .error e => (s, .error e)
  | .ok r =>
      if r.task.status.state.isTerminal then (s, .ok r)
      else
        match failure unfinished result r.task.status.state with
        | none => (s, .ok r)
        | some part =>
            transact x .saved s
              (Store.executorUpdate x s h.task h.turn .failed (some (note id rest part)) none)

/-- The task of a claimant that holds its lease is in the claimant's turn. -/
structure Held (home : DeviceId) (s : Ledger P M) (h : Handed P M) : Prop where
  reach : target home h.target = .ok ()
  entry : ∃ e, s.tasks h.task = some e ∧ e.turn = h.turn ∧ e.state ≠ .submitted ∧
    e.task.contextId = h.context ∧ e.caller = h.caller ∧ e.target = h.target

variable {h : Handed P M}

theorem Held.evolves {leased : String → Bool} (held : Held home s h) (lease : leased h.context = true)
    (evolves : ∀ {e}, s.tasks h.task = some e → ∃ e', s'.tasks h.task = some e' ∧ Evolves leased e e') :
    Held home s' h := by
  obtain ⟨reach, e, there, turn, begun, context, caller, target⟩ := held
  obtain ⟨e', there', moved⟩ := evolves there
  refine ⟨reach, e', there', ?_⟩
  cases moved with
  | same => exact ⟨turn, begun, context, caller, target⟩
  | change change =>
      obtain ⟨_, sameContext, sameTarget, sameCaller, _, _, _⟩ := change.grown
      refine ⟨change.turn.trans turn, fun waits => begun (change.submitted waits).1,
        sameContext.trans context, sameCaller.trans caller, sameTarget.trans target⟩
  | reply _ _ _ free =>
      rw [context, lease] at free
      cases free
  | begin waits => exact absurd waits begun

theorem acceptable_target {to_ : AgentTarget} {message : Message P M} {parent : Option TaskRef}
    (h : Store.acceptable x home to_ message parent = .ok ()) : target home to_ = .ok () := by
  unfold Store.acceptable at h
  obtain ⟨_, here, _⟩ := bind_ok h
  exact here

/-- A claimant alive was there before, or has just been handed a turn. -/
theorem act_live {request : Request P M × Fate} (mem : h ∈ (act x home w request).live) : h ∈ w.live ∨
      ∃ e, w.ledger.tasks h.task = some e ∧ e.state = .submitted ∧
        (act x home w request).ledger = w.ledger.put h.task (begun e) ∧ h.turn = e.turn + 1 ∧
        h.caller = e.caller ∧ h.target = e.target ∧ h.context = e.task.contextId := by
  obtain ⟨request, fate⟩ := request
  cases request with
  | accept newContext newTask caller to_ message parent =>
      obtain ⟨unwritten, error, same⟩ | ⟨_, _, _, _, written, told | told⟩ := transact_cases x fate w.ledger
        (w.accept x home newContext newTask caller to_ message parent)
      · simp only [act, unwritten, same] at mem
        exact .inl mem
      · simp only [act, written, told] at mem
        exact .inl mem
      · simp only [act, written, told] at mem
        exact .inl mem
  | cancelInput | requestCancel => exact .inl mem
  | findOwnedMessage caller to_ message =>
      have same : (act x home w (.findOwnedMessage caller to_ message, fate)).live = w.live := by
        simp only [act]
        split <;> rfl
      rw [same] at mem
      exact .inl mem
  | claim id message =>
      obtain ⟨unwritten, error, same⟩ | ⟨s', ⟨turn, r, input⟩, result, _, written, told⟩ :=
        transact_cases x fate w.ledger (Store.claim w.leased w.ledger id message)
      · simp only [act, unwritten, same] at mem
        exact .inl mem
      · obtain ⟨e, there, waits, _, _, _, _, rfl, rfl, caller, target, context⟩ := claim_cases result
        obtain told | told := told
        · simp only [act, written, told, List.mem_append, List.mem_singleton] at mem ⊢
          obtain old | rfl := mem
          · exact .inl old
          · exact .inr ⟨e, there, waits, rfl, rfl, caller, target, context⟩
        · simp only [act, written, told] at mem
          exact .inl mem
  | update | bindSession => exact .inl mem
  | drop => exact .inl (List.mem_of_mem_eraseIdx mem)
  | recover => exact .inl mem

theorem Held.step {request : Request P M × Fate} (permitted : Permitted w request)
    (inv : Inv x home w) (held : ∀ h ∈ w.live, Held home w.ledger h) :
    ∀ h ∈ (act x home w request).live, Held home (act x home w request).ledger h := by
  intro h mem
  obtain old | ⟨e, there, waits, same, turn, caller, target, context⟩ := act_live mem
  · have lease : w.leased h.context = true := List.any_eq_true.mpr ⟨h, old, by simp⟩
    refine (held h old).evolves lease fun there => ?_
    obtain ⟨e', there', evolves, _⟩ := act_evolves permitted inv there
    exact ⟨e', there', evolves⟩
  · obtain ⟨_, a, accepted, task, _⟩ := inv.waiting there waits
    have took := inv.took a accepted
    obtain ⟨e', there', _, sameTarget, _⟩ := took.entry
    rw [task, there] at there'
    cases there'
    refine ⟨?_, begun e, by rw [same]; exact Function.update_self _ _ _, turn.symm, nofun, context.symm,
      caller.symm, target.symm⟩
    rw [target, sameTarget]
    exact acceptable_target took.fits

/-- Every claimant that holds its lease has its task in its turn. -/
theorem Reached.held (reached : Reached x home w) : ∀ h ∈ w.live, Held home w.ledger h := by
  refine (Runs.invariant (I := fun w => Inv x home w ∧ ∀ h ∈ w.live, Held home w.ledger h) ?_
    reached ⟨.init, ?_⟩).2
  · rintro w request permitted ⟨inv, held⟩
    exact ⟨inv.step permitted, Held.step permitted inv held⟩
  · rintro _ ⟨⟩

/-- The entry as a failure leaves it. -/
def failed (e : Entry P M) (id : String) (rest : M) (part : P) : Entry P M :=
  status e .failed (some (note id rest part))

theorem Inv.get (inv : Inv x home w) (held : Held home w.ledger h) {e : Entry P M}
    (there : w.ledger.tasks h.task = some e) :
    ∃ r, Store.get home w.ledger h.caller h.target h.task = .ok r ∧ r.task = e.task := by
  obtain ⟨reach, e', there', _, _, _, caller, target⟩ := held
  rw [there] at there'
  cases there'
  obtain ⟨c, has, sameTarget, sameCaller⟩ := inv.context there
  have entry : callerEntry w.ledger h.caller h.target h.task = .ok e := by
    simp only [callerEntry, there, caller, target, and_self, if_true]
  have recorded : record w.ledger h.task = .ok ⟨e.task, e.target, e.caller, e.parent, c.session,
      e.revision, e.cancellationRequested⟩ := by
    simp only [record, there, has, sameTarget, sameCaller, and_self, if_true]
  refine ⟨⟨e.task, e.target, e.caller, e.parent, c.session, e.revision, e.cancellationRequested⟩, ?_, rfl⟩
  simp only [Store.get, reach, entry, bind, Except.bind]
  exact recorded

/-- A failed update puts the failure into the ledger, unless it takes too many bytes. -/
theorem update_failed (inv : Inv x home w) (held : Held home w.ledger h) {e : Entry P M}
    (there : w.ledger.tasks h.task = some e) (going : e.state.isTerminal = false) {id : String} (rest : M) (part : P)
    (named : opaqueId id = .ok ()) : (x.entryBytes (failed e id rest part) ≤ MAX_TASK_BYTES ∧ ∃ r,
      Store.executorUpdate x w.ledger h.task h.turn .failed (some (note id rest part)) none =
        .ok (w.ledger.put h.task (failed e id rest part), r)) ∨
    (MAX_TASK_BYTES < x.entryBytes (failed e id rest part) ∧
      Store.executorUpdate x w.ledger h.task h.turn .failed (some (note id rest part)) none =
        .error (.invalid "Delegation task exceeds its size limit")) := by
  obtain ⟨reach, e', there', turn, begun, _⟩ := held
  rw [there] at there'
  cases there'
  have fits : Store.updatable .failed (some (note id rest part)) (none : Option (Artifact P M)) = .ok () := by
    simp [Store.updatable, note, named, bind, Except.bind, pure, Except.pure]
  obtain ⟨c, has, sameTarget, sameCaller⟩ := inv.context there
  have recorded : ∃ r, record (w.ledger.put h.task (failed e id rest part)) h.task = .ok r := by
    refine ⟨⟨(failed e id rest part).task, e.target, e.caller, e.parent, c.session,
      (failed e id rest part).revision, e.cancellationRequested⟩, ?_⟩
    simp only [record, put_tasks, Function.update_self, put_contexts, failed, status_context, has,
      status_target, status_caller, sameTarget, sameCaller, and_self, if_true, status_parent, status_flag]
  obtain ⟨r, recorded⟩ := recorded
  have limit : bounded x (failed e id rest part) =
      if MAX_TASK_BYTES < x.entryBytes (failed e id rest part) then
        .error (.invalid "Delegation task exceeds its size limit") else .ok () := rfl
  have update : Store.executorUpdate x w.ledger h.task h.turn .failed (some (note id rest part)) none =
      (bounded x (failed e id rest part) >>= fun _ =>
        (record (w.ledger.put h.task (failed e id rest part)) h.task >>= fun r =>
          .ok (w.ledger.put h.task (failed e id rest part), r))) := by
    rw [← turn]
    simp only [Store.executorUpdate, fits, there, going, begun, bind, Except.bind, ne_eq,
      not_true_eq_false, or_self, if_false, Bool.false_eq_true]
    rfl
  rw [update, limit, recorded]
  by_cases large : MAX_TASK_BYTES < x.entryBytes (failed e id rest part)
  · rw [if_pos large]
    exact .inr ⟨large, rfl⟩
  · rw [if_neg large]
    exact .inl ⟨not_lt.mp large, r, rfl⟩

end Khor.A2a
