/-
Module: Khor.A2a.Exclusive
Purpose: An input is fenced or accepted, never both; what is fenced stays out, what is accepted keeps its
  content, and a stop reaches only the turn it is aimed at, which then never begins.
Trusted boundary: drawn ids are new; a digest is written in base 16
Main exports: Fences, Doomed, inputs_exclusive
-/
import Khor.A2a.Ownership

namespace Khor.A2a

variable {P M : Type} {x : Externals P M} {home : DeviceId} {s : Ledger P M} {w w' : World P M}

/-- The task was canceled, or it has come to its end. -/
def Doomed (s : Ledger P M) (id : String) : Prop :=
  ∃ e, s.tasks id = some e ∧ (e.cancellationRequested = true ∨ e.state.isTerminal = true)

/-- The digest tells two contents apart. -/
def Externals.Tells (x : Externals P M) (t : AgentTarget) (m : Message P M) (p : Option TaskRef)
    (a : Accepted P M) : Prop :=
  x.digest t m p = x.digest a.target a.message a.parent → t = a.target ∧ m = a.message ∧ p = a.parent

/-- What inputs, fences and cancellations come to in a state of the store, and from it on. -/
structure Fences (x : Externals P M) (home : DeviceId) (w : World P M) : Prop where
  exclusive : ∀ {c t t' m}, t.agent = t'.agent → ((c, t, m), .fenced) ∈ w.outcomes →
    ((c, t', m), .accepted) ∉ w.outcomes ∧
      ∀ a ∈ w.accepted, ¬(a.caller = c ∧ a.target.agent = t.agent ∧ a.message.messageId = m)
  fenced : ∀ {c t m}, ((c, t, m), .fenced) ∈ w.outcomes →
    ∀ (newContext newTask : String) (t' : AgentTarget) (message : Message P M) (parent : Option TaskRef),
      t'.agent = t.agent → message.messageId = m →
      (∃ e, w.accept x home newContext newTask c t' message parent = .error e) ∧
        ∀ fate, (act x home w (.accept newContext newTask c t' message parent, fate)).ledger = w.ledger
  repeated : ∀ a ∈ w.accepted, ∀ newContext newTask, ∃ r,
    transact x .saved w.ledger (w.accept x home newContext newTask a.caller a.target a.message a.parent) =
      (w.ledger, .ok ⟨r, false⟩) ∧ r.task.id = a.task
  different : ∀ a ∈ w.accepted, ∀ (newContext newTask : String) (t : AgentTarget) (message : Message P M)
    (parent : Option TaskRef), t.agent = a.target.agent → message.messageId = a.message.messageId →
      x.Tells t message parent a → ¬(t = a.target ∧ message = a.message ∧ parent = a.parent) →
      (∃ e, w.accept x home newContext newTask a.caller t message parent = .error e) ∧
        ∀ fate, (act x home w (.accept newContext newTask a.caller t message parent, fate)).ledger = w.ledger
  aimed : ∀ (c : DeviceId) (t : AgentTarget) (m : String) (parent : Option TaskRef) (fate : Fate) (id : String),
    (act x home w (.cancelInput c t m parent, fate)).ledger.tasks id ≠ w.ledger.tasks id →
      ∃ e, w.ledger.tasks id = some e ∧ e.pendingMessage = m ∧ e.caller = c ∧ e.target = t
  stopped : ∀ {c t id parent fate m},
    (∀ r, (transact x fate w.ledger (Store.requestCancel home w.ledger c t id)).2 = .ok r →
      Doomed (act x home w (.requestCancel c t id, fate)).ledger id) ∧
    ∀ r, (transact x fate w.ledger (Store.cancelInput x home w.ledger c t m parent)).2 =
        .ok r → ∀ {task state revision flag}, r = .known task state revision flag →
      Doomed (act x home w (.cancelInput c t m parent, fate)).ledger task.id
  never : ∀ {id}, Doomed w.ledger id → ∀ {w'}, Runs (act x home) Permitted w w' →
    ∀ message, ∃ e, Store.claim w'.leased w'.ledger id message = .error e

theorem error_of_not_ok {α : Type} {r : Except Error α} (h : ∀ a, r ≠ .ok a) : ∃ e, r = .error e := by
  cases r with
  | error e => exact ⟨e, rfl⟩
  | ok a => exact absurd rfl (h a)

variable {parent : Option TaskRef} {id m : String} {s' : Ledger P M} {c : DeviceId} {t : AgentTarget}

/-- A refused message leaves the ledger. -/
theorem accept_refused {newContext newTask : String} {caller : DeviceId} {to_ : AgentTarget} {message : Message P M}
    (h : ∀ done, w.accept x home newContext newTask caller to_ message parent ≠ .ok done) :
    (∃ e, w.accept x home newContext newTask caller to_ message parent = .error e) ∧
      ∀ fate, (act x home w (.accept newContext newTask caller to_ message parent, fate)).ledger =
        w.ledger := by
  refine ⟨error_of_not_ok h, fun fate => ?_⟩
  obtain ⟨e, error⟩ := error_of_not_ok h
  rw [act_accept_ledger, error]
  rfl

theorem Inv.recorded (inv : Inv x home w) {e : Entry P M} (there : w.ledger.tasks id = some e) :
    ∃ r, record w.ledger id = .ok r ∧ r.task = e.task := by
  obtain ⟨c, has, target, caller⟩ := inv.context there
  unfold record
  simp only [there, has, target, caller, and_self, if_true]
  exact ⟨_, rfl, rfl⟩

/-- What was accepted is found again under its content. -/
theorem Inv.accept_again (inv : Inv x home w) (law : x.Lawful) {a : Accepted P M} (mem : a ∈ w.accepted)
    (newContext newTask : String) : ∃ r,
      w.accept x home newContext newTask a.caller a.target a.message a.parent =
        .ok (w.ledger, ⟨r, false⟩) ∧ r.task.id = a.task := by
  have took := inv.took a mem
  obtain ⟨e, there, _⟩ := took.entry
  obtain ⟨r, recorded, same⟩ := inv.recorded there
  refine ⟨r, ?_, by rw [same, (inv.keyed there).1]⟩
  have valid : (a.row x).validate a.caller a.target a.message.messageId = .ok () := by
    simp only [Accepted.row, Dedup.validate, law.fingerprint, if_true]
    exact took.id
  have row := took.row
  rw [Accepted.key] at row
  simp only [World.accept, Store.accept, took.fits, bind, Except.bind, row, valid]
  simp only [Accepted.row, ne_eq, not_true_eq_false, if_false, recorded]

theorem Doomed.evolves {leased : String → Bool} {e e' : Entry P M} (h : Evolves leased e e')
    (doomed : e.cancellationRequested = true ∨ e.state.isTerminal = true) :
    e'.cancellationRequested = true ∨ e'.state.isTerminal = true := by
  cases h with
  | same => exact doomed
  | change change =>
      cases change with
      | cancel | flag => exact .inl rfl
      | update _ _ _ going =>
          obtain flag | closed := doomed
          · exact .inl flag
          · rw [going] at closed
            cases closed
      | fail => exact .inr rfl
      | bind => exact doomed
  | reply _ waits flag =>
      obtain flagged | closed := doomed
      · rw [flag] at flagged
        cases flagged
      · revert waits closed
        cases e.state <;> simp [TaskState.suspended, TaskState.isTerminal]
  | begin waits flag =>
      obtain flagged | closed := doomed
      · rw [flag] at flagged
        cases flagged
      · rw [waits] at closed
        cases closed

theorem Doomed.step {request : Request P M × Fate} {id : String} (permitted : Permitted w request)
    (inv : Inv x home w) (doomed : Doomed w.ledger id) : Doomed (act x home w request).ledger id := by
  obtain ⟨e, there, doom⟩ := doomed
  obtain ⟨e', there', evolves, _⟩ := act_evolves permitted inv there
  exact ⟨e', there', Doomed.evolves evolves doom⟩

/-- A doomed task stays doomed. -/
theorem Doomed.run {id : String} (run : Runs (act x home) Permitted w w') (inv : Inv x home w)
    (doomed : Doomed w.ledger id) : Doomed w'.ledger id :=
  (Runs.invariant (I := fun w => Inv x home w ∧ Doomed w.ledger id)
    (fun permitted both => ⟨Inv.step permitted both.1, both.2.step permitted both.1⟩) run ⟨inv, doomed⟩).2

theorem Doomed.unclaimed {leased : String → Bool} (doomed : Doomed s id) (message : String) :
    ∃ e, Store.claim leased s id message = .error e := by
  refine error_of_not_ok ?_
  rintro ⟨s', turn, r, input⟩ ok
  obtain ⟨e, there, waits, _, flag, _⟩ := claim_cases ok
  obtain ⟨e', there', flagged | closed⟩ := doomed
  · rw [there] at there'
    cases there'
    rw [flag] at flagged
    cases flagged
  · rw [there] at there'
    cases there'
    rw [waits] at closed
    cases closed

/-- A task whose cancellation went through is doomed. -/
theorem cancelEntry_doomed {caller : DeviceId} {to_ : AgentTarget} (h : cancelEntry s caller to_ id = .ok s') :
    Doomed s' id := by
  obtain ⟨e, there, _, _, ⟨canceled, rfl⟩ | ⟨going, rfl⟩⟩ := cancelEntry_cases h
  · exact ⟨e, there, .inr (by rw [canceled]; rfl)⟩
  · exact ⟨stopped e, Function.update_self _ _ _, .inl (stopped_cases going).2⟩

/-- A fence is answered where the row of the input is one. -/
theorem Inv.fenced_row (inv : Inv x home w) (fenced : ((c, t, m), .fenced) ∈ w.outcomes) :
    ∃ d, w.ledger.messages (x.inputKey c t.agent m) = some d ∧ d.task = none := by
  obtain ⟨d, row, outcome⟩ := inv.outcomes _ fenced
  refine ⟨d, row, ?_⟩
  unfold Dedup.outcome at outcome
  split at outcome
  · cases outcome
  · next none => simpa using none

/-- A task that a cancellation of an input changes waits for that input, or works on it. -/
theorem cancelInput_aimed {r : InputResolution} (h : Store.cancelInput x home s c t m parent = .ok (s', r))
    (changed : s'.tasks id ≠ s.tasks id) :
    ∃ e, s.tasks id = some e ∧ e.pendingMessage = m ∧ e.caller = c ∧ e.target = t := by
  obtain ⟨_, _, rfl⟩ | ⟨_, _, _, ⟨_, _, rfl⟩ |
    ⟨at_, e, _, _, there, caller, target, _, ⟨rfl, _⟩ | ⟨pending, canceled⟩⟩⟩ := cancelInput_cases h
  · exact absurd rfl changed
  · exact absurd rfl changed
  · exact absurd rfl changed
  · obtain ⟨e', there', _, _, ⟨_, rfl⟩ | ⟨_, rfl⟩⟩ := cancelEntry_cases canceled
    · exact absurd rfl changed
    · by_cases same : id = at_
      · subst same
        exact ⟨e, there, pending, caller, target⟩
      · exact absurd (Function.update_of_ne same _ _) changed

theorem cancelInput_doomed {task : TaskRef} {state : TaskState} {revision : Nat} {flag : Bool}
    (h : Store.cancelInput x home s c t m parent = .ok (s', .known task state revision flag)) :
    Doomed s' task.id := by
  obtain ⟨_, r, _⟩ | ⟨_, _, _, ⟨_, r, _⟩ |
    ⟨id, e, _, _, there, _, _, known, ⟨rfl, past⟩ | ⟨pending, canceled⟩⟩⟩ := cancelInput_cases h
  · cases r
  · cases r
  · obtain ⟨same, pending⟩ := known rfl
    rw [same]
    obtain apart | closed := past
    · exact absurd pending apart
    · exact ⟨e, there, .inr closed⟩
  · rw [(known rfl).1]
    exact cancelEntry_doomed canceled

/-- Whatever requests come in whatever order, an input is fenced or accepted and never both, and what was
decided about it stands. -/
theorem inputs_exclusive (law : x.Lawful) (reached : Reached x home w) : Fences x home w := by
  have inv := reached.inv
  refine
    { exclusive := fun {c t t' m} sameAgent fenced => ?_
      fenced := fun {c t m} fenced newContext newTask t' message parent sameAgent sameId => ?_
      repeated := fun a mem newContext newTask => ?_
      different := fun a mem newContext newTask t message parent sameAgent sameId tells other => ?_
      aimed := fun c t m parent fate id changed => ?_
      stopped := fun {c t id parent fate m} => ⟨fun r answered => ?_, fun r answered task state revision flag is => ?_⟩
      never := fun {id} doomed w' run message => (doomed.run run inv).unclaimed message }
  · obtain ⟨d, row, none⟩ := inv.fenced_row fenced
    refine ⟨fun accepted => ?_, fun a mem alike => ?_⟩
    · obtain ⟨d', row', outcome⟩ := inv.outcomes _ accepted
      rw [← sameAgent, row] at row'
      cases row'
      rw [Dedup.outcome, none] at outcome
      cases outcome
    · obtain ⟨rfl, agent, rfl⟩ := alike
      have row' := (inv.took a mem).row
      rw [Accepted.key, agent, row] at row'
      cases row'
      cases none
  · refine accept_refused ?_
    rintro ⟨s', sub⟩ ok
    obtain ⟨d, row, none⟩ := inv.fenced_row fenced
    subst sameId
    obtain ⟨_, ⟨d', task, row', _, some, _⟩ | ⟨free, _⟩⟩ := accept_cases ok
    · rw [sameAgent, row] at row'
      cases row'
      rw [none] at some
      cases some
    · rw [sameAgent, row] at free
      cases free
  · obtain ⟨r, again, same⟩ := inv.accept_again law mem newContext newTask
    refine ⟨r, ?_, same⟩
    have small : ¬MAX_STORE_BYTES < x.ledgerBytes w.ledger := by
      obtain none | small := inv.small
      · rw [none] at mem
        cases mem
      · exact not_lt.mpr small
    simp only [again, transact, if_neg small]
  · refine accept_refused ?_
    rintro ⟨s', sub⟩ ok
    have row := (inv.took a mem).row
    obtain ⟨_, ⟨d, task, row', _, _, digest, _⟩ | ⟨free, _⟩⟩ := accept_cases ok
    · rw [sameAgent, sameId] at row'
      have row' := row'.symm.trans row
      cases row'
      exact other (tells (Option.some.inj digest).symm)
    · rw [sameAgent, sameId] at free
      have free := free.symm.trans row
      cases free
  · rw [act_cancelInput_ledger] at changed
    obtain same | ⟨s', r, ok, same⟩ := transact_ledger x fate w.ledger
      (Store.cancelInput x home w.ledger c t m parent)
    · rw [same] at changed
      exact absurd rfl changed
    · rw [same] at changed
      exact cancelInput_aimed ok changed
  · change Doomed (transact x fate w.ledger (Store.requestCancel home w.ledger c t id)).1 id
    obtain ⟨_, e, same⟩ | ⟨s', r', ok, _, _, same | same⟩ := transact_cases x fate w.ledger
      (Store.requestCancel home w.ledger c t id)
    · rw [same] at answered
      cases answered
    · rw [same]
      exact cancelEntry_doomed (requestCancel_cases ok).2
    · rw [same] at answered
      cases answered
  · rw [act_cancelInput_ledger]
    obtain ⟨_, e, same⟩ | ⟨s', r', ok, _, _, same | same⟩ := transact_cases x fate w.ledger
      (Store.cancelInput x home w.ledger c t m parent)
    · rw [same] at answered
      cases answered
    · rw [same] at answered ⊢
      cases answered
      subst is
      exact cancelInput_doomed ok
    · rw [same] at answered
      cases answered

/-! ### One home -/

def oneCaller : DeviceId := Vector.replicate 32 1

def oneTarget : AgentTarget := ⟨Vector.replicate 32 2, "worker"⟩

/-- The length of a message, but for what all messages hold. -/
def letters (m : Message String Unit) : Nat := 128 + (m.parts.map String.length).sum

def entryLetters (e : Entry String Unit) : Nat :=
  1024 + ((e.task.history ++ e.task.status.message.toList).map letters).sum

/-- The digests are those of `[caller,"worker",id]` and of the contents as they are written in JSON. -/
def oneExternals : Externals String Unit where
  inputKey _ _ m :=
    if m = "m1" then "cc34b60c261212c94d968ea0a8e0c4301b0df8d9fe8786f149f82f1f6106fe13"
    else "f17ee8a671e2953b7a3b9743e7f85e3fa85e047d9d9a63a38916ccf1c71a9b7f"
  digest _ m _ :=
    if m.messageId = "m1" then "a002be84d0e32f270d8a3c185838d6a080dda32bf299c682fb9774d05b543039"
    else "908b55a97c1ca845d5de40b48bbb1824b9d8615de624cb910517649eccb14cb3"
  messageBytes := letters
  entryBytes := entryLetters
  ledgerBytes s := 512 + (s.ids.map fun id => ((s.tasks id).map entryLetters).getD 0).sum

def said (id : String) (task : Option String) : Message String Unit := ⟨id, .user, task, none, ["go"], ()⟩

/-- One input is accepted and asked for again, another is fenced. -/
def fencing : List (Request String Unit × Fate) :=
  [(.accept "c1" "t1" oneCaller oneTarget (said "m1" none) none, .saved),
    (.cancelInput oneCaller oneTarget "m2" none, .saved),
    (.accept "c2" "t2" oneCaller oneTarget (said "m1" none) none, .saved)]

theorem oneExternals_lawful : oneExternals.Lawful where
  fingerprint _ m _ := by
    by_cases first : m.messageId = "m1"
    · simp only [oneExternals, if_pos first]
      decide +kernel
    · simp only [oneExternals, if_neg first]
      decide +kernel

theorem fencing_exclusive :
    (((oneCaller, oneTarget, "m2"), Outcome.fenced) ∈
        (fencing.foldl (act oneExternals oneTarget.home) .init).outcomes) ∧
      Fences oneExternals oneTarget.home (fencing.foldl (act oneExternals oneTarget.home) .init) := by
  have run : Fits (act oneExternals oneTarget.home) Permitted .init fencing ∧
      ((oneCaller, oneTarget, "m2"), Outcome.fenced) ∈
        (fencing.foldl (act oneExternals oneTarget.home) .init).outcomes := by
    decide +kernel
  exact ⟨run.2, inputs_exclusive oneExternals_lawful (Fits.runs run.1)⟩

end Khor.A2a
