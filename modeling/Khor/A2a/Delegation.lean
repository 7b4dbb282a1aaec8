/-
Module: Khor.A2a.Delegation
Purpose: The store with the processes that share it: any order of its transactions, each saved, lost or
  saved without an answer, of claimants that go away, and of reconciliations. What each transaction does.
Trusted boundary: drawn ids are new
Main exports: World, Request, accept_cases, cancelInput_cases, claim_cases
-/
import Khor.A2a.Store
import Khor.Lib.Runs

namespace Khor.A2a

/-- An input that was accepted. -/
structure Accepted (P M : Type) where
  caller : DeviceId
  target : AgentTarget
  message : Message P M
  parent : Option TaskRef
  task : String
  context : String

/-- The message as it stands in the task's history. -/
def Accepted.delivered {P M : Type} (a : Accepted P M) : Message P M :=
  { a.message with taskId := some a.task, contextId := some a.context }

/-- A turn that was handed to an executor. -/
structure Handed (P M : Type) where
  task : String
  turn : Nat
  message : String
  input : Message P M
  context : String
  caller : DeviceId
  target : AgentTarget

inductive Outcome where
  | accepted
  | fenced
deriving DecidableEq

/-- What an answer about an input says of it. -/
def InputResolution.outcome : InputResolution → Outcome
  | .fenced => .fenced
  | _ => .accepted

/-- The store and the claimants alive. Not of the program, but of what happened: the turns handed out, the
inputs whose claim was carried out, those accepted, and what callers were told of an input. -/
structure World (P M : Type) where
  ledger : Ledger P M
  live : List (Handed P M)
  handed : List (Handed P M)
  started : List (DeviceId × String × String)
  accepted : List (Accepted P M)
  outcomes : List ((DeviceId × AgentTarget × String) × Outcome)

/-- Nothing is accepted yet. -/
def World.init {P M : Type} : World P M := ⟨.empty, [], [], [], [], []⟩

inductive Request (P M : Type) where
  | accept (newContext newTask : String) (caller : DeviceId) (target : AgentTarget)
      (message : Message P M) (parent : Option TaskRef)
  | cancelInput (caller : DeviceId) (target : AgentTarget) (message : String) (parent : Option TaskRef)
  | requestCancel (caller : DeviceId) (target : AgentTarget) (id : String)
  | findOwnedMessage (caller : DeviceId) (target : AgentTarget) (message : String)
  | claim (id message : String)
  | update (id : String) (turn : Nat) (state : TaskState) (message : Option (Message P M))
      (artifact : Option (Artifact P M))
  | bindSession (id : String) (turn : Nat) (session : SessionRef)
  /-- A claimant goes away, and its lease with it. -/
  | drop (claimant : Nat)
  | recover (message : String → Message P M)

/-- What becomes of a transaction that is written. -/
inductive Fate where
  | saved
  | lost
  /-- The file was renamed, and the directory could not be synced. -/
  | unconfirmed

section Acting

variable {P M : Type}

/-- `Store::transaction`. -/
def transact {α : Type} (x : Externals P M) (fate : Fate) (s : Ledger P M)
    (result : Except Error (Ledger P M × α)) : Ledger P M × Except Error α :=
  match result with
  | .error e => (s, .error e)
  | .ok (s', a) =>
      if MAX_STORE_BYTES < x.ledgerBytes s' then (s, .error (.invalid "Delegation store is full"))
      else
        match fate with
        | .saved => (s', .ok a)
        | .lost => (s, .error .io)
        | .unconfirmed => (s', .error .io)

/-- The transaction is on disk. -/
def written {α : Type} (x : Externals P M) (fate : Fate) (result : Except Error (Ledger P M × α)) :
    Option (Ledger P M × α) :=
  match result with
  | .error _ => none
  | .ok (s, a) =>
      if MAX_STORE_BYTES < x.ledgerBytes s then none
      else
        match fate with
        | .lost => none
        | _ => some (s, a)

/-- A claimant alive holds the context's lease. -/
def World.leased (w : World P M) (context : String) : Bool := w.live.any (·.context = context)

/-- What `accept` does in this world. -/
def World.accept (x : Externals P M) (home : DeviceId) (w : World P M) (newContext newTask : String)
    (caller : DeviceId) (to_ : AgentTarget) (message : Message P M) (parent : Option TaskRef) :
    Except Error (Ledger P M × Submission P M) :=
  Store.accept x home w.leased newContext newTask w.ledger caller to_ message parent

/-- One request, and what becomes of its transaction. -/
def act (x : Externals P M) (home : DeviceId) (w : World P M) : Request P M × Fate → World P M
  | (.accept newContext newTask caller to_ message parent, fate) =>
      let result := w.accept x home newContext newTask caller to_ message parent
      let w' := match written x fate result with
        | some (s, submission) =>
            { w with
              ledger := s
              accepted := if submission.accepted then
                w.accepted ++ [⟨caller, to_, message, parent, submission.record.task.id,
                  submission.record.task.contextId⟩]
                else w.accepted }
        | none => w
      match (transact x fate w.ledger result).2 with
      | .ok _ => { w' with outcomes := w.outcomes ++ [((caller, to_, message.messageId), .accepted)] }
      | .error _ => w'
  | (.cancelInput caller to_ message parent, fate) =>
      let done := transact x fate w.ledger (Store.cancelInput x home w.ledger caller to_ message parent)
      { w with
        ledger := done.1
        outcomes := match done.2 with
          | .ok resolution => w.outcomes ++ [((caller, to_, message), resolution.outcome)]
          | .error _ => w.outcomes }
  | (.requestCancel caller to_ id, fate) =>
      { w with ledger := (transact x fate w.ledger (Store.requestCancel home w.ledger caller to_ id)).1 }
  | (.findOwnedMessage caller to_ message, _) =>
      match Store.findOwnedMessage x home w.ledger caller to_ message with
      | .ok (some resolution) =>
          { w with outcomes := w.outcomes ++ [((caller, to_, message), resolution.outcome)] }
      | _ => w
  | (.claim id message, fate) =>
      let result := Store.claim w.leased w.ledger id message
      let w' := match written x fate result with
        | some (s, _, record, _) =>
            { w with ledger := s, started := w.started ++ [(record.caller, record.target.agent, message)] }
        | none => w
      match (transact x fate w.ledger result).2 with
      | .ok (turn, record, input) =>
          let claimant := ⟨id, turn, message, input, record.task.contextId, record.caller, record.target⟩
          { w' with live := w.live ++ [claimant], handed := w.handed ++ [claimant] }
      | .error _ => w'
  | (.update id turn state message artifact, fate) =>
      { w with
        ledger := (transact x fate w.ledger
          (Store.executorUpdate x w.ledger id turn state message artifact)).1 }
  | (.bindSession id turn session, fate) =>
      { w with ledger := (transact x fate w.ledger (Store.bindSession home w.ledger id turn session)).1 }
  | (.drop claimant, _) => { w with live := w.live.eraseIdx claimant }
  | (.recover message, fate) =>
      { w with ledger := (transact x fate w.ledger (Store.recover w.leased message w.ledger)).1 }

/-- Drawn ids are new, and updates are those of turns that were handed out. -/
def Permitted (w : World P M) : Request P M × Fate → Prop
  | (.accept newContext newTask _ _ _ _, _) =>
      w.ledger.contexts newContext = none ∧ w.ledger.tasks newTask = none ∧
        (opaqueId newTask).toBool = true
  | (.update id turn _ _ _, _) => ∃ h ∈ w.handed, h.task = id ∧ h.turn = turn
  | (.bindSession id turn _, _) => ∃ h ∈ w.handed, h.task = id ∧ h.turn = turn
  | _ => True

instance decidablePermitted (w : World P M) : ∀ r, Decidable (Permitted w r)
  | (.accept _ _ _ _ _ _, _) => inferInstanceAs (Decidable (_ ∧ _ ∧ _))
  | (.update _ _ _ _ _, _) => inferInstanceAs (Decidable (∃ h ∈ w.handed, _))
  | (.bindSession _ _ _, _) => inferInstanceAs (Decidable (∃ h ∈ w.handed, _))
  | (.cancelInput _ _ _ _, _) => isTrue trivial
  | (.requestCancel _ _ _, _) => isTrue trivial
  | (.findOwnedMessage _ _ _, _) => isTrue trivial
  | (.claim _ _, _) => isTrue trivial
  | (.drop _, _) => isTrue trivial
  | (.recover _, _) => isTrue trivial

/-- Any number of requests from the start. -/
def Reached (x : Externals P M) (home : DeviceId) (w : World P M) : Prop :=
  Runs (act x home) Permitted .init w

end Acting

/-! ### What a transaction does -/

section Cases

variable {P M : Type} {x : Externals P M} {home : DeviceId} {s s' : Ledger P M}

/-- A bind succeeds just where both steps do. -/
theorem bind_ok {α β : Type} {r : Except Error α} {f : α → Except Error β} {b : β}
    (h : (r >>= f) = .ok b) : ∃ a, r = .ok a ∧ f a = .ok b := by
  cases r with
  | error e => cases h
  | ok a => exact ⟨a, rfl, h⟩

theorem eq_ok_of_toBool {r : Except Error Unit} (h : r.toBool = true) : r = .ok () := by
  cases r with
  | error e => cases h
  | ok _ => rfl

variable {caller : DeviceId} {to_ : AgentTarget} {id message newContext newTask : String} {e : Entry P M}
  {r : Record P M} {parent : Option TaskRef} {turn : Nat}

/-- A caller is shown its own entry at the agent it names. -/
theorem callerEntry_cases (h : callerEntry s caller to_ id = .ok e) :
    s.tasks id = some e ∧ e.caller = caller ∧ e.target = to_ := by
  unfold callerEntry at h
  split at h
  · next e' there =>
    split at h
    · next owned =>
      cases h
      exact ⟨there, owned.1, owned.2⟩
    · cases h
  · cases h

/-- A record shows the task, the caller and the target of its entry. -/
theorem record_cases (h : record s id = .ok r) :
    ∃ e, s.tasks id = some e ∧ r.task = e.task ∧ r.caller = e.caller ∧ r.target = e.target := by
  unfold record at h
  split at h
  · cases h
  · next e there =>
    split at h
    · split at h
      · cases h
        exact ⟨e, there, rfl, rfl, rfl⟩
      · cases h
    · cases h

section

variable (e : Entry P M) (state : TaskState) (m : Option (Message P M))

@[simp] theorem status_target : (status e state m).target = e.target := rfl

@[simp] theorem status_caller : (status e state m).caller = e.caller := rfl

@[simp] theorem status_parent : (status e state m).parent = e.parent := rfl

@[simp] theorem status_context : (status e state m).task.contextId = e.task.contextId := rfl

@[simp] theorem status_revision : (status e state m).revision = e.revision + 1 := rfl

@[simp] theorem status_flag : (status e state m).cancellationRequested = e.cancellationRequested := rfl

/-- A status only adds to the history. -/
theorem status_history : e.task.history <+: (status e state m).task.history := by
  simp only [status]
  split
  · exact List.prefix_append _ _
  · exact List.prefix_rfl

end

@[simp] theorem put_tasks (id : String) (e : Entry P M) :
    (s.put id e).tasks = Function.update s.tasks id (some e) := rfl

/-- An entry found after a `put` is the one that was put or one that was there. -/
theorem of_put {id other : String} {e e₀ : Entry P M} (found : (s.put id e).tasks other = some e₀) :
    (other = id ∧ e₀ = e) ∨ (other ≠ id ∧ s.tasks other = some e₀) := by
  rw [put_tasks] at found
  by_cases same : other = id
  · rw [same, Function.update_self] at found
    exact .inl ⟨same, (Option.some.inj found).symm⟩
  · exact .inr ⟨same, (Function.update_of_ne same ..).symm.trans found⟩

@[simp] theorem put_ids (id : String) (e : Entry P M) : (s.put id e).ids = s.ids := rfl

@[simp] theorem put_contexts (id : String) (e : Entry P M) : (s.put id e).contexts = s.contexts := rfl

/-- What is done to the entry of a task, but for the turns that are taken. -/
inductive Change : Entry P M → Entry P M → Prop where
  /-- The task is canceled, or the wish is noted. -/
  | cancel {e : Entry P M} (going : e.state.isTerminal = false) (revision : Nat)
      (later : e.revision ≤ revision)
      (noted : e.cancellationRequested = false → e.revision < revision) (idle : e.state ≠ .working) :
      Change e (status { e with cancellationRequested := true, revision := revision } .canceled none)
  | flag {e : Entry P M} (working : e.state = .working) (unflagged : e.cancellationRequested = false) :
      Change e { e with cancellationRequested := true, revision := e.revision + 1 }
  | update {e : Entry P M} (artifacts : List (Artifact P M)) (state : TaskState)
      (message : Option (Message P M)) (going : e.state.isTerminal = false) (begun : e.state ≠ .submitted)
      (ends : state ≠ .submitted) :
      Change e (status { e with task := { e.task with artifacts := artifacts } } state message)
  | fail {e : Entry P M} (message : Message P M) (working : e.state = .working) :
      Change e (status e .failed (some message))
  /-- The session of the context is bound. -/
  | bind {e : Entry P M} : Change e { e with revision := e.revision + 1 }

/-- The next input of a task that waits for one. -/
def replied (e : Entry P M) (message : Message P M) : Entry P M :=
  status { e with
    task := { e.task with
      history := e.task.history ++ [{ message with contextId := some e.task.contextId }] }
    pendingMessage := message.messageId } .submitted none

/-- The entry of a task whose turn is handed out. -/
def begun (e : Entry P M) : Entry P M := status { e with turn := e.turn + 1 } .working none

/-- The entry of a task that a message opens. -/
def opened (newTask context : String) (caller : DeviceId) (to_ : AgentTarget) (message : Message P M)
    (parent : Option TaskRef) : Entry P M where
  task := ⟨newTask, context, ⟨.submitted, none⟩, [],
    [{ message with taskId := some newTask, contextId := some context }]⟩
  target := to_
  caller := caller
  parent := parent
  revision := 1
  cancellationRequested := false
  turn := 0
  pendingMessage := message.messageId

/-- Every task is left as it is, or changed. -/
structure Touched (s s' : Ledger P M) : Prop where
  ids : s'.ids = s.ids
  messages : s'.messages = s.messages
  absent : ∀ id, s.tasks id = none → s'.tasks id = none
  tasks : ∀ {id e}, s.tasks id = some e → ∃ e', s'.tasks id = some e' ∧ (e' = e ∨ Change e e')
  contexts : ∀ {id c}, s.contexts id = some c →
    ∃ c', s'.contexts id = some c' ∧ c'.target = c.target ∧ c'.caller = c.caller
  /-- A context whose session changes bumps its tasks. -/
  sessions : ∀ {id e}, s.tasks id = some e → s'.contexts e.task.contextId = s.contexts e.task.contextId ∨
    ∃ e', s'.tasks id = some e' ∧ e.revision < e'.revision

theorem Touched.refl (s : Ledger P M) : Touched s s where
  ids := rfl
  messages := rfl
  absent _ none := none
  tasks there := ⟨_, there, .inl rfl⟩
  contexts there := ⟨_, there, rfl, rfl⟩
  sessions _ := .inl rfl

/-- Changing one entry lawfully is a lawful change. -/
theorem Touched.put {e' : Entry P M} (there : s.tasks id = some e) (change : e' = e ∨ Change e e') :
    Touched s (s.put id e') where
  ids := rfl
  messages := rfl
  absent other none := by
    have apart : other ≠ id := by
      rintro rfl
      rw [there] at none
      cases none
    simpa [Function.update_of_ne apart] using none
  tasks {other e₀} found := by
    by_cases same : other = id
    · subst same
      rw [there] at found
      cases found
      exact ⟨e', by simp, change⟩
    · exact ⟨e₀, by simpa [Function.update_of_ne same] using found, .inl rfl⟩
  contexts found := ⟨_, found, rfl, rfl⟩
  sessions _ := .inl rfl

/-- A stop changes an entry lawfully if at all, and asks its turn to stop. -/
theorem stopped_cases (going : e.state.isTerminal = false) :
    (stopped e = e ∨ Change e (stopped e)) ∧ (stopped e).cancellationRequested = true := by
  unfold stopped
  by_cases working : e.state = .working <;> by_cases flagged : e.cancellationRequested = true
  · exact ⟨.inl (by simp [working, flagged]), by simp [working, flagged]⟩
  · have change := Change.flag working (by simpa using flagged)
    exact ⟨.inr (by simpa [working, flagged] using change), by simp [working, flagged]⟩
  · have change := Change.cancel going e.revision le_rfl (by simp [flagged]) working
    rw [← flagged] at change
    rw [if_pos working, if_pos flagged]
    exact ⟨.inr change, flagged⟩
  · have change := Change.cancel going _ (Nat.le_succ _) (fun _ => Nat.lt_succ_self _) working
    exact ⟨.inr (by simpa [working, flagged] using change), by simp [working, flagged]⟩

/-- A cancel stops an entry of the caller's, or finds it cancelled. -/
theorem cancelEntry_cases (h : cancelEntry s caller to_ id = .ok s') :
    ∃ e, s.tasks id = some e ∧ e.caller = caller ∧ e.target = to_ ∧
      (e.state = .canceled ∧ s' = s ∨ e.state.isTerminal = false ∧ s' = s.put id (stopped e)) := by
  unfold cancelEntry at h
  obtain ⟨e, entry, h⟩ := bind_ok h
  obtain ⟨there, sameCaller, sameTarget⟩ := callerEntry_cases entry
  refine ⟨e, there, sameCaller, sameTarget, ?_⟩
  split at h
  · next canceled =>
    cases h
    exact .inl ⟨canceled, rfl⟩
  · split at h
    · cases h
    · next going =>
      cases h
      exact .inr ⟨by simpa using going, rfl⟩

/-- The same, for an agent of this home. -/
theorem requestCancel_cases (h : Store.requestCancel home s caller to_ id = .ok (s', r)) :
    target home to_ = .ok () ∧ cancelEntry s caller to_ id = .ok s' := by
  unfold Store.requestCancel at h
  obtain ⟨_, here, h⟩ := bind_ok h
  obtain ⟨s'', canceled, h⟩ := bind_ok h
  obtain ⟨_, _, h⟩ := bind_ok h
  cases h
  exact ⟨here, canceled⟩

/-- A cancel changes no other entry. -/
theorem cancelEntry_touched (h : cancelEntry s caller to_ id = .ok s') : Touched s s' := by
  obtain ⟨e, there, _, _, ⟨_, rfl⟩ | ⟨going, rfl⟩⟩ := cancelEntry_cases h
  · exact .refl _
  · exact .put there (stopped_cases going).1

/-- A row that names a task has a fingerprint and no fence. -/
theorem validate_accepted {d : Dedup} {task : String} (ok : d.validate caller to_ message = .ok ())
    (h : d.task = some task) : d.fence = none ∧ ∃ digest, d.fingerprint = some digest := by
  unfold Dedup.validate at ok
  split at ok
  · next f t digest _ fence => exact ⟨fence, f, digest⟩
  · next none _ => rw [h] at none; cases none
  · cases ok

/-- What an input was resolved to is what its row says. -/
theorem inputResolution_cases {resolution : InputResolution}
    (h : inputResolution x home s caller to_ message = .ok (some resolution)) :
    ∃ d, s.messages (x.inputKey caller to_.agent message) = some d ∧
      d.validate caller to_ message = .ok () ∧
      (d.task = none ∧ resolution = .fenced ∨
        ∃ task e, d.task = some task ∧ resolution.outcome = .accepted ∧ s.tasks task = some e ∧
          ∀ {ref state revision flag}, resolution = .known ref state revision flag →
            ref.id = task ∧ e.pendingMessage = message) := by
  unfold inputResolution at h
  split at h
  · cases h
  · next d row =>
    obtain ⟨_, valid, h⟩ := bind_ok h
    refine ⟨d, row, valid, ?_⟩
    split at h
    · next none =>
      cases h
      exact .inl ⟨none, rfl⟩
    · next task there =>
      obtain ⟨e, entry, h⟩ := bind_ok h
      obtain ⟨found, _, _⟩ := callerEntry_cases entry
      split at h
      · cases h
        exact .inr ⟨task, e, there, rfl, found, fun known => by cases known⟩
      · next pending =>
        cases h
        refine .inr ⟨task, e, there, rfl, found, fun known => ?_⟩
        cases known
        exact ⟨rfl, by simpa using pending⟩

theorem resolved_cases {r : InputResolution} (h : Store.resolved x home s caller to_ message = .ok (s', r)) :
    s' = s ∧ inputResolution x home s caller to_ message = .ok (some r) := by
  unfold Store.resolved at h
  obtain ⟨resolution, answer, h⟩ := bind_ok h
  split at h
  · cases h
    exact ⟨rfl, answer⟩
  · cases h

/-- A cancellation fences the input, finds what has become of it, or stops the task it is the last of. -/
theorem cancelInput_cases {r : InputResolution}
    (h : Store.cancelInput x home s caller to_ message parent = .ok (s', r)) :
    (s.messages (x.inputKey caller to_.agent message) = none ∧ r = .fenced ∧ s' = { s with
        messages := Function.update s.messages (x.inputKey caller to_.agent message)
          (some ⟨none, none, some ⟨caller, to_, message, parent⟩⟩) }) ∨
    ∃ d, s.messages (x.inputKey caller to_.agent message) = some d ∧
      d.validate caller to_ message = .ok () ∧
      (d.task = none ∧ r = .fenced ∧ s' = s ∨
        ∃ id e, d.task = some id ∧ r.outcome = .accepted ∧ s.tasks id = some e ∧ e.caller = caller ∧
          e.target = to_ ∧ (∀ {ref state revision flag}, r = .known ref state revision flag →
            ref.id = id ∧ e.pendingMessage = message) ∧
          (s' = s ∧ (e.pendingMessage ≠ message ∨ e.state.isTerminal = true) ∨
            e.pendingMessage = message ∧ cancelEntry s caller to_ id = .ok s')) := by
  unfold Store.cancelInput at h
  obtain ⟨_, _, h⟩ := bind_ok h
  dsimp only at h
  split at h
  · next d row =>
    obtain ⟨_, valid, h⟩ := bind_ok h
    refine .inr ⟨d, row, valid, ?_⟩
    split at h
    · next fence there =>
      split at h
      · cases h
      · cases h
        refine .inl ⟨?_, rfl, rfl⟩
        cases task : d.task with
        | none => rfl
        | some id =>
            rw [(validate_accepted valid task).1] at there
            cases there
    · cases h
    · next id none task =>
      obtain ⟨e, entry, h⟩ := bind_ok h
      obtain ⟨there, sameCaller, sameTarget⟩ := callerEntry_cases entry
      split at h
      · cases h
      · obtain ⟨s'', moved, h⟩ := bind_ok h
        obtain ⟨rfl, answer⟩ := resolved_cases h
        have same : s'.messages = s.messages := by
          split at moved
          · exact (cancelEntry_touched moved).messages
          · cases moved
            rfl
        obtain ⟨d', row', _, ⟨fenced, _⟩ | ⟨id', e', task', accepted, there', known⟩⟩ :=
          inputResolution_cases answer
        · rw [same, row] at row'
          cases row'
          rw [task] at fenced
          cases fenced
        · rw [same, row] at row'
          cases row'
          rw [task] at task'
          cases task'
          refine .inr ⟨id, e, task, accepted, there, sameCaller, sameTarget, fun found => ?_, ?_⟩
          · obtain ⟨sameId, pending⟩ := known found
            refine ⟨sameId, ?_⟩
            split at moved
            · next current => exact current.1
            · cases moved
              rw [there] at there'
              cases there'
              exact pending
          split at moved
          · next current => exact .inr ⟨current.1, moved⟩
          · next past =>
            cases moved
            refine .inl ⟨rfl, ?_⟩
            by_cases pending : e.pendingMessage = message
            · exact .inr (by simpa [pending] using past)
            · exact .inl pending
  · next row =>
    obtain ⟨rfl, answer⟩ := resolved_cases h
    obtain ⟨d', row', _, ⟨_, rfl⟩ | ⟨_, _, task, _⟩⟩ := inputResolution_cases answer
    · exact .inl ⟨row, rfl, rfl⟩
    · simp only [Function.update_self] at row'
      cases row'
      cases task

/-- A claim begins the turn of a submitted task. -/
theorem claim_cases {leased : String → Bool} {input : Message P M}
    (h : Store.claim leased s id message = .ok (s', turn, r, input)) :
    ∃ e, s.tasks id = some e ∧ e.state = .submitted ∧ e.pendingMessage = message ∧
      e.cancellationRequested = false ∧ leased e.task.contextId = false ∧
      e.task.history.find? (·.messageId = message) = some input ∧
      s' = s.put id (begun e) ∧ turn = e.turn + 1 ∧ r.caller = e.caller ∧ r.target = e.target ∧
      r.task.contextId = e.task.contextId := by
  unfold Store.claim at h
  split at h
  · cases h
  · next e there =>
    split at h
    · cases h
    · split at h
      · cases h
      · next ready =>
        obtain ⟨waits, pending, flag⟩ : e.state = .submitted ∧ e.pendingMessage = message ∧
            e.cancellationRequested = false := by simpa [not_or] using ready
        split at h
        · cases h
        · next free =>
          split at h
          · cases h
          · split at h
            · cases h
            · next found =>
              obtain ⟨_, recorded, h⟩ := bind_ok h
              cases h
              obtain ⟨e', there', sameTask, sameCaller, sameTarget⟩ := record_cases recorded
              rw [put_tasks, Function.update_self] at there'
              cases there'
              exact ⟨e, there, waits, pending, flag, by simpa using free, found, rfl, rfl, sameCaller,
                sameTarget, by rw [sameTask]; rfl⟩

/-- An update is of the turn that runs. -/
theorem update_cases {state : TaskState} {message : Option (Message P M)} {artifact : Option (Artifact P M)}
    (h : Store.executorUpdate x s id turn state message artifact = .ok (s', r)) :
    ∃ e e', s.tasks id = some e ∧ e.state.isTerminal = false ∧ e.turn = turn ∧ Change e e' ∧
      s' = s.put id e' := by
  unfold Store.executorUpdate at h
  obtain ⟨_, admitted, h⟩ := bind_ok h
  split at h
  · cases h
  · next e there =>
    split at h
    · cases h
    · next going =>
      split at h
      · cases h
      · next current =>
        obtain ⟨sameTurn, started⟩ : e.turn = turn ∧ e.state ≠ .submitted := by
          simpa [not_or] using current
        obtain ⟨_, _, h⟩ := bind_ok h
        obtain ⟨_, _, h⟩ := bind_ok h
        cases h
        have ends : state ≠ .submitted := by
          rintro rfl
          unfold Store.updatable at admitted
          rw [if_pos (.inr rfl)] at admitted
          cases admitted
        exact ⟨e, _, there, by simpa using going, sameTurn,
          .update _ state message (by simpa using going) started ends, rfl⟩

/-- Binding a session changes one context and no entry. -/
theorem Touched.bind {context : String} {c : Context} (there : s.contexts context = some c)
    (session : SessionRef) : Touched s (s.bind context c session) where
  ids := rfl
  messages := rfl
  absent other none := by simp [Ledger.bind, none]
  tasks {other e} found := by
    by_cases same : e.task.contextId = context
    · exact ⟨_, by simp [Ledger.bind, found, same], .inr .bind⟩
    · exact ⟨_, by simp [Ledger.bind, found, same], .inl rfl⟩
  contexts {other c'} found := by
    by_cases same : other = context
    · subst same
      rw [there] at found
      cases found
      exact ⟨{ c with session := some session }, by simp [Ledger.bind], rfl, rfl⟩
    · exact ⟨c', by simpa [Ledger.bind, Function.update_of_ne same] using found, rfl, rfl⟩
  sessions {other e} found := by
    by_cases same : e.task.contextId = context
    · exact .inr ⟨{ e with revision := e.revision + 1 }, by simp [Ledger.bind, found, same],
        Nat.lt_succ_self _⟩
    · exact .inl (by simp [Ledger.bind, Function.update_of_ne same])

theorem bindSession_touched {session : SessionRef} (h : Store.bindSession home s id turn session = .ok (s', r)) :
    (∃ e, s.tasks id = some e ∧ e.state.isTerminal = false ∧ e.turn = turn) ∧ Touched s s' := by
  unfold Store.bindSession at h
  obtain ⟨_, _, h⟩ := bind_ok h
  split at h
  · cases h
  · next e there =>
    split at h
    · cases h
    · next going =>
      split at h
      · cases h
      · next current =>
        refine ⟨⟨e, there, by simpa using going, by simpa using (not_or.mp current).1⟩, ?_⟩
        split at h
        · cases h
        · split at h
          · cases h
          · split at h
            · cases h
            · next c context =>
              split at h
              · cases h
              · obtain ⟨_, _, h⟩ := bind_ok h
                cases h
                by_cases first : c.session.isNone = true
                · rw [if_pos first]
                  exact .bind context session
                · rw [if_neg first]
                  exact .refl s

/-- A reconciliation fails the tasks that work without a worker, and does nothing else. -/
theorem interrupts_cases {leased : String → Bool} {message : String → Message P M} (ids : List String)
    (s : Ledger P M) :
    (ids.foldl (Store.interrupt leased message) s).ids = s.ids ∧
    (ids.foldl (Store.interrupt leased message) s).messages = s.messages ∧
    (ids.foldl (Store.interrupt leased message) s).contexts = s.contexts ∧
    ∀ id, (ids.foldl (Store.interrupt leased message) s).tasks id = s.tasks id ∨
      ∃ e, s.tasks id = some e ∧ e.state = .working ∧
        (ids.foldl (Store.interrupt leased message) s).tasks id =
          some (status e .failed (some (message id))) := by
  induction ids generalizing s with
  | nil => exact ⟨rfl, rfl, rfl, fun _ => .inl rfl⟩
  | cons i ids ih =>
      have first : Store.interrupt leased message s i = s ∨ ∃ e, s.tasks i = some e ∧
          e.state = .working ∧
          Store.interrupt leased message s i = s.put i (status e .failed (some (message i))) := by
        unfold Store.interrupt
        split
        · next e there =>
          split
          · next working =>
            rw [Bool.and_eq_true] at working
            exact .inr ⟨e, there, of_decide_eq_true working.1, rfl⟩
          · exact .inl rfl
        · exact .inl rfl
      rw [List.foldl_cons]
      obtain same | ⟨e, there, working, fails⟩ := first
      · rw [same]
        exact ih s
      · rw [fails]
        obtain ⟨sameIds, sameMessages, sameContexts, tasks⟩ :=
          ih (s.put i (status e .failed (some (message i))))
        refine ⟨sameIds, sameMessages, sameContexts, fun id => ?_⟩
        by_cases same : id = i
        · subst same
          obtain kept | ⟨e', found, working', _⟩ := tasks id
          · exact .inr ⟨e, there, working, by simpa using kept⟩
          · simp only [put_tasks, Function.update_self, Option.some.injEq] at found
            subst found
            cases working'
        · simpa [Function.update_of_ne same] using tasks id

/-- A recovery only fails what was working. -/
theorem recover_touched {leased : String → Bool} {message : String → Message P M} {records : List (Record P M)}
    (h : Store.recover leased message s = .ok (s', records)) : Touched s s' := by
  unfold Store.recover at h
  obtain ⟨_, _, h⟩ := bind_ok h
  cases h
  obtain ⟨ids, messages, contexts, tasks⟩ := @interrupts_cases _ _ leased message s.ids s
  refine ⟨ids, messages, fun id none => ?_, fun {id e} there => ?_, fun there => ⟨_, by rw [contexts, there], rfl, rfl⟩,
    fun _ => .inl (by rw [contexts])⟩
  · obtain same | ⟨e, there, _⟩ := tasks id
    · rw [same, none]
    · rw [none] at there
      cases there
  · obtain same | ⟨e', there', working, fails⟩ := tasks id
    · exact ⟨e, by rw [same, there], .inl rfl⟩
    · rw [there] at there'
      cases there'
      exact ⟨_, fails, .inr (.fail _ working)⟩

/-- How an accepted message comes into the ledger. -/
inductive Placed (leased : String → Bool) (newContext newTask : String) (caller : DeviceId)
    (to_ : AgentTarget) (message : Message P M) (parent : Option TaskRef) (s : Ledger P M) :
    Ledger P M → String → Prop where
  /-- It opens a task in a known context. -/
  | opens {context : String} {c : Context} (unnamed : message.taskId = none)
      (there : s.contexts context = some c) (sameCaller : c.caller = caller) (sameTarget : c.target = to_) :
      Placed leased newContext newTask caller to_ message parent s
        { s with
          tasks := Function.update s.tasks newTask
            (some (opened newTask context caller to_ message parent))
          ids := s.ids ++ [newTask] } newTask
  /-- It opens a task in a context of its own. -/
  | starts (unnamed : message.taskId = none) :
      Placed leased newContext newTask caller to_ message parent s
        { s with
          tasks := Function.update s.tasks newTask
            (some (opened newTask newContext caller to_ message parent))
          ids := s.ids ++ [newTask]
          contexts := Function.update s.contexts newContext (some ⟨to_, caller, none⟩)
          contextIds := s.contextIds ++ [newContext] } newTask
  /-- It is the answer that a task waits for. -/
  | replies {id : String} {e : Entry P M} (named : message.taskId = some id)
      (there : s.tasks id = some e) (sameCaller : e.caller = caller) (sameTarget : e.target = to_)
      (sameParent : e.parent = parent) (waits : e.state.suspended = true)
      (flag : e.cancellationRequested = false) (free : leased e.task.contextId = false) :
      Placed leased newContext newTask caller to_ message parent s (s.put id (replied e message)) id

/-- A message to a task is placed in it. -/
theorem followUp_cases {leased : String → Bool} {message : Message P M} (named : message.taskId = some id)
    (h : Store.followUp leased s caller to_ message parent id = .ok s') :
    Placed leased newContext newTask caller to_ message parent s s' id := by
  unfold Store.followUp at h
  obtain ⟨e, entry, h⟩ := bind_ok h
  obtain ⟨there, sameCaller, sameTarget⟩ := callerEntry_cases entry
  split at h
  · cases h
  · split at h
    · cases h
    · next fits =>
      split at h
      · cases h
      · next ready =>
        split at h
        · cases h
        · next free =>
          cases h
          obtain ⟨flag, waits⟩ : e.cancellationRequested = false ∧ e.state.suspended = true := by
            simpa using ready
          exact .replies named there sameCaller sameTarget (by simpa using (not_or.mp fits).2) waits
            flag (by simpa using free)

/-- A message to no task is placed in a new one. -/
theorem opening_cases {leased : String → Bool} {message : Message P M} (unnamed : message.taskId = none)
    (h : Store.opening newContext newTask s caller to_ message parent = .ok s') :
    Placed leased newContext newTask caller to_ message parent s s' newTask := by
  unfold Store.opening at h
  obtain ⟨⟨mid, context⟩, placed, h⟩ := bind_ok h
  cases h
  split at placed
  · split at placed
    · next there =>
      split at placed
      · next owned =>
        cases placed
        exact .opens unnamed there owned.1 owned.2
      · cases placed
    · cases placed
  · cases placed
    exact .starts unnamed

/-- A message is known already, or it is placed and its row is written. -/
theorem accept_cases {leased : String → Bool} {message : Message P M} {sub : Submission P M}
    (h : Store.accept x home leased newContext newTask s caller to_ message parent = .ok (s', sub)) :
    Store.acceptable x home to_ message parent = .ok () ∧
    ((∃ d task, s.messages (x.inputKey caller to_.agent message.messageId) = some d ∧
        d.validate caller to_ message.messageId = .ok () ∧ d.task = some task ∧
        d.fingerprint = some (x.digest to_ message parent) ∧ s' = s ∧ sub.accepted = false ∧
        record s task = .ok sub.record) ∨
      (s.messages (x.inputKey caller to_.agent message.messageId) = none ∧ sub.accepted = true ∧
        ∃ mid id, Placed leased newContext newTask caller to_ message parent s mid id ∧ s' = { mid with
            messages := Function.update mid.messages (x.inputKey caller to_.agent message.messageId)
              (some ⟨some (x.digest to_ message parent), some id, none⟩) } ∧
          record s' id = .ok sub.record)) := by
  unfold Store.accept at h
  obtain ⟨_, fits, h⟩ := bind_ok h
  refine ⟨fits, ?_⟩
  dsimp only at h
  split at h
  · next d row =>
    obtain ⟨_, valid, h⟩ := bind_ok h
    split at h
    · cases h
    · next task there =>
      split at h
      · cases h
      · next same =>
        obtain ⟨r, recorded, h⟩ := bind_ok h
        cases h
        exact .inl ⟨d, task, row, valid, there, by simpa using same, rfl, rfl, recorded⟩
  · next row =>
    refine .inr ⟨row, ?_⟩
    obtain ⟨mid, placing, h⟩ := bind_ok h
    have placed : Placed leased newContext newTask caller to_ message parent s mid
        (message.taskId.getD newTask) := by
      cases named : message.taskId with
      | some id =>
          rw [named] at placing
          exact followUp_cases named placing
      | none =>
          rw [named] at placing
          exact opening_cases named placing
    split at h
    · cases h
    · obtain ⟨_, _, h⟩ := bind_ok h
      obtain ⟨r, recorded, h⟩ := bind_ok h
      cases h
      exact ⟨rfl, mid, _, placed, rfl, recorded⟩

/-- A transaction is not written, or it is and its caller may be told otherwise. -/
theorem transact_cases {α : Type} (x : Externals P M) (fate : Fate) (s : Ledger P M)
    (result : Except Error (Ledger P M × α)) :
    (written x fate result = none ∧ ∃ e, transact x fate s result = (s, .error e)) ∨
    ∃ s' a, result = .ok (s', a) ∧ x.ledgerBytes s' ≤ MAX_STORE_BYTES ∧
      written x fate result = some (s', a) ∧
      (transact x fate s result = (s', .ok a) ∨ transact x fate s result = (s', .error .io)) := by
  unfold written transact
  cases result with
  | error e => exact .inl ⟨rfl, e, rfl⟩
  | ok done =>
      obtain ⟨s', a⟩ := done
      dsimp only
      by_cases full : MAX_STORE_BYTES < x.ledgerBytes s'
      · rw [if_pos full, if_pos full]
        exact .inl ⟨rfl, _, rfl⟩
      · rw [if_neg full, if_neg full]
        cases fate with
        | saved => exact .inr ⟨s', a, rfl, not_lt.mp full, rfl, .inl rfl⟩
        | lost => exact .inl ⟨rfl, _, rfl⟩
        | unconfirmed => exact .inr ⟨s', a, rfl, not_lt.mp full, rfl, .inr rfl⟩

end Cases

end Khor.A2a
