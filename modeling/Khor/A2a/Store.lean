/-
Module: Khor.A2a.Store
Purpose: The delegation store of an execution home: tasks with their turns, contexts with their session, and
  the index of inputs, each changed by one locked transaction (crates/a2a/src/store.rs).
Trusted boundary: serde_json and blake3; the locks of the operating system
Main exports: Ledger, Store.accept, Store.cancelInput, Store.requestCancel, Store.claim
-/
import Khor.Lib.Decimal

namespace Khor.A2a

def MAX_MESSAGE_BYTES : Nat := 128 * 1024

def MAX_TASK_BYTES : Nat := 4 * 1024 * 1024

def MAX_STORE_BYTES : Nat := 64 * 1024 * 1024

abbrev DeviceId := Vector UInt8 32

structure AgentTarget where
  home : DeviceId
  agent : String
deriving DecidableEq

structure SessionRef where
  home : DeviceId
  id : String
deriving DecidableEq

structure TaskRef where
  home : DeviceId
  id : String
deriving DecidableEq

inductive Role where
  | unspecified
  | user
  | agent
deriving DecidableEq

inductive TaskState where
  | unspecified
  | submitted
  | working
  | inputRequired
  | authRequired
  | completed
  | failed
  | canceled
  | rejected
deriving DecidableEq

def TaskState.isTerminal : TaskState → Bool
  | completed | failed | canceled | rejected => true
  | _ => false

/-- The states in which a turn waits for the next input. -/
def TaskState.suspended : TaskState → Bool
  | inputRequired | authRequired => true
  | _ => false

/-- A message; `P` are its parts, `M` the rest of it. -/
structure Message (P M : Type) where
  messageId : String
  role : Role
  taskId : Option String
  contextId : Option String
  parts : List P
  rest : M

structure Artifact (P M : Type) where
  artifactId : String
  parts : List P
  rest : M

structure TaskStatus (P M : Type) where
  state : TaskState
  message : Option (Message P M)

structure Task (P M : Type) where
  id : String
  contextId : String
  status : TaskStatus P M
  artifacts : List (Artifact P M)
  history : List (Message P M)

structure Entry (P M : Type) where
  task : Task P M
  target : AgentTarget
  caller : DeviceId
  parent : Option TaskRef
  revision : Nat
  cancellationRequested : Bool
  turn : Nat
  pendingMessage : String

def Entry.state {P M : Type} (e : Entry P M) : TaskState := e.task.status.state

structure Context where
  target : AgentTarget
  caller : DeviceId
  session : Option SessionRef

structure InputFence where
  caller : DeviceId
  target : AgentTarget
  message : String
  parent : Option TaskRef

/-- A row of the index: an acceptance, or a fence. -/
structure Dedup where
  fingerprint : Option String
  task : Option String
  fence : Option InputFence

/-- What the file holds; `ids` and `contextIds` list the keys. -/
structure Ledger (P M : Type) where
  tasks : String → Option (Entry P M)
  ids : List String
  contexts : String → Option Context
  contextIds : List String
  messages : String → Option Dedup

def Ledger.empty {P M : Type} : Ledger P M := ⟨fun _ => none, [], fun _ => none, [], fun _ => none⟩

structure Record (P M : Type) where
  task : Task P M
  target : AgentTarget
  caller : DeviceId
  parent : Option TaskRef
  contextSession : Option SessionRef
  revision : Nat
  cancellationRequested : Bool

structure Submission (P M : Type) where
  record : Record P M
  accepted : Bool

inductive InputResolution where
  | fenced
  | known (task : TaskRef) (state : TaskState) (revision : Nat) (cancellationRequested : Bool)
  | superseded (task : TaskRef)

inductive Error where
  | io
  | corrupt (why : String)
  | invalid (why : String)
  | notFound (id : String)
  | conflict
  | inputFenced
  | busy
  | terminal
  | notCancelable (id : String)

/-- What the store uses of `serde_json` and blake3. -/
structure Externals (P M : Type) where
  inputKey : DeviceId → String → String → String
  digest : AgentTarget → Message P M → Option TaskRef → String
  messageBytes : Message P M → Nat
  entryBytes : Entry P M → Nat
  ledgerBytes : Ledger P M → Nat

/-- 64 digits of base 16. -/
def isFingerprint (s : String) : Bool :=
  s.utf8ByteSize = 64 &&
    s.toList.all fun c => c.isDigit || ('a' ≤ c && c ≤ 'f') || ('A' ≤ c && c ≤ 'F')

/-- A digest is written in base 16. -/
structure Externals.Lawful {P M : Type} (x : Externals P M) : Prop where
  fingerprint : ∀ t m p, isFingerprint (x.digest t m p) = true

/-! ### Checks -/

def isControl (c : Char) : Bool := c.toNat < 0x20 || (0x7f ≤ c.toNat && c.toNat < 0xa0)

def opaqueId (value : String) : Except Error Unit :=
  if value.toList.all isSpace || 256 < value.utf8ByteSize || value.toList.any isControl then
    .error (.invalid "An identifier is empty, too long or contains control characters")
  else .ok ()

def target (home : DeviceId) (to_ : AgentTarget) : Except Error Unit :=
  if to_.home ≠ home then .error (.invalid "Delegation reached the wrong execution home")
  else opaqueId to_.agent

/-- `Dedup::validate`. -/
def Dedup.validate (d : Dedup) (caller : DeviceId) (to_ : AgentTarget) (message : String) :
    Except Error Unit :=
  match d.fingerprint, d.task, d.fence with
  | some fingerprint, some task, none =>
      if isFingerprint fingerprint then opaqueId task
      else .error (.corrupt "Input index has no valid acceptance or exact fence")
  | none, none, some fence =>
      if fence.caller = caller ∧ fence.target = to_ ∧ fence.message = message ∧
          fence.parent.all (fun parent => parent.home = caller && (opaqueId parent.id).toBool) then .ok ()
      else .error (.corrupt "Input index has no valid acceptance or exact fence")
  | _, _, _ => .error (.corrupt "Input index has no valid acceptance or exact fence")

section Transactions

variable {P M : Type}

def callerEntry (s : Ledger P M) (caller : DeviceId) (to_ : AgentTarget) (id : String) :
    Except Error (Entry P M) :=
  match s.tasks id with
  | some e => if e.caller = caller ∧ e.target = to_ then .ok e else .error (.notFound id)
  | none => .error (.notFound id)

def record (s : Ledger P M) (id : String) : Except Error (Record P M) :=
  match s.tasks id with
  | none => .error (.notFound id)
  | some e =>
      match s.contexts e.task.contextId with
      | some c =>
          if c.target = e.target ∧ c.caller = e.caller then
            .ok ⟨e.task, e.target, e.caller, e.parent, c.session, e.revision, e.cancellationRequested⟩
          else .error (.corrupt "Task context is missing or inconsistent")
      | none => .error (.corrupt "Task context is missing or inconsistent")

/-- `status`: the message names the task it is about, and is kept where the turn ends. -/
def status (e : Entry P M) (state : TaskState) (message : Option (Message P M)) : Entry P M :=
  let message := message.map fun m => { m with taskId := some e.task.id, contextId := some e.task.contextId }
  { e with
    task := { e.task with
      history := if state.isTerminal || state.suspended then e.task.history ++ message.toList
        else e.task.history
      status := ⟨state, message⟩ }
    revision := e.revision + 1 }

def Ledger.put (s : Ledger P M) (id : String) (e : Entry P M) : Ledger P M :=
  { s with tasks := Function.update s.tasks id (some e) }

/-- The context takes the session, and its tasks are bumped. -/
def Ledger.bind (s : Ledger P M) (context : String) (c : Context) (session : SessionRef) :
    Ledger P M :=
  { s with
    contexts := Function.update s.contexts context (some { c with session := some session })
    tasks := fun other => (s.tasks other).map fun e =>
      if e.task.contextId = context then { e with revision := e.revision + 1 } else e }

/-- `Store::bounded`. -/
def bounded (x : Externals P M) (e : Entry P M) : Except Error Unit :=
  let limit := if e.state.isTerminal then MAX_TASK_BYTES else MAX_TASK_BYTES - 4096
  if limit < x.entryBytes e then .error (.invalid "Delegation task exceeds its size limit") else .ok ()

def inputResolution (x : Externals P M) (home : DeviceId) (s : Ledger P M) (caller : DeviceId)
    (to_ : AgentTarget) (message : String) : Except Error (Option InputResolution) :=
  match s.messages (x.inputKey caller to_.agent message) with
  | none => .ok none
  | some prior => do
      prior.validate caller to_ message
      match prior.task with
      | none => .ok (some .fenced)
      | some task =>
          let e ← callerEntry s caller to_ task
          if e.pendingMessage ≠ message then .ok (some (.superseded ⟨home, task⟩))
          else .ok (some (.known ⟨home, task⟩ e.state e.revision e.cancellationRequested))

/-- The entry as a cancellation leaves it: an idle task is canceled, a working one is asked to stop. -/
def stopped (e : Entry P M) : Entry P M :=
  let flagged := if e.cancellationRequested then e
    else { e with cancellationRequested := true, revision := e.revision + 1 }
  if e.state ≠ .working then status flagged .canceled none else flagged

/-- `cancel_entry`. -/
def cancelEntry (s : Ledger P M) (caller : DeviceId) (to_ : AgentTarget) (id : String) :
    Except Error (Ledger P M) := do
  let e ← callerEntry s caller to_ id
  if e.state = .canceled then .ok s
  else if e.state.isTerminal then .error (.notCancelable id)
  else .ok (s.put id (stopped e))

namespace Store

/-- A message for a task that waits for input. -/
def followUp (leased : String → Bool) (s : Ledger P M) (caller : DeviceId) (to_ : AgentTarget)
    (message : Message P M) (parent : Option TaskRef) (id : String) : Except Error (Ledger P M) := do
  let e ← callerEntry s caller to_ id
  if e.state.isTerminal then .error .terminal
  else if message.contextId.any (· ≠ e.task.contextId) ∨ e.parent ≠ parent then .error .conflict
  else if e.cancellationRequested || !e.state.suspended then .error .busy
  else if leased e.task.contextId then .error .busy
  else
    let delivered := { message with contextId := some e.task.contextId }
    let e := { e with
      task := { e.task with history := e.task.history ++ [delivered] }
      pendingMessage := message.messageId }
    .ok (s.put id (status e .submitted none))

/-- A message that opens a task, in a context of its own or in a known one. -/
def opening (newContext newTask : String) (s : Ledger P M) (caller : DeviceId) (to_ : AgentTarget)
    (message : Message P M) (parent : Option TaskRef) : Except Error (Ledger P M) := do
  let (s, context) ← (match message.contextId with
    | some id =>
        match s.contexts id with
        | some c => if c.caller = caller ∧ c.target = to_ then .ok (s, id) else .error (.notFound id)
        | none => .error (.notFound id)
    | none =>
        .ok ({ s with
          contexts := Function.update s.contexts newContext (some ⟨to_, caller, none⟩)
          contextIds := s.contextIds ++ [newContext] }, newContext))
  let delivered := { message with taskId := some newTask, contextId := some context }
  .ok { s with
    tasks := Function.update s.tasks newTask (some
      { task := ⟨newTask, context, ⟨.submitted, none⟩, [], [delivered]⟩
        target := to_
        caller := caller
        parent := parent
        revision := 1
        cancellationRequested := false
        turn := 0
        pendingMessage := message.messageId })
    ids := s.ids ++ [newTask] }

/-- What `accept` refuses before it looks at the store. -/
def acceptable (x : Externals P M) (home : DeviceId) (to_ : AgentTarget) (message : Message P M)
    (parent : Option TaskRef) : Except Error Unit := do
  target home to_
  opaqueId message.messageId
  (message.taskId.toList ++ message.contextId.toList).forM opaqueId
  if message.role ≠ .user ∨ message.parts = [] then
    .error (.invalid "A delegation requires a client message with content")
  else do
    parent.toList.forM fun parent => opaqueId parent.id
    if MAX_MESSAGE_BYTES < x.messageBytes message then
      .error (.invalid "Delegation message exceeds its size limit")
    else .ok ()

/-- `Store::accept`; `newContext` and `newTask` are the ids it would draw. -/
def accept (x : Externals P M) (home : DeviceId) (leased : String → Bool) (newContext newTask : String)
    (s : Ledger P M) (caller : DeviceId) (to_ : AgentTarget) (message : Message P M)
    (parent : Option TaskRef) : Except Error (Ledger P M × Submission P M) := do
  acceptable x home to_ message parent
  let key := x.inputKey caller to_.agent message.messageId
  let digest := x.digest to_ message parent
  match s.messages key with
  | some prior => do
      prior.validate caller to_ message.messageId
      match prior.task with
      | none => .error .inputFenced
      | some task =>
          if prior.fingerprint ≠ some digest then .error .conflict
          else .ok (s, ⟨← record s task, false⟩)
  | none => do
      let id := message.taskId.getD newTask
      let s ← (match message.taskId with
        | some id => followUp leased s caller to_ message parent id
        | none => opening newContext newTask s caller to_ message parent)
      match s.tasks id with
      | none => .error (.notFound id)
      | some e => do
          bounded x e
          let s := { s with
            messages := Function.update s.messages key (some ⟨some digest, some id, none⟩) }
          .ok (s, ⟨← record s id, true⟩)

/-- `Store::get`. -/
def get (home : DeviceId) (s : Ledger P M) (caller : DeviceId) (to_ : AgentTarget) (id : String) :
    Except Error (Record P M) := do
  target home to_
  let _ ← callerEntry s caller to_ id
  record s id

/-- `Store::request_cancel`. -/
def requestCancel (home : DeviceId) (s : Ledger P M) (caller : DeviceId) (to_ : AgentTarget)
    (id : String) : Except Error (Ledger P M × Record P M) := do
  target home to_
  let s ← cancelEntry s caller to_ id
  .ok (s, ← record s id)

/-- `Store::find_owned_message`. -/
def findOwnedMessage (x : Externals P M) (home : DeviceId) (s : Ledger P M) (caller : DeviceId)
    (to_ : AgentTarget) (message : String) : Except Error (Option InputResolution) := do
  target home to_
  opaqueId message
  inputResolution x home s caller to_ message

/-- What has become of the input, as `cancel_input` answers it. -/
def resolved (x : Externals P M) (home : DeviceId) (s : Ledger P M) (caller : DeviceId)
    (to_ : AgentTarget) (message : String) : Except Error (Ledger P M × InputResolution) := do
  match ← inputResolution x home s caller to_ message with
  | some resolution => .ok (s, resolution)
  | none => .error (.corrupt "Input resolution disappeared")

/-- What `cancel_input` refuses before it looks at the store. -/
def stoppable (home caller : DeviceId) (to_ : AgentTarget) (message : String) (parent : Option TaskRef) :
    Except Error Unit := do
  target home to_
  opaqueId message
  parent.toList.forM fun parent => do
    opaqueId parent.id
    if parent.home ≠ caller then .error (.invalid "Input parent belongs to another caller") else .ok ()

/-- `Store::cancel_input`. -/
def cancelInput (x : Externals P M) (home : DeviceId) (s : Ledger P M) (caller : DeviceId)
    (to_ : AgentTarget) (message : String) (parent : Option TaskRef) :
    Except Error (Ledger P M × InputResolution) := do
  stoppable home caller to_ message parent
  let key := x.inputKey caller to_.agent message
  match s.messages key with
  | some prior => do
      prior.validate caller to_ message
      match prior.fence, prior.task with
      | some fence, _ => if fence.parent ≠ parent then .error .conflict else .ok (s, .fenced)
      | none, none => .error (.corrupt "Input index has no valid acceptance or exact fence")
      | none, some id => do
          let e ← callerEntry s caller to_ id
          if e.parent ≠ parent then .error .conflict
          else
            let s ← (if e.pendingMessage = message ∧ !e.state.isTerminal then cancelEntry s caller to_ id
              else .ok s)
            resolved x home s caller to_ message
  | none =>
      let fence : InputFence := ⟨caller, to_, message, parent⟩
      resolved x home
        { s with messages := Function.update s.messages key (some ⟨none, none, some fence⟩) }
        caller to_ message

/-- Another task of the context is at work. -/
def othersWork (s : Ledger P M) (id context : String) : Bool :=
  s.ids.any fun other => (s.tasks other).any fun e =>
    e.task.id ≠ id && e.task.contextId = context && e.state = .working

/-- `Store::claim`: the turn, the record and the input that is handed over. -/
def claim (leased : String → Bool) (s : Ledger P M) (id message : String) :
    Except Error (Ledger P M × Nat × Record P M × Message P M) := do
  match s.tasks id with
  | none => .error (.notFound id)
  | some e =>
      if e.state.isTerminal then .error .terminal
      else if e.state ≠ .submitted ∨ e.pendingMessage ≠ message ∨ e.cancellationRequested then .error .busy
      else if leased e.task.contextId then .error .busy
      else if othersWork s id e.task.contextId then .error .busy
      else
        match e.task.history.find? (·.messageId = message) with
        | none => .error (.corrupt "Accepted input is missing")
        | some input => do
            let s := s.put id (status { e with turn := e.turn + 1 } .working none)
            .ok (s, e.turn + 1, ← record s id, input)

/-- An artifact takes the place of the one that has its id. -/
def withArtifact (artifacts : List (Artifact P M)) (artifact : Artifact P M) : List (Artifact P M) :=
  match artifacts.findIdx? (·.artifactId = artifact.artifactId) with
  | some i => artifacts.set i artifact
  | none => artifacts ++ [artifact]

/-- What `executor_update` refuses before it looks at the store. -/
def updatable (state : TaskState) (message : Option (Message P M)) (artifact : Option (Artifact P M)) :
    Except Error Unit := do
  if state = .unspecified ∨ state = .submitted then
    .error (.invalid "An executor cannot reset a task to submitted or unspecified")
  else if message.any fun m => m.role ≠ .agent || m.parts.isEmpty then
    .error (.invalid "An executor status message must be an agent message")
  else do
    message.toList.forM fun m => opaqueId m.messageId
    artifact.toList.forM fun a => do
      opaqueId a.artifactId
      if a.parts.isEmpty then .error (.invalid "An artifact requires content") else .ok ()

/-- `Store::executor_update`. -/
def executorUpdate (x : Externals P M) (s : Ledger P M) (id : String) (turn : Nat) (state : TaskState)
    (message : Option (Message P M)) (artifact : Option (Artifact P M)) :
    Except Error (Ledger P M × Record P M) := do
  updatable state message artifact
  match s.tasks id with
  | none => .error (.notFound id)
  | some e =>
      if e.state.isTerminal then .error .terminal
      else if e.turn ≠ turn ∨ e.state = .submitted then .error .conflict
      else do
        let artifacts := match artifact with
          | some artifact => withArtifact e.task.artifacts artifact
          | none => e.task.artifacts
        let e := status { e with task := { e.task with artifacts := artifacts } } state message
        bounded x e
        let s := s.put id e
        .ok (s, ← record s id)

/-- `Store::bind_session`. -/
def bindSession (home : DeviceId) (s : Ledger P M) (id : String) (turn : Nat) (session : SessionRef) :
    Except Error (Ledger P M × Record P M) := do
  opaqueId session.id
  match s.tasks id with
  | none => .error (.notFound id)
  | some e =>
      if e.state.isTerminal then .error .terminal
      else if e.turn ≠ turn ∨ e.state = .submitted then .error .conflict
      else if session.home ≠ home then
        .error (.invalid "A session binding must belong to the execution home")
      else if s.contextIds.any fun other =>
          other ≠ e.task.contextId && (s.contexts other).any (·.session = some session) then .error .conflict
      else
        match s.contexts e.task.contextId with
        | none => .error (.corrupt "Context missing")
        | some c =>
            if c.session.any (· ≠ session) then .error .conflict
            else
              let s := if c.session.isNone then s.bind e.task.contextId c session else s
              .ok (s, ← record s id)

/-- A working task whose worker is gone fails; `message` is drawn for it. -/
def interrupt (leased : String → Bool) (message : String → Message P M) (s : Ledger P M) (id : String) :
    Ledger P M :=
  match s.tasks id with
  | some e =>
      if e.state = .working && !leased e.task.contextId then
        s.put id (status e .failed (some (message id)))
      else s
  | none => s

/-- `Store::recover`; the records it returns are those of the tasks it changed. -/
def recover (leased : String → Bool) (message : String → Message P M) (s : Ledger P M) :
    Except Error (Ledger P M × List (Record P M)) := do
  let changed := s.ids.filter fun id =>
    (s.tasks id).any fun e => e.state = .working && !leased e.task.contextId
  let s := s.ids.foldl (interrupt leased message) s
  let records ← changed.mapM (record s)
  .ok (s, records)

end Store

end Transactions

end Khor.A2a
