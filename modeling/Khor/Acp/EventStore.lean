/-
Module: Khor.Acp.EventStore
Purpose: The event store between an agent's connection and its one receiver: producers, the worker that
  writes and reads the spool, the receiver and fences, each step one holding of the mutex or one merge
  into the watch channel (crates/acp/src/event_store.rs).
Trusted boundary: serde_json; the spool's segments and bytes, the credits and the wake-ups
Main exports: State, Task, Worker, Task.run, World.receive
-/
import Mathlib

namespace Khor.Acp.EventStore

abbrev Bytes := List UInt8

def u64Max : Nat := 2 ^ 64 - 1

inductive RecordKind where
  | note
  | ready
  | elicitDone
  | interaction

structure Record where
  sequence : Nat
  kind : RecordKind
  payload : Bytes

/-- An event; `N` are the notifications of an agent, `Q` its questions (`Ask` and `Elicit`). -/
inductive Event (N Q : Type) where
  | ready (session : String)
  | note (note : N)
  | question (question : Q)
  | elicitDone (id : String)
  | closed (error : Option String)
deriving DecidableEq

structure Queued (N Q : Type) where
  record : Record
  interaction : Option (Event N Q)

structure Output (N Q : Type) where
  sequence : Option Nat
  event : Event N Q

inductive SourceEnd where
  | eof (through : Nat)
  /-- The transport ended; its actual process or shutdown fact is still pending. -/
  | closing (through sequence : Nat)
  | closed (through sequence : Nat) (error : Option String)

namespace SourceEnd

def dataThrough : SourceEnd → Nat
  | eof through | closing through _ | closed through _ _ => through

def eventSequence : SourceEnd → Option Nat
  | eof _ => none
  | closing _ sequence | closed _ sequence _ => some sequence

def confirmed : SourceEnd → Bool
  | closing _ _ => false
  | _ => true

end SourceEnd

/-- What the mutex guards. -/
structure State (N Q : Type) where
  queue : List (Queued N Q)
  accepted : Nat
  written : Nat
  delivered : Nat
  readRequested : Bool
  output : Option (Output N Q)
  «end» : Option SourceEnd
  failed : Option String
  receiverAlive : Bool
  readyEnqueued : Bool
  session : Option String
  done : Bool

/-- What a fence watches. -/
structure Progress where
  written : Nat
  failed : Option String

/-- The spool, a first-in first-out file of records: all that were appended, and how many were read. -/
structure Spool where
  records : List Record
  read : Nat
  poisoned : Bool

/-- What the store uses of `serde_json`, and the session a notification names. -/
structure Externals (N : Type) where
  session : N → String
  toVec : N → Bytes
  fromReader : Bytes → Except String N
  idToVec : String → Bytes
  idFromReader : Bytes → Except String String

/-- What was encoded is decoded. -/
structure Externals.Lawful {N : Type} (x : Externals N) : Prop where
  note : ∀ n, x.fromReader (x.toVec n) = .ok n
  id : ∀ id, x.idFromReader (x.idToVec id) = .ok id

inductive WorkerEnd where
  | source (end_ : SourceEnd)
  | cancelled
  | failed (error : String)

/-- Where the worker is. -/
inductive Worker (N Q : Type) where
  | starting
  | next (preferRead : Bool)
  | writing (item : Queued N Q)
  | appended (item : Queued N Q)
  | terminal (sequence : Nat) (preferRead : Bool)
  | reading
  | decoding (record : Record)
  | placing (output : Output N Q)
  /-- Dropped before it started. -/
  | abandoned
  | merging (progress : Progress) (next : Worker N Q)
  | completing (end_ : WorkerEnd)
  | emptying (end_ : WorkerEnd)
  | cleaning (end_ : WorkerEnd)
  | reporting (end_ : WorkerEnd) (resource : Except String Unit)
  | ended

inductive Receiver where
  | polling
  | failing (error : String)
  | ended
  | dropped
deriving DecidableEq

/-- What a producer or a fence does next: one holding of the mutex, or one merge. -/
inductive Task (N Q : Type) where
  | note (n : N)
  | enqueue (event : Event N Q)
  | acceptSession (session : String)
  | ready (session : String)
  | beginClose
  | confirm (error : Option String)
  | sourceEof
  | cancel (reason : String)
  | pulse
  | merge (progress : Progress)
  | fence
  /-- A fence waits; beside what it waits for, how many events had been accepted when it was asked. -/
  | watch (through before : Nat)

/-- The calls on a sender and on a fence. -/
inductive Call (N Q : Type) where
  | note (n : N)
  | acceptSession (session : String)
  | ready (session : String)
  | elicitationDone (id : String)
  | interaction (question : Q)
  | beginClose
  | closed (error : Option String)
  | sourceEof
  | cancel (reason : String)
  | wait

def Call.tasks {N Q : Type} : Call N Q → List (Task N Q)
  | note n => [.note n]
  | acceptSession session => [.acceptSession session]
  | ready session => [.ready session]
  | elicitationDone id => [.enqueue (.elicitDone id)]
  | interaction question => [.enqueue (.question question)]
  | beginClose => [.beginClose]
  | closed error => [.beginClose, .confirm error]
  | sourceEof => [.sourceEof]
  | cancel reason => [.cancel reason]
  | wait => [.fence]

/-- A fence that returned Ok: what it waited for, and how many events had been accepted before. -/
structure Passed where
  through : Nat
  before : Nat

/-- The store with everything that runs on it. Not of the program, but of what happened: the events in the
order they were accepted, those handed to the receiver, how far the writing was when a failure was first
recorded, and the fences that returned Ok. -/
structure World (N Q : Type) where
  state : State N Q
  cancelled : Bool
  progress : Progress
  worker : Worker N Q
  spool : Spool
  interactions : List (Nat × Event N Q)
  receiver : Receiver
  threads : List (List (Task N Q))
  log : List (Event N Q)
  handed : List (Event N Q)
  failedAt : Option Nat
  passed : List Passed

def World.init {N Q : Type} : World N Q where
  state := ⟨[], 0, 0, 0, false, none, none, none, true, false, none, false⟩
  cancelled := false
  progress := ⟨0, none⟩
  worker := .starting
  spool := ⟨[], 0, false⟩
  interactions := []
  receiver := .polling
  threads := []
  log := []
  handed := []
  failedAt := none
  passed := []

section Producers

variable {N Q : Type}

def State.writable (state : State N Q) : Except String Unit :=
  match state.failed with
  | some error => .error error
  | none =>
      if !state.receiverAlive then .error "ACP event receiver closed"
      else if state.end.isSome || state.done then .error "ACP event source closed"
      else .ok ()

/-- The record of an event; its sequence comes from `enqueue`. -/
def recordOf (x : Externals N) (sequence : Nat) : Event N Q → Record
  | .note n => ⟨sequence, .note, x.toVec n⟩
  | .elicitDone id => ⟨sequence, .elicitDone, x.idToVec id⟩
  | .question _ => ⟨sequence, .interaction, []⟩
  | .ready _ | .closed _ => ⟨sequence, .ready, []⟩

def queuedOf (x : Externals N) (sequence : Nat) (event : Event N Q) : Queued N Q :=
  ⟨recordOf x sequence event, match event with
    | .question _ => some event
    | _ => none⟩

/-- `Shared::enqueue`, under the mutex. -/
def enqueue (x : Externals N) (w : World N Q) (event : Event N Q) : Except String (World N Q) := do
  w.state.writable
  if w.state.accepted + 1 ≤ u64Max then
    let sequence := w.state.accepted + 1
    .ok { w with
      state := { w.state with
        accepted := sequence, queue := w.state.queue ++ [queuedOf x sequence event] }
      log := w.log ++ [event] }
  else .error "ACP event sequence overflow"

/-- `Sender::accept_session`. -/
def acceptSession (w : World N Q) (session : String) : Except String (World N Q) := do
  w.state.writable
  if w.state.session.any (· ≠ session) then .error "ACP opening belongs to another native session"
  else .ok { w with state := { w.state with session := some session } }

/-- `Sender::ready`. -/
def ready (x : Externals N) (w : World N Q) (session : String) : Except String (World N Q) := do
  w.state.writable
  if w.state.readyEnqueued then .error "ACP opening was already published"
  else if w.state.session.any (· ≠ session) then
    .error "ACP opening belongs to another native session"
  else if w.state.accepted + 1 ≤ u64Max then
    let sequence := w.state.accepted + 1
    .ok { w with
      state := { w.state with
        accepted := sequence
        readyEnqueued := true
        session := some session
        queue := w.state.queue ++ [queuedOf x sequence (.ready session)] }
      log := w.log ++ [.ready session] }
  else .error "ACP event sequence overflow"

/-- `Shared::cancel`, under the mutex, and the progress it merges after. -/
def cancel (w : World N Q) (reason : String) : World N Q × Option Progress :=
  if w.state.done then (w, none)
  else
    let failed := w.state.failed.getD reason
    ({ w with
      state := { w.state with failed := some failed }
      cancelled := true
      failedAt := w.failedAt.or (some w.state.written) }, some ⟨w.state.written, some failed⟩)

/-- `Shared::source_eof`, under the mutex. -/
def sourceEof (w : World N Q) : World N Q :=
  if w.state.end.isNone && w.state.failed.isNone then
    { w with state := { w.state with «end» := some (.eof w.state.accepted) } }
  else w

/-- `Shared::merge_progress`. -/
def Progress.merge (current update : Progress) : Progress :=
  ⟨max current.written update.written, current.failed.or update.failed⟩

/-- A task, and what its thread does after it. A fence that waits has no step. -/
def Task.run (x : Externals N) (w : World N Q) : Task N Q → Option (World N Q × List (Task N Q))
  | .note n =>
      if w.state.session.any (· ≠ x.session n) then
        some (w, [.cancel "ACP event belongs to another native session"])
      else some (w, [.enqueue (.note n)])
  | .enqueue event => some ((EventStore.enqueue x w event).toOption.getD w, [])
  | .acceptSession session => some ((EventStore.acceptSession w session).toOption.getD w, [])
  | .ready session => some ((EventStore.ready x w session).toOption.getD w, [])
  | .beginClose =>
      if w.state.end.isSome || w.state.failed.isSome then some (w, [])
      else if w.state.accepted + 1 ≤ u64Max then
        some ({ w with state := { w.state with
          accepted := w.state.accepted + 1
          «end» := some (.closing w.state.accepted (w.state.accepted + 1)) } }, [.pulse])
      else some (w, [.cancel "ACP event sequence overflow"])
  | .confirm error =>
      match w.state.end with
      | some (.closing through sequence) =>
          some ({ w with state := { w.state with
            «end» := some (.closed through sequence error) } }, [.pulse])
      | _ => some (w, [.pulse])
  | .sourceEof => some (EventStore.sourceEof w, [.pulse])
  | .cancel reason =>
      match EventStore.cancel w reason with
      | (w, none) => some (w, [])
      | (w, some progress) => some (w, [.merge progress])
  | .pulse => some (w, [.merge ⟨w.state.written, w.state.failed⟩])
  | .merge progress => some ({ w with progress := w.progress.merge progress }, [])
  | .fence =>
      if !w.state.receiverAlive || w.state.failed.isSome then some (w, [])
      else some (w, [.watch w.state.accepted w.log.length])
  | .watch through before =>
      if w.progress.failed.isSome then some (w, [])
      else if through ≤ w.progress.written then
        some ({ w with passed := w.passed ++ [⟨through, before⟩] }, [])
      else none

end Producers

section Worker

variable {N Q : Type}

inductive Work (N Q : Type) where
  | write (item : Queued N Q)
  | read
  | terminalWritten (sequence : Nat)
  | finish (end_ : SourceEnd)
  | cancel

/-- What the end of the source asks for. -/
def endWork (state : State N Q) (end_ : SourceEnd) : Option (Work N Q) :=
  if end_.confirmed && state.queue.isEmpty && end_.dataThrough ≤ state.written then
    match end_.eventSequence with
    | some sequence =>
        if state.written < sequence then some (.terminalWritten sequence)
        else if end_.dataThrough ≤ state.delivered && state.output.isNone then some (.finish end_)
        else none
    | none =>
        if end_.dataThrough ≤ state.delivered && state.output.isNone then some (.finish end_) else none
  else none

/-- How far records may be read. -/
def State.readable (state : State N Q) : Bool :=
  state.readRequested && state.output.isNone &&
    decide (state.delivered < match state.end with
      | some end_ => min state.written end_.dataThrough
      | none => state.written)

/-- `next_work`; nothing where the worker waits. -/
def nextWork (w : World N Q) (preferRead : Bool) : Option (Work N Q × State N Q) :=
  if w.cancelled then some (.cancel, w.state)
  else match w.state.end.bind (endWork w.state) with
    | some work => some (work, w.state)
    | none =>
        if w.state.readable && (preferRead || w.state.queue.isEmpty) then
          some (.read, { w.state with readRequested := false })
        else match w.state.queue with
          | item :: rest => some (.write item, { w.state with queue := rest })
          | [] => none

def Work.worker (preferRead : Bool) : Work N Q → Worker N Q
  | .write item => .writing item
  | .read => .reading
  | .terminalWritten sequence => .terminal sequence preferRead
  | .finish end_ => .completing (.source end_)
  | .cancel => .completing .cancelled

/-- A step of the worker that failed. -/
def World.fail (w : World N Q) (error : String) : World N Q :=
  { w with worker := .completing (if w.cancelled then .cancelled else .failed error) }

/-- `Spool::append`. -/
def Spool.append (spool : Spool) (record : Record) (io : Option String) : Except String Spool :=
  if spool.poisoned then .error "event store writer is poisoned"
  else if spool.records.length + 1 ≠ record.sequence then
    .error "event store sequence is not contiguous"
  else match io with
    | some error => .error error
    | none => .ok { spool with records := spool.records ++ [record] }

/-- `Spool::next`. -/
def Spool.next (spool : Spool) (io : Option String) : Except String (Option (Record × Spool)) :=
  if spool.poisoned then .error "event store writer is poisoned"
  else match spool.records[spool.read]? with
    | none => .ok none
    | some record =>
        match io with
        | some error => .error error
        | none => .ok (some (record, { spool with read := spool.read + 1 }))

/-- `publish_written`, under the mutex, and the progress it merges after. -/
def publishWritten (w : World N Q) (sequence : Nat) : World N Q × Progress :=
  ({ w with state := { w.state with written := sequence } }, ⟨sequence, w.state.failed⟩)

/-- `read_event`. -/
def readEvent (x : Externals N) (w : World N Q) (record : Record) :
    Except String (Output N Q × List (Nat × Event N Q)) := do
  match record.kind with
  | .note => do
      let note ← x.fromReader record.payload
      match w.state.session with
      | none => .error "ACP event store has no native session binding"
      | some session =>
          if x.session note ≠ session then .error "ACP event belongs to another native session"
          else .ok (⟨some record.sequence, .note note⟩, w.interactions)
  | .ready =>
      match w.state.session with
      | none => .error "ACP opening has no native session binding"
      | some session => .ok (⟨some record.sequence, .ready session⟩, w.interactions)
  | .elicitDone => do
      let id ← x.idFromReader record.payload
      .ok (⟨some record.sequence, .elicitDone id⟩, w.interactions)
  | .interaction =>
      match w.interactions.find? (·.1 = record.sequence) with
      | none => .error "ACP interaction marker has no live question"
      | some (_, event) =>
          .ok (⟨some record.sequence, event⟩, w.interactions.filter (·.1 ≠ record.sequence))

/-- The last event of a store that ended, and whether its files went. -/
def closing : WorkerEnd → Except String Unit × Option (Output N Q)
  | .source (.eof _) => (.ok (), none)
  | .source (.closed _ sequence error) => (.ok (), some ⟨some sequence, .closed error⟩)
  | .source (.closing _ _) => (.error "ACP shutdown fact was not confirmed", none)
  | .cancelled => (.ok (), some ⟨none, .closed none⟩)
  | .failed error => (.error error, some ⟨none, .closed (some error)⟩)

/-- The end of `complete_io`, under the mutex, and the progress it merges after. -/
def report (w : World N Q) (end_ : WorkerEnd) (resource : Except String Unit) :
    World N Q × Progress :=
  let failed := match resource with
    | .error error => some (w.state.failed.getD error)
    | .ok _ => w.state.failed
  let last := match resource with
    | .error error => some ⟨none, .closed (some error)⟩
    | .ok _ => (closing end_).2
  ({ w with
    state := { w.state with
      failed := failed
      output := if w.state.receiverAlive then last else w.state.output
      done := true }
    failedAt := w.failedAt.or (failed.map fun _ => w.state.written) }, ⟨w.state.written, failed⟩)

/-- One step of the worker: nothing where it waits or has ended. `io` is the error of the file system or of
the decoder, where there is one. -/
def workerStep (x : Externals N) (io : Option String) (w : World N Q) : Option (World N Q) :=
  match w.worker with
  | .starting =>
      if w.cancelled then some { w with worker := .completing .cancelled }
      else match io with
        | some error => some { w with worker := .completing (.failed error) }
        | none => some { w with worker := .next true }
  | .next preferRead =>
      (nextWork w preferRead).map fun (work, state) =>
        { w with state := state, worker := work.worker preferRead }
  | .writing item =>
      if w.cancelled then some { w with
        worker := .completing .cancelled, spool := { w.spool with poisoned := true } }
      else match w.spool.append item.record io with
        | .error error => some { w.fail error with spool := { w.spool with poisoned := true } }
        | .ok spool => some { w with spool := spool, worker := .appended item }
  | .appended item =>
      let sequence := item.record.sequence
      match item.interaction with
      | some event =>
          if w.interactions.any (·.1 = sequence) then
            some { w with worker := .completing (.failed "ACP interaction sequence was reused") }
          else
            let (w, progress) := publishWritten
              { w with interactions := (sequence, event) :: w.interactions } sequence
            some { w with worker := .merging progress (.next true) }
      | none =>
          let (w, progress) := publishWritten w sequence
          some { w with worker := .merging progress (.next true) }
  | .terminal sequence preferRead =>
      let (w, progress) := publishWritten w sequence
      some { w with worker := .merging progress (.next preferRead) }
  | .reading =>
      if w.cancelled then some { w with worker := .completing .cancelled }
      else match w.spool.next io with
        | .error error => some (w.fail error)
        | .ok none => some { w with
            worker := .completing (.failed "ACP committed event prefix has no record") }
        | .ok (some (record, spool)) => some { w with spool := spool, worker := .decoding record }
  | .decoding record =>
      match io with
      | some error => some (w.fail error)
      | none =>
          match readEvent x w record with
          | .error error => some (w.fail error)
          | .ok (output, interactions) => some { w with
              interactions := interactions, worker := .placing output }
  | .placing output =>
      if w.cancelled then some { w with worker := .completing .cancelled }
      else if w.state.output.isSome then some { w with
        worker := .completing (.failed "ACP decoded result slot is occupied") }
      else some { w with
        state := { w.state with output := some output }, worker := .next false }
  | .abandoned =>
      match cancel w "ACP event I/O worker was cancelled before starting" with
      | (w, none) => some { w with worker := .emptying .cancelled }
      | (w, some progress) => some { w with worker := .merging progress (.emptying .cancelled) }
  | .merging progress next =>
      some { w with progress := w.progress.merge progress, worker := next }
  | .completing (.failed error) =>
      -- Every producer is rejected before the clean-up.
      match cancel w error with
      | (w, none) => some { w with worker := .emptying (.failed error) }
      | (w, some progress) => some { w with worker := .merging progress (.emptying (.failed error)) }
  | .completing end_ => some { w with worker := .emptying end_ }
  | .emptying end_ =>
      some { w with
        state := { w.state with
          queue := []
          output := match end_ with
            | .source _ => w.state.output
            | _ => none }
        interactions := []
        worker := .cleaning end_ }
  | .cleaning end_ =>
      match io with
      | some error => some { w with
          worker := .reporting end_ (.error ("ACP event spool cleanup failed: " ++ error)) }
      | none => some { w with worker := .reporting end_ (closing (N := N) (Q := Q) end_).1 }
  | .reporting end_ resource =>
      let (w, progress) := report w end_ resource
      some { w with worker := .merging progress .ended }
  | .ended => none

end Worker

section Receivers

variable {N Q : Type}

def Event.isClosed : Event N Q → Bool
  | .closed _ => true
  | _ => false

/-- One poll of `recv`, or `try_recv`: `take_output` and what follows it. A cancelled receive is one that
is not polled again. -/
def World.receive (w : World N Q) : World N Q :=
  match w.state.output with
  | some output =>
      let state := { w.state with output := none }
      let hand (state : State N Q) : World N Q :=
        { w with
          state := state
          handed := w.handed ++ [output.event]
          receiver := if output.event.isClosed then .ended else .polling }
      match output.sequence with
      | some sequence =>
          if w.state.delivered + 1 = sequence then hand { state with delivered := sequence }
          else { w with state := state, receiver := .failing "ACP event delivery sequence changed" }
      | none => hand state
  | none =>
      match w.state.failed with
      | some error =>
          { w with handed := w.handed ++ [.closed (some error)], receiver := .ended }
      | none =>
          if w.state.done then { w with receiver := .ended }
          else { w with state := { w.state with readRequested := true } }

/-- The receiver that found another sequence cancels the store. -/
def World.refuse (w : World N Q) (error : String) : World N Q :=
  let next := cancel w error
  { next.1 with
    threads := next.1.threads ++ [(next.2.map Task.merge).toList]
    handed := next.1.handed ++ [.closed (some error)]
    receiver := .ended }

/-- `Drop for EventReceiver`: a thread of its own cancels the store. -/
def World.dropReceiver (w : World N Q) : World N Q :=
  { w with
    state := { w.state with receiverAlive := false }
    threads := w.threads ++ [[.cancel "ACP event receiver closed"]]
    receiver := .dropped }

namespace World

inductive Step (x : Externals N) : World N Q → World N Q → Prop where
  | call {w : World N Q} (call : Call N Q) :
      Step x w { w with threads := w.threads ++ [call.tasks] }
  | task {w w' : World N Q} {before after : List (List (Task N Q))} {task : Task N Q}
      {rest new : List (Task N Q)} (thread : w.threads = before ++ (task :: rest) :: after)
      (ran : task.run x w = some (w', new)) :
      Step x w { w' with threads := before ++ (new ++ rest) :: after }
  | work {w w' : World N Q} (io : Option String) (works : workerStep x io w = some w') : Step x w w'
  | abandon {w : World N Q} (starting : w.worker = .starting) :
      Step x w { w with worker := .abandoned }
  | receive {w : World N Q} (polling : w.receiver = .polling) : Step x w w.receive
  | refuse {w : World N Q} {error : String} (failing : w.receiver = .failing error) :
      Step x w (w.refuse error)
  | dropReceiver {w : World N Q} (alive : w.receiver ≠ .dropped) : Step x w w.dropReceiver

/-- Any number of steps from the start. -/
def Reachable (x : Externals N) : World N Q → Prop :=
  Relation.ReflTransGen (Step x) .init

end World

end Receivers

end Khor.Acp.EventStore
