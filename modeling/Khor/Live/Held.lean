/-
Module: Khor.Live.Held
Purpose: What a holder of a row's gate does with the row's attempt: it looks at the document it has loaded,
  and each change is one stored document (crates/node/src/live/recovery_attempt.rs).
Trusted boundary: what the row's other files say, and what the publishing callbacks do
Main exports: Meta, Call, Held, Held.current, Held.replay
-/
import Khor.Lib.Keeping
import Khor.Live.Attempt

namespace Khor.Live

open Khor.Node.Journal (Identity)
open Keeping (reads)

/-! ### The row -/

/-- What `LiveState` says of a run. -/
structure RunState where
  guiRun : Option String
  exit : Option Int

structure GuiRun where
  id : String
  state : RunState

structure ShellRun where
  previous : SessionId
  root : SessionId

structure Meta where
  kind : String
  title : String
  id : SessionId
  pid : Option UInt32
  category : Option String
  place : Option String
  shellRun : Option ShellRun
  guiNative : Option Identity
  guiRun : Option GuiRun

def GUI : String := "gui"

def guiSlotEnded (m : Meta) : Bool :=
  m.guiRun.any fun run => run.state.guiRun = some run.id && run.state.exit.isSome

/-- A category and the native source it names, from before rows were bound. -/
abbrev Legacy := Option (Option String × Identity)

/-- `check_native`, of the binding it reads. -/
def checkBound (id : SessionId) (found : Option Meta) (native : Identity) (legacy : Legacy)
    (binding : Option Identity) : Except String Unit := do
  failWhen (∃ bound ∈ binding, bound ≠ native) "session already names another full native identity"
  whenSome found fun m => do
    failWhen (m.id ≠ "" ∧ m.id ≠ id) "session metadata belongs to another identity"
    failWhen (∃ bound ∈ m.guiNative, bound ≠ native) "GUI row already names another full native identity"
    failWhen (m.guiNative = none ∧ binding = none ∧ legacy ≠ some (m.category, native))
      "GUI recovery has no exact existing native binding"

/-! ### Calls -/

/-- What a holder of the gate asks of the row's other files, of the system and of its caller. -/
inductive Call where
  | readMeta
  | nativeBinding
  | boundIdentity
  | hasPublishedBase
  | checkBinding
  | freshHex
  | write (value : Document)
  | validate
  | publishBase (key : AttemptKey)
  | publishRun (key : AttemptKey)
  | retireSlot (id : SessionId) (native : Identity) (runId : String) (pid : UInt32)

abbrev Reply : Call → Type
  | .readMeta => Option Meta
  | .nativeBinding | .boundIdentity => Option Identity
  | .hasPublishedBase => Bool
  | .freshHex => String
  | _ => Unit

/-- The loaded document, until a store has failed. -/
structure Held where
  document : Option Document
  failed : Bool

abbrev HeldM (α : Type) := Keeping Held Call Reply String α

/-- One call. -/
def ask (c : Call) : HeldM (Reply c) := Keeping.sys c

structure Encoding extends Externals where
  documentBytes : Document → Nat

def checkedSucc (n : UInt64) : Option UInt64 :=
  if n.toNat + 1 < 2 ^ 64 then some (n + 1) else none

/-! ### Looking at the document -/

inductive Reservation where
  | joined (currentRun : Option String)
  | start (key : AttemptKey)
  | recorded (result : Recorded)
  | unfinished (phase : Phase) (host : Option ProcessStamp)
  | retired
  | unknownOwner

inductive ActionReplay where
  | recorded (result : ActionResult)
  | retired
deriving DecidableEq

namespace Held

def ensure (h : Held) : Except String Unit :=
  failWhen (h.failed = true) "recovery metadata publication is uncertain"

def latest (h : Held) : Option Latest := h.document.bind (·.latest)

def action (h : Held) : Option LatestAction := h.document.bind (·.action)

def highWater (h : Held) : UInt64 := (h.document.map (·.highWater)).getD 0

def hasCleanupBarrier (h : Held) : Bool := (h.document.bind (·.cleanupBarrier)).isSome

def current (h : Held) (key : AttemptKey) : Except String Latest := do
  h.ensure
  match h.document with
  | none => .error "recovery attempt is missing"
  | some d =>
      match d.latest with
      | none => .error "recovery row has no publishing attempt"
      | some latest =>
          if latest.key = key then .ok latest else .error "recovery attempt has been retired"

/-- The document is of another row than the arguments. -/
def elsewhere (h : Held) (arguments : Arguments) : Bool :=
  h.document.any fun d =>
    match d.latest with
    | none => !(d.action.any fun action => action.arguments.scope = (arguments.home, arguments.id))
    | some latest =>
        !(latest.arguments.home = arguments.home && latest.arguments.id = arguments.id &&
          latest.arguments.native = arguments.native)

/-- The answer to the token of the latest action or attempt. -/
def recorded (h : Held) (arguments : Arguments) (token : Token) : Except String Reservation :=
  match h.action with
  | some action =>
      if action.token = token ∧ action.arguments = .native arguments then
        match action.result with
        | .join currentRun => .ok (.joined currentRun)
        | .joinPending | .refused _ => .ok .unknownOwner
        | _ => .error "native token belongs to a Shell action"
      else .error "recovery token was reused with different arguments"
  | none =>
      match h.document with
      | none => .error "missing latest recovery attempt"
      | some d =>
          match d.latest with
          | none => .error "recovery row is quarantined without an attempt"
          | some latest =>
              if token = latest.token ∧ arguments = latest.arguments then
                match latest.result with
                | some result => .ok (.recorded result)
                | none =>
                    .ok (if latest.provider.isUnknown then .unknownOwner
                      else .unfinished latest.phase latest.host)
              else .error "recovery token was reused with different arguments"

/-- `none` is a token that nothing is recorded of, and that is the next to be. -/
def replay (x : Externals) (h : Held) (arguments : Arguments) (token : Token) :
    Except String (Option Reservation) := do
  h.ensure
  arguments.validate x
  token.validate
  if h.hasCleanupBarrier then return some .unknownOwner
  else do
    failWhen (arguments.operation ≠ .recoverNative)
      "initial New cannot enter preghost recovery reservation"
    failWhen (h.elsewhere arguments = true) "recovery attempt belongs to another home or native row"
    if token.epoch < h.highWater then return some .retired
    else if token.epoch = h.highWater then (h.recorded arguments token).map some
    else do
      failWhen (checkedSucc h.highWater ≠ some token.epoch) "recovery epoch is not the next offer"
      return none

/-- The document is of another row than the action. -/
def outside (h : Held) (arguments : ActionArguments) : Bool :=
  (h.latest.any fun execution =>
      (execution.arguments.home, execution.arguments.id) ≠ arguments.scope) ||
    h.action.any fun previous => previous.arguments.scope ≠ arguments.scope

def actionReplay (x : Externals) (h : Held) (arguments : ActionArguments) (token : Token) :
    Except String (Option ActionReplay) := do
  h.ensure
  arguments.validate x
  token.validate
  failWhen (h.hasCleanupBarrier = true) "source cleanup is unconfirmed"
  if token.epoch < h.highWater then return some .retired
  else if token.epoch = h.highWater then
    match h.action with
    | none => .error "token belongs to another execution action"
    | some action =>
        if action.token = token ∧ action.arguments = arguments then
          .ok (some (.recorded action.result))
        else .error "recovery token was reused with different arguments"
  else do
    failWhen (checkedSucc h.highWater ≠ some token.epoch) "recovery epoch is not the next offer"
    failWhen (h.outside arguments = true) "action belongs to another execution row"
    return none

/-- The document with its attempt changed. -/
def changed (h : Held) (key : AttemptKey) (update : Latest → Except String Latest) :
    Except String Document := do
  discard (h.current key)
  match h.document with
  | none => .error "recovery attempt is missing"
  | some d =>
      match d.latest with
      | none => .error "recovery row has no mutable attempt"
      | some latest => (update latest).map fun latest => { d with latest := some latest }

/-- The document with a pending action above what it has. -/
def accepted (h : Held) (token : Token) (arguments : ActionArguments) (result : ActionResult) :
    Document :=
  { h.document.getD .empty with
    highWater := token.epoch
    action := some ⟨token, arguments, result⟩ }

/-- The document with its action answered. -/
def answered (h : Held) (result : ActionResult) (missing : String) : Except String Document :=
  match h.document with
  | none => .error missing
  | some d =>
      match d.action with
      | none => .error missing
      | some action => .ok { d with action := some { action with result := result } }

end Held

/-! ### Storing -/

/-- `write`, and what the holder has after it. -/
def write (value : Document) : HeldM Unit := fun held =>
  .call (.write value) fun
    | .ok () => .ended (.ok (.ok (), { held with document := some value }))
    | .error e => .ended (.ok (.error e, { held with failed := true }))

def store (x : Encoding) (value : Document) : HeldM Unit := do
  reads (·.ensure)
  reads fun _ => value.validate x.toExternals
  reads fun _ => failWhen (BYTES < x.documentBytes value) "recovery attempt exceeds its metadata budget"
  write value

def change (x : Encoding) (key : AttemptKey) (update : Latest → Except String Latest) : HeldM Unit := do
  let next ← reads (·.changed key update)
  store x next

def checkNative (id : SessionId) (found : Option Meta) (native : Identity) (legacy : Legacy) :
    HeldM Unit := do
  let binding ← ask .nativeBinding
  reads fun _ => checkBound id found native legacy binding

end Khor.Live
