/-
Module: Khor.Live.Attempt
Purpose: The one durable attempt of a session row: what its document holds, and which documents may be
  stored (crates/node/src/live/recovery_attempt.rs, crates/node/src/live/proc_identity.rs).
Trusted boundary: JSON texts are given by their length, blake3 by its digests
Main exports: Externals, Arguments, Token, Document.validate
-/
import Khor.Node.Journal

namespace Khor.Live

open Khor.Node.Journal (Identity)

abbrev SessionId := String

inductive ObservationNamespace where
  | native
  | acp

/-- What is computed elsewhere: digests in hex, and the length of an identity's JSON text. -/
structure Externals where
  digest : List UInt8 → String
  sourceDigest : List UInt8 → ObservationNamespace → String → String → String
  identityBytes : Identity → Nat

/-- The check fails, and why. -/
def failWhen (bad : Prop) [Decidable bad] (why : String) : Except String Unit :=
  if bad then .error why else .ok ()

def hex (value : String) (bytes : Nat) : Except String Unit :=
  if value.utf8ByteSize = bytes ∧
      value.toList.all (fun c => c.isDigit || ('a' ≤ c && c ≤ 'f')) = true then .ok ()
  else .error "invalid recovery identity encoding"

/-- The check of what is there. -/
def whenSome {α : Type} (value : Option α) (check : α → Except String Unit) : Except String Unit :=
  match value with
  | some a => check a
  | none => .ok ()

/-! ### Names of a conversation -/

def cleanLeaf (raw : String) : String :=
  let kept := (raw.toList.filterMap fun c =>
    if c.isLower || c.isDigit || c = '-' then some c
    else if c.isUpper then some c.toLower
    else none).take 24
  let trimmed := ((kept.dropWhile (· = '-')).reverse.dropWhile (· = '-')).reverse
  if trimmed.isEmpty then "x" else String.ofList trimmed

def idFor (vendorSessionId : String) : SessionId := "tui/" ++ cleanLeaf vendorSessionId

def observationId (x : Externals) (home : List UInt8) (kind : ObservationNamespace)
    (agent native : String) : SessionId :=
  "observe/" ++ x.sourceDigest home kind agent native

def nativeAliases (x : Externals) (native : Identity) : List SessionId :=
  [idFor native.nativeId, observationId x native.home .native native.agent native.nativeId,
    observationId x native.home .acp native.agent native.nativeId]

def matchesLogicalSource (x : Externals) (id : SessionId) (native : Identity) : Bool :=
  (nativeAliases x native).contains id

/-! ### Arguments and tokens -/

inductive Operation where
  | recoverNative
  | initialNew
deriving DecidableEq

structure Arguments where
  home : List UInt8
  id : SessionId
  expectedRun : Option String
  operation : Operation
  native : Identity
  launchDigest : String
deriving DecidableEq

def Arguments.validate (x : Externals) (a : Arguments) : Except String Unit := do
  failWhen (a.home ≠ a.native.home ∨ matchesLogicalSource x a.id a.native = false ∨
      (a.operation = .initialNew ∧ a.id ≠ idFor a.native.nativeId) ∨ a.native.agent = "" ∨
      a.native.nativeId = "" ∨ 4096 < x.identityBytes a.native)
    "recovery arguments need their exact native identity"
  hex a.launchDigest 64
  whenSome a.expectedRun (hex · 32)

/-- `Arguments::native_at`. -/
def nativeAt (x : Externals) (id : SessionId) (native : Identity) (expectedRun : Option String)
    (launch : List UInt8) : Except String Arguments := do
  let value : Arguments :=
    { home := native.home, id := id, expectedRun := expectedRun, operation := .recoverNative,
      native := native, launchDigest := x.digest launch }
  value.validate x
  return value

/-- `Arguments::initial_new`. -/
def initialNew (x : Externals) (native : Identity) (launch : List UInt8) : Except String Arguments := do
  let value ← nativeAt x (idFor native.nativeId) native none launch
  return { value with operation := .initialNew }

def joinArgumentsAt (x : Externals) (id : SessionId) (native : Identity) (expected : Option String) :
    Except String Arguments :=
  nativeAt x id native expected "khor/current-execution-join/v1".toUTF8.toList

structure Token where
  epoch : UInt64
  nonce : String
deriving DecidableEq

def Token.validate (t : Token) : Except String Unit := do
  failWhen (t.epoch = 0) "invalid recovery attempt epoch"
  hex t.nonce 32

/-! ### Processes -/

inductive ProcessStart where
  | mac (seconds : UInt64) (microseconds : UInt32)
  | linux (ticks namespaceDevice namespaceInode : UInt64)
deriving DecidableEq

structure ProcessStamp where
  pid : UInt32
  parent : UInt32
  group : UInt32
  boot : String
  start : ProcessStart
deriving DecidableEq

/-- No process that can be asked about. -/
def outOfRange (pid : UInt32) : Prop := pid ≤ 1 ∨ 2147483647 < pid

instance (pid : UInt32) : Decidable (outOfRange pid) := inferInstanceAs (Decidable (_ ∨ _))

def ProcessStamp.validate (s : ProcessStamp) : Except String Unit := do
  failWhen (outOfRange s.pid ∨ outOfRange s.group ∨ 2147483647 < s.parent)
    "invalid recorded process identity"
  hex s.boot 32
  match s.start with
  | .mac seconds microseconds =>
      failWhen (seconds = 0 ∨ 1000000 ≤ microseconds) "invalid recorded process birth"
  | .linux ticks _ inode => failWhen (ticks = 0 ∨ inode = 0) "invalid recorded process birth"

/-- Of one boot and, on Linux, of one process namespace. -/
def sameContext (a b : ProcessStamp) : Bool :=
  a.boot = b.boot &&
    match a.start, b.start with
    | .mac .., .mac .. => true
    | .linux _ device inode, .linux _ device' inode' => device = device' && inode = inode'
    | _, _ => false

inductive UnknownReason where
  | birthUnavailable
  | cleanupUnconfirmed
deriving DecidableEq

inductive Provider where
  | notStarted
  | starting
  | owned (process : ProcessStamp)
  | exited (pid : UInt32) (code : Option Int)
  | foregroundAbsent (process : ProcessStamp)
  | unknown (last : Option ProcessStamp) (actualPid : Option UInt32) (reason : UnknownReason)
deriving DecidableEq

namespace Provider

def replacementConfirmed : Provider → Bool
  | .exited .. | .foregroundAbsent _ => true
  | _ => false

def noForegroundOwner : Provider → Bool
  | .notStarted | .exited .. | .foregroundAbsent _ => true
  | _ => false

/-- It has come to no process of its own yet. -/
def unborn : Provider → Bool
  | .notStarted | .starting => true
  | _ => false

def isOwned : Provider → Bool
  | .owned _ => true
  | _ => false

def isUnknown : Provider → Bool
  | .unknown .. => true
  | _ => false

def validate : Provider → Except String Unit
  | .owned process | .foregroundAbsent process | .unknown (some process) .. => process.validate
  | .exited pid _ => failWhen (outOfRange pid) "invalid reaped provider PID"
  | _ => .ok ()

end Provider

/-! ### The attempt and the action -/

inductive Phase where
  | reserved
  | starting
  | publishingBase
  | basePublished
  | publishingRun
  | runPublished
  | refused
deriving DecidableEq

inductive Reason where
  | unavailable
  | initializationRefused
  | setupFailed
  | cancelled

inductive Recorded where
  | opened (id : SessionId) (runId : String)
  | refused (reason : Reason)

structure InitializedSupport where
  load : Bool
  resume : Bool
deriving DecidableEq

structure Latest where
  token : Token
  arguments : Arguments
  runId : String
  phase : Phase
  host : Option ProcessStamp
  unverifiedHostPid : Option UInt32
  provider : Provider
  generation : Option String
  result : Option Recorded
  support : Option InitializedSupport

/-- A caller action is not the execution owner. -/
inductive ActionArguments where
  | native (arguments : Arguments)
  | shell (home : List UInt8) (id : SessionId) (expectedRun launchDigest : String)
deriving DecidableEq

namespace ActionArguments

def scope : ActionArguments → List UInt8 × SessionId
  | .native arguments => (arguments.home, arguments.id)
  | .shell home id .. => (home, id)

def isShell : ActionArguments → Bool
  | .native _ => false
  | .shell .. => true

def validate (x : Externals) : ActionArguments → Except String Unit
  | .native arguments => do
      arguments.validate x
      failWhen (arguments.operation ≠ .recoverNative) "New cannot be an explicit recovery action"
  | .shell _ id expectedRun launchDigest => do
      failWhen (id = "" ∨ 4096 < id.utf8ByteSize ∨ expectedRun ≠ id)
        "a new Shell action must name its exact previous SID"
      hex launchDigest 64

end ActionArguments

inductive ActionResult where
  | joinPending
  | join (currentRun : Option String)
  | shellPending
  | directoryRequired
  | shellOpened (id : SessionId)
  | refused (reason : String)
deriving DecidableEq

structure LatestAction where
  token : Token
  arguments : ActionArguments
  result : ActionResult

def ActionResult.agrees : ActionArguments → ActionResult → Except String Unit
  | .native _, .joinPending => .ok ()
  | .native arguments, .join currentRun =>
      if arguments.expectedRun = currentRun then whenSome currentRun (hex · 32)
      else .error "recovery action and result disagree"
  | .shell _ previous .., .shellOpened id =>
      failWhen (id = previous ∨ id = "" ∨ 4096 < id.utf8ByteSize) "recovery action and result disagree"
  | .shell .., .shellPending | .shell .., .directoryRequired => .ok ()
  | _, .refused reason =>
      failWhen (reason = "" ∨ 256 < reason.utf8ByteSize) "recovery action and result disagree"
  | _, _ => .error "recovery action and result disagree"

def LatestAction.validate (x : Externals) (a : LatestAction) : Except String Unit := do
  a.token.validate
  a.arguments.validate x
  a.result.agrees a.arguments

/-! ### The document -/

structure Document where
  version : UInt8
  highWater : UInt64
  latest : Option Latest
  action : Option LatestAction
  cleanupBarrier : Option Identity

def VERSION : UInt8 := 1

def BYTES : Nat := 16 * 1024

/-- The document before the first attempt of a row. -/
def Document.empty : Document :=
  { version := VERSION, highWater := 0, latest := none, action := none, cleanupBarrier := none }

namespace Latest

def hostRecorded (v : Latest) : Bool := v.host.isSome || v.unverifiedHostPid.isSome

/-- `host.map(pid).or(unverified_host_pid)`. -/
def hostPid (v : Latest) : Option UInt32 := (v.host.map (·.pid)).or v.unverifiedHostPid

/-- The provider's process is the one its host has started. -/
def checkOwner (v : Latest) : Except String Unit :=
  match v.provider with
  | .unknown last actualPid _ =>
      failWhen ((∃ pid ∈ actualPid, outOfRange pid) ∨ ∃ process ∈ last, some process.pid ≠ actualPid)
        "unknown provider has inconsistent recorded PID facts"
  | .owned process | .foregroundAbsent process =>
      failWhen (process.group ≠ process.pid ∨ ¬∃ host ∈ v.host,
          process.parent = host.pid ∧ sameContext host process = true)
        "recorded provider has another foreground owner"
  | _ => .ok ()

/-- The recorded facts about the processes agree with one another. -/
def checkProcesses (v : Latest) : Except String Unit := do
  whenSome v.host (·.validate)
  whenSome v.unverifiedHostPid fun pid =>
    failWhen (pid ≤ 1 ∨ v.host.isSome = true ∨ v.arguments.operation ≠ .initialNew)
      "invalid unverified initial host fact"
  failWhen (v.support.isSome = true ∧ (v.hostRecorded = false ∨ v.provider.unborn = true))
    "Initialize facts have no started execution owner"
  v.provider.validate
  v.checkOwner
  whenSome v.generation (hex · 32)

/-- The recorded result is one of those of the phase. -/
def settled (v : Latest) : Bool :=
  match v.phase, v.result with
  | .runPublished, some (.opened id runId) =>
      id = v.arguments.id && runId = v.runId && v.hostRecorded && !v.provider.unborn
  | .refused, some (.refused _) =>
      v.provider.noForegroundOwner && (v.hostRecorded || decide (v.provider = .notStarted))
  | .reserved, none =>
      decide (v.arguments.operation = .recoverNative) && v.host.isNone && v.unverifiedHostPid.isNone &&
        v.generation.isNone && decide (v.provider = .notStarted)
  | .starting, none => v.hostRecorded && v.generation.isNone
  | .publishingBase, none | .basePublished, none | .publishingRun, none =>
      v.hostRecorded && !v.provider.unborn
  | _, _ => false

def validate (x : Externals) (v : Latest) : Except String Unit := do
  v.token.validate
  v.arguments.validate x
  hex v.runId 32
  v.checkProcesses
  failWhen (v.settled = false) "recovery phase and recorded result disagree"

end Latest

namespace Document

/-- The uncertain cleanup is of the action's source. -/
def barrierOf (barrier : Identity) : ActionArguments → Bool
  | .native arguments => decide (barrier = arguments.native)
  | .shell .. => false

/-- The action stands above the execution, and is of its row. -/
def checkAction (x : Externals) (d : Document) (action : LatestAction) : Except String Unit := do
  action.validate x
  failWhen (d.highWater ≠ action.token.epoch ∨ ∃ execution ∈ d.latest,
      action.token.epoch ≤ execution.token.epoch ∨
        (execution.arguments.home, execution.arguments.id) ≠ action.arguments.scope)
    "action high-water belongs to another execution row"
  failWhen (∃ barrier ∈ d.cleanupBarrier, barrierOf barrier action.arguments = false)
    "cleanup barrier belongs to another action source"

def checkLatest (x : Externals) (d : Document) : Except String Unit :=
  match d.latest with
  | none =>
      failWhen (d.action = none ∧ ¬(d.highWater = 0 ∧ d.cleanupBarrier.isSome = true))
        "empty recovery document is not an admissible row"
  | some v => do
      failWhen (∃ barrier ∈ d.cleanupBarrier, barrier ≠ v.arguments.native)
        "cleanup barrier belongs to another exact native source"
      failWhen (d.action = none ∧ d.highWater ≠ v.token.epoch) "invalid recovery high-water record"
      v.validate x

def validate (x : Externals) (d : Document) : Except String Unit := do
  whenSome d.cleanupBarrier fun barrier =>
    (initialNew x barrier "cleanup-barrier".toUTF8.toList).map fun _ => ()
  failWhen (d.version ≠ VERSION) "invalid recovery document version"
  whenSome d.action (d.checkAction x)
  d.checkLatest x

end Document

/-- This credential is data, not an unlocked permission to publish. -/
structure AttemptKey where
  token : Token
  arguments : Arguments
  runId : String
deriving DecidableEq

def Latest.key (v : Latest) : AttemptKey := ⟨v.token, v.arguments, v.runId⟩

end Khor.Live
