/-
Module: Khor.Live.Recover
Purpose: A recovery asked for by a caller's token: what is worked out of the row and of the machine before
  the record of the token is looked up, and what is answered from the record
  (crates/node/src/live/session_recovery.rs).
Trusted boundary: what the row's files and the machine say; JSON texts
Main exports: RecoveryResult, ShellRunResult, recoveryLaunch, sought, recoverSessionHere
-/
import Khor.Lib.Decimal
import Khor.Live.Moves

namespace Khor.Live

open Khor.Node.Journal (Identity)

structure RecoveryToken where
  epoch : String
  nonce : String

inductive RecoveryResult where
  | opened (id : SessionId) (runId : String)
  | join (id : SessionId) (currentRun : Option String)
  | pending (id : SessionId) (attemptEpoch : String)
  | unknown (id : SessionId) (attemptEpoch reason : String)
  | unavailable (reason : String)
  | refused (reason : String)
deriving DecidableEq

inductive ShellRunResult where
  | opened (id previous : SessionId)
  | directoryRequired (id : SessionId)
  | unknown (id : SessionId) (attemptEpoch reason : String)
  | unavailable (reason : String)
  | refused (reason : String)

/-- What a call answers from what is recorded; `onward` goes on to accept the token. -/
inductive Asked (ρ : Type) where
  | reply (result : ρ)
  | onward
deriving DecidableEq

/-- `action_token`. -/
def actionToken (value : RecoveryToken) : Except String Token := do
  failWhen (value.epoch = "" ∨ 20 < value.epoch.utf8ByteSize ∨ value.epoch.toList.all Char.isDigit = false)
    "recovery epoch must be an unsigned decimal string"
  match parseBounded (2 ^ 64) value.epoch.toList with
  | none => .error "recovery epoch exceeds its range"
  | some n => do
      failWhen (decimal n ≠ value.epoch.toList) "recovery epoch must use its canonical decimal spelling"
      let token : Token := ⟨UInt64.ofNat n, value.nonce⟩
      token.validate
      return token

/-! ### The machine -/

structure AgentSpec where
  command : String
  args : List String

abbrev Environment := List (String × String)

/-- What a call asks of the machine it runs on. -/
structure Machine where
  device : List UInt8
  hosting : Except String Unit
  userPath : String
  installedExe : Except String String
  agentOrRefuse : String → Except String AgentSpec
  launchOn : AgentSpec → String → Except String String
  isDir : String → Bool
  canonicalize : String → Except String String
  savedEnvironment : String → Except String Environment
  defaultShell : String
  directory : String → Except String String
  running : UInt32 → Bool
  present : ProcessStamp → Bool

/-- JSON texts that are digested. -/
structure Codec where
  launch : String → String → List String → Environment → List UInt8
  shell : Option String → Option String → Option String → String → String → SessionId → List UInt8

structure NativeLaunch where
  native : Identity
  cwd : String
  title : String
  cmd : List String
  context : Environment
  encoded : List UInt8

/-- The program that stands for an agent. -/
def launchSpec (m : Machine) (agent : String) : Except String AgentSpec :=
  if agent = "claude" then m.installedExe.map fun exe => ⟨exe, ["_cagent"]⟩
  else if agent = "codex" then m.installedExe.map fun exe => ⟨exe, ["_codexagent"]⟩
  else m.agentOrRefuse agent

/-- The launch is worked out of the row's title and place, and of the machine as it is now. -/
def recoveryLaunch (c : Codec) (m : Machine) (title : String) (place : Option String) (native : Identity) :
    Except String NativeLaunch := do
  let spec ← launchSpec m native.agent
  let launch ← m.launchOn spec m.userPath
  match place with
  | none => .error "the session has no recorded working directory"
  | some place => do
      failWhen (m.isDir place = false) ("No such directory: " ++ place)
      let cwd ← m.canonicalize place
      let context ← m.savedEnvironment native.nativeId
      return { native := native, cwd := cwd, title := title, cmd := [launch], context := context,
               encoded := c.launch cwd title [launch] context }

/-! ### The row -/

/-- What stands at one gate of a row. -/
structure GateView where
  found : Except String (Option Meta)
  binding : Except String (Option Identity)
  legacy : Except String Legacy
  document : Option Document

/-- An observation of a conversation that has no row yet. -/
structure Observation where
  agent : String
  nativeId : String
  title : String
  cwd : Option String

/-- What a call finds of a row, in the order in which it looks: before the gates, at the gate of the join,
after it, and at the gate of the attempt. -/
structure RowView where
  named : Except String Unit
  found : Except String (Option Meta)
  bound : Except String (Option Identity)
  legacy : Except String Legacy
  target : Identity → Except String Unit
  join : GateView
  again : Except String (Option Meta)
  observation : Except String Observation
  ended : Identity → Except String Bool
  gate : GateView

def Meta.checkAncestry (id : SessionId) (m : Meta) : Except String Unit :=
  whenSome m.shellRun fun run =>
    failWhen (run.previous = "" ∨ run.root = "" ∨ 4096 < run.previous.utf8ByteSize ∨
        4096 < run.root.utf8ByteSize ∨ run.previous = id ∨ run.root = id)
      "invalid stored Shell ancestry"

/-- `recovery_meta`, of what is read. -/
def recoveryMeta (id : SessionId) (read : Except String (Option Meta)) : Except String (Option Meta) := do
  let found ← read
  whenSome found fun m => do
    failWhen (m.id ≠ "" ∧ m.id ≠ id) "recovery row belongs to another session"
    m.checkAncestry id
  return found

/-- `recovery_row`. -/
def recoveryRow (id : SessionId) (read : Except String (Option Meta)) : Except String Meta := do
  match ← recoveryMeta id read with
  | some m => return m
  | none => .error "recovery row has no execution metadata"

def recoveryNative (x : Externals) (m : Machine) (id : SessionId) (v : RowView) (found : Meta) :
    Except String (Option Identity) := do
  let binding ← v.bound
  failWhen (binding ≠ none ∧ found.guiNative ≠ none ∧ binding ≠ found.guiNative)
    "recovery metadata and canonical binding disagree"
  let legacy ← v.legacy
  let native := (binding.or found.guiNative).or (legacy.map (·.2))
  failWhen (∃ n ∈ native, n.home ≠ m.device ∨ matchesLogicalSource x id n = false)
    "recovery identity belongs to another execution home or SID"
  whenSome native v.target
  return native

/-! ### A recovery -/

structure Ask where
  home : List UInt8
  id : SessionId
  expectedRun : Option String
  supplied : RecoveryToken
  hint : Except String Unit

def Reason.text : Reason → String
  | .unavailable => "unavailable"
  | .initializationRefused => "initialization-refused"
  | .setupFailed => "setup-failed"
  | .cancelled => "cancelled"

/-- `native_preparation`. -/
def nativePreparation (m : Machine) (id : SessionId) (epoch : String) : Reservation → Asked RecoveryResult
  | .start _ => .onward
  | .joined currentRun => .reply (.join id currentRun)
  | .recorded (.opened id runId) => .reply (.opened id runId)
  | .recorded (.refused reason) => .reply (.refused reason.text)
  | .unfinished _ host =>
      if host.any m.present then .reply (.pending id epoch)
      else .reply (.unknown id epoch "execution-owner-unknown")
  | .retired => .reply (.unknown id epoch "retired-attempt")
  | .unknownOwner => .reply (.unknown id epoch "execution-owner-unknown")

/-- `replay_join`. -/
def Held.replayJoin (x : Externals) (h : Held) (arguments : Arguments) (token : Token) :
    Except String (Option Reservation) := do
  h.ensure
  arguments.validate x
  token.validate
  if token.epoch < h.highWater then return some .retired
  else if token.epoch = h.highWater then
    if h.action.isSome = true then h.replay x arguments token
    else do
      failWhen (∃ execution ∈ h.latest, execution.token ≠ token)
        "recovery token was reused with another nonce"
      return none
  else do
    failWhen (checkedSucc h.highWater ≠ some token.epoch) "recovery epoch is not the next offer"
    return none

def Held.isExecutionToken (h : Held) (token : Token) : Bool :=
  h.document.any fun d =>
    d.highWater = token.epoch && d.action.isNone && d.latest.any fun execution => execution.token = token

/-- What the document answers to a token, where the answer is not to go on. -/
def answerOf (m : Machine) (id : SessionId) (epoch : String) (looked : Except String (Option Reservation)) :
    Option (Asked RecoveryResult) :=
  match looked with
  | .error reason => some (.reply (.refused reason))
  | .ok (some previous) => some (nativePreparation m id epoch previous)
  | .ok none => none

/-- `join_recovery_if_live`, up to where it begins a join: `none` goes on with the recovery. -/
def joinRecoveryIfLive (x : Externals) (m : Machine) (a : Ask) (native : Identity) (g : GateView) :
    Except String (Option (Asked RecoveryResult)) := do
  let arguments ← joinArgumentsAt x a.id native a.expectedRun
  let token ← actionToken a.supplied
  let legacy ← g.legacy
  match ← g.found with
  | none => .error "GUI row disappeared"
  | some found => do
      checkBound a.id (some found) native legacy (← g.binding)
      let held : Held := ⟨g.document, false⟩
      match answerOf m a.id a.supplied.epoch (held.replayJoin x arguments token) with
      | some answer => return some answer
      | none =>
          if held.isExecutionToken token then return none
          else if found.guiRun.map (·.id) ≠ a.expectedRun then
            return some (.reply (.refused "expected-execution-changed"))
          else if guiSlotEnded found || !found.pid.any m.running then return none
          else return some .onward

/-- What a call comes to before it looks up its token: an answer, or the launch it would make. -/
inductive Sought where
  | answer (answer : Asked RecoveryResult)
  | launch (launch : NativeLaunch)

/-- The first half of a call on a row that has metadata. -/
def soughtRow (x : Externals) (c : Codec) (m : Machine) (a : Ask) (v : RowView) (found : Meta) :
    Except String Sought := do
  if found.kind ≠ GUI then return .answer (.reply (.refused "not-a-native-GUI-execution"))
  else do
    match ← recoveryNative x m a.id v found with
    | none => return .answer (.reply (.unavailable "native-identity-unknown"))
    | some native =>
        match joinArgumentsAt x a.id native a.expectedRun with
        | .error reason => return .answer (.reply (.refused reason))
        | .ok _ => do
            match ← joinRecoveryIfLive x m a native v.join with
            | some answer => return .answer answer
            | none => do
                let found ← recoveryRow a.id v.again
                return .launch (← recoveryLaunch c m found.title found.place native)

/-- The first half of a call on a conversation that is only observed. -/
def soughtObserved (c : Codec) (m : Machine) (a : Ask) (v : RowView) : Except String Sought := do
  if a.expectedRun.isSome then return .answer (.reply (.refused "expected-execution-changed"))
  else do
    let record ← v.observation
    let native : Identity := ⟨a.home, record.agent, record.nativeId⟩
    if (← v.ended native) = false then
      return .answer (.reply (.unknown a.id a.supplied.epoch "observed-execution-owner-unknown"))
    else return .launch (← recoveryLaunch c m record.title record.cwd native)

def sought (x : Externals) (c : Codec) (m : Machine) (a : Ask) (v : RowView) : Except String Sought :=
  if a.home ≠ m.device then .ok (.answer (.reply (.unavailable "execution-home-mismatch")))
  else
    match actionToken a.supplied, a.hint with
    | .error reason, _ => .ok (.answer (.reply (.refused reason)))
    | .ok _, .error reason => .ok (.answer (.reply (.refused reason)))
    | .ok _, .ok () => do
        m.hosting
        v.named
        match ← recoveryMeta a.id v.found with
        | some found => soughtRow x c m a v found
        | none => soughtObserved c m a v

/-- The second half of a call: the record is looked up with the launch's arguments. -/
def askNative (x : Externals) (m : Machine) (a : Ask) (launch : NativeLaunch) (g : GateView) :
    Except String (Asked RecoveryResult) := do
  let arguments ← nativeAt x a.id launch.native a.expectedRun launch.encoded
  let token ← actionToken a.supplied
  let legacy ← g.legacy
  let found ← g.found
  checkBound a.id found launch.native legacy (← g.binding)
  let held : Held := ⟨g.document, false⟩
  match answerOf m a.id a.supplied.epoch (held.replay x arguments token) with
  | some answer => return answer
  | none =>
      if (found.bind (·.guiRun)).map (·.id) ≠ a.expectedRun then
        return .reply (.refused "expected-execution-changed")
      else return .onward

def recoverSessionHere (x : Externals) (c : Codec) (m : Machine) (a : Ask) (v : RowView) :
    Except String (Asked RecoveryResult) := do
  match ← sought x c m a v with
  | .answer answer => return answer
  | .launch launch => askNative x m a launch v.gate

/-! ### A new shell -/

structure ShellAsk where
  home : List UInt8
  id : SessionId
  expectedRun : Option String
  supplied : RecoveryToken
  cwd : Option String

/-- What a shell call finds of the row, and the document at its gate. -/
structure ShellView where
  named : Except String Unit
  found : Except String (Option Meta)
  document : Option Document

def blank (text : String) : Bool := (trim text.toList).isEmpty

/-- `ActionArguments::shell`. -/
def shellAt (x : Externals) (home : List UInt8) (id : SessionId) (expectedRun : String)
    (launch : List UInt8) : Except String ActionArguments := do
  let value : ActionArguments := .shell home id expectedRun (x.digest launch)
  value.validate x
  return value

/-- `shell_replay`. -/
def shellReplay (id : SessionId) (epoch : String) : ActionReplay → ShellRunResult
  | .recorded (.shellOpened next) => .opened next id
  | .recorded .directoryRequired => .directoryRequired id
  | .recorded (.refused reason) => .refused reason
  | .retired => .unknown id epoch "retired-attempt"
  | .recorded _ => .unknown id epoch "accepted-Shell-outcome-unknown"

/-- The directory a shell would start in; an absent or blank one is not turned into the home's. -/
def effectiveDirectory (m : Machine) (a : ShellAsk) (found : Meta) : Option String := do
  let path ← (a.cwd.or found.place).filter fun path => !blank path
  let path ← (m.directory path).toOption
  (m.canonicalize path).toOption

/-- What a shell call comes to before it looks up its token: an answer, or its arguments. -/
def shellArguments (x : Externals) (c : Codec) (m : Machine) (a : ShellAsk) (v : ShellView) :
    Except String (ShellRunResult ⊕ ActionArguments) :=
  if a.home ≠ m.device then .ok (.inl (.unavailable "execution-home-mismatch"))
  else do
    m.hosting
    match actionToken a.supplied with
    | .error reason => return .inl (.refused reason)
    | .ok _ =>
        if a.expectedRun ≠ some a.id then return .inl (.refused "expected-previous-SID-is-required")
        else if a.cwd.any blank then return .inl (.refused "selected-directory-is-empty")
        else do
          v.named
          let found ← recoveryRow a.id v.found
          if found.kind ≠ "shell" then return .inl (.refused "not-a-Shell-execution")
          else if blank m.defaultShell then return .inl (.refused "default-shell-unavailable")
          else do
            let root := (found.shellRun.map (·.root)).getD a.id
            let arguments ← shellAt x a.home a.id a.id
              (c.shell a.cwd found.place (effectiveDirectory m a found) m.defaultShell found.title root)
            return .inr arguments

def newShellRunHere (x : Externals) (c : Codec) (m : Machine) (a : ShellAsk) (v : ShellView) :
    Except String (Asked ShellRunResult) := do
  match ← shellArguments x c m a v with
  | .inl answer => return .reply answer
  | .inr arguments => do
      let token ← actionToken a.supplied
      let held : Held := ⟨v.document, false⟩
      failWhen (held.hasCleanupBarrier = true) "source cleanup is unconfirmed"
      match held.actionReplay x arguments token with
      | .error reason => return .reply (.refused reason)
      | .ok (some previous) => return .reply (shellReplay a.id a.supplied.epoch previous)
      | .ok none => return .onward

end Khor.Live
