/-
Module: Khor.Live.Operations
Purpose: What the holder of a row's gate may do to its attempt: the first run of a new conversation,
  recoveries from their reservation to their published run, joins, shells, and what is recorded of a
  provider that is gone (crates/node/src/live/recovery_attempt.rs).
Trusted boundary: what the row's other files say, and what the publishing callbacks do
Main exports: NewInvocation, InitialNewAuthority, seedInitialNew, publishBase, publishRun
-/
import Khor.Live.Held

namespace Khor.Live

open Khor.Node.Journal (Identity)
open Keeping (reads)

/-- The lock on a journal file, by the file it is on. -/
abbrev Lease := Nat

/-- The transport to a provider, by the one value that all its holders share. -/
abbrev Control := Nat

structure JournalReservation where
  identity : Identity
  lease : Lease
  holdsFile : Bool

structure NewInvocation where
  reservation : JournalReservation
  control : Control
  actualPid : Option UInt32
  host : Option ProcessStamp
  provider : Option ProcessStamp
  support : Option InitializedSupport

structure InitialNewAuthority where
  key : AttemptKey
  journal : Lease
  control : Control
  actualPid : Option UInt32
  issuingPid : UInt32

/-- The journal that a caller has open. -/
structure OpenJournal where
  identity : Identity
  lease : Lease

structure RegisteredForeground where
  key : AttemptKey
  process : ProcessStamp
  host : ProcessStamp

structure ProcessExit where
  code : Option Int

structure JoinCheck where
  token : Token
  arguments : Arguments

inductive JoinAdmission where
  | previous (reservation : Reservation)
  | check (ticket : JoinCheck)

variable (x : Encoding)

/-! ### The provider -/

def Latest.confirmExit (pid : UInt32) (receipt : ProcessExit) (v : Latest) : Except String Latest :=
  let exited := { v with provider := .exited pid receipt.code }
  match v.provider with
  | .owned process | .foregroundAbsent process | .unknown (some process) .. =>
      if process.pid = pid then .ok exited
      else .error "exit receipt is not for this attempt's provider"
  | .starting => .ok exited
  | .unknown none actualPid _ =>
      if actualPid = none ∨ actualPid = some pid then .ok exited
      else .error "exit receipt is not for this attempt's provider"
  | .exited old code =>
      if old = pid ∧ code = receipt.code then .ok v
      else .error "exit receipt is not for this attempt's provider"
  | .notStarted => .error "exit receipt is not for this attempt's provider"

def Latest.loseProvider (v : Latest) : Except String Latest :=
  match v.provider with
  | .owned process =>
      .ok { v with provider := .unknown (some process) (some process.pid) .cleanupUnconfirmed }
  | .unknown last actualPid _ => .ok { v with provider := .unknown last actualPid .cleanupUnconfirmed }
  | .starting => .ok { v with provider := .unknown none none .cleanupUnconfirmed }
  | _ => .error "cleanup uncertainty cannot erase a known clean boundary"

def confirmedExit (key : AttemptKey) (pid : UInt32) (receipt : ProcessExit) : HeldM Unit := do
  reads fun _ => failWhen (outOfRange pid) "invalid reaped provider PID"
  change x key (Latest.confirmExit pid receipt)

def cleanupUnknown (key : AttemptKey) : HeldM Unit :=
  change x key Latest.loseProvider

def refuse (key : AttemptKey) (reason : Reason) : HeldM Unit :=
  change x key fun v => do
    failWhen (v.result.isSome = true ∨ v.provider.noForegroundOwner = false)
      "refusal has no confirmed clean provider boundary"
    return { v with phase := .refused, result := some (.refused reason) }

/-- What is known of the provider at the end. -/
def recordExit (key : AttemptKey) (actualPid : Option UInt32) (receipt : Option ProcessExit) :
    HeldM Unit :=
  match actualPid, receipt with
  | some pid, some receipt => confirmedExit x key pid receipt
  | _, _ => cleanupUnknown x key

/-- An attempt that has opened nothing and has no owner any more is refused. -/
def settleProvider (key : AttemptKey) (actualPid : Option UInt32) (receipt : Option ProcessExit) :
    HeldM Unit := do
  recordExit x key actualPid receipt
  let latest ← reads (·.current key)
  if latest.result = none ∧ latest.provider.noForegroundOwner = true then refuse x key .setupFailed
  else pure ()

/-- The slot is retired also where the attempt could not be settled. -/
def settle (key : AttemptKey) (actualPid : Option UInt32) (receipt : Option ProcessExit)
    (hostPid : UInt32) : HeldM Unit :=
  (settleProvider x key actualPid receipt).attempt fun provider =>
    (ask (.retireSlot key.arguments.id key.arguments.native key.runId hostPid)).attempt fun (slot : Except String Unit) =>
      reads fun _ =>
        match provider, slot with
        | .ok (), .ok () => .ok ()
        | .error why, .ok () | .ok (), .error why => .error why
        | .error provider, .error slot => .error (provider ++ "; Khor slot cleanup: " ++ slot)

def slotEnded (latest : Latest) : HeldM Bool := do
  let found ← ask .readMeta
  return found.any fun m =>
    decide (latest.phase = .runPublished) && m.kind = GUI && m.id = latest.arguments.id &&
      m.guiNative = some latest.arguments.native && m.pid = latest.hostPid &&
      m.guiRun.any fun run =>
        run.id = latest.runId && run.state.guiRun = some run.id && run.state.exit.isSome

/-- `proof` and `hostAbsent` are the processes whose absence was seen. -/
def foregroundAbsent (registered : RegisteredForeground) (proof : ProcessStamp)
    (hostAbsent : Option ProcessStamp) : HeldM Unit := do
  let current ← reads (·.current registered.key)
  reads fun _ => failWhen (current.host ≠ some registered.host)
    "the previous Khor execution is still active or unknown"
  let ended ← slotEnded current
  reads fun _ => failWhen (ended = false ∧ hostAbsent ≠ some registered.host)
    "the previous Khor execution is still active or unknown"
  reads fun held => failWhen (held.hasCleanupBarrier = true ∨ proof ≠ registered.process)
    "foreground absence does not match this registered owner"
  change x registered.key fun latest => do
    failWhen (latest.provider ≠ .owned registered.process)
      "registered foreground changed during its read-only probe"
    return { latest with provider := .foregroundAbsent registered.process }

def recordSupport (key : AttemptKey) (support : InitializedSupport) : HeldM Unit :=
  change x key fun latest => do
    failWhen (latest.hostRecorded = false ∨ latest.provider.unborn = true)
      "Initialize facts have no actual started provider owner"
    failWhen (∃ previous ∈ latest.support, previous ≠ support)
      "Initialize facts changed within one startup"
    return { latest with support := some support }

/-! ### Publishing -/

/-- The intent is durable before the callback, which the same token cannot enter a second time. -/
def baseStep (key : AttemptKey) (generation : Option String) : HeldM Unit := do
  reads fun _ => whenSome generation (hex · 32)
  change x key fun v => .ok { v with generation := generation, phase := .publishingBase }
  ask (.publishBase key)
  change x key fun v => .ok { v with phase := .basePublished }

def runStep (key : AttemptKey) : HeldM Unit := do
  change x key fun v => .ok { v with phase := .publishingRun }
  ask (.publishRun key)
  change x key fun v =>
    .ok { v with phase := .runPublished, result := some (.opened v.arguments.id v.runId) }

def Held.checkLive (h : Held) (key : AttemptKey) (phase : Phase) : Except String Unit := do
  let value ← h.current key
  failWhen (h.hasCleanupBarrier = true) "native source has an unconfirmed New cleanup"
  failWhen (value.arguments.operation ≠ .recoverNative ∨ value.phase ≠ phase ∨ value.provider.isOwned = false)
    "recovery publication has no current provider owner"

def publishBase (key : AttemptKey) (generation : Option String) : HeldM Unit := do
  reads (·.checkLive key .starting)
  baseStep x key generation

def publishRun (key : AttemptKey) : HeldM Unit := do
  reads (·.checkLive key .basePublished)
  runStep x key

/-- The provider is the one that the authority was given for. -/
def InitialNewAuthority.owns (authority : InitialNewAuthority) : Provider → Bool
  | .owned process => some process.pid = authority.actualPid
  | .unknown _ actualPid .birthUnavailable => actualPid = authority.actualPid
  | _ => false

def Held.checkInitial (h : Held) (authority : InitialNewAuthority) (journal : OpenJournal)
    (control : Control) (pid : UInt32) (phase : Phase) : Except String Unit := do
  let value ← h.current authority.key
  failWhen (h.hasCleanupBarrier = true) "native source has an unconfirmed New cleanup"
  failWhen (value.phase ≠ phase ∨ value.arguments.operation ≠ .initialNew ∨
      authority.issuingPid ≠ pid ∨ authority.control ≠ control ∨
      authority.owns value.provider = false ∨ journal.identity ≠ value.arguments.native ∨
      journal.lease ≠ authority.journal)
    "initial New no longer owns this journal and live invocation"

def publishInitialBase (authority : InitialNewAuthority) (journal : OpenJournal) (control : Control)
    (pid : UInt32) : HeldM Unit := do
  reads (·.checkInitial authority journal control pid .starting)
  baseStep x authority.key none

def publishInitialRun (authority : InitialNewAuthority) (journal : OpenJournal) (control : Control)
    (pid : UInt32) : HeldM Unit := do
  reads (·.checkInitial authority journal control pid .basePublished)
  runStep x authority.key

/-! ### The first run of a new conversation -/

/-- The processes of the invocation are its own. -/
def NewInvocation.checkFacts (v : NewInvocation) (pid : UInt32) : Except String Unit := do
  failWhen (pid ≤ 1 ∨ ∃ actual ∈ v.actualPid, outOfRange actual) "invalid initial process facts"
  whenSome v.host fun host => do
    host.validate
    failWhen (host.pid ≠ pid) "initial host identity is not this invocation"
  whenSome v.provider fun provider => do
    provider.validate
    failWhen (some provider.pid ≠ v.actualPid ∨ provider.parent ≠ pid ∨ provider.group ≠ provider.pid)
      "initial provider identity differs from its actual transport"

def NewInvocation.recorded (v : NewInvocation) : Except String Provider :=
  match v.host, v.provider with
  | some host, some provider =>
      if sameContext host provider then .ok (.owned provider)
      else .error "initial process facts belong to different kernel contexts"
  | _, provider => .ok (.unknown provider v.actualPid .birthUnavailable)

def seedInitialNew (arguments : Arguments) (invocation : NewInvocation) (pid : UInt32) :
    HeldM InitialNewAuthority := do
  reads (·.ensure)
  reads fun _ => arguments.validate x.toExternals
  reads fun held => failWhen (arguments.operation ≠ .initialNew ∨ arguments.expectedRun.isSome = true ∨
      held.document.isSome = true)
    "initial New cannot replace an existing row or recovery attempt"
  let found ← ask .readMeta
  reads fun _ => failWhen (found.isSome = true)
    "initial New cannot replace an existing row or recovery attempt"
  reads fun _ => failWhen (invocation.reservation.identity ≠ arguments.native)
    "initial New requires its first exact native journal reservation"
  let published ← ask .hasPublishedBase
  reads fun _ => failWhen (published = true)
    "initial New requires its first exact native journal reservation"
  ask .checkBinding
  reads fun _ => invocation.checkFacts pid
  let provider ← reads fun _ => invocation.recorded
  let nonce ← ask .freshHex
  let token : Token := ⟨1, nonce⟩
  reads fun _ => token.validate
  let runId ← ask .freshHex
  store x
    { version := VERSION
      highWater := 1
      action := none
      cleanupBarrier := none
      latest := some
        { token := token
          arguments := arguments
          runId := runId
          phase := .starting
          host := invocation.host
          unverifiedHostPid := if invocation.host = none then some pid else none
          provider := provider
          generation := none
          result := none
          support := invocation.support } }
  return ⟨⟨token, arguments, runId⟩, invocation.reservation.lease, invocation.control,
    invocation.actualPid, pid⟩

def settleInitial (authority : InitialNewAuthority) (control : Control) (receipt : Option ProcessExit)
    (pid : UInt32) : HeldM Unit := do
  let _ ← reads (·.current authority.key)
  reads fun _ => failWhen (authority.issuingPid ≠ pid ∨ authority.control ≠ control)
    "initial cleanup belongs to another transport owner"
  settle x authority.key authority.actualPid receipt authority.issuingPid

/-! ### A cleanup that is not confirmed -/

/-- `quarantine_matches`, of the metadata and the binding it reads. -/
def Held.quarantineMatches (h : Held) (id : SessionId) (native : Identity) (found : Option Meta)
    (bound : Option Identity) : Except String Bool :=
  let recorded := found.bind (·.guiNative)
  if bound ≠ none ∧ recorded ≠ none ∧ bound ≠ recorded then
    .error "New quarantine alias binding and Meta disagree"
  else if (∃ b ∈ bound, b ≠ native) ∨ ∃ r ∈ recorded, r ≠ native then .ok false
  else if ∃ m ∈ found, m.id ≠ "" ∧ m.id ≠ id then
    .error "New quarantine alias has another logical identity"
  else if bound ≠ some native ∧ recorded ≠ some native then .ok false
  else if (∃ latest ∈ h.latest, latest.arguments.native ≠ native) ∨
      ∃ barrier ∈ h.document.bind (·.cleanupBarrier), barrier ≠ native then
    .error "New quarantine alias attempt names another source"
  else .ok true

def quarantineNewAt (id : SessionId) (reservation : JournalReservation) : HeldM Unit := do
  reads (·.ensure)
  reads fun _ => failWhen (reservation.holdsFile = false)
    "New quarantine no longer holds its exact journal File"
  let found ← ask .readMeta
  let bound ← ask .boundIdentity
  let same ← reads (·.quarantineMatches id reservation.identity found bound)
  reads fun _ => failWhen (same = false) "unconfirmed New is not proven to be this row's exact source"
  ask .checkBinding
  let next ← reads fun held => Except.ok
    { held.document.getD .empty with cleanupBarrier := some reservation.identity }
  store x next

/-! ### Joins and shells -/

def joinMeta (arguments : Arguments) (legacy : Legacy) : HeldM Unit := do
  let found ← ask .readMeta
  reads fun _ => failWhen (found = none) "the joined GUI row disappeared"
  checkNative arguments.id found arguments.native legacy
  reads fun _ => failWhen
    (∃ m ∈ found, m.kind ≠ GUI ∨ m.guiRun.map (·.id) ≠ arguments.expectedRun ∨ guiSlotEnded m = true)
    "the joined GUI execution changed"

/-- Freeze Join intent before its real endpoint handshake. -/
def beginJoin (arguments : Arguments) (token : Token) (legacy : Legacy) : HeldM JoinAdmission := do
  let previous ← reads (·.replay x.toExternals arguments token)
  match previous with
  | some previous => return .previous previous
  | none => do
      joinMeta arguments legacy
      let next ← reads fun held => Except.ok (held.accepted token (.native arguments) .joinPending)
      store x next
      return .check ⟨token, arguments⟩

/-- The token is of the action that is recorded as pending. -/
def Held.checkPending (h : Held) (arguments : ActionArguments) (token : Token) (pending : ActionResult)
    (why : String) : Except String Unit := do
  let recorded ← h.actionReplay x.toExternals arguments token
  failWhen (recorded ≠ some (.recorded pending)) why

def finishJoin (ticket : JoinCheck) (legacy : Legacy) : HeldM Reservation := do
  reads (·.checkPending x (.native ticket.arguments) ticket.token .joinPending
    "Join checking authority has been retired")
  ask .validate
  joinMeta ticket.arguments legacy
  let next ← reads (·.answered (.join ticket.arguments.expectedRun) "Join intent is missing")
  store x next
  return .joined ticket.arguments.expectedRun

/-- The token is accepted before any shell is spawned; `none` is that it now is. -/
def reserveShell (arguments : ActionArguments) (token : Token) : HeldM (Option ActionReplay) := do
  reads fun _ => failWhen (arguments.isShell = false) "not a Shell action"
  let previous ← reads (·.actionReplay x.toExternals arguments token)
  match previous with
  | some previous => return some previous
  | none => do
      reads fun held => failWhen (∃ previous ∈ held.action, previous.result = .shellPending)
        "previous Shell action is unresolved; a new token cannot replay its effects"
      ask .validate
      let next ← reads fun held => Except.ok (held.accepted token arguments .shellPending)
      store x next
      return none

def ActionResult.completesShell : ActionResult → Bool
  | .shellOpened _ | .directoryRequired | .refused _ => true
  | _ => false

def finishShell (arguments : ActionArguments) (token : Token) (result : ActionResult) : HeldM Unit := do
  reads (·.checkPending x arguments token .shellPending "Shell action is no longer its accepted pending token")
  reads fun _ => failWhen (result.completesShell = false) "invalid completed Shell result"
  let next ← reads (·.answered result "Shell action is missing")
  store x next

/-! ### Recoveries -/

/-- The attempt may have an execution that is not known to be over. -/
def Held.unresolved (h : Held) : Bool :=
  h.document.any fun d =>
    match d.latest with
    | none => true
    | some latest =>
        !latest.provider.replacementConfirmed &&
          !(decide (latest.phase = .refused) && decide (latest.provider = .notStarted))

/-- The row runs something that the attempt does not account for. -/
def Held.unaccounted (h : Held) (found : Option Meta) (current : Option String) : Bool :=
  (h.latest.any fun latest =>
      current.any fun run => run ≠ latest.runId && some run ≠ latest.arguments.expectedRun) ||
    (h.document.isNone && (current.isSome || found.any fun m => m.kind = GUI))

/-- The document of a reserved attempt. -/
def reservedDocument (token : Token) (arguments : Arguments) (runId : String) : Document :=
  { version := VERSION
    highWater := token.epoch
    action := none
    cleanupBarrier := none
    latest := some
      { token := token
        arguments := arguments
        runId := runId
        phase := .reserved
        host := none
        unverifiedHostPid := none
        provider := .notStarted
        generation := none
        result := none
        support := none } }

/-- The rest of `reserve`, of a token that is the next to be. -/
def reserveNext (arguments : Arguments) (token : Token) (legacy : Legacy) : HeldM Reservation := do
  let unresolved ← reads fun held => Except.ok held.unresolved
  if unresolved then return .unknownOwner
  else do
    let found ← ask .readMeta
    checkNative arguments.id found arguments.native legacy
    let current := (found.bind (·.guiRun)).map (·.id)
    reads fun _ => failWhen (current ≠ arguments.expectedRun)
      "recovery offer names another GUI execution"
    let unaccounted ← reads fun held => Except.ok (held.unaccounted found current)
    if unaccounted then return .unknownOwner
    else do
      let runId ← ask .freshHex
      store x (reservedDocument token arguments runId)
      return .start ⟨token, arguments, runId⟩

def reserve (arguments : Arguments) (token : Token) (legacy : Legacy) : HeldM Reservation := do
  let previous ← reads (·.replay x.toExternals arguments token)
  match previous with
  | some previous => return previous
  | none => reserveNext x arguments token legacy

def spawnFailed (key : AttemptKey) : HeldM Unit := do
  let latest ← reads (·.current key)
  reads fun _ => failWhen (latest.phase ≠ .reserved ∨ latest.host.isSome = true ∨ latest.provider ≠ .notStarted)
    "failed spawn cannot retire an already claimed ghost"
  refuse x key .setupFailed

def claimHost (key : AttemptKey) (host : ProcessStamp) : HeldM Unit := do
  reads fun _ => host.validate
  change x key fun v => do
    failWhen (v.phase ≠ .reserved) "recovery ghost has already claimed this attempt"
    return { v with host := some host, phase := .starting }

def startingProvider (key : AttemptKey) : HeldM Unit :=
  change x key fun v => do
    failWhen (v.phase ≠ .starting ∨ v.provider ≠ .notStarted) "provider start has already been issued"
    return { v with provider := .starting }

def ownedProvider (key : AttemptKey) (provider : ProcessStamp) : HeldM Unit := do
  reads fun _ => provider.validate
  change x key fun v => do
    failWhen (v.phase ≠ .starting ∨ v.provider ≠ .starting ∨ provider.group ≠ provider.pid ∨
        ¬∃ host ∈ v.host, provider.parent = host.pid ∧ sameContext host provider = true)
      "provider does not belong to this starting foreground owner"
    return { v with provider := .owned provider }

def settleRecovery (key : AttemptKey) (host : ProcessStamp) (actualPid : Option UInt32)
    (receipt : Option ProcessExit) (pid : UInt32) : HeldM Unit := do
  let latest ← reads (·.current key)
  reads fun _ => failWhen (latest.arguments.operation ≠ .recoverNative ∨ latest.host ≠ some host ∨
      host.pid ≠ pid)
    "recovery cleanup belongs to another actual host"
  settle x key actualPid receipt host.pid

/-! ### One operation -/

/-- An operation with what its caller gives it; `pid` is the caller's process. -/
inductive Op where
  | seedInitialNew (arguments : Arguments) (invocation : NewInvocation) (pid : UInt32)
  | publishInitialBase (authority : InitialNewAuthority) (journal : OpenJournal) (control : Control)
      (pid : UInt32)
  | publishInitialRun (authority : InitialNewAuthority) (journal : OpenJournal) (control : Control)
      (pid : UInt32)
  | settleInitial (authority : InitialNewAuthority) (control : Control) (receipt : Option ProcessExit)
      (pid : UInt32)
  | quarantineNewAt (id : SessionId) (reservation : JournalReservation)
  | beginJoin (arguments : Arguments) (token : Token) (legacy : Legacy)
  | finishJoin (ticket : JoinCheck) (legacy : Legacy)
  | reserveShell (arguments : ActionArguments) (token : Token)
  | finishShell (arguments : ActionArguments) (token : Token) (result : ActionResult)
  | reserve (arguments : Arguments) (token : Token) (legacy : Legacy)
  | spawnFailed (key : AttemptKey)
  | claimHost (key : AttemptKey) (host : ProcessStamp)
  | startingProvider (key : AttemptKey)
  | ownedProvider (key : AttemptKey) (provider : ProcessStamp)
  | recordSupport (key : AttemptKey) (support : InitializedSupport)
  | publishBase (key : AttemptKey) (generation : Option String)
  | publishRun (key : AttemptKey)
  | settleRecovery (key : AttemptKey) (host : ProcessStamp) (actualPid : Option UInt32)
      (receipt : Option ProcessExit) (pid : UInt32)
  | foregroundAbsent (registered : RegisteredForeground) (proof : ProcessStamp)
      (hostAbsent : Option ProcessStamp)

/-- What an operation returns. -/
inductive Answer where
  | done
  | authority (authority : InitialNewAuthority)
  | admission (admission : JoinAdmission)
  | reservation (reservation : Reservation)
  | action (previous : Option ActionReplay)

def program : Op → HeldM Answer
  | .seedInitialNew arguments invocation pid => .authority <$> seedInitialNew x arguments invocation pid
  | .publishInitialBase authority journal control pid =>
      (fun _ => .done) <$> publishInitialBase x authority journal control pid
  | .publishInitialRun authority journal control pid =>
      (fun _ => .done) <$> publishInitialRun x authority journal control pid
  | .settleInitial authority control receipt pid =>
      (fun _ => .done) <$> settleInitial x authority control receipt pid
  | .quarantineNewAt id reservation => (fun _ => .done) <$> quarantineNewAt x id reservation
  | .beginJoin arguments token legacy => .admission <$> beginJoin x arguments token legacy
  | .finishJoin ticket legacy => .reservation <$> finishJoin x ticket legacy
  | .reserveShell arguments token => .action <$> reserveShell x arguments token
  | .finishShell arguments token result => (fun _ => .done) <$> finishShell x arguments token result
  | .reserve arguments token legacy => .reservation <$> reserve x arguments token legacy
  | .spawnFailed key => (fun _ => .done) <$> spawnFailed x key
  | .claimHost key host => (fun _ => .done) <$> claimHost x key host
  | .startingProvider key => (fun _ => .done) <$> startingProvider x key
  | .ownedProvider key provider => (fun _ => .done) <$> ownedProvider x key provider
  | .recordSupport key support => (fun _ => .done) <$> recordSupport x key support
  | .publishBase key generation => (fun _ => .done) <$> publishBase x key generation
  | .publishRun key => (fun _ => .done) <$> publishRun x key
  | .settleRecovery key host actualPid receipt pid =>
      (fun _ => .done) <$> settleRecovery x key host actualPid receipt pid
  | .foregroundAbsent registered proof hostAbsent =>
      (fun _ => .done) <$> foregroundAbsent x registered proof hostAbsent

end Khor.Live
