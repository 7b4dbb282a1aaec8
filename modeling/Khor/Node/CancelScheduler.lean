/-
Module: Khor.Node.CancelScheduler
Purpose: The in-process scheduler of admitted cancellation runs: one metadata worker, at most four steps,
  a queue of runs that wait for their time, local retirements that still need an intent, and roots that
  are being closed. Every call holds the scheduler's lock for one of the steps here; a close holds it
  twice, and joins its workers in between.
Trusted boundary: what workers reply, and whether one can be started
Main exports: Scheduler, enqueue, pump, World, admitted_runs_kept
-/
import Khor.Lib.Runs

namespace Khor.Node.CancelScheduler

def RUN_LIMIT : Nat := 256

def CHILD_LIMIT : Nat := 256

def PAGE : Nat := 32

/-! ### Replies -/

inductive Durability where
  | durablyQueued
  | notPersisted
  | persistenceUnknown
  | absent
  | unavailable
deriving DecidableEq

/-- What the scheduler checks of a full snapshot. -/
structure Full where
  counts : List Nat
  issueCount : Nat
  unresolved : Nat
  scanComplete : Bool
  allKnownChildrenCanceled : Bool

section Scheduler

variable {Root Run : Type} [DecidableEq Root] [DecidableEq Run]

/-- A snapshot as it comes back: the run it names, its durability if that parses, and the whole of it if
that parses, with the number of its fields. -/
structure Snapshot (Run : Type) where
  run : Run
  durability : Option Durability
  full : Option Full
  fields : Nat

structure Reply (Run : Type) where
  snapshot : Option (Snapshot Run)
  runs : List Run
  cursor : Option (List Char)
  discoveryIssues : Nat

/-- A worker's text: its length, and what it parses as. -/
structure Raw (α : Type) where
  length : Nat
  parsed : Option α

inductive StepResult where
  | retired
  | readyAt (notBeforeMs : Int)

/-- `decode_reply`. `safeRun` is the check of a run's name. -/
def decodeReply (safeRun : Run → Bool) (raw : Raw (Reply Run)) : Option (Reply Run) :=
  if 128 * 1024 < raw.length then none
  else
    match raw.parsed with
    | none => none
    | some reply =>
        if PAGE < reply.runs.length ∨ PAGE < reply.discoveryIssues ∨
            reply.runs.any (fun run => !safeRun run) ∨
            reply.cursor.any (fun cursor => 255 < cursor.length) then none
        else some reply

/-- `validated_snapshot`. -/
def validatedSnapshot (reply : Reply Run) (run : Run) (persist : Bool) : Option (Snapshot Run) :=
  match reply.snapshot with
  | none => none
  | some snapshot =>
      if snapshot.run ≠ run then none
      else
        match snapshot.durability with
        | none => none
        | some durability =>
            let bad :=
              match snapshot.full with
              | some full =>
                  decide (10 < full.counts.length) ||
                    full.counts.any (fun count => CHILD_LIMIT * 2 + 1 < count) ||
                    decide (CHILD_LIMIT * 2 + 1 < full.issueCount) ||
                    (full.allKnownChildrenCanceled && (!full.scanComplete || full.unresolved != 0))
              | none =>
                  durability == .durablyQueued || durability == .absent || snapshot.fields != 2
            let valid :=
              if persist then
                durability == .durablyQueued || durability == .notPersisted ||
                  durability == .persistenceUnknown
              else
                durability == .durablyQueued || durability == .absent || durability == .unavailable
            if bad || !valid then none else some snapshot

/-- The reply says that the run's intent is durable. -/
def saysDurable (reply : Reply Run) (run : Run) : Bool :=
  (validatedSnapshot reply run true).any fun s => s.durability == some .durablyQueued

/-! ### The scheduler -/

inductive Metadata (Run : Type) where
  | persist (run : Run) (reason : String)
  | status (run : Run)
  | discover (after : Option (List Char))

structure MetadataOwner (Root Run : Type) where
  root : Root
  operation : Metadata Run

structure StepOwner (Root Run : Type) where
  root : Root
  run : Run
  failures : Nat

structure Ready (Root Run : Type) where
  root : Root
  run : Run
  «at» : Nat
  failures : Nat

structure Home where
  cursor : Option (List Char)
  nextScan : Nat
  allowed : Bool

/-- Times are milliseconds. -/
structure Scheduler (Root Run : Type) [DecidableEq Root] where
  closing : Finset Root
  closed : Finset Root
  closingSteps : Nat
  closingMetadata : Bool
  metadata : Option (MetadataOwner Root Run)
  steps : List (StepOwner Root Run)
  homes : AList (fun _ : Root => Home)
  homeOrder : List Root
  ready : List (Ready Root Run)
  retired : List (Root × Run)
  durable : List (Root × Run)

/-- `Scheduler::default`. -/
def Scheduler.default : Scheduler Root Run :=
  { closing := ∅, closed := ∅, closingSteps := 0, closingMetadata := false, metadata := none,
    steps := [], homes := ∅, homeOrder := [], ready := [], retired := [], durable := [] }

/-- What one call finds: the clocks, the workers that have finished and their results, and which workers
can be started. -/
structure Answers (Root Run : Type) where
  instant : Nat
  wall : Int
  safeRun : Run → Bool
  metadata : Option (Except String (Raw (Reply Run)))
  step : Root → Run → Option (Except String (Raw StepResult))
  startsMetadata : Bool
  startsStep : Root → Run → Bool

namespace Scheduler

variable (s : Scheduler Root Run)

/-- `root_count`: each root once. -/
def rootCount : Nat := (s.homes.keys.toFinset ∪ s.closed ∪ s.closing).card

def canAdmitRoot (root : Root) : Bool :=
  decide (root ∈ s.homes) || decide (root ∈ s.closed) || decide (root ∈ s.closing) ||
    decide (s.rootCount < RUN_LIMIT)

/-- Whether the run waits in `ready`. -/
def waits (root : Root) (run : Run) : Bool :=
  s.ready.any fun item => item.root = root ∧ item.run = run

/-- Whether a step of the run is out. -/
def running (root : Root) (run : Run) : Bool :=
  s.steps.any fun owner => owner.root = root ∧ owner.run = run

/-- `enqueue`. It refuses silently: a fenced root, a full queue, a run that is already there. -/
def enqueue (root : Root) (run : Run) («at» failures : Nat) : Scheduler Root Run :=
  if root ∈ s.closing ∨ root ∈ s.closed ∨ RUN_LIMIT ≤ s.ready.length ∨ s.waits root run ∨
      s.running root run then s
  else
    { s with ready := s.ready ++ [{ root := root, run := run, «at» := «at», failures := failures }] }

/-- `start_metadata`. -/
def startMetadata (starts : Bool) (root : Root) (operation : Metadata Run) :
    Except String (Scheduler Root Run) :=
  if root ∈ s.closing then .error "RuntimeClosing"
  else if root ∈ s.closed then .error "RuntimeClosed"
  else if s.closingMetadata then .error "Busy"
  else if starts then .ok { s with metadata := some { root := root, operation := operation } }
  else .error "OwnerUnavailable"

/-- The runs a metadata reply brings in, if it is what its operation asked for. -/
def repliedRuns (owner : MetadataOwner Root Run) (reply : Reply Run) : List Run :=
  match owner.operation with
  | .persist run _ =>
      if (validatedSnapshot reply run true).isSome ∧ reply.runs.all (· = run) then reply.runs else []
  | .status run =>
      if (validatedSnapshot reply run false).isSome ∧ reply.runs.isEmpty then reply.runs else []
  | .discover _ => if reply.snapshot.isNone then reply.runs else []

/-- A Persist that is durable is remembered. -/
def rememberDurable (owner : MetadataOwner Root Run) (reply : Reply Run) : Scheduler Root Run :=
  match owner.operation with
  | .persist run _ =>
      if saysDurable reply run then
        let kept := s.durable.filter (· ≠ (owner.root, run))
        { s with
          durable := (if RUN_LIMIT ≤ kept.length then kept.drop 1 else kept) ++ [(owner.root, run)] }
      else s
  | _ => s

/-- A Discover moves its home's cursor. -/
def moveCursor (owner : MetadataOwner Root Run) (reply : Reply Run) : Scheduler Root Run :=
  match owner.operation, s.homes.lookup owner.root with
  | .discover _, some home =>
      { s with homes := s.homes.insert owner.root { home with cursor := reply.cursor } }
  | _, _ => s

/-- The metadata worker, if it has finished. -/
def pollMetadata (answers : Answers Root Run) : Scheduler Root Run :=
  match s.metadata, answers.metadata with
  | some owner, some result =>
      let s := { s with metadata := none }
      match result with
      | .error _ => s
      | .ok raw =>
          match decodeReply answers.safeRun raw with
          | none => s
          | some reply =>
              let s := s.rememberDurable owner reply
              let s := (repliedRuns owner reply).foldl
                (fun s run => s.enqueue owner.root run answers.instant 0) s
              s.moveCursor owner reply
  | _, _ => s

/-- What a step's text parses as, if it is short enough. -/
def stepResult : Except String (Raw StepResult) → Option StepResult
  | .error _ => none
  | .ok raw => if raw.length ≤ 4096 then raw.parsed else none

/-- The delay after a number of failures, in seconds. -/
def backoff (failures : Nat) : Nat := min (2 ^ (failures - 1)) 30

/-- A step has finished: its run is done, waits for its time, or waits for another try. -/
def completed (answers : Answers Root Run) (owner : StepOwner Root Run)
    (result : Except String (Raw StepResult)) : Scheduler Root Run :=
  match stepResult result with
  | some .retired => s
  | some (.readyAt notBeforeMs) =>
      let delay := (max 0 (min (notBeforeMs - answers.wall) 30000)).toNat
      s.enqueue owner.root owner.run (answers.instant + delay) 0
  | none =>
      let failures := min (owner.failures + 1) 6
      s.enqueue owner.root owner.run (answers.instant + backoff failures * 1000) failures

/-- The steps, in order: `kept` are still out. -/
def pollSteps (answers : Answers Root Run) (kept : List (StepOwner Root Run)) :
    List (StepOwner Root Run) → Scheduler Root Run → Scheduler Root Run
  | [], s => s
  | owner :: rest, s =>
      match answers.step owner.root owner.run with
      | none => pollSteps answers (kept ++ [owner]) rest s
      | some result =>
          pollSteps answers kept rest ({ s with steps := kept ++ rest }.completed answers owner result)

/-- `next_home`: the first home in turn whose scan is due. -/
def nextHome (instant : Nat) : Nat → Scheduler Root Run → Option Root × Scheduler Root Run
  | 0, s => (none, s)
  | n + 1, s =>
      match s.homeOrder with
      | [] => (none, s)
      | root :: rest =>
          let s := { s with homeOrder := rest ++ [root] }
          if (s.homes.lookup root).any (fun home => home.nextScan ≤ instant) ∧ root ∉ s.closing ∧
              root ∉ s.closed then (some root, s)
          else nextHome instant n s

/-- The metadata slot, when it is free: a retirement that needs its intent, or else a scan. -/
def fillMetadata (answers : Answers Root Run) (discover : Bool) : Scheduler Root Run :=
  if s.metadata.isNone ∧ s.closingMetadata = false then
    match s.retired.find? fun entry => entry.1 ∉ s.closing ∧ entry.1 ∉ s.closed with
    | some entry =>
        let s := { s with retired := s.retired.erase entry }
        match s.startMetadata answers.startsMetadata entry.1 (.persist entry.2 "RunFailed") with
        | .ok s => s
        | .error _ => { s with retired := s.retired ++ [entry] }
    | none =>
        if discover then
          match nextHome answers.instant s.homeOrder.length s with
          | (none, s) => s
          | (some root, s) =>
              match s.homes.lookup root with
              | none => s
              | some home =>
                  let s :=
                    { s with
                      homes := s.homes.insert root { home with nextScan := answers.instant + 1000 } }
                  match s.startMetadata answers.startsMetadata root (.discover home.cursor) with
                  | .ok s => s
                  | .error _ => s
        else s
  else s

/-- Whether a waiting run may start now. -/
def due (answers : Answers Root Run) (item : Ready Root Run) : Bool :=
  decide (item.«at» ≤ answers.instant) && decide (item.root ∉ s.closing) && decide (item.root ∉ s.closed) &&
    (s.homes.lookup item.root).any (·.allowed)

/-- Each waiting run once: it starts, waits on, or failed to start and waits for another try. -/
def startReady (answers : Answers Root Run) : Nat → Scheduler Root Run → Scheduler Root Run
  | 0, s => s
  | n + 1, s =>
      if 4 ≤ s.steps.length + s.closingSteps then s
      else
        match s.ready with
        | [] => s
        | item :: rest =>
            if !s.due answers item then startReady answers n { s with ready := rest ++ [item] }
            else if answers.startsStep item.root item.run then
              startReady answers n
                { s with
                  ready := rest
                  steps := s.steps ++ [{ root := item.root, run := item.run, failures := item.failures }] }
            else
              let failures := min (item.failures + 1) 6
              startReady answers n
                ({ s with ready := rest }.enqueue item.root item.run
                  (answers.instant + backoff failures * 1000) failures)

/-- `Scheduler::pump`. -/
def pump (answers : Answers Root Run) (discover : Bool) : Scheduler Root Run :=
  let s := s.pollMetadata answers
  let s := pollSteps answers [] s.steps s
  let s := s.fillMetadata answers discover
  startReady answers s.ready.length s

end Scheduler

/-! ### Calls -/

inductive RuntimeClose where
  | closed
  | busy

/-- How far a close is: begun; its workers taken and being joined, with what it took; or over, with its
result. -/
inductive Guard (Root Run : Type) where
  | opened
  | joining (metadata : Option (MetadataOwner Root Run)) (steps : List (StepOwner Root Run))
      (reserved : Option Run) (purged : List (Ready Root Run))
  | returned (steps : Nat) (metadata : Bool) (result : Except String RuntimeClose)

/-- The results of the workers a close has joined. -/
structure Joined (Run : Type) where
  safeRun : Run → Bool
  metadata : Except String (Raw (Reply Run))
  steps : List (Except String (Raw StepResult))

structure World (Root Run : Type) [DecidableEq Root] where
  scheduler : Scheduler Root Run
  guards : AList (fun _ : Root => Guard Root Run)

inductive Event (Root Run : Type) where
  /-- The driver, or a caller that waits for its completion. -/
  | drive (answers : Answers Root Run)
  /-- `pump`, from the reactor. -/
  | pump (root : Root) (allowed : Bool) (answers : Answers Root Run)
  | acquire (root : Root) (instant : Nat)
  | localRetired (root : Root) (run : Run) (answers : Answers Root Run)
  /-- `request`, of a Persist or a Status. -/
  | request (root : Root) (run : Run) (persist allowed retry : Bool) (starts : Bool)
      (answers : Answers Root Run)
  | beginClose (root : Root)
  /-- `finish` up to its first unlock. -/
  | finish (root : Root) (missingClaim : Bool)
  /-- `finish` from its second lock on. -/
  | settle (root : Root) (joined : Joined Run)
  /-- `Drop` of the guard. -/
  | release (root : Root)

namespace Scheduler

variable (s : Scheduler Root Run)

/-- A home that is not known yet. -/
def newHome (root : Root) (home : Home) : Scheduler Root Run :=
  if root ∈ s.homes then s
  else { s with homes := s.homes.insert root home, homeOrder := s.homeOrder ++ [root] }

/-- A home that is not known yet, if there is room for its root. -/
def admitHome (root : Root) (home : Home) : Scheduler Root Run :=
  if s.canAdmitRoot root then s.newHome root home else s

/-- Whether a known home may start work. -/
def allow (root : Root) (allowed : Bool) : Scheduler Root Run :=
  match s.homes.lookup root with
  | none => s
  | some home => { s with homes := s.homes.insert root { home with allowed := allowed } }

/-- `acquire`. -/
def acquire (root : Root) (instant : Nat) : Except String (Scheduler Root Run) :=
  if root ∈ s.closing then .error "RuntimeClosing"
  else if !s.canAdmitRoot root then .error "ResourceLimit"
  else
    .ok ({ s with closed := s.closed.erase root }.newHome root
      { cursor := none, nextScan := instant, allowed := false })

/-- Whether the scheduler has heard of a run that was retired locally. -/
def known (root : Root) (run : Run) : Bool :=
  s.waits root run || s.running root run || decide ((root, run) ∈ s.durable) ||
    s.metadata.any fun m =>
      decide (m.root = root) &&
        match m.operation with
        | .persist id _ => decide (id = run)
        | _ => false

/-- `local_retired` before its pump. -/
def noteRetired (root : Root) (run : Run) : Scheduler Root Run :=
  if s.known root run = false ∧ s.retired.length < RUN_LIMIT ∧ (root, run) ∉ s.retired then
    { s with retired := s.retired ++ [(root, run)] }
  else s

/-- `request` before its pump; nothing at all at a root that is closing or closed, but for a retry. -/
def admitRequest (root : Root) (persist allowed retry : Bool) (instant : Nat) :
    Option (Scheduler Root Run) :=
  if root ∈ s.closing then none
  else if root ∈ s.closed ∧ ¬ (persist = true ∧ retry = true) then none
  else
    some (({ s with closed := s.closed.erase root }.allow root allowed).admitHome root
      { cursor := none, nextScan := instant + 1000, allowed := allowed })

/-- `request` after its pump: the metadata slot is taken if the home is known, nothing is remembered as
durable for it, and the slot is free. -/
def startRequest (root : Root) (run : Run) (persist retry starts : Bool) : Scheduler Root Run :=
  if root ∉ s.homes then s
  else if persist = true ∧ retry = false ∧ (root, run) ∈ s.durable then s
  else if s.metadata.isSome then s
  else
    let operation : Metadata Run :=
      if persist then .persist run (if retry then "Retry" else "Stop") else .status run
    match s.startMetadata starts root operation with
    | .ok s => s
    | .error _ => s

/-- The run of a Persist the root has in the metadata slot. -/
def reserved (root : Root) : Option Run :=
  s.metadata.bind fun owner =>
    if owner.root = root then
      match owner.operation with
      | .persist run _ => some run
      | _ => none
    else none

/-- Why `finish` refuses before it takes anything. -/
def busy (root : Root) (missingClaim : Bool) : Bool :=
  s.retired.any (fun entry => entry.1 = root) ||
    (missingClaim && (s.metadata.any (fun m => m.root = root) ||
      s.steps.any (fun owner => owner.root = root))) ||
    ((s.reserved root).isSome && decide (RUN_LIMIT ≤ s.retired.length))

/-- The metadata worker of a root. -/
def ownedMetadata (root : Root) : Option (MetadataOwner Root Run) :=
  s.metadata.filter fun m => m.root = root

/-- What is left of the queues when a close has taken its root's. -/
def purge (root : Root) : Scheduler Root Run :=
  { s with
    retired := s.retired ++ ((s.reserved root).map fun run => (root, run)).toList
    metadata := s.metadata.filter fun m => m.root ≠ root
    closingMetadata := s.closingMetadata || (s.ownedMetadata root).isSome
    steps := s.steps.filter fun owner => owner.root ≠ root
    ready := s.ready.filter fun item => item.root ≠ root
    durable := s.durable.filter fun entry => entry.1 ≠ root
    closingSteps := s.closingSteps + (s.steps.filter fun owner => owner.root = root).length }

/-- The first error of the joined workers. -/
def joinError (metadata : Option (MetadataOwner Root Run)) (joined : Joined Run) : Option String :=
  let results : List (Option String) :=
    (match metadata, joined.metadata with
      | some _, .error code => some code
      | _, _ => none) ::
    joined.steps.map fun
      | .error code => some code
      | .ok _ => none
  results.findSome? id

/-- Whether a taken Persist, if there was one, left its intent durable. -/
def committed (reserved : Option Run) (joined : Joined Run) : Bool :=
  match reserved with
  | none => true
  | some run =>
      match joined.metadata with
      | .error _ => false
      | .ok raw =>
          match decodeReply joined.safeRun raw with
          | none => false
          | some reply => saysDurable reply run

/-- The slot a close reserved in `retired` is given back. -/
def unreserve (root : Root) : Option Run → Scheduler Root Run
  | none => s
  | some run => { s with retired := s.retired.filter (· ≠ (root, run)) }

/-- `finish` from its second lock on: its result, and the scheduler after it. -/
def settle (root : Root) (metadata : Option (MetadataOwner Root Run)) (reserved : Option Run)
    (joined : Joined Run) : Except String RuntimeClose × Scheduler Root Run :=
  if !committed reserved joined then (.ok .busy, s)
  else
    let s := s.unreserve root reserved
    if s.retired.any (fun entry => entry.1 = root) then (.ok .busy, s)
    else
      match joinError metadata joined with
      | some code => (.error code, s)
      | none =>
          (.ok .closed, { s with
              homes := s.homes.erase root
              homeOrder := s.homeOrder.filter (· ≠ root)
              closed := insert root s.closed })

end Scheduler

/-- The scheduler a call's pump finds, with what the workers answer; a call without a pump finds none. -/
def Event.pumps (s : Scheduler Root Run) : Event Root Run → Option (Scheduler Root Run × Answers Root Run × Bool)
  | .drive answers => some (s, answers, false)
  | .pump root allowed answers =>
      if root ∈ s.closing ∨ root ∈ s.closed then some (s, answers, true)
      else
        some ((if root ∈ s.homes then s.allow root allowed
          else s.admitHome root { cursor := none, nextScan := answers.instant, allowed := allowed }),
          answers, true)
  | .localRetired root run answers => some (s.noteRetired root run, answers, !s.known root run)
  | .request root _ persist allowed retry _ answers =>
      (s.admitRequest root persist allowed retry answers.instant).map fun s => (s, answers, false)
  | _ => none

/-- The scheduler after the pump of a call, or as it was. -/
def Event.pumped (s : Scheduler Root Run) (e : Event Root Run) : Scheduler Root Run :=
  match e.pumps s with
  | none => s
  | some (s, answers, discover) => s.pump answers discover

/-- What a call makes of the scheduler and of the closes in progress. -/
def step (w : World Root Run) (e : Event Root Run) : World Root Run :=
  match e with
  | .drive _ | .pump _ _ _ | .localRetired _ _ _ => { w with scheduler := e.pumped w.scheduler }
  | .request root run persist _ retry starts _ =>
      if (e.pumps w.scheduler).isSome then
        { w with scheduler := (e.pumped w.scheduler).startRequest root run persist retry starts }
      else w
  | .acquire root instant =>
      match w.scheduler.acquire root instant with
      | .error _ => w
      | .ok s => { w with scheduler := s }
  | .beginClose root =>
      if root ∈ w.scheduler.closing ∨ w.scheduler.canAdmitRoot root = false then w
      else
        { scheduler := { w.scheduler with closing := insert root w.scheduler.closing }
          guards := w.guards.insert root .opened }
  | .finish root missingClaim =>
      match w.guards.lookup root with
      | some .opened =>
          if w.scheduler.busy root missingClaim then
            { w with guards := w.guards.insert root (.returned 0 false (.ok .busy)) }
          else
            { scheduler := w.scheduler.purge root
              guards := w.guards.insert root
                (.joining (w.scheduler.ownedMetadata root)
                  (w.scheduler.steps.filter fun owner => owner.root = root) (w.scheduler.reserved root)
                  (w.scheduler.ready.filter fun item => item.root = root)) }
      | _ => w
  | .settle root joined =>
      match w.guards.lookup root with
      | some (.joining metadata steps reserved _) =>
          let (result, s) := w.scheduler.settle root metadata reserved joined
          { scheduler := s
            guards := w.guards.insert root (.returned steps.length metadata.isSome result) }
      | _ => w
  | .release root =>
      let done (steps : Nat) (metadata : Bool) : World Root Run :=
        { scheduler :=
            { w.scheduler with
              closing := w.scheduler.closing.erase root
              closingSteps := w.scheduler.closingSteps - steps
              closingMetadata := w.scheduler.closingMetadata && !metadata }
          guards := w.guards.erase root }
      match w.guards.lookup root with
      | some .opened => done 0 false
      | some (.returned steps metadata _) => done steps metadata
      | _ => w

/-! ### What the claim speaks of -/

/-- The run waits, or a step of it is out. -/
def Queued (s : Scheduler Root Run) (root : Root) (run : Run) : Prop :=
  s.waits root run = true ∨ s.running root run = true

/-- The steps that finish in a pump without being done, and so have to wait again. -/
def requeued (answers : Answers Root Run) (steps : List (StepOwner Root Run)) :
    List (StepOwner Root Run) :=
  steps.filter fun owner =>
    match answers.step owner.root owner.run with
    | none => false
    | some result =>
        match Scheduler.stepResult result with
        | some .retired => false
        | _ => true

/-- Each step that has to wait again finds its root unfenced and room in the queue. -/
def Roomy (w : World Root Run) (e : Event Root Run) : Prop :=
  match e.pumps w.scheduler with
  | none => True
  | some (s, answers, _) =>
      ∀ owner ∈ requeued answers s.steps, owner.root ∉ s.closing ∧ owner.root ∉ s.closed ∧
        (s.pollMetadata answers).ready.length + (requeued answers s.steps).length ≤ RUN_LIMIT

/-- A close takes its root's queues only when there is nothing in them. -/
def Gentle (w : World Root Run) : Event Root Run → Prop
  | .finish root missingClaim =>
      w.scheduler.busy root missingClaim = false →
        (∀ item ∈ w.scheduler.ready, item.root ≠ root) ∧ ∀ owner ∈ w.scheduler.steps, owner.root ≠ root
  | _ => True

/-- A close that took runs comes back closed: its Persist, if it took one, is durable, nothing else of its
root waits to be retired, and no worker it joined has failed. -/
def Clean (w : World Root Run) : Event Root Run → Prop
  | .settle root joined =>
      match w.guards.lookup root with
      | some (.joining metadata steps reserved purged) =>
          steps ≠ [] ∨ purged ≠ [] →
            Scheduler.committed reserved joined = true ∧
              (∀ entry ∈ w.scheduler.retired, entry.1 = root → some entry.2 = reserved) ∧
              Scheduler.joinError metadata joined = none
      | _ => True
  | _ => True

/-- The run's step reports that it is done. -/
def Retires (w : World Root Run) (e : Event Root Run) (root : Root) (run : Run) : Bool :=
  match e.pumps w.scheduler with
  | none => false
  | some (s, answers, _) =>
      s.running root run &&
        match answers.step root run with
        | none => false
        | some result =>
            match Scheduler.stepResult result with
            | some .retired => true
            | _ => false

/-- A close of the root comes back closed. -/
def ReturnsClosed (w : World Root Run) (e : Event Root Run) (root : Root) : Bool :=
  match e with
  | .settle root' joined =>
      decide (root' = root) &&
        match w.guards.lookup root' with
        | some (.joining metadata _ reserved _) =>
            match (w.scheduler.settle root' metadata reserved joined).1 with
            | .ok .closed => true
            | _ => false
        | _ => false
  | _ => false

/-- A close of the root that is still joining its workers has taken the run. -/
def Taken (w : World Root Run) (root : Root) (run : Run) : Prop :=
  ∃ metadata steps reserved purged,
    w.guards.lookup root = some (.joining metadata steps reserved purged) ∧
      ((∃ item ∈ purged, item.root = root ∧ item.run = run) ∨
        ∃ owner ∈ steps, owner.root = root ∧ owner.run = run)

/-! ### What each step keeps -/

section Keeps

variable {s : Scheduler Root Run} {root : Root} {run : Run}

theorem waits_iff : s.waits root run = true ↔ ∃ item ∈ s.ready, item.root = root ∧ item.run = run := by
  simp [Scheduler.waits]

theorem running_iff : s.running root run = true ↔ ∃ o ∈ s.steps, o.root = root ∧ o.run = run := by
  simp [Scheduler.running]

/-- Queues that hold as much keep what is queued. -/
theorem Queued.mono {s' : Scheduler Root Run} (h : Queued s root run)
    (ready : ∀ item ∈ s.ready, item ∈ s'.ready) (steps : ∀ o ∈ s.steps, o ∈ s'.steps) : Queued s' root run := by
  rcases h with waits | runs
  · obtain ⟨item, mem, is⟩ := waits_iff.mp waits
    exact Or.inl (waits_iff.mpr ⟨item, ready item mem, is⟩)
  · obtain ⟨o, mem, is⟩ := running_iff.mp runs
    exact Or.inr (running_iff.mpr ⟨o, steps o mem, is⟩)

/-- Everything `enqueue` can do. -/
theorem enqueue_cases (s : Scheduler Root Run) (root : Root) (run : Run) («at» failures : Nat) :
    (s.enqueue root run «at» failures = s ∧
      (root ∈ s.closing ∨ root ∈ s.closed ∨ RUN_LIMIT ≤ s.ready.length ∨ Queued s root run)) ∨
    (s.ready.length < RUN_LIMIT ∧ s.enqueue root run «at» failures =
      { s with ready := s.ready ++ [{ root := root, run := run, «at» := «at», failures := failures }] }) := by
  unfold Scheduler.enqueue
  split
  · rename_i refused
    refine Or.inl ⟨rfl, ?_⟩
    rcases refused with closing | closed | full | waits | runs
    · exact Or.inl closing
    · exact Or.inr (Or.inl closed)
    · exact Or.inr (Or.inr (Or.inl full))
    · exact Or.inr (Or.inr (Or.inr (Or.inl waits)))
    · exact Or.inr (Or.inr (Or.inr (Or.inr runs)))
  · rename_i accepted
    simp only [not_or, Nat.not_le] at accepted
    exact Or.inr ⟨accepted.2.2.1, rfl⟩

/-- What `enqueue` leaves of a scheduler: everything but `ready`, which grows by one at most and never past
its limit. -/
structure Grows (s s' : Scheduler Root Run) : Prop where
  ready : ∀ item ∈ s.ready, item ∈ s'.ready
  steps : s'.steps = s.steps
  closing : s'.closing = s.closing
  closed : s'.closed = s.closed
  bounded : s.ready.length ≤ RUN_LIMIT → s'.ready.length ≤ RUN_LIMIT

theorem Grows.refl (s : Scheduler Root Run) : Grows s s :=
  ⟨fun _ mem => mem, rfl, rfl, rfl, id⟩

theorem Grows.trans {s' s'' : Scheduler Root Run} (h : Grows s s') (h' : Grows s' s'') : Grows s s'' :=
  ⟨fun item mem => h'.ready item (h.ready item mem), h'.steps.trans h.steps, h'.closing.trans h.closing,
    h'.closed.trans h.closed, fun le => h'.bounded (h.bounded le)⟩

variable {s' : Scheduler Root Run}

theorem Grows.queued (h : Grows s s') (queued : Queued s root run) : Queued s' root run :=
  queued.mono h.ready fun _ mem => h.steps ▸ mem

theorem enqueue_grows (s : Scheduler Root Run) (root : Root) (run : Run) («at» failures : Nat) :
    Grows s (s.enqueue root run «at» failures) ∧
      (s.enqueue root run «at» failures).ready.length ≤ s.ready.length + 1 := by
  rcases enqueue_cases s root run «at» failures with ⟨same, _⟩ | ⟨room, more⟩
  · rw [same]
    exact ⟨.refl s, Nat.le_succ _⟩
  · rw [more]
    refine ⟨⟨fun item mem => List.mem_append_left _ mem, rfl, rfl, rfl, fun _ => ?_⟩, ?_⟩
    · rw [List.length_append]
      exact room
    · rw [List.length_append]
      exact Nat.le_refl _

/-- A run that is let in is queued. -/
theorem queued_enqueue {«at» failures : Nat} (closing : root ∉ s.closing) (closed : root ∉ s.closed)
    (room : s.ready.length < RUN_LIMIT) : Queued (s.enqueue root run «at» failures) root run := by
  rcases enqueue_cases s root run «at» failures with ⟨same, refused⟩ | ⟨_, more⟩
  · rw [same]
    rcases refused with fenced | fenced | full | queued
    · exact absurd fenced closing
    · exact absurd fenced closed
    · omega
    · exact queued
  · rw [more]
    exact Or.inl (waits_iff.mpr ⟨_, List.mem_append_right _ (List.mem_singleton_self _), rfl, rfl⟩)

/-- A metadata reply only adds to the queue. -/
theorem pollMetadata_grows (s : Scheduler Root Run) (answers : Answers Root Run) :
    Grows s (s.pollMetadata answers) := by
  have fold : ∀ (runs : List Run) (root : Root) (s : Scheduler Root Run),
      Grows s (runs.foldl (fun s run => s.enqueue root run answers.instant 0) s) := by
    intro runs root
    induction runs with
    | nil => exact fun s => .refl s
    | cons run runs ih => exact fun s => (enqueue_grows s root run _ _).1.trans (ih _)
  unfold Scheduler.pollMetadata
  split
  · rename_i owner result _ _
    have freed : Grows s { s with metadata := none } := ⟨fun _ mem => mem, rfl, rfl, rfl, id⟩
    cases result with
    | error _ => exact freed
    | ok raw =>
        dsimp only
        split
        · exact freed
        · rename_i reply _
          have remembered : ∀ s : Scheduler Root Run, Grows s (s.rememberDurable owner reply) := by
            intro s
            unfold Scheduler.rememberDurable
            split
            · split
              · exact ⟨fun _ mem => mem, rfl, rfl, rfl, id⟩
              · exact .refl s
            · exact .refl s
          have moved : ∀ s : Scheduler Root Run, Grows s (s.moveCursor owner reply) := by
            intro s
            unfold Scheduler.moveCursor
            split
            · exact ⟨fun _ mem => mem, rfl, rfl, rfl, id⟩
            · exact .refl s
          exact ((freed.trans (remembered _)).trans (fold _ _ _)).trans (moved _)
  · exact .refl s

/-- A step that finishes only adds to the queue. -/
theorem completed_grows (s : Scheduler Root Run) (answers : Answers Root Run)
    (owner : StepOwner Root Run) (result : Except String (Raw StepResult)) :
    Grows s (s.completed answers owner result) ∧
      (s.completed answers owner result).ready.length ≤ s.ready.length + 1 := by
  unfold Scheduler.completed
  split
  · exact ⟨.refl s, Nat.le_succ _⟩
  · exact enqueue_grows ..
  · exact enqueue_grows ..

/-- The steps of a pump never overfill the queue, and fence nothing. -/
theorem pollSteps_bounded (answers : Answers Root Run) {todo kept : List (StepOwner Root Run)} :
    (s.ready.length ≤ RUN_LIMIT → (Scheduler.pollSteps answers kept todo s).ready.length ≤ RUN_LIMIT) ∧
      (Scheduler.pollSteps answers kept todo s).closing = s.closing := by
  induction todo generalizing kept s with
  | nil => exact ⟨id, rfl⟩
  | cons owner rest ih =>
      unfold Scheduler.pollSteps
      split
      · exact ih
      · rename_i result _
        have grows := (completed_grows { s with steps := kept ++ rest } answers owner result).1
        exact ⟨fun bounded => ih.1 (grows.bounded bounded), ih.2.trans grows.closing⟩

/-- A run whose step is not done stays queued through the steps of a pump, if those that have to wait
again find room. -/
theorem pollSteps_queued {answers : Answers Root Run} {todo kept : List (StepOwner Root Run)}
    (undone : ∀ owner ∈ todo, owner.root = root → owner.run = run → ∀ result,
      answers.step root run = some result → Scheduler.stepResult result ≠ some .retired)
    (steps : s.steps = kept ++ todo)
    (room : ∀ owner ∈ requeued answers todo, owner.root ∉ s.closing ∧ owner.root ∉ s.closed ∧
      s.ready.length + (requeued answers todo).length ≤ RUN_LIMIT)
    (h : Queued s root run) : Queued (Scheduler.pollSteps answers kept todo s) root run := by
  induction todo generalizing kept s with
  | nil => exact h
  | cons owner rest ih =>
      have undoneRest := fun o mem => undone o (.tail owner mem)
      unfold Scheduler.pollSteps
      cases hresult : answers.step owner.root owner.run with
      | none =>
          have same : requeued answers (owner :: rest) = requeued answers rest := by
            simp [requeued, hresult]
          exact ih undoneRest (by simp [steps]) (same ▸ room) h
      | some result =>
          dsimp only
          have taken : Grows { s with steps := kept ++ rest }
              ({ s with steps := kept ++ rest }.completed answers owner result) := (completed_grows ..).1
          -- the owner is out of `steps`, and its run is queued again unless it is done
          have others : (owner.root = root ∧ owner.run = run) ∨
              Queued { s with steps := kept ++ rest } root run := by
            rcases h with waits | runs
            · exact Or.inr (Or.inl waits)
            · obtain ⟨o, mem, is⟩ := running_iff.mp runs
              rw [steps] at mem
              rcases List.mem_append.mp mem with before | after
              · exact Or.inr (Or.inr (running_iff.mpr ⟨o, List.mem_append_left _ before, is⟩))
              · rcases List.mem_cons.mp after with rfl | after
                · exact Or.inl is
                · exact Or.inr (Or.inr (running_iff.mpr ⟨o, List.mem_append_right _ after, is⟩))
          by_cases done : Scheduler.stepResult result = some .retired
          · have same : requeued answers (owner :: rest) = requeued answers rest := by
              simp [requeued, hresult, done]
            have unchanged : { s with steps := kept ++ rest }.completed answers owner result =
                { s with steps := kept ++ rest } := by
              rw [Scheduler.completed, done]
            rw [unchanged]
            refine ih undoneRest rfl (same ▸ room) (others.resolve_left ?_)
            rintro ⟨rfl, rfl⟩
            exact undone owner (.head _) rfl rfl result hresult done
          · have again : requeued answers (owner :: rest) = owner :: requeued answers rest := by
              simp only [requeued, List.filter_cons, hresult]
              split <;> simp_all
            have first := room owner (again ▸ List.mem_cons_self)
            rw [again, List.length_cons] at first
            obtain ⟨closing, closed, fits⟩ := first
            have queued : Queued ({ s with steps := kept ++ rest }.completed answers owner result)
                root run := by
              rcases others with ⟨rfl, rfl⟩ | other
              · have short : s.ready.length < RUN_LIMIT := by omega
                unfold Scheduler.completed
                split
                · exact absurd ‹_› done
                · exact queued_enqueue closing closed short
                · exact queued_enqueue closing closed short
              · exact taken.queued other
            refine ih undoneRest taken.steps (fun o mem => ?_) queued
            have next := room o (again ▸ List.mem_cons_of_mem _ mem)
            have longer : ({ s with steps := kept ++ rest }.completed answers owner result).ready.length ≤
                s.ready.length + 1 := (completed_grows ..).2
            rw [taken.closing, taken.closed]
            refine ⟨next.1, next.2.1, ?_⟩
            omega

/-- A step that touches neither the queues nor the fences of closing roots. -/
structure SameQueues (s s' : Scheduler Root Run) : Prop where
  ready : s'.ready = s.ready
  steps : s'.steps = s.steps
  closing : s'.closing = s.closing

theorem SameQueues.refl (s : Scheduler Root Run) : SameQueues s s := ⟨rfl, rfl, rfl⟩

theorem SameQueues.trans {s' s'' : Scheduler Root Run} (h : SameQueues s s') (h' : SameQueues s' s'') :
    SameQueues s s'' :=
  ⟨h'.ready.trans h.ready, h'.steps.trans h.steps, h'.closing.trans h.closing⟩

theorem SameQueues.queued (h : SameQueues s s') (queued : Queued s root run) : Queued s' root run :=
  queued.mono (fun _ mem => h.ready ▸ mem) fun _ mem => h.steps ▸ mem

theorem startMetadata_queues {starts : Bool} {operation : Metadata Run}
    (h : s.startMetadata starts root operation = .ok s') : SameQueues s s' := by
  unfold Scheduler.startMetadata at h
  split at h
  · cases h
  · split at h
    · cases h
    · split at h
      · cases h
      · split at h
        · cases h
          exact ⟨rfl, rfl, rfl⟩
        · cases h

theorem nextHome_queues (instant n : Nat) (s : Scheduler Root Run) :
    SameQueues s (Scheduler.nextHome instant n s).2 := by
  induction n generalizing s with
  | zero => exact .refl s
  | succ n ih =>
      unfold Scheduler.nextHome
      split
      · exact .refl s
      · dsimp only
        split
        · exact ⟨rfl, rfl, rfl⟩
        · rename_i root rest _ _
          have turned : SameQueues s { s with homeOrder := rest ++ [root] } := ⟨rfl, rfl, rfl⟩
          exact turned.trans (ih _)

/-- Filling the metadata slot touches neither queue. -/
theorem fillMetadata_queues (s : Scheduler Root Run) (answers : Answers Root Run) (discover : Bool) :
    SameQueues s (s.fillMetadata answers discover) := by
  unfold Scheduler.fillMetadata
  split
  · split
    · rename_i entry _
      have taken : SameQueues s { s with retired := s.retired.erase entry } := ⟨rfl, rfl, rfl⟩
      dsimp only
      split
      · rename_i started
        exact taken.trans (startMetadata_queues started)
      · exact ⟨rfl, rfl, rfl⟩
    · split
      · have turned := nextHome_queues answers.instant s.homeOrder.length s
        split
        · rename_i next
          rw [next] at turned
          exact turned
        · rename_i root' scanned next
          rw [next] at turned
          split
          · exact turned
          · rename_i home _
            have moved : SameQueues scanned
                { scanned with
                  homes := scanned.homes.insert root'
                    { home with nextScan := answers.instant + 1000 } } := ⟨rfl, rfl, rfl⟩
            dsimp only
            split
            · rename_i started
              exact (turned.trans moved).trans (startMetadata_queues started)
            · exact turned.trans moved
      · exact .refl s
  · exact .refl s

/-- Starting what waits never overfills the queue, and fences nothing. -/
theorem startReady_fences (answers : Answers Root Run) (n : Nat) (bounded : s.ready.length ≤ RUN_LIMIT) :
    (Scheduler.startReady answers n s).ready.length ≤ RUN_LIMIT ∧
      (Scheduler.startReady answers n s).closing = s.closing := by
  induction n generalizing s with
  | zero => exact ⟨bounded, rfl⟩
  | succ n ih =>
      unfold Scheduler.startReady
      split
      · exact ⟨bounded, rfl⟩
      · split
        · exact ⟨bounded, rfl⟩
        · rename_i item rest hready
          rw [hready, List.length_cons] at bounded
          have fewer : rest.length ≤ RUN_LIMIT := by omega
          split
          · exact ih (by simpa using bounded)
          · split
            · exact ih fewer
            · have grows := (enqueue_grows { s with ready := rest } item.root item.run
                (answers.instant + Scheduler.backoff (min (item.failures + 1) 6) * 1000)
                (min (item.failures + 1) 6)).1
              obtain ⟨short, same⟩ := ih (grows.bounded fewer)
              exact ⟨short, same.trans grows.closing⟩

/-- Starting what waits loses nothing. -/
theorem startReady_keeps (answers : Answers Root Run) (n : Nat) (bounded : s.ready.length ≤ RUN_LIMIT)
    (h : Queued s root run) : Queued (Scheduler.startReady answers n s) root run := by
  induction n generalizing s with
  | zero => exact h
  | succ n ih =>
      unfold Scheduler.startReady
      split
      · exact h
      · split
        · exact h
        · rename_i item rest hready
          rw [hready, List.length_cons] at bounded
          -- what is queued is the item taken, or still there without it
          have split : (item.root = root ∧ item.run = run) ∨
              Queued { s with ready := rest } root run := by
            rcases h with waits | runs
            · obtain ⟨other, mem, is⟩ := waits_iff.mp waits
              rw [hready] at mem
              rcases List.mem_cons.mp mem with rfl | mem
              · exact Or.inl is
              · exact Or.inr (Or.inl (waits_iff.mpr ⟨other, mem, is⟩))
            · exact Or.inr (Or.inr runs)
          split
          · -- it waits on
            refine ih (by simpa using bounded) ?_
            rcases split with is | other
            · exact Or.inl (waits_iff.mpr ⟨item, List.mem_append_right _ (List.mem_singleton_self _), is⟩)
            · exact other.mono (fun _ mem => List.mem_append_left _ mem) fun _ mem => mem
          · rename_i isDue
            split
            · -- it starts
              refine ih (Nat.le_of_succ_le bounded) ?_
              rcases split with is | other
              · exact Or.inr (running_iff.mpr ⟨_, List.mem_append_right _ (List.mem_singleton_self _), is⟩)
              · exact other.mono (fun _ mem => mem) fun _ mem => List.mem_append_left _ mem
            · -- it could not start, and its place in the queue is still free
              have grows := (enqueue_grows { s with ready := rest } item.root item.run
                (answers.instant + Scheduler.backoff (min (item.failures + 1) 6) * 1000)
                (min (item.failures + 1) 6)).1
              refine ih (grows.bounded (Nat.le_of_succ_le bounded)) ?_
              rcases split with ⟨rfl, rfl⟩ | other
              · have unfenced : item.root ∉ s.closing ∧ item.root ∉ s.closed := by
                  simp only [Scheduler.due, Bool.not_eq_true', Bool.not_eq_false, Bool.and_eq_true,
                    decide_eq_true_eq] at isDue
                  exact ⟨isDue.1.1.2, isDue.1.2⟩
                exact queued_enqueue unfenced.1 unfenced.2 bounded
              · exact grows.queued other

/-- A pump never overfills the queue, and fences nothing. -/
theorem pump_fences (answers : Answers Root Run) (discover : Bool) (bounded : s.ready.length ≤ RUN_LIMIT) :
    (s.pump answers discover).ready.length ≤ RUN_LIMIT ∧
      (s.pump answers discover).closing = s.closing := by
  have polled := pollMetadata_grows s answers
  obtain ⟨fits, closing⟩ := @pollSteps_bounded _ _ _ _ (s.pollMetadata answers) answers
    (s.pollMetadata answers).steps []
  have filled := fillMetadata_queues
    (Scheduler.pollSteps answers [] (s.pollMetadata answers).steps (s.pollMetadata answers)) answers discover
  obtain ⟨short, same⟩ := startReady_fences answers _ (filled.ready ▸ fits (polled.bounded bounded))
  exact ⟨short, same.trans (filled.closing.trans (closing.trans polled.closing))⟩

/-- A pump keeps what is queued, if the run's step is not done and the steps that have to wait again find
room. -/
theorem pump_keeps {answers : Answers Root Run} (discover : Bool) (bounded : s.ready.length ≤ RUN_LIMIT)
    (room : ∀ owner ∈ requeued answers s.steps, owner.root ∉ s.closing ∧ owner.root ∉ s.closed ∧
      (s.pollMetadata answers).ready.length + (requeued answers s.steps).length ≤ RUN_LIMIT)
    (undone : s.running root run = true → ∀ result, answers.step root run = some result →
      Scheduler.stepResult result ≠ some .retired) (queued : Queued s root run) :
    Queued (s.pump answers discover) root run := by
  have polled := pollMetadata_grows s answers
  obtain ⟨fits, _⟩ := @pollSteps_bounded _ _ _ _ (s.pollMetadata answers) answers
    (s.pollMetadata answers).steps []
  have filled := fillMetadata_queues
    (Scheduler.pollSteps answers [] (s.pollMetadata answers).steps (s.pollMetadata answers)) answers discover
  refine startReady_keeps answers _ (filled.ready ▸ fits (polled.bounded bounded)) (filled.queued ?_)
  refine pollSteps_queued (fun owner mem hroot hrun => ?_) rfl ?_ (polled.queued queued)
  · rw [polled.steps] at mem
    exact undone (running_iff.mpr ⟨owner, mem, hroot, hrun⟩)
  · rw [polled.steps, polled.closing, polled.closed]
    exact room

end Keeps

section Calls

variable {root : Root} {run : Run}

/-! ### Calls keep admitted runs -/

section

variable (s : Scheduler Root Run) (root : Root)

theorem allow_queues (allowed : Bool) : SameQueues s (s.allow root allowed) := by
  unfold Scheduler.allow
  split
  · exact .refl s
  · exact ⟨rfl, rfl, rfl⟩

theorem newHome_queues (home : Home) : SameQueues s (s.newHome root home) := by
  unfold Scheduler.newHome
  split
  · exact .refl s
  · exact ⟨rfl, rfl, rfl⟩

theorem admitHome_queues (home : Home) : SameQueues s (s.admitHome root home) := by
  unfold Scheduler.admitHome
  split
  · exact newHome_queues s root home
  · exact .refl s

end

variable {e : Event Root Run} {w : World Root Run}

/-- What a call does before its pump touches no queue. -/
theorem pumps_queues {s s' : Scheduler Root Run} {answers : Answers Root Run} {discover : Bool}
    (h : e.pumps s = some (s', answers, discover)) : SameQueues s s' := by
  cases e with
  | drive answers =>
      cases h
      exact .refl s
  | pump root allowed answers =>
      simp only [Event.pumps] at h
      split at h
      · cases h
        exact .refl s
      · cases h
        split
        · exact allow_queues s root allowed
        · exact admitHome_queues s root _
  | localRetired root run answers =>
      cases h
      unfold Scheduler.noteRetired
      split
      · exact ⟨rfl, rfl, rfl⟩
      · exact .refl s
  | request root run persist allowed retry starts answers =>
      simp only [Event.pumps, Option.map_eq_some_iff] at h
      obtain ⟨admitted, hadmit, hsame⟩ := h
      cases hsame
      unfold Scheduler.admitRequest at hadmit
      split at hadmit
      · cases hadmit
      · split at hadmit
        · cases hadmit
        · cases hadmit
          have erased : SameQueues s { s with closed := s.closed.erase root } := ⟨rfl, rfl, rfl⟩
          exact (erased.trans (allow_queues _ root allowed)).trans (admitHome_queues _ root _)
  | acquire | beginClose | finish | settle | release => cases h

theorem startRequest_queues (s : Scheduler Root Run) (root : Root) (run : Run)
    (persist retry starts : Bool) : SameQueues s (s.startRequest root run persist retry starts) := by
  unfold Scheduler.startRequest
  split
  · exact .refl s
  · split
    · exact .refl s
    · split
      · exact .refl s
      · dsimp only
        split
        · rename_i started
          exact startMetadata_queues started
        · exact .refl s

theorem settle_queues (s : Scheduler Root Run) (root : Root)
    (metadata : Option (MetadataOwner Root Run)) (reserved : Option Run) (joined : Joined Run) :
    SameQueues s (s.settle root metadata reserved joined).2 := by
  have unreserved : SameQueues s (s.unreserve root reserved) := by
    cases reserved with
    | none => exact .refl s
    | some run => exact ⟨rfl, rfl, rfl⟩
  unfold Scheduler.settle
  split
  · exact .refl s
  · dsimp only
    split
    · exact unreserved
    · split
      · exact unreserved
      · exact ⟨unreserved.ready, unreserved.steps, unreserved.closing⟩

/-- What holds of every reachable world: the queue is within its limit, and a close in progress has its
root fenced. -/
structure World.Sound (w : World Root Run) : Prop where
  bounded : w.scheduler.ready.length ≤ RUN_LIMIT
  fenced : ∀ root, root ∈ w.guards → root ∈ w.scheduler.closing

/-- A call's pump, at a sound world: the queue stays within its limit, and the fences stay. -/
theorem pumped_fences (e : Event Root Run) (sound : w.Sound) : (e.pumped w.scheduler).ready.length ≤ RUN_LIMIT ∧
      (e.pumped w.scheduler).closing = w.scheduler.closing := by
  unfold Event.pumped
  split
  · exact ⟨sound.bounded, rfl⟩
  · rename_i s' answers discover hpumps
    have same := pumps_queues hpumps
    obtain ⟨bounded, closing⟩ := pump_fences answers discover (same.ready ▸ sound.bounded)
    exact ⟨bounded, closing.trans same.closing⟩

/-- A call's pump keeps what is queued. -/
theorem pumped_keeps (sound : w.Sound) (room : Roomy w e) (undone : ¬ Retires w e root run)
    (queued : Queued w.scheduler root run) : Queued (e.pumped w.scheduler) root run := by
  unfold Event.pumped
  split
  · exact queued
  · rename_i s' answers discover hpumps
    have same := pumps_queues hpumps
    simp only [Roomy, hpumps] at room
    simp only [Retires, hpumps] at undone
    refine pump_keeps discover (same.ready ▸ sound.bounded) room
      (fun runs result hresult done => undone ?_) (same.queued queued)
    simp only [runs, hresult, done, Bool.and_true]

/-- A world with other queues, sound if they are within the limit and the fences are as they were. -/
theorem World.Sound.schedule (sound : w.Sound) {s : Scheduler Root Run} (bounded : s.ready.length ≤ RUN_LIMIT)
    (closing : s.closing = w.scheduler.closing) : World.Sound { w with scheduler := s } :=
  ⟨bounded, fun root mem => closing ▸ sound.fenced root mem⟩

theorem mem_insert_guard {guards : AList (fun _ : Root => Guard Root Run)} {root' : Root}
    {guard : Guard Root Run} (mem : root ∈ guards.insert root' guard) : root = root' ∨ root ∈ guards :=
  AList.mem_insert _ |>.mp mem

/-- Every call keeps a world sound. -/
theorem sound_step (sound : w.Sound) : (step w e).Sound := by
  cases e with
  | drive | pump | localRetired =>
      exact sound.schedule (pumped_fences _ sound).1 (pumped_fences _ sound).2
  | request root run persist allowed retry starts answers =>
      simp only [step]
      split
      · have pumped := pumped_fences (.request root run persist allowed retry starts answers) sound
        have started := startRequest_queues
          ((Event.request root run persist allowed retry starts answers).pumped w.scheduler) root run persist
          retry starts
        exact sound.schedule (started.ready ▸ pumped.1) (started.closing.trans pumped.2)
      · exact sound
  | acquire root instant =>
      simp only [step]
      split
      · exact sound
      · rename_i acquired hacquire
        unfold Scheduler.acquire at hacquire
        split at hacquire
        · cases hacquire
        · split at hacquire
          · cases hacquire
          · cases hacquire
            have same := newHome_queues { w.scheduler with closed := w.scheduler.closed.erase root } root
              { cursor := none, nextScan := instant, allowed := false }
            exact sound.schedule (by rw [same.ready]; exact sound.bounded) same.closing
  | beginClose root =>
      simp only [step]
      split
      · exact sound
      · refine ⟨sound.bounded, fun root' mem => ?_⟩
        rcases mem_insert_guard mem with rfl | old
        · exact Finset.mem_insert_self _ _
        · exact Finset.mem_insert_of_mem (sound.fenced root' old)
  | finish root missingClaim =>
      simp only [step]
      split
      · rename_i hguard
        have held : root ∈ w.guards := AList.lookup_isSome.mp (by rw [hguard]; rfl)
        have fenced : ∀ {guard : Guard Root Run} {root'}, root' ∈ w.guards.insert root guard →
            root' ∈ w.scheduler.closing := by
          intro guard root' mem
          rcases mem_insert_guard mem with rfl | old
          · exact sound.fenced _ held
          · exact sound.fenced _ old
        split
        · exact ⟨sound.bounded, fun _ => fenced⟩
        · refine ⟨Nat.le_trans (List.length_filter_le _ _) sound.bounded, fun _ => fenced⟩
      · exact sound
  | settle root joined =>
      simp only [step]
      split
      · rename_i metadata steps reserved purged hguard
        have held : root ∈ w.guards := AList.lookup_isSome.mp (by rw [hguard]; rfl)
        have same := settle_queues w.scheduler root metadata reserved joined
        refine ⟨same.ready ▸ sound.bounded, fun root' mem => ?_⟩
        rw [same.closing]
        rcases mem_insert_guard mem with rfl | old
        · exact sound.fenced _ held
        · exact sound.fenced _ old
      · exact sound
  | release root =>
      have done : ∀ steps metadata, World.Sound
          { scheduler :=
              { w.scheduler with
                closing := w.scheduler.closing.erase root
                closingSteps := w.scheduler.closingSteps - steps
                closingMetadata := w.scheduler.closingMetadata && !metadata }
            guards := w.guards.erase root } := by
        intro steps metadata
        refine ⟨sound.bounded, fun root' mem => ?_⟩
        obtain ⟨ne, old⟩ := AList.mem_erase.mp mem
        exact Finset.mem_erase.mpr ⟨ne, sound.fenced root' old⟩
      simp only [step]
      split
      · exact done 0 false
      · exact done _ _
      · exact sound

/-- A call that takes nothing from the run's root keeps the run queued, unless its step is done. -/
theorem queued_step (sound : w.Sound) (room : Roomy w e) (undone : ¬ Retires w e root run)
    (queued : Queued w.scheduler root run) : Queued (step w e).scheduler root run ∨
      ∃ missingClaim, e = .finish root missingClaim ∧ w.guards.lookup root = some .opened ∧
        w.scheduler.busy root missingClaim = false := by
  have pumped := pumped_keeps sound room undone queued
  cases e with
  | drive | pump | localRetired => exact Or.inl pumped
  | request root' run' persist allowed retry starts answers =>
      simp only [step]
      split
      · exact Or.inl ((startRequest_queues ..).queued pumped)
      · exact Or.inl queued
  | acquire root' instant =>
      simp only [step]
      split
      · exact Or.inl queued
      · rename_i acquired hacquire
        unfold Scheduler.acquire at hacquire
        split at hacquire
        · cases hacquire
        · split at hacquire
          · cases hacquire
          · cases hacquire
            exact Or.inl ((newHome_queues ..).queued queued)
  | beginClose root' =>
      simp only [step]
      split
      · exact Or.inl queued
      · exact Or.inl queued
  | finish root' missingClaim =>
      simp only [step]
      split
      · rename_i hguard
        split
        · exact Or.inl queued
        · rename_i free
          by_cases same : root' = root
          · subst same
            exact Or.inr ⟨missingClaim, rfl, hguard, by simpa using free⟩
          · -- a close takes its own root's runs only
            left
            rcases queued with waits | runs
            · obtain ⟨item, mem, rfl, hrun⟩ := waits_iff.mp waits
              exact Or.inl (waits_iff.mpr
                ⟨item, List.mem_filter.mpr ⟨mem, decide_eq_true (Ne.symm same)⟩, rfl, hrun⟩)
            · obtain ⟨owner, mem, rfl, hrun⟩ := running_iff.mp runs
              exact Or.inr (running_iff.mpr
                ⟨owner, List.mem_filter.mpr ⟨mem, decide_eq_true (Ne.symm same)⟩, rfl, hrun⟩)
      · exact Or.inl queued
  | settle root' joined =>
      simp only [step]
      split
      · exact Or.inl ((settle_queues ..).queued queued)
      · exact Or.inl queued
  | release root' =>
      simp only [step]
      split
      · exact Or.inl queued
      · exact Or.inl queued
      · exact Or.inl queued

/-- What a close took stays taken until the close is over. -/
theorem taken_step (sound : w.Sound) (clean : Clean w e) (notClosed : ¬ ReturnsClosed w e root)
    (taken : Taken w root run) : Taken (step w e) root run := by
  obtain ⟨metadata, steps, reserved, purged, hguard, has⟩ := taken
  have held : root ∈ w.guards := AList.lookup_isSome.mp (by rw [hguard]; rfl)
  have same : ∀ {w' : World Root Run}, w'.guards = w.guards → Taken w' root run :=
    fun guards => ⟨metadata, steps, reserved, purged, guards ▸ hguard, has⟩
  have other : ∀ {s : Scheduler Root Run} {root' : Root} {guard : Guard Root Run}, root' ≠ root →
      Taken { scheduler := s, guards := w.guards.insert root' guard } root run := fun ne =>
    ⟨metadata, steps, reserved, purged, (AList.lookup_insert_ne (Ne.symm ne)).trans hguard, has⟩
  cases e with
  | drive | pump | localRetired => exact same rfl
  | request | acquire =>
      simp only [step]
      split <;> exact same rfl
  | beginClose root' =>
      simp only [step]
      split
      · exact same rfl
      · rename_i admitted
        refine other fun eq => ?_
        exact admitted (Or.inl (eq ▸ sound.fenced root held))
  | finish root' missingClaim =>
      have ne : w.guards.lookup root' = some .opened → root' ≠ root := by
        rintro opened rfl
        rw [hguard] at opened
        cases opened
      simp only [step]
      split
      · split
        · exact other (ne ‹_›)
        · exact other (ne ‹_›)
      · exact same rfl
  | settle root' joined =>
      by_cases eq : root' = root
      · -- a close that took runs and is clean comes back closed
        subst eq
        simp only [Clean, hguard] at clean
        have some : steps ≠ [] ∨ purged ≠ [] := by
          rcases has with ⟨item, mem, _⟩ | ⟨owner, mem, _⟩
          · exact Or.inr (List.ne_nil_of_mem mem)
          · exact Or.inl (List.ne_nil_of_mem mem)
        obtain ⟨committed, retired, joins⟩ := clean some
        refine absurd ?_ notClosed
        have none : ((w.scheduler.unreserve root' reserved).retired.any fun entry => entry.1 = root') =
            false := by
          rw [List.any_eq_false]
          intro entry mem is
          have isRoot := of_decide_eq_true is
          cases reserved with
          | none => exact nomatch retired entry mem isRoot
          | some run' =>
              obtain ⟨old, ne⟩ := List.mem_filter.mp mem
              refine of_decide_eq_true ne (Prod.ext isRoot ?_)
              exact Option.some.inj (retired entry old isRoot)
        simp [ReturnsClosed, hguard, Scheduler.settle, committed, none, joins]
      · simp only [step]
        split
        · exact other eq
        · exact same rfl
  | release root' =>
      have ne : (∀ m s r p, w.guards.lookup root' ≠ some (.joining m s r p)) → root' ≠ root := by
        rintro unjoined rfl
        exact unjoined _ _ _ _ hguard
      have gone : ∀ {s : Scheduler Root Run}, root' ≠ root →
          Taken { scheduler := s, guards := w.guards.erase root' } root run := fun ne =>
        ⟨metadata, steps, reserved, purged, (AList.lookup_erase_ne (Ne.symm ne)).trans hguard, has⟩
      simp only [step]
      split
      · rename_i opened
        exact gone (ne fun _ _ _ _ h => nomatch opened.symm.trans h)
      · rename_i returned
        exact gone (ne fun _ _ _ _ h => nomatch returned.symm.trans h)
      · exact same rfl

/-- A run that is queued, or in the hands of a close, stays so, if its step is not done and no close of its
root comes back closed. -/
theorem owed_step (sound : w.Sound) (room : Roomy w e) (clean : Clean w e) (undone : ¬ Retires w e root run)
    (notClosed : ¬ ReturnsClosed w e root) (owed : Queued w.scheduler root run ∨ Taken w root run) :
    Queued (step w e).scheduler root run ∨ Taken (step w e) root run := by
  rcases owed with queued | taken
  · rcases queued_step sound room undone queued with kept | ⟨missingClaim, rfl, hguard, free⟩
    · exact Or.inl kept
    · right
      have after : (step w (.finish root missingClaim)).guards.lookup root =
          some (.joining (w.scheduler.ownedMetadata root)
            (w.scheduler.steps.filter fun owner => owner.root = root) (w.scheduler.reserved root)
            (w.scheduler.ready.filter fun item => item.root = root)) := by
        simp only [step, hguard, free, Bool.false_eq_true, if_false]
        exact AList.lookup_insert _
      refine ⟨_, _, _, _, after, ?_⟩
      rcases queued with waits | runs
      · obtain ⟨item, mem, hroot, hrun⟩ := waits_iff.mp waits
        exact Or.inl ⟨item, List.mem_filter.mpr ⟨mem, decide_eq_true hroot⟩, hroot, hrun⟩
      · obtain ⟨owner, mem, hroot, hrun⟩ := running_iff.mp runs
        exact Or.inr ⟨owner, List.mem_filter.mpr ⟨mem, decide_eq_true hroot⟩, hroot, hrun⟩
  · exact Or.inr (taken_step sound clean notClosed taken)

/-- The scheduler of a process that starts. -/
def World.start : World Root Run := { scheduler := .default, guards := ∅ }

theorem sound_run (run : Runs step (fun _ _ => True) .start w) : w.Sound :=
  run.invariant (fun _ sound => sound_step sound)
    ⟨Nat.zero_le _, fun _ mem => absurd mem (AList.notMem_empty _)⟩

/-- **Admitted runs are kept.** At a reachable world, a queued run stays queued as long as every step that
has to wait again finds room, closes take only empty queues, and neither the run's step is done nor a close
of its root comes back closed. Where closes take what is queued, the run is queued or in the hands of such a
close as long as those come back closed. A close that is busy at once changes no queue. -/
theorem admitted_runs_kept {w w' : World Root Run} (reached : Runs step (fun _ _ => True) .start w)
    (root : Root) (run : Run) :
    (Runs step (fun w e => Roomy w e ∧ Gentle w e ∧ ¬ Retires w e root run ∧ ¬ ReturnsClosed w e root)
        w w' → Queued w.scheduler root run → Queued w'.scheduler root run) ∧
      (Runs step (fun w e => Roomy w e ∧ Clean w e ∧ ¬ Retires w e root run ∧ ¬ ReturnsClosed w e root)
        w w' → Queued w.scheduler root run ∨ Taken w root run →
          Queued w'.scheduler root run ∨ Taken w' root run) ∧
      ∀ closing missingClaim, w.guards.lookup closing = some .opened →
        w.scheduler.busy closing missingClaim = true →
          (step w (.finish closing missingClaim)).scheduler = w.scheduler := by
  have sound := sound_run reached
  refine ⟨fun later queued => ?_, fun later owed => ?_, fun closing missingClaim hguard busy => ?_⟩
  · have both := @Runs.invariant _ _ _ _ (fun w => w.Sound ∧ Queued w.scheduler root run) ?_ _ _ later
      ⟨sound, queued⟩
    · exact both.2
    · rintro w e ⟨room, gentle, undone, _⟩ ⟨sound, queued⟩
      refine ⟨sound_step sound, ?_⟩
      rcases queued_step sound room undone queued with kept | ⟨missingClaim, rfl, _, free⟩
      · exact kept
      · obtain ⟨noneWaits, noneRuns⟩ := gentle free
        rcases queued with waits | runs
        · obtain ⟨item, mem, hroot, _⟩ := waits_iff.mp waits
          exact absurd hroot (noneWaits item mem)
        · obtain ⟨owner, mem, hroot, _⟩ := running_iff.mp runs
          exact absurd hroot (noneRuns owner mem)
  · have both := @Runs.invariant _ _ _ _
      (fun w => w.Sound ∧ (Queued w.scheduler root run ∨ Taken w root run)) ?_ _ _ later ⟨sound, owed⟩
    · exact both.2
    · rintro w e ⟨room, clean, undone, notClosed⟩ ⟨sound, owed⟩
      exact ⟨sound_step sound, owed_step sound room clean undone notClosed owed⟩
  · simp only [step, hguard, busy, if_true]

end Calls

end Scheduler

/-! ### A close that fails after it took its root's runs -/

/-- Nothing has finished, and everything can be started. -/
def quiet (instant : Nat) : Answers Nat Nat :=
  { instant := instant, wall := 0, safeRun := fun _ => true, metadata := none, step := fun _ _ => none,
    startsMetadata := true, startsStep := fun _ _ => true }

/-- A scan finds run 7. -/
def found (instant : Nat) : Answers Nat Nat :=
  { quiet instant with
    metadata := some (.ok { length := 40, parsed := some ⟨none, [7], none, 0⟩ }) }

/-- Run 7 of root 1 is found and started. -/
def admitted : World Nat Nat :=
  [Event.pump 1 true (quiet 0), .drive (found 10)].foldl step .start

/-- Its step has to wait for its time. -/
def waitsAgain : Event Nat Nat :=
  .drive { quiet 20 with
    step := fun _ _ => some (.ok { length := 30, parsed := some (.readyAt 5000) }) }

/-- The run is queued again. -/
theorem readmitted : Queued (step admitted waitsAgain).scheduler 1 7 := by
  have reached : Runs step (fun _ _ => True) .start admitted :=
    Fits.runs (show Fits step _ _ [Event.pump 1 true (quiet 0), .drive (found 10)] from
      ⟨trivial, trivial, trivial⟩)
  have room : Roomy admitted waitsAgain := by
    show ∀ owner ∈ requeued _ admitted.scheduler.steps, _
    decide
  have queued : Queued admitted.scheduler 1 7 := Or.inr (by decide)
  refine (admitted_runs_kept reached 1 7).1 (Relation.ReflTransGen.single
    ⟨waitsAgain, ⟨room, trivial, by decide, by decide⟩, rfl⟩) queued

/-- Run 7 of root 1 is found while the root may not start work. -/
def paused : World Nat Nat :=
  [Event.pump 1 false (quiet 0), .drive (found 10)].foldl step .start

/-- The next scan is out when the root is closed, and its worker fails. -/
def failedClose : List (Event Nat Nat) :=
  [.pump 1 false (quiet 2000), .beginClose 1, .finish 1 false,
    .settle 1 { safeRun := fun _ => true, metadata := .error "Deadline", steps := [] }, .release 1]

/-- A close that returns an error has lost the run: it neither waits nor runs, it is not retired, its step
was never done, and its root is not closed. -/
theorem a_failed_close_loses_a_run :
    Runs step (fun _ _ => True) .start paused ∧ Queued paused.scheduler 1 7 ∧
      Runs step (fun w e => ¬ Retires w e 1 7 ∧ ¬ ReturnsClosed w e 1) paused
        (failedClose.foldl step paused) ∧
      ¬ Queued (failedClose.foldl step paused).scheduler 1 7 ∧
      (1, 7) ∉ (failedClose.foldl step paused).scheduler.retired ∧
      1 ∉ (failedClose.foldl step paused).scheduler.closed := by
  have reached : Runs step (fun _ _ => True) .start paused :=
    Fits.runs (show Fits step _ _ [Event.pump 1 false (quiet 0), .drive (found 10)] from
      ⟨trivial, trivial, trivial⟩)
  refine ⟨reached, Or.inl (by decide), Fits.runs (by decide), ?_, by decide, by decide⟩
  rintro (waits | runs)
  · exact absurd waits (by decide)
  · exact absurd runs (by decide)

end Khor.Node.CancelScheduler
