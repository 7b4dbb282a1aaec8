/-
Module: Khor.Node.Journal
Purpose: The journal of one conversation: its record files and manifests, the calls its writer makes on
  them, and the writer's operations (crates/node/src/session_content/journal.rs).
Trusted boundary: serde_json, the file system, and the writer lock
Main exports: Record, Manifest, Machine, Machine.Does, accept
-/
import Khor.Lib.Lines
import Khor.Lib.Script

namespace Khor.Node.Journal

abbrev Bytes := List UInt8

def version : UInt8 := 1

structure Identity where
  home : List UInt8
  agent : String
  nativeId : String
deriving DecidableEq

inductive Opening where
  | new
  | load
  | resume
deriving DecidableEq

structure Manifest where
  version : UInt8
  identity : Identity
  opening : Opening
  gaps : Nat
  activeTurn : Option String
  generation : Option String
deriving DecidableEq

structure ActiveGeneration where
  version : UInt8
  generation : String
deriving DecidableEq

inductive Outcome where
  | ended
  | cancelled
  | failed
  | unknown
deriving DecidableEq

/-- A record of a conversation; `N` are the notifications of an agent. -/
inductive Record (N : Type) where
  | update (turn : Option String) (notification : N)
  | prompt (turn text : String) (images files : List (String × String))
  | promptOrigin (turn token : String) (start stop : Nat)
  | turn (turn : String) (outcome : Outcome) (detail : Option String)
  | gap (opening : Opening) (interruptedTurn : Option String) (incompleteRecord : Bool)
deriving DecidableEq

/-- What the journal uses of `serde_json`: records as it writes them, and how long an identity is. -/
structure Externals (N : Type) where
  toWriter : Record N → Bytes
  identityLength : Identity → Nat

/-- A record is written on one line, and is not empty. -/
structure Externals.Lawful {N : Type} (x : Externals N) : Prop where
  plain : ∀ r, newline ∉ x.toWriter r
  filled : ∀ r, x.toWriter r ≠ []

/-- The folders of a journal that hold a manifest and a record file. -/
inductive Folder where
  | pending
  | current
  | generation (g : String)
deriving DecidableEq

inductive FileName where
  | manifest
  | records
deriving DecidableEq

/-- A folder: its manifest, and the inode of its record file. -/
structure Dir where
  manifest : Option Manifest
  records : Option Nat
deriving DecidableEq

/-- The journal in the memory of its writer. -/
structure Writer where
  file : Nat
  manifest : Manifest
  pending : Bool
  poisoned : Bool
  basePrepared : Bool
deriving DecidableEq

/-- One append to a record file: `torn` says how many bytes were written of one that has not ended. -/
structure Appended (N : Type) where
  record : Record N
  torn : Option Nat

section Logs

variable {N : Type}

/-- The records whose append has ended. -/
def whole (log : List (Appended N)) : List (Record N) :=
  (log.filter fun a => a.torn.isNone).map Appended.record

/-- The appends that have not ended. -/
def torn (log : List (Appended N)) : List (Appended N) := log.filter fun a => a.torn.isSome

/-- The line of a record, with its newline. -/
def line (x : Externals N) (r : Record N) : Bytes := x.toWriter r ++ [newline]

/-- The records that stand in the file in full, whether or not their append has ended. -/
def present (x : Externals N) (log : List (Appended N)) : List (Record N) :=
  (log.filter fun a => a.torn.all fun n => (x.toWriter a.record).length ≤ n).map Appended.record

end Logs

/-- The files of a journal and the memory of its writer. Not of the program, but of what happened: for
each record file the appends to it, the kills that cut one of them short, and which append is under way;
for each published folder the records that were appended before it was published. -/
structure Machine (N : Type) where
  active : Option ActiveGeneration
  dirs : Folder → Option Dir
  files : Nat → Bytes
  inodes : Nat
  journal : Option Writer
  log : Nat → List (Appended N)
  kills : Nat → Nat
  writing : Option Nat
  published : Folder → List (Record N)

def Machine.init {N : Type} : Machine N where
  active := none
  dirs := fun _ => none
  files := fun _ => []
  inodes := 0
  journal := none
  log := fun _ => []
  kills := fun _ => 0
  writing := none
  published := fun _ => []

inductive Fault where
  | notFound
  | other (text : String)

/-- The calls on the file system, and those by which an operation reads and writes the journal in memory.
A record is written in two steps: a first part of its line, then the rest. -/
inductive Call (N : Type) where
  | readActive
  | putActive (a : ActiveGeneration)
  | readManifest (l : Folder)
  | save (l : Folder)
  | putManifest (l : Folder) (m : Manifest)
  | present (l : Folder)
  | readDir (l : Folder)
  | removeFile (l : Folder) (f : FileName)
  | removeDir (l : Folder)
  | createDir (l : Folder)
  | createGenerations
  | rename (l : Folder)
  | createRecords (l : Folder)
  | openRecords (l : Folder)
  | length (i : Nat)
  | last (i : Nat)
  | endLine (i : Nat)
  | write (i : Nat) (r : Record N)
  | flush (i : Nat)
  | sync
  | get
  | set (j : Writer)
  | forget

section Calls

variable {N : Type}

abbrev Reply : Call N → Type
  | .readActive => Option ActiveGeneration
  | .readManifest _ => Option Manifest
  | .present _ => Bool
  | .readDir _ => List FileName
  | .createRecords _ => Nat
  | .openRecords _ => Nat
  | .length _ => Nat
  | .last _ => Option UInt8
  | .get => Writer
  | _ => Unit

abbrev Op (N : Type) (α : Type) := Script (Call N) Reply Fault α

/-- Calls that can fail for a reason of the file system's own. The writing of a record and a removal are
cut short by a kill only, and a step in memory cannot fail. -/
def Call.Fails : Call N → Prop
  | .endLine _ | .write _ _ | .flush _ | .removeFile _ _ | .removeDir _ | .get | .set _ | .forget => False
  | _ => True

def Dir.has (dir : Dir) : FileName → Bool
  | .manifest => dir.manifest.isSome
  | .records => dir.records.isSome

def Dir.remove (dir : Dir) : FileName → Dir
  | .manifest => { dir with manifest := none }
  | .records => { dir with records := none }

namespace Machine

def setDir (s : Machine N) (l : Folder) (dir : Option Dir) : Machine N :=
  { s with dirs := Function.update s.dirs l dir }

def manifestAt (s : Machine N) (l : Folder) : Option Manifest := (s.dirs l).bind Dir.manifest

def recordsAt (s : Machine N) (l : Folder) : Option Nat := (s.dirs l).bind Dir.records

/-- Bytes at the end of a record file. -/
def push (s : Machine N) (i : Nat) (bytes : Bytes) : Machine N :=
  { s with files := Function.update s.files i (s.files i ++ bytes) }

def setLog (s : Machine N) (i : Nat) (log : List (Appended N)) : Machine N :=
  { s with log := Function.update s.log i log }

/-- What a call is answered, and what it makes of the machine. -/
def Does (x : Externals N) : (c : Call N) → Machine N → Except Fault (Reply c) → Machine N → Prop
  | .readActive, s, r, t => t = s ∧ r = .ok s.active
  | .putActive a, s, r, t => r = .ok () ∧ t = { s with active := some a }
  | .readManifest l, s, r, t => t = s ∧ r = .ok (s.manifestAt l)
  | .save _, s, r, t => t = s ∧ r = .ok ()
  | .putManifest l m, s, r, t =>
      match s.dirs l with
      | none => t = s ∧ r = .error .notFound
      | some dir => r = .ok () ∧ t = s.setDir l (some { dir with manifest := some m })
  | .present l, s, r, t => t = s ∧ r = .ok (s.dirs l).isSome
  | .readDir l, s, r, t =>
      t = s ∧ match s.dirs l with
        | none => r = .error .notFound
        | some dir => ∃ files : List FileName, r = .ok files ∧ files.Nodup ∧
            ∀ f, f ∈ files ↔ dir.has f = true
  | .removeFile l f, s, r, t =>
      match s.dirs l with
      | none => t = s ∧ r = .error .notFound
      | some dir =>
          if dir.has f then r = .ok () ∧ t = s.setDir l (some (dir.remove f))
          else t = s ∧ r = .error .notFound
  | .removeDir l, s, r, t =>
      match s.dirs l with
      | none => t = s ∧ r = .error .notFound
      | some dir =>
          if dir = ⟨none, none⟩ then r = .ok () ∧ t = s.setDir l none
          else t = s ∧ r = .error (.other "directory not empty")
  | .createDir l, s, r, t =>
      match s.dirs l with
      | some _ => t = s ∧ r = .error (.other "file exists")
      | none => r = .ok () ∧ t = s.setDir l (some ⟨none, none⟩)
  | .createGenerations, s, r, t => t = s ∧ r = .ok ()
  | .rename l, s, r, t =>
      match s.dirs .pending, s.dirs l with
      | some dir, none =>
          r = .ok () ∧ t = { (s.setDir .pending none).setDir l (some dir) with
            published := Function.update s.published l
              (whole (dir.records.elim [] s.log)) }
      | _, _ => t = s ∧ r = .error (.other "directory not empty")
  | .createRecords l, s, r, t =>
      match s.dirs l with
      | none => t = s ∧ r = .error .notFound
      | some dir =>
          match dir.records with
          | some _ => t = s ∧ r = .error (.other "file exists")
          | none =>
              r = .ok s.inodes ∧ t = { s.setDir l (some { dir with records := some s.inodes }) with
                inodes := s.inodes + 1 }
  | .openRecords l, s, r, t =>
      t = s ∧ match s.recordsAt l with
        | none => r = .error .notFound
        | some i => r = .ok i
  | .length i, s, r, t => t = s ∧ r = .ok (s.files i).length
  | .last i, s, r, t => t = s ∧ r = .ok (s.files i).getLast?
  | .endLine i, s, r, t => r = .ok () ∧ t = s.push i [newline]
  | .write i record, s, r, t =>
      r = .ok () ∧ ∃ n ≤ (line x record).length,
        t = { (s.push i ((line x record).take n)).setLog i (s.log i ++ [⟨record, some n⟩]) with
          writing := some i }
  | .flush i, s, r, t =>
      match (s.log i).getLast? with
      | some ⟨record, some n⟩ =>
          r = .ok () ∧ t = { (s.push i ((line x record).drop n)).setLog i
            ((s.log i).dropLast ++ [⟨record, none⟩]) with writing := none }
      | _ => r = .ok () ∧ t = s
  | .sync, s, r, t => t = s ∧ r = .ok ()
  | .get, s, r, t =>
      t = s ∧ match s.journal with
        | none => r = .error (.other "no journal")
        | some j => r = .ok j
  | .set j, s, r, t => r = .ok () ∧ t = { s with journal := some j }
  | .forget, s, r, t => r = .ok () ∧ t = { s with journal := none }

def MayDo (x : Externals N) (c : Call N) (s : Machine N) (r : Except Fault (Reply c))
    (t : Machine N) : Prop :=
  s.Does x c r t ∨ (c.Fails ∧ t = s ∧ ∃ text, r = .error (.other text))

end Machine

end Calls

open Script (require fail)

def other (text : String) : Fault := .other text

/-- `validate_generation`. -/
def validateGeneration (generation : String) : Bool :=
  generation.utf8ByteSize == 32 &&
    generation.toList.all fun c => c.isDigit || ('a' ≤ c && c ≤ 'f')

/-- The folder of a generation; its name is checked by `generation_directory`. -/
def folderOf : Option String → Folder
  | some generation => .generation generation
  | none => .current

def u64Max : Nat := 2 ^ 64 - 1

section Operations

variable {N : Type}

/-- One call. -/
abbrev sys (c : Call N) : Op N (Reply c) := Script.sys c

/-- `generation_directory`. -/
def generationDirectory (generation : Option String) : Op N Folder := do
  require (generation.all validateGeneration) (other "invalid journal generation")
  pure (folderOf generation)

def activeGeneration : Op N (Option String) := do
  let active ← sys .readActive
  match active with
  | none => pure none
  | some active => do
      require (active.version == version) (other "unsupported journal generation pointer")
      require (validateGeneration active.generation) (other "invalid journal generation")
      pure (some active.generation)

def publishedManifest (identity : Identity) (generation : Option String) :
    Op N (Option Manifest) := do
  let base ← generationDirectory generation
  let manifest ← sys (.readManifest base)
  match manifest with
  | some manifest => do
      require (manifest.version == version && manifest.identity == identity &&
          manifest.generation == generation)
        (other "journal manifest belongs to another source or version")
      pure (some manifest)
  | none => do
      let there ← sys (.present base)
      require (!there && generation.isNone) (other "committed journal manifest is missing")
      pure none

/-- `fs::remove_dir_all`. -/
def removeDirAll (l : Folder) : Op N Unit := do
  let files ← sys (.readDir l)
  files.forM fun f => sys (.removeFile l f)
  sys (.removeDir l)

def removePending : Op N Unit :=
  (removeDirAll .pending).attempt fun
    | .error .notFound => pure ()
    | result => .ended result

/-- `write_metadata` of a manifest: nothing where it is there already, else a temporary file and a
rename. -/
def writeManifest (l : Folder) (m : Manifest) : Op N Unit := do
  let previous ← sys (.readManifest l)
  if previous = some m then pure ()
  else do
    sys (.save l)
    sys (.putManifest l m)

/-- `write_metadata` of the pointer to the active generation. -/
def writeActive (a : ActiveGeneration) : Op N Unit := do
  let previous ← sys .readActive
  if previous = some a then pure ()
  else do
    sys (.save .current)
    sys (.putActive a)

/-- `ensure_writable`, of the journal as it is. -/
def writable : Op N Writer := do
  let j ← sys .get
  require (!j.poisoned) (other "journal writer has failed")
  pure j

/-- A writer that fails is not used again. -/
def poison : Op N Unit := do
  let j ← sys .get
  sys (.set { j with poisoned := true })

/-- Where a step failed the writer is poisoned, and the failure goes on. -/
def orPoison {α : Type} (op : Op N α) : Op N α :=
  op.attempt fun
    | .ok a => pure a
    | .error e => do
        poison
        fail e

/-- `append_range`: where the record stands in the file. -/
def appendRange (record : Record N) : Op N (Nat × Nat) := do
  let j ← writable
  sys (.set { j with basePrepared := false })
  orPoison do
    let start ← sys (.length j.file)
    sys (.write j.file record)
    sys (.flush j.file)
    let stop ← sys (.length j.file)
    pure (start, stop)

def append (record : Record N) : Op N Unit := do
  let _ ← appendRange record
  pure ()

def persist : Op N Unit := do
  let j ← writable
  orPoison do
    sys .sync
    let folder ← if j.pending then pure .pending else generationDirectory j.manifest.generation
    writeManifest folder j.manifest

/-- `Drop for Journal`; the lock goes with it. -/
def dropJournal : Op N Unit := do
  let j ← sys .get
  if j.pending then
    (removeDirAll .pending).attempt fun _ => sys .forget
  else sys .forget

/-- A journal under construction is dropped where a step fails. -/
def orDrop (op : Op N Unit) : Op N Unit :=
  op.attempt fun
    | .ok _ => pure ()
    | .error e => do
        dropJournal
        fail e

def finishPartialRecord (i : Nat) : Op N Bool := do
  let length ← sys (.length i)
  if length = 0 then pure false
  else do
    let last ← sys (.last i)
    if last = some newline then pure false
    else do
      -- Interrupted bytes stay as a raw record of their own.
      sys (.endLine i)
      pure true

def emptyManifest (identity : Identity) (opening : Opening) : Manifest :=
  ⟨version, identity, opening, 0, none, none⟩

/-- The first base: nothing is published. -/
def newBase (identity : Identity) (opening : Opening) : Op N Unit := do
  sys (.createDir .pending)
  let file ← sys (.createRecords .pending)
  sys (.set ⟨file, emptyManifest identity opening, true, false, false⟩)

/-- A load replays the whole conversation into a generation of its own. -/
def loadBase (identity : Identity) (manifest : Manifest) (fresh : String) : Op N Unit := do
  sys (.createDir .pending)
  let file ← sys (.createRecords .pending)
  sys (.set ⟨file, ⟨version, identity, .load, min (manifest.gaps + 1) u64Max, none, some fresh⟩,
    true, false, false⟩)
  orDrop (append (.gap .load manifest.activeTurn false))

/-- The part of `from_reservation` after a published base was opened to be continued. -/
def continueBase (opening : Opening) (file : Nat) : Op N Unit := do
  let incomplete ← finishPartialRecord file
  let j ← sys .get
  let interrupted := j.manifest.activeTurn
  sys (.set { j with manifest := { j.manifest with activeTurn := none } })
  append (.gap opening interrupted incomplete)
  let j ← sys .get
  sys (.set { j with manifest := { j.manifest with gaps := min (j.manifest.gaps + 1) u64Max } })
  persist

/-- A resume goes on with the published base. -/
def resumeBase (base : Folder) (opening : Opening) (manifest : Manifest) : Op N Unit := do
  let file ← sys (.openRecords base)
  sys (.set ⟨file, manifest, false, false, false⟩)
  orDrop (continueBase opening file)

/-- `Journal::from_reservation`. -/
def fromReservation (identity : Identity) (generation : Option String) (opening : Opening)
    (fresh : String) : Op N Unit := do
  let active ← activeGeneration
  require (active == generation) (other "journal generation changed during its reservation")
  let base ← generationDirectory generation
  let previous ← publishedManifest identity generation
  require (!(opening == .new && previous.isSome))
    (other "ACP New returned an already published native identity")
  removePending
  match previous with
  | some manifest =>
      if opening = .load then loadBase identity manifest fresh
      else resumeBase base opening manifest
  | none => newBase identity opening

/-- `JournalReservation::take`, by the process that gets the writer lock. -/
def take (x : Externals N) (identity : Identity) : Op N (Option String) := do
  require (identity.agent != "" && identity.nativeId != "")
    (other "journal requires an agent and full native session identity")
  require (x.identityLength identity ≤ 4096) (other "journal identity exceeds its byte budget")
  let generation ← activeGeneration
  let _ ← publishedManifest identity generation
  pure generation

/-- `Journal::open`. -/
def openJournal (x : Externals N) (identity : Identity) (opening : Opening) (fresh : String) :
    Op N Unit := do
  let generation ← take x identity
  fromReservation identity generation opening fresh

def note (notification : N) : Op N Unit := do
  let j ← sys .get
  append (.update j.manifest.activeTurn notification)

def prepareBase : Op N Unit := do
  let j ← sys .get
  require j.pending (other "journal base is already committed")
  let _ ← writable
  (do sys .sync
      persist
      sys .sync
      sys .sync : Op N Unit).attempt fun
    | .ok _ => do
        let j ← sys .get
        sys (.set { j with basePrepared := true })
    | .error e => do
        let j ← sys .get
        sys (.set { j with poisoned := true, basePrepared := false })
        fail e

/-- The last steps of `publish_base`: the pointer, where the base has a generation. -/
def pointTo (generation : Option String) : Op N Unit :=
  match generation with
  | some generation => do
      writeActive ⟨version, generation⟩
      sys .sync
      sys .sync
  | none => sys .sync

/-- The steps of `publish_base` that can fail after it began. -/
def publishSteps (j : Writer) : Op N Unit := do
  let target ← generationDirectory j.manifest.generation
  orPoison do
    let there ← sys (.present target)
    require (!there) (other "journal base target is already published")
    if j.manifest.generation.isSome then sys .createGenerations else pure ()
    sys (.rename target)
    sys (.set { j with pending := false, basePrepared := false })
    sys .sync
    pointTo j.manifest.generation

def publishBase : Op N Unit := do
  let j ← sys .get
  require j.pending (other "journal base is already committed")
  let j ← writable
  require j.basePrepared (other "journal base has not been prepared")
  publishSteps j

def abortBase : Op N Unit := do
  let j ← sys .get
  if j.pending then do
    removeDirAll .pending
    sys (.set { j with pending := false, poisoned := true })
  else pure ()

/-- What a client token may look like. -/
def validToken (token : String) : Bool :=
  token != "" && token.utf8ByteSize ≤ 128 &&
    token.toList.all fun c => c.isAlphanum || c == '.' || c == '_' || c == ':' || c == '-'

def accept (turn text : String) (images files : List (String × String)) (token : Option String) :
    Op N Unit := do
  let j ← sys .get
  require (!j.pending) (other "journal bootstrap has not committed")
  require j.manifest.activeTurn.isNone (other "journal already has an active turn")
  require (turn != "" && turn.utf8ByteSize ≤ 256) (other "invalid journal turn identity")
  require (token.all validToken) (other "invalid journal client token")
  let range ← appendRange (.prompt turn text images files)
  let j ← sys .get
  sys (.set { j with manifest := { j.manifest with activeTurn := some turn } })
  persist
  match token with
  | some token => append (.promptOrigin turn token range.1 range.2)
  | none => pure ()

def finish (turn : String) (outcome : Outcome) (detail : Option String) : Op N Unit := do
  let j ← sys .get
  require (j.manifest.activeTurn == some turn) (other "journal completion belongs to another turn")
  append (.turn turn outcome detail)
  let j ← sys .get
  sys (.set { j with manifest := { j.manifest with activeTurn := none } })
  persist

end Operations

/-! ### Readers -/

/-- A published base as a reader finds it. -/
structure Source where
  folder : Folder
  manifest : Manifest

section Readers

variable {N : Type}

/-- `Source::find_generation`. -/
def findGeneration (identity : Identity) (s : Machine N) (generation : Option String) :
    Except String (Option Source) :=
  if generation.all validateGeneration then
    match s.manifestAt (folderOf generation) with
    | none =>
        if (s.dirs (folderOf generation)).isSome then .error "committed journal manifest is missing"
        else .ok none
    | some manifest =>
        if manifest.version = version ∧ manifest.identity = identity ∧
            manifest.generation = generation then
          .ok (some ⟨folderOf generation, manifest⟩)
        else .error "journal source identity or generation changed"
  else .error "invalid journal generation"

/-- `Source::find`, at one moment. -/
def find (identity : Identity) (s : Machine N) : Except String (Option Source) :=
  match s.active with
  | none => findGeneration identity s none
  | some active =>
      if active.version = version then findGeneration identity s (some active.generation)
      else .error "unsupported journal generation pointer"

end Readers

/-! ### Runs -/

section Runs

variable {N : Type}

/-- What may be asked of a journal. -/
inductive Request (N : Type) where
  | openAs (opening : Opening) (fresh : String)
  | note (notification : N)
  | accept (turn text : String) (images files : List (String × String)) (token : Option String)
  | finish (turn : String) (outcome : Outcome) (detail : Option String)
  | prepareBase
  | publishBase
  | abortBase
  | drop

def Request.op (x : Externals N) (identity : Identity) : Request N → Op N Unit
  | .openAs opening fresh => openJournal x identity opening fresh
  | .note notification => Journal.note notification
  | .accept turn text images files token => Journal.accept turn text images files token
  | .finish turn outcome detail => Journal.finish turn outcome detail
  | .prepareBase => Journal.prepareBase
  | .publishBase => Journal.publishBase
  | .abortBase => Journal.abortBase
  | .drop => dropJournal

/-- The lock lets nobody open a journal that has a writer; everything else is asked of the writer. -/
def Request.Permitted (s : Machine N) : Request N → Prop
  | .openAs _ _ => s.journal = none
  | _ => s.journal.isSome

/-- The turns that were accepted and have not been finished, as the caller of the journal knows it: only
what returned counts. An opening answers for all of them. -/
def Request.settle (owed : List String) : Request N → Except Fault Unit → List String
  | .accept turn _ _ _ _, .ok _ => turn :: owed
  | .finish turn _ _, .ok _ => owed.filter (· ≠ turn)
  | .openAs _ _, .ok _ => []
  | _, _ => owed

instance (s : Machine N) (request : Request N) : Decidable (request.Permitted s) :=
  match request with
  | .openAs _ _ => decEq s.journal none
  | .note _ | .accept _ _ _ _ _ | .finish _ _ _ | .prepareBase | .publishBase | .abortBase | .drop =>
      decEq s.journal.isSome true

/-- A journal with the operation under way, and the turns that are owed a completion. -/
structure World (N : Type) where
  machine : Machine N
  running : Option (Request N × Op N Unit)
  owed : List String

namespace World

def init : World N := ⟨.init, none, []⟩

/-- A kill: the memory is gone, and an append under way is cut short. -/
def killed (s : Machine N) : Machine N :=
  { s with
    journal := none
    writing := none
    kills := match s.writing with
      | some i => Function.update s.kills i (s.kills i + 1)
      | none => s.kills }

/-- One step. A kill can fall at any time. -/
inductive Step (x : Externals N) (identity : Identity) : World N → World N → Prop where
  | start {w : World N} (request : Request N) (idle : w.running = none)
      (permitted : request.Permitted w.machine) :
      Step x identity w { w with running := some (request, request.op x identity) }
  | call {w : World N} {request : Request N} {c : Call N}
      {next : Except Fault (Reply c) → Op N Unit} {answer : Except Fault (Reply c)} {t : Machine N}
      (running : w.running = some (request, .call c next)) (does : w.machine.MayDo x c answer t) :
      Step x identity w { w with machine := t, running := some (request, next answer) }
  | finish {w : World N} {request : Request N} {r : Except Fault Unit}
      (running : w.running = some (request, .ended r)) :
      Step x identity w { w with running := none, owed := request.settle w.owed r }
  | kill {w : World N} :
      Step x identity w { w with machine := killed w.machine, running := none }

/-- Any number of steps. -/
def Reaches (x : Externals N) (identity : Identity) : World N → World N → Prop :=
  Relation.ReflTransGen (Step x identity)

end World

/-! ### Runs that can be evaluated -/

/-- The names in a folder. -/
def Dir.names (dir : Dir) : List FileName := [FileName.manifest, .records].filter dir.has

/-- What a call is answered where it is not refused; a record is written at once. -/
def Machine.answer (x : Externals N) (s : Machine N) : (c : Call N) → Except Fault (Reply c) × Machine N
  | .readActive => (.ok s.active, s)
  | .putActive a => (.ok (), { s with active := some a })
  | .readManifest l => (.ok (s.manifestAt l), s)
  | .save _ => (.ok (), s)
  | .putManifest l m =>
      match s.dirs l with
      | none => (.error .notFound, s)
      | some dir => (.ok (), s.setDir l (some { dir with manifest := some m }))
  | .present l => (.ok (s.dirs l).isSome, s)
  | .readDir l =>
      match s.dirs l with
      | none => (.error .notFound, s)
      | some dir => (.ok dir.names, s)
  | .removeFile l f =>
      match s.dirs l with
      | none => (.error .notFound, s)
      | some dir =>
          if dir.has f then (.ok (), s.setDir l (some (dir.remove f))) else (.error .notFound, s)
  | .removeDir l =>
      match s.dirs l with
      | none => (.error .notFound, s)
      | some dir =>
          if dir = ⟨none, none⟩ then (.ok (), s.setDir l none)
          else (.error (.other "directory not empty"), s)
  | .createDir l =>
      match s.dirs l with
      | some _ => (.error (.other "file exists"), s)
      | none => (.ok (), s.setDir l (some ⟨none, none⟩))
  | .createGenerations => (.ok (), s)
  | .rename l =>
      match s.dirs .pending, s.dirs l with
      | some dir, none =>
          (.ok (), { (s.setDir .pending none).setDir l (some dir) with
            published := Function.update s.published l (whole (dir.records.elim [] s.log)) })
      | _, _ => (.error (.other "directory not empty"), s)
  | .createRecords l =>
      match s.dirs l with
      | none => (.error .notFound, s)
      | some dir =>
          match dir.records with
          | some _ => (.error (.other "file exists"), s)
          | none =>
              (.ok s.inodes, { s.setDir l (some { dir with records := some s.inodes }) with
                inodes := s.inodes + 1 })
  | .openRecords l =>
      match s.recordsAt l with
      | none => (.error .notFound, s)
      | some i => (.ok i, s)
  | .length i => (.ok (s.files i).length, s)
  | .last i => (.ok (s.files i).getLast?, s)
  | .endLine i => (.ok (), s.push i [newline])
  | .write i record =>
      (.ok (), { (s.push i ((line x record).take (line x record).length)).setLog i
          (s.log i ++ [⟨record, some (line x record).length⟩]) with writing := some i })
  | .flush i =>
      match (s.log i).getLast? with
      | some ⟨record, some n⟩ =>
          (.ok (), { (s.push i ((line x record).drop n)).setLog i
            ((s.log i).dropLast ++ [⟨record, none⟩]) with writing := none })
      | _ => (.ok (), s)
  | .sync => (.ok (), s)
  | .get =>
      match s.journal with
      | none => (.error (.other "no journal"), s)
      | some j => (.ok j, s)
  | .set j => (.ok (), { s with journal := some j })
  | .forget => (.ok (), { s with journal := none })

theorem Machine.answer_does (x : Externals N) (s : Machine N) (c : Call N) :
    s.Does x c (s.answer x c).1 (s.answer x c).2 := by
  cases c
  case putManifest l m =>
    simp only [Machine.answer, Machine.Does]
    cases s.dirs l <;> exact ⟨rfl, rfl⟩
  case readDir l =>
    simp only [Machine.answer, Machine.Does]
    cases s.dirs l with
    | none => exact ⟨rfl, rfl⟩
    | some dir =>
        refine ⟨rfl, dir.names, rfl, List.Nodup.sublist List.filter_sublist (by decide), fun f => ?_⟩
        cases f <;> simp [Dir.names]
  case removeFile l f =>
    simp only [Machine.answer, Machine.Does]
    cases s.dirs l with
    | none => exact ⟨rfl, rfl⟩
    | some dir => dsimp only; split <;> exact ⟨rfl, rfl⟩
  case removeDir l =>
    simp only [Machine.answer, Machine.Does]
    cases s.dirs l with
    | none => exact ⟨rfl, rfl⟩
    | some dir => dsimp only; split <;> exact ⟨rfl, rfl⟩
  case createDir l =>
    simp only [Machine.answer, Machine.Does]
    cases s.dirs l <;> exact ⟨rfl, rfl⟩
  case rename l =>
    simp only [Machine.answer, Machine.Does]
    cases s.dirs .pending <;> cases s.dirs l <;> exact ⟨rfl, rfl⟩
  case createRecords l =>
    simp only [Machine.answer, Machine.Does]
    cases s.dirs l with
    | none => exact ⟨rfl, rfl⟩
    | some dir => dsimp only; cases dir.records <;> exact ⟨rfl, rfl⟩
  case openRecords l =>
    simp only [Machine.answer, Machine.Does]
    cases s.recordsAt l <;> exact ⟨rfl, rfl⟩
  case write i record => exact ⟨rfl, _, Nat.le_refl _, rfl⟩
  case flush i =>
    simp only [Machine.answer, Machine.Does]
    rcases (s.log i).getLast? with _ | ⟨record, _ | n⟩ <;> exact ⟨rfl, rfl⟩
  case get =>
    simp only [Machine.answer, Machine.Does]
    cases s.journal <;> exact ⟨rfl, rfl⟩
  all_goals exact ⟨rfl, rfl⟩

/-- An operation for so many calls. -/
def exec (x : Externals N) : Nat → Op N Unit → Machine N → Op N Unit × Machine N
  | 0, p, s => (p, s)
  | _ + 1, .ended r, s => (.ended r, s)
  | n + 1, .call c next, s => exec x n (next (s.answer x c).1) (s.answer x c).2

/-- The operation has ended, and well. -/
def returned : Op N Unit → Bool
  | .ended (.ok _) => true
  | _ => false

theorem returned_eq {p : Op N Unit} (h : returned p = true) : p = .ended (.ok ()) := by
  unfold returned at h
  split at h
  · rfl
  · cases h

namespace World

/-- One operation: for so many calls, after which it is killed, or to its end, with its result. -/
def act (x : Externals N) (identity : Identity) (w : World N) (request : Request N)
    (calls : Option Nat) : World N :=
  match exec x (calls.getD 100) (request.op x identity) w.machine with
  | (.ended r, t) =>
      if calls = none then { machine := t, running := none, owed := request.settle w.owed r }
      else { machine := killed t, running := none, owed := w.owed }
  | (.call _ _, t) => { machine := killed t, running := none, owed := w.owed }

variable {w : World N}

section

variable (x : Externals N) (identity : Identity)

theorem exec_reaches {request : Request N} (n : Nat) {p : Op N Unit}
    (running : w.running = some (request, p)) : Reaches x identity w { w with
      machine := (exec x n p w.machine).2, running := some (request, (exec x n p w.machine).1) } := by
  induction n generalizing w p with
  | zero =>
      rw [exec, ← running]
      exact .refl
  | succ n ih =>
      cases p with
      | ended r =>
          rw [exec, ← running]
          exact .refl
      | call c next =>
          have step : Step x identity w _ := .call running (.inl (w.machine.answer_does x c))
          exact .head step (ih rfl)

theorem act_reaches (request : Request N) (calls : Option Nat) (idle : w.running = none)
    (permitted : request.Permitted w.machine) : Reaches x identity w (w.act x identity request calls) := by
  refine .head (.start request idle permitted) ?_
  have ran := exec_reaches x identity (w := { w with running := some (request, request.op x identity) })
    (calls.getD 100) rfl
  unfold act
  generalize exec x (calls.getD 100) (request.op x identity) w.machine = result at ran
  obtain ⟨p, t⟩ := result
  cases p with
  | ended r =>
      dsimp only
      split
      · exact ran.tail (.finish rfl)
      · exact ran.tail .kill
  | call c next => exact ran.tail .kill

theorem act_idle (w : World N) (request : Request N)
    (calls : Option Nat) : (w.act x identity request calls).running = none := by
  unfold act
  split
  · split <;> rfl
  · rfl

end

/-- Operations one after the other, as long as they are permitted. -/
def play (x : Externals N) (identity : Identity) :
    World N → List (Request N × Option Nat) → Option (World N)
  | w, [] => some w
  | w, (request, calls) :: rest =>
      if request.Permitted w.machine then play x identity (w.act x identity request calls) rest else none

theorem play_reaches {x : Externals N} {identity : Identity} {acts : List (Request N × Option Nat)} {w' : World N}
    (idle : w.running = none) (played : w.play x identity acts = some w') : Reaches x identity w w' := by
  induction acts generalizing w with
  | nil =>
      cases played
      exact .refl
  | cons act rest ih =>
      obtain ⟨request, calls⟩ := act
      rw [play] at played
      split at played
      · next permitted =>
        exact (act_reaches x identity request calls idle permitted).trans
          (ih (act_idle x identity w request calls) played)
      · cases played

end World

end Runs

end Khor.Node.Journal
