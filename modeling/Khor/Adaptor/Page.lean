/-
Module: Khor.Adaptor.Page
Purpose: Pages of events over the windows of a transcript: reading a window of the file as it is, checking it
  against the request, and parsing it backward or forward (crates/node/src/adaptor/transcript_page.rs).
Trusted boundary: the file can be read, and a read costs at most 16 KiB more on the wire than its bytes
Main exports: Cursor, Page, prepareRead, parseOlder, readPage
-/
import Khor.Adaptor.Window

namespace Khor.Adaptor

def EVENT_LIMIT : Nat := 128

structure Position where
  start : Nat
  stop : Nat
  item : Nat
deriving DecidableEq

structure PendingRecord where
  start : Nat
  missingStart : Bool
deriving DecidableEq

structure Cursor where
  source : String
  file : String
  len : Nat
  modified : Nat × Nat
  position : Position
  pending : Option PendingRecord
  waitingForAppend : Bool
deriving DecidableEq

structure Event (T : Type) where
  position : Position
  payload : T
deriving DecidableEq

structure Reference where
  range : Span
  missingStart : Bool
  missingEnd : Bool
deriving DecidableEq

structure Page (T : Type) where
  events : List (Event T)
  references : List Reference
  older : Option Cursor
  reset : Bool
  newer : Cursor
  hasMore : Bool
  origin : Cursor
deriving DecidableEq

/-- The file at one moment. -/
structure File where
  identity : String
  modified : Nat × Nat
  bytes : List UInt8

structure FileVersion where
  file : String
  len : Nat
  modified : Nat × Nat

def FileVersion.of (f : File) : FileVersion := ⟨f.identity, f.bytes.length, f.modified⟩

def FileVersion.changed (v : FileVersion) (cursor : Cursor) : Bool :=
  v.file ≠ cursor.file || v.len < cursor.len || (v.len = cursor.len && v.modified ≠ cursor.modified)

def FileVersion.cursor (v : FileVersion) (source : String) (position : Position) : Cursor :=
  ⟨source, v.file, max v.len position.stop, v.modified, position, none, false⟩

/-- A position between records. -/
def Position.at_ (start : Nat) : Position := ⟨start, start, 0⟩

def checkCancelled (cancelled : Bool) : Except String Unit :=
  if cancelled then .error "history request cancelled" else .ok ()

def WINDOW_WIRE_BYTES : Nat := SCAN_BYTES + 16 * 1024

structure PreparedRead where
  observation : FileVersion
  window : Option TranscriptWindow
  forward : Bool
  reset : Bool

/-- The place before which an older page reads. -/
def Cursor.bound (cursor : Cursor) : Nat :=
  if cursor.position.item = 0 then cursor.position.start else cursor.position.stop

/-- The window's own checks. -/
def PreparedRead.validateWindow (prepared : PreparedRead) : Except String Unit :=
  match prepared.window with
  | some window => do
      window.validate
      if prepared.observation.len < window.observedLen then
        .error "transcript changed while reading its window"
      else .ok ()
  | none => .ok ()

section Reading

variable (wire : PreparedRead → Nat)

def PreparedRead.validate (prepared : PreparedRead) : Except String Unit := do
  if prepared.observation.file.utf8ByteSize = 0 ∨ 256 < prepared.observation.file.utf8ByteSize ∨
      1000000000 ≤ prepared.observation.modified.2 then .error "invalid transcript file version"
  else do
    prepared.validateWindow
    if WINDOW_WIRE_BYTES < wire prepared then
      .error "serialized transcript window exceeds its wire budget"
    else .ok ()

/-- The range that a request reads. -/
def requested (window : TranscriptWindow) (cursor : Option Cursor) (forward : Bool) : Except String Span :=
  if forward then
    match cursor with
    | none => .error "forward window has no cursor"
    | some cursor => .ok ⟨cursor.position.start,
        min (cursor.position.start + (SCAN_BYTES - 1)) window.observedLen⟩
  else
    let stop := (cursor.map Cursor.bound).getD window.observedLen
    .ok ⟨stop - (SCAN_BYTES - 1), stop⟩

def PreparedRead.validateRequest (prepared : PreparedRead) (cursor : Option Cursor) (newer : Bool) :
    Except String Unit := do
  prepared.validate wire
  let cursor := if prepared.reset then none else cursor
  if prepared.forward ≠ (newer && !prepared.reset) then
    .error "transcript window has another read direction"
  else if cursor.any prepared.observation.changed then
    .error "transcript window has another file version"
  else if cursor.any fun cursor => prepared.window.any fun window => window.observedLen < cursor.len then
    .error "transcript window predates its cursor"
  else
    match prepared.window with
    | none => .ok ()
    | some window => do
        let range ← requested window cursor prepared.forward
        if window.range ≠ range then .error "transcript window does not match its requested range"
        else .ok ()

def checkCursor (source : String) (cursor : Option Cursor) : Except String Unit :=
  match cursor with
  | none => .ok ()
  | some cursor =>
      if cursor.source ≠ source then .error "history cursor belongs to another session"
      else if cursor.position.stop < cursor.position.start ∨ cursor.len < cursor.position.stop ∨
          cursor.pending.any (fun pending => cursor.position.start < pending.start) then
        .error "invalid history cursor range"
      else .ok ()

/-- The window of an older read. `first`, `then_` and `last` are the file as the version is observed, as the
window is read and as the version is observed again. -/
def prepareOlder (first then_ last : File) (source : String) (cursor : Option Cursor) (newer cancelled : Bool) :
    Except String PreparedRead := do
  checkCancelled cancelled
  checkCursor source cursor
  let observation := FileVersion.of first
  let reset := cursor.any observation.changed
  let cursor' := if reset then none else cursor
  if cursor'.any fun cursor => observation.len < cursor.position.stop then
    .error "invalid history cursor range"
  else do
    let window := readWindow then_.bytes (cursor'.map Cursor.bound)
    checkCancelled cancelled
    let observation := FileVersion.of last
    if observation.len < window.observedLen then .error "transcript changed while reading its window"
    else do
      let prepared : PreparedRead := ⟨observation, some window, false, reset⟩
      prepared.validateRequest wire cursor' newer
      .ok prepared

/-- `prepare_read`; `file` is the file at the moments it is looked at. -/
def prepareRead (file : Nat → File) (source : String) (cursor : Option Cursor) (newer cancelled : Bool) :
    Except String PreparedRead := do
  checkCancelled cancelled
  checkCursor source cursor
  if newer ∧ cursor = none then .error "newer history requires a cursor"
  else
    let observation := FileVersion.of (file 0)
    match (if newer && !cursor.any observation.changed then cursor else none) with
    | none => prepareOlder wire (file 0) (file 1) (file 2) source cursor newer cancelled
    | some cursor => do
        if observation.len < cursor.position.stop then .error "invalid history cursor range"
        else if cursor.waitingForAppend ∧ observation.len = cursor.len ∧
            observation.modified = cursor.modified then
          .ok ⟨observation, none, true, false⟩
        else do
          let window := readForwardWindow (file 1).bytes cursor.position.start
          checkCancelled cancelled
          let observation := FileVersion.of (file 2)
          if observation.changed cursor then do
            -- The file was replaced under the read: its tail is read instead.
            let prepared ← prepareOlder wire (file 3) (file 4) (file 5) source none false cancelled
            .ok { prepared with reset := true }
          else if observation.len < window.observedLen then
            .error "transcript changed while reading its window"
          else do
            let prepared : PreparedRead := ⟨observation, some window, true, false⟩
            prepared.validateRequest wire (some cursor) newer
            .ok prepared

end Reading

section Parsing

variable {T : Type} (parse : List UInt8 → List T)

/-- The events of a record, each with its place. -/
def eventsOf (range : Span) (line : List UInt8) : List (Event T) :=
  (parse line).zipIdx.map fun event => ⟨⟨range.start, range.stop, event.2⟩, event.1⟩

/-- An older page stops before its cursor, within a record too. -/
def upTo (cursor : Option Cursor) (range : Span) (events : List (Event T)) : List (Event T) :=
  match cursor with
  | some cursor => if range.start = cursor.position.start then events.take cursor.position.item else events
  | none => events

/-- The last events, as many as a page has. -/
def pushBack (events more : List (Event T)) : List (Event T) :=
  let all := events ++ more
  all.drop (all.length - EVENT_LIMIT)

structure Older (T : Type) where
  events : List (Event T)
  references : List Reference
  leadingEnd : Option Nat
  newer : Cursor

/-- One piece of an older page's window. -/
def olderStep (cursor : Option Cursor) (window : TranscriptWindow) (s : Older T) : Record → Older T
  | .inline range line =>
      { s with
        events := pushBack s.events (upTo cursor range (eventsOf parse range line))
        newer := { s.newer with position := .at_ range.stop } }
  | .oversized range =>
      { s with
        references := s.references ++ [⟨range, false, false⟩]
        newer := { s.newer with position := .at_ range.stop } }
  | .fragment range missingStart missingEnd =>
      { s with
        leadingEnd := if range.start = window.range.start ∧ missingStart then some range.stop else s.leadingEnd
        references := s.references ++ [⟨range, missingStart, missingEnd⟩]
        newer :=
          if missingEnd then
            let newer := if missingStart ∨ INLINE_RECORD_BYTES < range.stop - range.start then
              { s.newer with position := .at_ range.stop, pending := some ⟨range.start, missingStart⟩ }
              else { s.newer with position := .at_ range.start }
            { newer with waitingForAppend := true }
          else { s.newer with position := .at_ range.stop } }

/-- Where the page before starts to read. -/
def olderPosition (window : TranscriptWindow) (events : List (Event T)) (leadingEnd : Option Nat) :
    Option Position :=
  match events with
  | event :: _ => some event.position
  | [] => window.before.map fun start =>
      -- A small record at the edge is read whole by the page before; a giant one is gone through piecewise.
      .at_ ((leadingEnd.filter fun stop => stop < window.range.stop).getD start)

def parseOlder (window : TranscriptWindow) (observation : FileVersion) (source : String)
    (cursor : Option Cursor) (reset : Bool) : Page T :=
  let s := window.records.foldl (olderStep parse cursor window)
    ⟨[], [], none, observation.cursor source (.at_ window.range.start)⟩
  let older := (olderPosition window s.events s.leadingEnd).filter fun position =>
    0 < position.start || 0 < position.item
  { events := s.events
    references := match s.events with
      | event :: _ => s.references.filter fun reference => event.position.start < reference.range.stop
      | [] => s.references
    older := older.map (observation.cursor source)
    reset := reset
    newer := match cursor with
      | some cursor => observation.cursor source cursor.position
      | none => s.newer
    hasMore := false
    origin := observation.cursor source (.at_ 0) }

structure Forward (T : Type) where
  events : List (Event T)
  references : List Reference
  pending : Option PendingRecord
  newer : Cursor
  hasMore : Bool

/-- A piece that is not parsed: its newline is missing, or it ends a record that is pending. -/
def forwardFragment (observation : FileVersion) (s : Forward T) (range : Span)
    (missingStart missingEnd : Bool) : Forward T :=
  let start := (s.pending.map (·.start)).getD range.start
  let missingStart := (s.pending.map (·.missingStart)).getD missingStart
  let references := s.references ++ [⟨⟨start, range.stop⟩, missingStart, missingEnd⟩]
  let waits := missingEnd && decide (range.stop = observation.len)
  if missingEnd ∧ s.pending = none ∧ ¬missingStart ∧ range.stop - range.start ≤ INLINE_RECORD_BYTES then
    { s with
      references := references
      newer := { s.newer with position := .at_ start, pending := none, waitingForAppend := waits } }
  else
    let pending := if missingEnd then some ⟨start, missingStart⟩ else none
    { s with
      references := references
      pending := pending
      newer := { s.newer with position := .at_ range.stop, pending := pending, waitingForAppend := waits } }

/-- One piece of a newer page's window. -/
def forwardStep (observation : FileVersion) (source : String) (cursor : Cursor) (s : Forward T) :
    Record → Forward T
  | .inline range line =>
      match s.pending with
      | some _ => forwardFragment observation s range false false
      | none =>
          let skip := if range.start = cursor.position.start then cursor.position.item else 0
          let events := (eventsOf parse range line).drop skip
          match events[EVENT_LIMIT - s.events.length]? with
          | some event =>
              { s with
                events := s.events ++ events.take (EVENT_LIMIT - s.events.length)
                newer := observation.cursor source event.position
                hasMore := true }
          | none =>
              { s with
                events := s.events ++ events
                newer := { s.newer with position := .at_ range.stop } }
  | .oversized range =>
      { s with
        references := s.references ++ [⟨range, false, false⟩]
        newer := { s.newer with position := .at_ range.stop } }
  | .fragment range missingStart missingEnd => forwardFragment observation s range missingStart missingEnd

/-- The pieces in turn, until the page is full. -/
def forwardSteps (observation : FileVersion) (source : String) (cursor : Cursor) :
    Forward T → List Record → Forward T
  | s, [] => s
  | s, piece :: pieces =>
      if s.hasMore then s
      else forwardSteps observation source cursor (forwardStep parse observation source cursor s piece) pieces

def parseForward (window : TranscriptWindow) (observation : FileVersion) (source : String)
    (cursor : Cursor) : Page T :=
  let s := forwardSteps parse observation source cursor
    ⟨[], [], cursor.pending, observation.cursor source cursor.position, false⟩ window.records
  { events := s.events
    references := s.references
    older := none
    reset := false
    newer := s.newer
    hasMore := s.hasMore || (!s.newer.waitingForAppend && decide (s.newer.position.start < observation.len))
    origin := observation.cursor source (.at_ 0) }

/-- The page of a file that has not grown. -/
def unchangedPage (observation : FileVersion) (source : String) (cursor : Cursor) : Page T where
  events := []
  references := []
  older := none
  reset := false
  newer := cursor
  hasMore := false
  origin := observation.cursor source (.at_ 0)

variable (wire : PreparedRead → Nat)

def parsePrepared (prepared : PreparedRead) (source : String) (cursor : Option Cursor)
    (newer cancelled : Bool) : Except String (Page T) := do
  checkCancelled cancelled
  checkCursor source cursor
  prepared.validateRequest wire cursor newer
  let cursor := if prepared.reset then none else cursor
  match prepared.window, prepared.forward with
  | some window, false =>
      .ok (parseOlder parse window prepared.observation source cursor prepared.reset)
  | some window, true =>
      match cursor with
      | some cursor => .ok (parseForward parse window prepared.observation source cursor)
      | none => .error "forward window has no cursor"
  | none, true =>
      match cursor with
      | none => .error "unchanged window has no cursor"
      | some cursor =>
          if !cursor.waitingForAppend || prepared.observation.changed cursor ||
              prepared.observation.len ≠ cursor.len || prepared.observation.modified ≠ cursor.modified then
            .error "invalid unchanged transcript window"
          else .ok (unchangedPage prepared.observation source cursor)
  | none, false => .error "tail window has no bytes"

/-- The tail, or the events before a position. -/
def readPage (file : Nat → File) (source : String) (cursor : Option Cursor) (cancelled : Bool) :
    Except String (Page T) := do
  let prepared ← prepareRead wire file source cursor false cancelled
  parsePrepared parse wire prepared source cursor false cancelled

/-- What follows a position. -/
def readNext (file : Nat → File) (source : String) (cursor : Cursor) (cancelled : Bool) :
    Except String (Page T) := do
  let prepared ← prepareRead wire file source (some cursor) true cancelled
  parsePrepared parse wire prepared source (some cursor) true cancelled

end Parsing

end Khor.Adaptor
