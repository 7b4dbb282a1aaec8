/-
Module: Khor.Acp.Segments
Purpose: The spool of the event store as it is on disk: segments of records that one writer fills and one reader
  empties and deletes behind itself (crates/acp/src/event_store/disk.rs).
Trusted boundary: files that are there can be opened and read, what is written is written, and memory suffices
Main exports: Disk.Spool, Disk.Spool.append, Disk.Spool.next
-/
import Khor.Acp.EventStore
import Khor.Lib.BigEndian

namespace Khor.Acp.EventStore.Disk

def SEGMENT_BYTES : Nat := 8 * 1024 * 1024

def IO_CHUNK : Nat := 64 * 1024

def HEADER_BYTES : Nat := 32

/-- `KHORAC01`. -/
def MAGIC : Bytes := [75, 72, 79, 82, 65, 67, 48, 49]

/-- A call is cancelled at one of its checks: after so many that pass, or at none. -/
abbrev Cancel := Option Nat

def checkCancel : Cancel → Except String Cancel
  | none => .ok none
  | some 0 => .error "ACP event store cancelled"
  | some (n + 1) => .ok (some n)

def kindByte : RecordKind → UInt8
  | .note => 0
  | .ready => 1
  | .elicitDone => 2
  | .interaction => 3

def kindOf (value : UInt8) : Except String RecordKind :=
  if value = 0 then .ok .note
  else if value = 1 then .ok .ready
  else if value = 2 then .ok .elicitDone
  else if value = 3 then .ok .interaction
  else .error "unknown event store record kind"

/-- The files by segment number; a handle is the number of the segment it was opened on. -/
structure Spool where
  writer : Option Nat
  reader : Option Nat
  tail : Nat
  head : Nat
  tailCommitted : Nat
  readOffset : Nat
  accepted : Nat
  readSequence : Nat
  poisoned : Bool
  files : Nat → Option Bytes

def setFile (files : Nat → Option Bytes) (number : Nat) (file : Option Bytes) : Nat → Option Bytes :=
  fun n => if n = number then file else files n

/-- `create_new`. -/
def newSegment (files : Nat → Option Bytes) (number : Nat) : Except String (Nat → Option Bytes) :=
  match files number with
  | some _ => .error "File exists"
  | none => .ok (setFile files number (some []))

def Spool.create : Spool where
  writer := some 0
  reader := none
  tail := 0
  head := 0
  tailCommitted := 0
  readOffset := 0
  accepted := 0
  readSequence := 0
  poisoned := false
  files := setFile (fun _ => none) 0 (some [])

/-! ### Writing -/

/-- `slice::chunks`, as many as there can be. -/
def chunks (size : Nat) : Nat → Bytes → List Bytes
  | 0, _ => []
  | fuel + 1, bytes => if bytes = [] then [] else bytes.take size :: chunks size fuel (bytes.drop size)

def header (record : Record) : Bytes :=
  MAGIC ++ toBe 8 record.sequence ++ toBe 8 record.payload.length ++ [kindByte record.kind] ++ List.replicate 7 0

/-- A check before each piece; what has been written stays. -/
def writePieces : Cancel → List Bytes → Bytes → Except String Cancel × Bytes
  | cancel, [], file => (.ok cancel, file)
  | cancel, piece :: pieces, file =>
      match checkCancel cancel with
      | .error e => (.error e, file)
      | .ok cancel => writePieces cancel pieces (file ++ piece)

namespace Spool

/-- The old tail is closed before another is opened. -/
def rotate (s : Spool) (nextEnd : Nat) : Except String Unit × Spool :=
  if s.tailCommitted ≠ 0 ∧ SEGMENT_BYTES < nextEnd then
    if u64Max < s.tail + 1 then (.error "event segment index overflow", s)
    else
      match newSegment s.files (s.tail + 1) with
      | .error e => (.error e, { s with writer := none })
      | .ok files =>
          (.ok (), { s with files := files, writer := some (s.tail + 1), tail := s.tail + 1, tailCommitted := 0 })
  else (.ok (), s)

/-- A record becomes readable only after every byte of it is written. -/
def write (s : Spool) (record : Record) (cancel : Cancel) : Except String Unit × Spool :=
  match s.writer with
  | none => (.error "event writer closed", s)
  | some number =>
      let file := (s.files number).getD []
      match writePieces cancel (chunks IO_CHUNK record.payload.length record.payload) (file ++ header record) with
      | (.error e, file) => (.error e, { s with files := setFile s.files number (some file) })
      | (.ok cancel, file) =>
          let s := { s with files := setFile s.files number (some file) }
          match checkCancel cancel with
          | .error e => (.error e, s)
          | .ok _ =>
              (.ok (), { s with
                tailCommitted := s.tailCommitted + (record.payload.length + HEADER_BYTES)
                accepted := record.sequence })

def appendInner (s : Spool) (record : Record) (cancel : Cancel) : Except String Unit × Spool :=
  match checkCancel cancel with
  | .error e => (.error e, s)
  | .ok cancel =>
      if u64Max < s.accepted + 1 ∨ s.accepted + 1 ≠ record.sequence then
        (.error "event store sequence is not contiguous", s)
      else if u64Max < record.payload.length + HEADER_BYTES then (.error "event record size overflow", s)
      else if u64Max < s.tailCommitted + (record.payload.length + HEADER_BYTES) then
        (.error "event segment size overflow", s)
      else
        match s.rotate (s.tailCommitted + (record.payload.length + HEADER_BYTES)) with
        | (.error e, s) => (.error e, s)
        | (.ok (), s) => s.write record cancel

def append (s : Spool) (record : Record) (cancel : Cancel) : Except String Unit × Spool :=
  if s.poisoned then (.error "event store writer is poisoned", s)
  else
    match s.appendInner record cancel with
    | (.error e, s) => (.error e, { s with poisoned := true })
    | (.ok (), s) => (.ok (), s)

end Spool

/-! ### Reading -/

def readExact (file : Bytes) (start count : Nat) : Except String Bytes :=
  let bytes := (file.drop start).take count
  if bytes.length = count then .ok bytes else .error "failed to fill whole buffer"

/-- A check before each piece, at most `size` of them. -/
def readPayload (file : Bytes) (start size : Nat) : Nat → Cancel → Bytes → Except String (Cancel × Bytes)
  | fuel, cancel, payload =>
      if payload.length < size then
        match fuel with
        | 0 => .error "event record size overflow"
        | fuel + 1 => do
            let cancel ← checkCancel cancel
            let more ← readExact file (start + payload.length) (min (size - payload.length) IO_CHUNK)
            readPayload file start size fuel cancel (payload ++ more)
      else .ok (cancel, payload)

/-- The record at an offset of a file that is committed up to `stop`, and its size. -/
def readRecord (file : Bytes) (offset stop readSequence : Nat) (cancel : Cancel) :
    Except String (Record × Nat) := do
  if stop - offset < HEADER_BYTES then .error "incomplete event store header"
  else
    let header ← readExact file offset HEADER_BYTES
    if header.take 8 ≠ MAGIC ∨ (header.drop 25).any (· ≠ 0) then .error "invalid event store header"
    else
      let sequence := fromBe ((header.drop 8).take 8)
      let size := fromBe ((header.drop 16).take 8)
      if u64Max < readSequence + 1 ∨ readSequence + 1 ≠ sequence ∨ stop - offset - HEADER_BYTES < size then
        .error "incomplete or out-of-order event store record"
      else do
        let (cancel, payload) ← readPayload file (offset + HEADER_BYTES) size size cancel []
        let _ ← checkCancel cancel
        let kind ← kindOf (header.getD 24 0)
        .ok (⟨sequence, kind, payload⟩, size)

namespace Spool

/-- The reader's file, which is opened where none is. -/
def openReader (s : Spool) : Except String (Bytes × Spool) :=
  let number := s.reader.getD s.head
  match s.files number with
  | none => .error "No such file or directory"
  | some file => .ok (file, { s with reader := some number })

/-- The turns of the loop, one for each segment that is left behind. -/
def turns : Nat → Spool → Cancel → Except String (Option Record) × Spool
  | fuel, s, cancel =>
      match checkCancel cancel with
      | .error e => (.error e, s)
      | .ok cancel =>
          match s.openReader with
          | .error e => (.error e, s)
          | .ok (file, s) =>
              let stop := if s.head = s.tail then s.tailCommitted else file.length
              if s.readOffset = stop ∧ s.head < s.tail then
                match fuel with
                | 0 => (.error "no segment is left", s)
                | fuel + 1 =>
                    turns fuel { s with
                      reader := none
                      files := setFile s.files s.head none
                      head := s.head + 1
                      readOffset := 0 } cancel
              else
                match readRecord file s.readOffset stop s.readSequence cancel with
                | .error e => (.error e, s)
                | .ok (record, size) =>
                    (.ok (some record), { s with
                      readOffset := s.readOffset + (HEADER_BYTES + size)
                      readSequence := record.sequence })

def next (s : Spool) (cancel : Cancel) : Except String (Option Record) × Spool :=
  match checkCancel cancel with
  | .error e => (.error e, s)
  | .ok cancel =>
      if s.poisoned then (.error "event store writer is poisoned", s)
      else if s.readSequence = s.accepted then (.ok none, s)
      else turns (s.tail - s.head) s cancel

end Spool

end Khor.Acp.EventStore.Disk
