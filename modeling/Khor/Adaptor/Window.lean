/-
Module: Khor.Adaptor.Window
Purpose: Bounded byte windows over an append-only JSONL transcript, with what stands at their edges told
  apart from records that are there whole (crates/node/src/adaptor/transcript_window.rs).
Trusted boundary: the file can be read
Main exports: TranscriptWindow, TranscriptWindow.records, readWindow, readForwardWindow
-/
import Khor.Lib.Pieces

namespace Khor.Adaptor

def SCAN_BYTES : Nat := 256 * 1024

def INLINE_RECORD_BYTES : Nat := 64 * 1024

/-- `Range<u64>`. -/
structure Span where
  start : Nat
  stop : Nat
deriving DecidableEq

structure TranscriptWindow where
  range : Span
  before : Option Nat
  observedLen : Nat
  bytes : List UInt8
  beginsRecord : Bool

inductive Record where
  | inline (range : Span) (bytes : List UInt8)
  | oversized (range : Span)
  | fragment (range : Span) (missingStart missingEnd : Bool)

def isNewline (b : UInt8) : Bool := b = 10

namespace TranscriptWindow

def validate (w : TranscriptWindow) : Except String Unit :=
  if SCAN_BYTES ≤ w.bytes.length ∨ w.range.stop < w.range.start ∨
      w.range.stop - w.range.start ≠ w.bytes.length ∨ w.observedLen < w.range.stop ∨
      w.before ≠ (if 0 < w.range.start then some w.range.start else none) ∨
      (w.range.start = 0 ∧ w.beginsRecord = false) then
    .error "invalid or over-budget transcript window"
  else .ok ()

/-- The piece that stands at a range: whole, too long, or cut by an edge of the window. -/
def record (w : TranscriptWindow) (range : Span) : Record :=
  let line := (w.bytes.drop (range.start - w.range.start)).take (range.stop - range.start)
  let missingStart := decide (range.start = w.range.start) && !w.beginsRecord
  let missingEnd := !(line.getLast?.any isNewline)
  if missingStart || missingEnd then .fragment range missingStart missingEnd
  else if INLINE_RECORD_BYTES < line.length then .oversized range
  else .inline range line

/-- The pieces after each newline. -/
def records (w : TranscriptWindow) : List Record :=
  (ranges isNewline w.range.start w.range.start w.bytes).map fun r => w.record ⟨r.1, r.2⟩

end TranscriptWindow

def readRange (bytes : List UInt8) (observedLen start stop : Nat) : TranscriptWindow :=
  let read := (bytes.drop start).take (stop - start)
  { range := ⟨start, start + read.length⟩
    before := if 0 < start then some start else none
    observedLen := observedLen
    bytes := read
    beginsRecord := decide (start = 0) || bytes[start - 1]?.any isNewline }

/-- `before` is exclusive, and the end of the file where there is none. -/
def readWindow (bytes : List UInt8) (before : Option Nat) : TranscriptWindow :=
  let observedLen := bytes.length
  let stop := min (before.getD observedLen) observedLen
  readRange bytes observedLen (stop - (SCAN_BYTES - 1)) stop

def readForwardWindow (bytes : List UInt8) (from_ : Nat) : TranscriptWindow :=
  let observedLen := bytes.length
  let start := min from_ observedLen
  readRange bytes observedLen start (min (start + (SCAN_BYTES - 1)) observedLen)

end Khor.Adaptor
