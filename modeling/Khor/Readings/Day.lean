/-
Module: Khor.Readings.Day
Purpose: The day record (crates/node/src/day.rs): one byte a minute for each session over the last 24 hours, and the
  change from an earlier copy.
Trusted boundary: JSON text, as a parameter; `min_by_key` of the language; minutes as integers without a bound
Main exports: Day, Day.roll, Day.observe, Day.unavailable, Day.since
-/
import Khor.Lib.Lossy
import Khor.Lib.SortedMap

namespace Khor.Readings

/-- How wide the window is. A day, in minutes. -/
def MINUTES : Nat := 24 * 60

def CELL_MS : Int := 60000

def MAX_ROWS : Nat := 512

/-- `b'-'`: a minute in which nothing sampled. -/
def UNWATCHED : UInt8 := 0x2D

/-- `b'+'`: a minute in which something sampled. -/
def WATCHED : UInt8 := 0x2B

/-- `b'.'`: a sampled minute in which the session had no row. -/
def ABSENT : UInt8 := 0x2E

inductive Word where
  | busy
  | blocked
  | done
  | errored
  | failed
  | idle
deriving DecidableEq

def Word.rank : Word → Nat
  | .blocked => 0
  | .errored => 1
  | .done => 2
  | .busy => 3
  | .idle => 4
  | .failed => 5

def byteOf : Word → UInt8
  | .busy => 0x62
  | .blocked => 0x6B
  | .done => 0x64
  | .errored => 0x65
  | .failed => 0x66
  | .idle => 0x69

def wordOf (byte : UInt8) : Option Word :=
  [Word.busy, .blocked, .done, .errored, .failed, .idle].find? (byteOf · = byte)

/-- The bytes of a string. -/
abbrev Text := List UInt8

/-- A byte for each minute of the window. -/
abbrev Cells := Fin MINUTES → UInt8

/-- The record as it sits on disk and crosses. -/
structure Stored where
  from_ : Int
  watched : Text
  rows : SortedMap String Text

structure Day where
  from_ : Int
  watched : Cells
  rows : SortedMap String Cells

def blank (fill : UInt8) : Cells := fun _ => fill

def minute (nowMs : Int) : Int := nowMs / CELL_MS

def Day.empty (nowMs : Int) : Day where
  from_ := minute nowMs - MINUTES + 1
  watched := blank UNWATCHED
  rows := .empty

/-- A text of another length fits no window. -/
def cellsOf (text : Text) : Option Cells :=
  if fits : text.length = MINUTES then some fun i => text[i] else none

def textOf (cells : Cells) : Text := lossy (List.ofFn cells)

def Day.fromStored (s : Stored) : Option Day :=
  match cellsOf s.watched with
  | none => none
  | some watched =>
      if s.rows.entries.all fun e => e.2.length = MINUTES then
        some { from_ := s.from_, watched, rows := s.rows.mapValues fun text => (cellsOf text).getD (blank ABSENT) }
      else none

def Day.toStored (d : Day) : Stored where
  from_ := d.from_
  watched := textOf d.watched
  rows := d.rows.mapValues textOf

/-- Which slot an absolute minute sits in, if the window covers it. -/
def Day.slot (d : Day) (min : Int) : Option (Fin MINUTES) :=
  if inside : 0 ≤ min - d.from_ ∧ min - d.from_ < MINUTES then
    some ⟨(min - d.from_).toNat, by omega⟩
  else none

def shiftLeft (cells : Cells) (shift : Nat) (fill : UInt8) : Cells :=
  fun i => if inside : i + shift < MINUTES then cells ⟨i + shift, inside⟩ else fill

/-- Some minute has another byte than `ABSENT`. -/
def someSeen (cells : Cells) : Bool := (List.finRange MINUTES).any fun i => cells i ≠ ABSENT

/-- Moves the window so it ends at `nowMin`. -/
def Day.roll (d : Day) (nowMin : Int) : Day :=
  let want := nowMin - MINUTES + 1
  if want ≤ d.from_ then d
  else
    let shift := (want - d.from_).toNat
    if MINUTES ≤ shift then { from_ := want, watched := blank UNWATCHED, rows := .empty }
    else
      { from_ := want
        watched := shiftLeft d.watched shift UNWATCHED
        rows := (d.rows.mapValues fun cells => shiftLeft cells shift ABSENT).retain fun _ cells => someSeen cells }

/-- `rposition` of a byte other than `ABSENT`, from one on; zero if there is none. -/
def lastSeen (cells : Cells) : Nat :=
  (((List.finRange MINUTES).reverse.find? fun i => cells i ≠ ABSENT).map fun i => i.val + 1).getD 0

/-- The row seen longest ago. -/
def Day.stalest (d : Day) : Option String :=
  (d.rows.entries.argmin fun e => toLex (lastSeen e.2, e.1)).map Prod.fst

/-- Drop rows until there is room, `fuel` of them at most. -/
def Day.dropStalest : Nat → Day → Day
  | 0, d => d
  | fuel + 1, d =>
      if d.rows.size < MAX_ROWS then d
      else
        match d.stalest with
        | some id => dropStalest fuel { d with rows := d.rows.erase id }
        | none => d

def Day.makeRoom (d : Day) : Day := dropStalest d.rows.size d

/-- Room for a row that is not there. -/
def Day.roomFor (d : Day) (id : String) : Day :=
  if (d.rows.get id).isSome then d else d.makeRoom

/-- Lay a byte in a row, which begins blank. -/
def Day.lay (d : Day) (i : Fin MINUTES) (id : String) (f : UInt8 → UInt8) : Day :=
  let d := d.roomFor id
  let cells := (d.rows.get id).getD (blank ABSENT)
  { d with rows := d.rows.put id (Function.update cells i (f (cells i))) }

/-- The word that is left of several in one minute. -/
def keep (word : Word) (byte : UInt8) : UInt8 :=
  byteOf <| match wordOf byte with
    | some had => if had.rank ≤ word.rank then had else word
    | none => word

/-- Records one sample: these rows were on the list at `nowMs`. -/
def Day.observe (d : Day) (nowMs : Int) (rows : List (String × Word)) : Day :=
  let d := d.roll (minute nowMs)
  match d.slot (minute nowMs) with
  | none => d
  | some i =>
      rows.foldl (fun d row => d.lay i row.1 (keep row.2)) { d with watched := Function.update d.watched i WATCHED }

/-- The rows exist, but no source could identify their state. -/
def Day.unavailable (d : Day) (nowMs : Int) (ids : List String) : Day :=
  let d := d.roll (minute nowMs)
  match d.slot (minute nowMs) with
  | none => d
  | some i => ids.foldl (fun d id => d.lay i id fun _ => UNWATCHED) d

/-- What crosses instead of the whole record. -/
structure DaySince where
  from_ : Int
  watched : Text
  rows : List (String × Text)

def tailOf (place : Fin MINUTES) (cells : Cells) : Text := lossy ((List.ofFn cells).drop place)

/-- The minutes from `heldEnd` on, if it is in the window. -/
def Day.since (d : Day) (heldEnd : Int) : Option DaySince :=
  (d.slot heldEnd).map fun place =>
    { from_ := d.from_
      watched := tailOf place d.watched
      rows := (d.rows.mapValues (tailOf place)).entries }

/-- Lay a tail over the end of the cells. -/
def layTail (cells : Cells) (tail : Text) : Option Cells :=
  if tail.length ≤ MINUTES then
    some fun i => if i.val < MINUTES - tail.length then cells i else tail.getD (i - (MINUTES - tail.length)) 0
  else none

/-- Each row of the change, on the copy of it that is held or on a blank one. -/
def layRows (held : SortedMap String Cells) : List (String × Text) → SortedMap String Cells →
    Option (SortedMap String Cells)
  | [], rows => some rows
  | (id, tail) :: rest, rows =>
      match layTail ((held.get id).getD (blank ABSENT)) tail with
      | some cells => layRows (held.erase id) rest (rows.put id cells)
      | none => none

/-- The last minute of the window. -/
def Day.last (d : Day) : Int := d.from_ + MINUTES - 1

/-- The copy brought up to date. -/
def Day.applied (held : Day) (since : DaySince) : Option Day :=
  let d := held.roll (since.from_ + MINUTES - 1)
  if d.from_ ≠ since.from_ then none
  else
    match layTail d.watched since.watched, layRows d.rows since.rows .empty with
    | some watched, some rows => some { d with watched, rows }
    | _, _ => none

/-- JSON of a record, and its reading. -/
structure Json (Wire : Type) where
  text : Stored → Wire
  parse : Wire → Option Stored
  parse_text : ∀ s, parse (text s) = some s

/-- A record stands for its own text. -/
def asStored : Json Stored := ⟨fun s => s, some, fun _ => rfl⟩

section Wire

variable {Wire : Type} (json : Json Wire)

def Day.toWire (d : Day) : Wire := json.text d.toStored

/-- Rolled to the reader's clock. -/
def Day.fromWire (text : Wire) (nowMs : Int) : Option Day :=
  ((json.parse text).bind Day.fromStored).map fun d => d.roll (minute nowMs)

def endOfWire (text : Wire) : Option Int := (json.parse text).map fun s => s.from_ + MINUTES - 1

def applySince (held : Wire) (since : DaySince) : Option Wire :=
  (((json.parse held).bind Day.fromStored).bind fun d => d.applied since).map fun d => d.toWire json

end Wire

end Khor.Readings
