/-
Module: Khor.Node.RoadBook
Purpose: What a machine writes about its own roads: the book of what is written and what is waiting to settle, one beat's
  readings of the wires, and the flush of what is due into the device table. One lemma says what a note makes of the
  book.
Trusted boundary: the wires' facts of a beat, the table's rows, and a register's text as a type with a codec; times in
  nanoseconds
Main exports: RoadBook, RoadBook.note, Ripe, rest, note_eq
-/
import Mathlib

namespace Khor.Roads

def SECOND : Nat := 1000000000

/-- How long a new kind of road must hold before it is written. -/
def SETTLE : Nat := 12 * SECOND

/-- The least time between two round-trip writes for one machine. -/
def MS_FLOOR : Nat := 10 * 60 * SECOND

/-- The least a round trip must move, besides a quarter. -/
def MS_LEAST : Nat := 5

/-- How long a road never written must stay `none` before that is written. -/
def FIRST_NONE : Nat := 120 * SECOND

inductive RoadKind where
  | direct
  | relay
  | none
  | ssh
deriving DecidableEq

inductive LegKind where
  | toSponsor
  | toJump
  | jumpToTarget
  | ssh
  | auth
deriving DecidableEq

/-- Which leg of a road broke, its two ends where they are devices, and ssh's own words. -/
structure Leg where
  source : Option String
  target : Option String
  leg : LegKind
  said : Option String
deriving DecidableEq

/-- All of a road but its round trip: what makes a change. -/
structure Kind where
  road : RoadKind
  relay : Option String
  broken : Option Leg
  via : Option String
deriving DecidableEq

/-- What a beat reads off the wire to one machine. -/
structure Seen where
  kind : Kind
  ms : Option UInt16

structure Road where
  target : String
  kind : Kind
  ms : Option UInt16

structure Written where
  kind : Kind
  ms : Option UInt16
  /-- When `ms` was last written, or found in the table. -/
  msAt : Nat

structure Waiting where
  kind : Kind
  since : Nat

/-- What ssh's words said broke on a satellite's last failed sample. -/
inductive Broken where
  | toJump
  | jumpToTarget
  | passwordOnly

structure RoadBook where
  written : String → Option Written
  waiting : String → Option Waiting
  started : Bool
  satBroken : String → Option (Option Broken × Option String)

def difference (a b : UInt16) : Nat := max a.toNat b.toNat - min a.toNat b.toNat

/-- Whether a round trip moved by more than a quarter, and by `MS_LEAST`. -/
def moved : Option UInt16 → Option UInt16 → Bool
  | some was, some ms => decide (was.toNat < 4 * difference was ms) && decide (MS_LEAST ≤ difference was ms)
  | none, some _ => true
  | _, _ => false

namespace RoadBook

def empty : RoadBook := ⟨fun _ => none, fun _ => none, false, fun _ => none⟩

/-- What the book takes over for a machine from the table. -/
def entry (b : RoadBook) (held : String → Option Road) (now : Nat) (name : String) : Option Written :=
  match held name with
  | some r => some ⟨r.kind, r.ms, now⟩
  | none => b.written name

/-- Starts from what the table holds for this machine, once. -/
def startFrom (b : RoadBook) (held : String → Option Road) (now : Nat) : RoadBook :=
  if b.started then b else { b with started := true, written := b.entry held now }

/-- Whether the kind that was seen has now held for `hold`. -/
def settle (b : RoadBook) (name : String) (seen : Seen) (now hold : Nat) : RoadBook × Bool :=
  let wait := { b with waiting := Function.update b.waiting name (some ⟨seen.kind, now⟩) }
  match b.waiting name with
  | some w => if w.kind = seen.kind then (b, decide (hold ≤ now - w.since)) else (wait, false)
  | none => (wait, false)

def wrote (b : RoadBook) (name : String) (seen : Seen) (now : Nat) : RoadBook :=
  { b with
    waiting := Function.update b.waiting name none
    written := Function.update b.written name (some ⟨seen.kind, seen.ms, now⟩) }

/-- One beat's reading of a road; the road to write, when one is due. -/
def note (b : RoadBook) (name : String) (seen : Seen) (now : Nat) : RoadBook × Option Road :=
  let road : Road := ⟨name, seen.kind, seen.ms⟩
  match b.written name with
  | none =>
      let hold := if seen.kind.road = .none then FIRST_NONE else SETTLE
      let (b, held) := b.settle name seen now hold
      if held then (b.wrote name seen now, some road) else (b, none)
  | some w =>
      if w.kind ≠ seen.kind then
        let (b, held) := b.settle name seen now SETTLE
        if held then (b.wrote name seen now, some road) else (b, none)
      else
        let b := { b with waiting := Function.update b.waiting name none }
        if moved w.ms seen.ms ∧ MS_FLOOR ≤ now - w.msAt then (b.wrote name seen now, some road) else (b, none)

/-- No live wire and nothing failed: what was settling starts over from the next reading. -/
def idle (b : RoadBook) (name : String) : RoadBook :=
  { b with waiting := Function.update b.waiting name none }

/-- A satellite's sample came back, or failed with what ssh said. -/
def sampled (b : RoadBook) (sat : String) (failed : Option (Option Broken × Option String)) : RoadBook :=
  { b with satBroken := Function.update b.satBroken sat failed }

end RoadBook

/-- A register's text: a road without its target. -/
structure Codec (Text : Type) where
  toJson : Road → Text
  fromJson : String → Text → Option Road
  back : ∀ road, fromJson road.target (toJson road) = some road

/-- How the table takes the roads of one beat: whether it loads, which changes it takes and whether the flush lands on
disk. -/
structure Table where
  loads : Bool
  sets : Road → Bool
  lands : Bool

section

variable {Text : Type} (c : Codec Text)

abbrev Registers (Text : Type) := String → Option Text

/-- This machine's roads, as the table holds them. -/
def roadsIn (disk : Registers Text) (name : String) : Option Road := (disk name).bind (c.fromJson name)

/-- Every reading of a beat, in order; the roads that are due. -/
def noteAll (now : Nat) : RoadBook → List (String × Option Seen) → RoadBook × List Road
  | b, [] => (b, [])
  | b, (name, none) :: readings => noteAll now (b.idle name) readings
  | b, (name, some seen) :: readings =>
      let (b, due) := b.note name seen now
      let (b, rest) := noteAll now b readings
      (b, due.toList ++ rest)

def setRoad (table : Table) (doc : Registers Text) (road : Road) : Registers Text :=
  if table.sets road then Function.update doc road.target (some (c.toJson road)) else doc

/-- The roads that are due, written in one flush: what is on disk after it. -/
def flush (table : Table) (disk : Registers Text) (due : List Road) : Registers Text :=
  if due.isEmpty then disk
  else if table.loads then
    let doc := due.foldl (setRoad c table) disk
    if table.lands then doc else disk
  else disk

/-- One beat of the book over its readings; `here` where this machine has a row of its own. -/
def beat (b : RoadBook) (disk : Registers Text) (now : Nat) (here : Bool) (readings : List (String × Option Seen))
    (table : Table) : RoadBook × Registers Text :=
  let b := if here then b.startFrom (roadsIn c disk) now else b
  let (b, due) := noteAll now b readings
  (b, flush c table disk due)

end

/-! ### What a beat reads -/

inductive PathKind where
  | direct
  | relay
  | carried
  | unknown
deriving DecidableEq

/-- What the wires say of one machine: the round trip in microseconds, and whether the last attempt failed. -/
structure Link where
  road : Option PathKind
  relay : Option String
  rtt : Option Nat
  down : Bool

structure Row where
  id : String
  sponsor : Option String

/-- Two and a half of the sampler's rounds, in milliseconds. -/
def SAT_FRESH : Nat := 60000 * 5 / 2

def satelliteRoad (me : String) (b : RoadBook) (sat : String) (age : Option Nat) : Option Seen :=
  match age with
  | none => none
  | some age =>
      if age < SAT_FRESH then some ⟨⟨.ssh, none, none, none⟩, none⟩
      else
        let (broke, said) := (b.satBroken sat).getD (none, none)
        let leg : Leg :=
          match broke with
          | some .toJump => ⟨some me, none, .toJump, said⟩
          | some .jumpToTarget => ⟨none, some sat, .jumpToTarget, said⟩
          | some .passwordOnly => ⟨some me, some sat, .auth, said⟩
          | none => ⟨some me, some sat, .ssh, said⟩
        some ⟨⟨.none, none, some leg, none⟩, none⟩

/-- The road to a machine off its wire; through a middle it is the first leg's. -/
def wireRoad (link : String → Link) (hop : String → Option String) (id : String) : Option Seen :=
  let r := link id
  let through := if r.road = some .carried then hop id else none
  let r :=
    match through with
    | some via => { r with road := (link via).road.filter (· ≠ PathKind.carried), relay := (link via).relay }
    | none => r
  let road : Option RoadKind :=
    match r.road with
    | some .direct => some .direct
    | some .relay => some .relay
    | some .carried => if hop id = none then some .ssh else if r.down then some .none else none
    | _ => if r.down then some .none else none
  road.map fun road =>
    let ms := if road = .none then none else r.rtt.map fun t => UInt16.ofNat (min ((t + 999) / 1000) 65535)
    ⟨⟨road, if road = .relay then r.relay else none, none, through⟩, ms⟩

/-- What the sampler and the wires say at one beat. -/
structure Wires where
  age : String → Option Nat
  link : String → Link
  hop : String → Option String

/-- A sponsor's road to each of its satellites, then the wire to each other machine. -/
def readings (me : String) (b : RoadBook) (rows : List Row) (wires : Wires) : List (String × Option Seen) :=
  let sats := rows.filter fun d => d.sponsor = some me
  let others := rows.filter fun d => d.id ≠ me ∧ d.sponsor = none
  sats.map (fun d => (d.id, satelliteRoad me b d.id (wires.age d.id))) ++
    others.map fun d => (d.id, wireRoad wires.link wires.hop d.id)

/-- `Node::note_roads`: nothing where the rows do not load. -/
def noteRoads {Text : Type} (c : Codec Text) (me : String) (b : RoadBook) (disk : Registers Text) (now : Nat)
    (rows : Option (List Row)) (wires : Wires) (table : Table) : RoadBook × Registers Text :=
  match rows with
  | none => (b, disk)
  | some rows => beat c b disk now (rows.any fun d => d.id = me) (readings me b rows wires) table

/-! ### What a note makes of the book -/

namespace RoadBook

variable (b : RoadBook) (name : String) (seen : Seen) (now : Nat)

/-- The kind that is written for a machine. -/
def kind : Option Kind := (b.written name).map Written.kind

/-- How long a reading must hold. -/
def hold : Nat := if b.kind name = none ∧ seen.kind.road = .none then FIRST_NONE else SETTLE

/-- Since when the kind that is seen has been waiting. -/
def since : Nat :=
  match b.waiting name with
  | some w => if w.kind = seen.kind then w.since else now
  | none => now

/-- A reading that is due to be written: another kind that has held, or a round trip that moved long enough after the
last one was written. -/
def Ripe : Prop :=
  (b.kind name ≠ some seen.kind ∧ b.hold name seen ≤ now - b.since name seen now) ∨
    ∃ w, b.written name = some w ∧ w.kind = seen.kind ∧ moved w.ms seen.ms = true ∧ MS_FLOOR ≤ now - w.msAt

/-- A reading that is not due leaves its kind waiting, unless it is the one that is written. -/
def rest : RoadBook :=
  { b with
    waiting := Function.update b.waiting name
      (if b.kind name = some seen.kind then none else some ⟨seen.kind, b.since name seen now⟩) }

theorem hold_pos : 0 < b.hold name seen := by
  unfold hold
  split <;> decide

variable {b name seen now}

/-- Settling is waiting, from the first reading of the kind on. -/
theorem settle_eq {hold : Nat} (some_time : 0 < hold) :
    b.settle name seen now hold =
      ({ b with waiting := Function.update b.waiting name (some ⟨seen.kind, b.since name seen now⟩) },
        decide (hold ≤ now - b.since name seen now)) := by
  have never : decide (hold ≤ now - now) = false := decide_eq_false (by omega)
  unfold settle since
  cases waiting : b.waiting name with
  | none =>
      dsimp only
      rw [never]
  | some w =>
      dsimp only
      split
      · rename_i same
        rw [← same, Function.update_eq_self_iff.mpr waiting.symm]
      · rw [never]

open Classical in
/-- What is due is written, and everything else waits. -/
theorem note_eq :
    b.note name seen now =
      if b.Ripe name seen now then (b.wrote name seen now, some ⟨name, seen.kind, seen.ms⟩)
      else (b.rest name seen now, none) := by
  have twice (v : Option Waiting) :
      ({ b with waiting := Function.update b.waiting name v } : RoadBook).wrote name seen now =
        b.wrote name seen now := by
    rw [wrote, wrote, Function.update_idem]
  have kind_eq {w : Option Written} (is : b.written name = w) : b.kind name = w.map Written.kind := by
    rw [kind, is]
  cases is : b.written name with
  | none =>
      have kind := kind_eq is
      have hold : b.hold name seen = if seen.kind.road = .none then FIRST_NONE else SETTLE := by
        rw [RoadBook.hold, kind]
        simp only [Option.map_none, true_and]
      have other : b.kind name ≠ some seen.kind := by
        rw [kind]
        exact nofun
      have ripe : b.Ripe name seen now ↔ b.hold name seen ≤ now - b.since name seen now := by
        constructor
        · rintro (⟨-, held⟩ | ⟨w, written, -⟩)
          · exact held
          · rw [is] at written
            cases written
        · exact fun held => .inl ⟨other, held⟩
      unfold note
      rw [is]
      dsimp only
      rw [← hold, settle_eq (b.hold_pos name seen)]
      dsimp only
      by_cases held : b.hold name seen ≤ now - b.since name seen now
      · rw [if_pos (ripe.mpr held), decide_eq_true held, if_pos rfl, twice]
      · rw [if_neg (fun due => held (ripe.mp due)), decide_eq_false held, if_neg Bool.false_ne_true, rest,
          if_neg other]
  | some w =>
      have kind := kind_eq is
      by_cases same : w.kind = seen.kind
      · have this_kind : b.kind name = some seen.kind := by rw [kind, ← same]; rfl
        have ripe : b.Ripe name seen now ↔ moved w.ms seen.ms = true ∧ MS_FLOOR ≤ now - w.msAt := by
          constructor
          · rintro (⟨other, -⟩ | ⟨w', written, -, due⟩)
            · exact absurd this_kind other
            · rw [is] at written
              cases written
              exact due
          · exact fun due => .inr ⟨w, is, same, due⟩
        unfold note
        rw [is]
        dsimp only
        rw [if_neg (not_not_intro same)]
        by_cases due : moved w.ms seen.ms = true ∧ MS_FLOOR ≤ now - w.msAt
        · rw [if_pos due, if_pos (ripe.mpr due), twice]
        · rw [if_neg due, if_neg (fun h => due (ripe.mp h)), rest, if_pos this_kind]
      · have other : b.kind name ≠ some seen.kind := by
          rw [kind]
          exact fun is => same (Option.some.inj is)
        have hold : b.hold name seen = SETTLE := by
          rw [RoadBook.hold, kind, if_neg]
          rintro ⟨none, -⟩
          cases none
        have ripe : b.Ripe name seen now ↔ SETTLE ≤ now - b.since name seen now := by
          constructor
          · rintro (⟨-, held⟩ | ⟨w', written, this, -⟩)
            · rw [hold] at held
              exact held
            · rw [is] at written
              cases written
              exact absurd this same
          · exact fun held => .inl ⟨other, hold ▸ held⟩
        unfold note
        rw [is]
        dsimp only
        rw [if_pos same, settle_eq (by decide)]
        dsimp only
        by_cases held : SETTLE ≤ now - b.since name seen now
        · rw [if_pos (ripe.mpr held), decide_eq_true held, if_pos rfl, twice]
        · rw [if_neg (fun due => held (ripe.mp due)), decide_eq_false held, if_neg Bool.false_ne_true, rest,
            if_neg other]

theorem note_ripe (due : b.Ripe name seen now) :
    b.note name seen now = (b.wrote name seen now, some ⟨name, seen.kind, seen.ms⟩) := by
  rw [note_eq, if_pos due]

theorem note_rest (wait : ¬ b.Ripe name seen now) : b.note name seen now = (b.rest name seen now, none) := by
  rw [note_eq, if_neg wait]

end RoadBook

end Khor.Roads
