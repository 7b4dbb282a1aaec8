/-
Module: Khor.Node.RoadBookRuns
Purpose: Runs of the road book: beats at times that do not fall back, with any readings, a table that may fail to load, to
  change or to flush. Where no beat fails that has a road to write, what is written had held, writes are apart, and a
  road that keeps being read is in the table; a road whose flush failed is never written again.
Trusted boundary: nobody else writes this machine's registers
Main exports: World, Inv, Inv.read, roads_sparing, lost_road
-/
import Khor.Lib.Runs
import Khor.Node.RoadBook

namespace Khor.Roads

/-- One road the book handed out: the kind written before it, since when its kind was the only one read, and the road the
table held where the book had started from it. -/
structure Write where
  moment : Nat
  road : Road
  was : Option Kind
  since : Nat
  before : Option Road

/-- A kind that was read without interruption. -/
structure Spell where
  kind : Kind
  since : Nat
  last : Nat

/-- The spell of a machine after one more reading. -/
def heard (spell : Option Spell) (kind : Kind) (now : Nat) : Spell :=
  match spell with
  | some s => if s.kind = kind then ⟨kind, s.since, now⟩ else ⟨kind, now, now⟩
  | none => ⟨kind, now, now⟩

/-- The book in the middle of a beat, with a table that takes every road at once. -/
structure Ledger (Text : Type) where
  book : RoadBook
  table : Registers Text
  spell : String → Option Spell
  log : List Write

/-- The book and the table on disk between beats. The rest are ghosts: the time, what has been read without interruption,
and every road handed out, the newest first. -/
structure World (Text : Type) where
  book : RoadBook
  disk : Registers Text
  now : Nat
  spell : String → Option Spell
  log : List Write

inductive Event where
  | beat (now : Nat) (here : Bool) (readings : List (String × Option Seen)) (table : Table)
  | sampled (sat : String) (failed : Option (Option Broken × Option String))

section

variable {Text : Type} (c : Codec Text)

def read (now : Nat) (l : Ledger Text) : String × Option Seen → Ledger Text
  | (name, none) => { l with book := l.book.idle name, spell := Function.update l.spell name none }
  | (name, some seen) =>
      let s := heard (l.spell name) seen.kind now
      let spell := Function.update l.spell name (some s)
      match l.book.note name seen now with
      | (b, none) => { l with book := b, spell := spell }
      | (b, some road) =>
          { book := b
            table := Function.update l.table name (some (c.toJson road))
            spell := spell
            log := ⟨now, road, l.book.kind name, s.since,
              if l.book.started then roadsIn c l.table name else none⟩ :: l.log }

namespace World

def start (disk : Registers Text) : World Text := ⟨.empty, disk, 0, fun _ => none, []⟩

/-- The book at the beginning of a beat's readings. -/
def opened (w : World Text) (now : Nat) (here : Bool) : RoadBook :=
  if here then w.book.startFrom (roadsIn c w.disk) now else w.book

def ledger (w : World Text) (now : Nat) (here : Bool) (readings : List (String × Option Seen)) : Ledger Text :=
  readings.foldl (read c now) ⟨w.opened c now here, w.disk, w.spell, w.log⟩

def step (w : World Text) : Event → World Text
  | .beat now here readings table =>
      let (book, disk) := Roads.beat c w.book w.disk now here readings table
      let l := w.ledger c now here readings
      ⟨book, disk, now, l.spell, l.log⟩
  | .sampled sat failed => { w with book := w.book.sampled sat failed }

/-- Time does not fall back. -/
def May (w : World Text) : Event → Prop
  | .beat now .. => w.now ≤ now
  | .sampled .. => True

/-- Where a reading is due at its beat, the table loads, takes the change and is flushed. -/
def Kept (w : World Text) : Event → Prop
  | .beat now here readings table =>
      (∃ name seen, (name, some seen) ∈ readings ∧ (w.opened c now here).Ripe name seen now) →
        table.loads = true ∧ (∀ road, table.sets road = true) ∧ table.lands = true
  | .sampled .. => True

/-- The beat that `note_roads` makes, on rows that load. -/
def noted (w : World Text) (me : String) (now : Nat) (rows : List Row) (wires : Wires) (table : Table) : Event :=
  .beat now (rows.any fun d => d.id = me) (Roads.readings me w.book rows wires) table

/-- **Calls of `note_roads` are a run**: each is a beat, or does nothing where the rows do not load. -/
theorem noteRoads_runs {w w₀ : World Text} (run : Runs (step c) (fun w e => w.May e ∧ w.Kept c e) w₀ w) {me : String}
    {now : Nat} {rows : Option (List Row)} {wires : Wires} {table : Table} (later : w.now ≤ now)
    (kept : ∀ all, rows = some all → w.Kept c (w.noted me now all wires table)) :
    ∃ w', Runs (step c) (fun w e => w.May e ∧ w.Kept c e) w₀ w' ∧
      noteRoads c me w.book w.disk now rows wires table = (w'.book, w'.disk) := by
  cases rows with
  | none => exact ⟨w, run, rfl⟩
  | some all => exact ⟨_, run.tail ⟨w.noted me now all wires table, ⟨later, kept all rfl⟩, rfl⟩, rfl⟩

end World

end

/-- How long any reading of a kind has to hold at most. -/
def Kind.hold (k : Kind) : Nat := if k.road = .none then FIRST_NONE else SETTLE

/-- The roads handed out: each kind had held before it replaced another, two for one machine are apart, the longer where
the kind is the same, and none repeats the one before it or what the table held. -/
structure Sparing (log : List Write) : Prop where
  honest : ∀ e ∈ log, e.was ≠ some e.road.kind →
    e.since + (if e.was = none ∧ e.road.kind.road = .none then FIRST_NONE else SETTLE) ≤ e.moment
  apart : log.Pairwise fun e e' => e'.road.target = e.road.target → e'.moment + SETTLE ≤ e.moment
  follows : ∀ newer e older e', log = newer ++ e :: older →
    older.find? (fun x => x.road.target = e.road.target) = some e' →
      e'.road ≠ e.road ∧ (e'.road.kind = e.road.kind → e'.moment + MS_FLOOR ≤ e.moment)
  fresh : ∀ e ∈ log, e.before ≠ some e.road

section

variable {Text : Type} (c : Codec Text)

/-- The written road of a machine and the road in a table are one. -/
def Same (w : Written) (r : Road) : Prop := r.kind = w.kind ∧ r.ms = w.ms

/-- The book against the table, the readings and its own writes. -/
structure Inv (now : Nat) (l : Ledger Text) : Prop where
  waits : ∀ name w, l.book.waiting name = some w → ∃ last, l.spell name = some ⟨w.kind, w.since, last⟩
  reads : ∀ name s, l.spell name = some s →
    l.book.kind name = some s.kind ∨ l.book.waiting name = some ⟨s.kind, s.since⟩ ∧ s.last - s.since < s.kind.hold
  stands : ∀ name w, l.book.written name = some w → ∃ r, roadsIn c l.table name = some r ∧ Same w r
  started : l.book.started = true → ∀ name r, roadsIn c l.table name = some r →
    ∃ w, l.book.written name = some w ∧ Same w r
  after : ∀ e ∈ l.log, e.moment ≤ now ∧ (∀ w, l.book.waiting e.road.target = some w → e.moment ≤ w.since) ∧
    ∃ w, l.book.written e.road.target = some w ∧ e.moment ≤ w.msAt
  newest : ∀ name e, l.log.find? (fun x => x.road.target = name) = some e →
    ∃ w, l.book.written name = some w ∧ Same w e.road
  sparing : Sparing l.log

variable {c}

variable {now : Nat} {l : Ledger Text} {b : RoadBook} {name : String} {seen : Seen}

theorem Inv.later {now' : Nat} (inv : Inv c now l) (le : now ≤ now') : Inv c now' l :=
  { inv with after := fun e isIn => ⟨Nat.le_trans (inv.after e isIn).1 le, (inv.after e isIn).2⟩ }

theorem moved_ne {was ms : Option UInt16} (h : moved was ms = true) : was ≠ ms := by
  rintro rfl
  cases was with
  | none => cases h
  | some ms =>
      have none : difference ms ms = 0 := by
        rw [difference, Nat.max_self, Nat.min_self, Nat.sub_self]
      rw [moved, none, Bool.and_eq_true] at h
      exact absurd h.2 (by decide)

theorem RoadBook.kind_of_written {w : Written} (is : b.written name = some w) : b.kind name = some w.kind := by
  rw [RoadBook.kind, is]
  rfl

/-- A road that is due replaces another kind that had been waiting so long, or the same one with another round trip. -/
theorem ripe_cases (due : b.Ripe name seen now) :
    (b.kind name ≠ some seen.kind ∧ ∃ since, b.waiting name = some ⟨seen.kind, since⟩ ∧
        since + b.hold name seen ≤ now) ∨
      ∃ w, b.written name = some w ∧ w.kind = seen.kind ∧ w.ms ≠ seen.ms ∧ w.msAt + MS_FLOOR ≤ now := by
  obtain ⟨other, held⟩ | ⟨w, is, same, moved, floor⟩ := due
  · left
    have some_time := b.hold_pos name seen
    unfold RoadBook.since at held
    split at held
    · rename_i w waiting
      split at held
      · rename_i same
        exact ⟨other, w.since, same ▸ waiting, by omega⟩
      · omega
    · omega
  · have some_time : 0 < MS_FLOOR := by decide
    exact .inr ⟨w, is, same, moved_ne moved, by omega⟩

/-- What is due is never what is written. -/
theorem Same.not_due (due : b.Ripe name seen now) {w : Written} (is : b.written name = some w) {r : Road}
    (same : Same w r) : r ≠ ⟨name, seen.kind, seen.ms⟩ := by
  rintro rfl
  obtain ⟨other, -⟩ | ⟨w', is', -, moved, -⟩ := ripe_cases due
  · exact other (b.kind_of_written is ▸ congrArg some same.1.symm)
  · rw [is] at is'
    cases is'
    exact moved same.2.symm

theorem settle_le_hold (b : RoadBook) (name : String) (seen : Seen) : SETTLE ≤ b.hold name seen := by
  unfold RoadBook.hold
  split <;> decide

theorem hold_le (b : RoadBook) (name : String) (seen : Seen) : b.hold name seen ≤ seen.kind.hold := by
  unfold RoadBook.hold Kind.hold
  split
  · rename_i first
    exact Nat.le_of_eq (if_pos first.2).symm
  · split <;> decide

/-! ### Every reading -/

theorem Inv.idle (inv : Inv c now l) (name : String) : Inv c now (read c now l (name, none)) where
  waits := by
    intro other w waiting
    by_cases same : other = name
    · subst same
      simp only [read, RoadBook.idle, Function.update_self] at waiting
      cases waiting
    · simp only [read, RoadBook.idle, Function.update_of_ne same] at waiting ⊢
      exact inv.waits other w waiting
  reads := by
    intro other s spell
    by_cases same : other = name
    · subst same
      simp only [read, Function.update_self] at spell
      cases spell
    · simp only [read, RoadBook.idle, Function.update_of_ne same] at spell ⊢
      exact inv.reads other s spell
  stands := inv.stands
  started := inv.started
  after := by
    intro e isIn
    obtain ⟨past, waits, writes⟩ := inv.after e isIn
    refine ⟨past, ?_, writes⟩
    intro w waiting
    by_cases same : e.road.target = name
    · simp only [read, RoadBook.idle, same, Function.update_self] at waiting
      cases waiting
    · simp only [read, RoadBook.idle, Function.update_of_ne same] at waiting
      exact waits w waiting
  newest := inv.newest
  sparing := inv.sparing

theorem read_rest (wait : ¬ l.book.Ripe name seen now) : read c now l (name, some seen) =
      { l with
        book := l.book.rest name seen now
        spell := Function.update l.spell name (some (heard (l.spell name) seen.kind now)) } := by
  rw [read, RoadBook.note_rest wait]

theorem read_ripe (due : l.book.Ripe name seen now) : read c now l (name, some seen) =
      { book := l.book.wrote name seen now
        table := Function.update l.table name (some (c.toJson ⟨name, seen.kind, seen.ms⟩))
        spell := Function.update l.spell name (some (heard (l.spell name) seen.kind now))
        log := ⟨now, ⟨name, seen.kind, seen.ms⟩, l.book.kind name, (heard (l.spell name) seen.kind now).since,
          if l.book.started then roadsIn c l.table name else none⟩ :: l.log } := by
  rw [read, RoadBook.note_ripe due]

theorem heard_kind (spell : Option Spell) (kind : Kind) (now : Nat) : (heard spell kind now).kind = kind := by
  unfold heard
  split
  · split <;> rfl
  · rfl

theorem heard_eq (spell : Option Spell) (kind : Kind) (now : Nat) :
    heard spell kind now = ⟨kind, (heard spell kind now).since, now⟩ := by
  unfold heard
  split
  · split <;> rfl
  · rfl

/-- Where another kind is written, a kind has been waiting as long as it has been read. -/
theorem Inv.since_eq {now : Nat} {l : Ledger Text} (inv : Inv c now l) {name : String} {seen : Seen}
    (other : l.book.kind name ≠ some seen.kind) :
    (heard (l.spell name) seen.kind now).since = l.book.since name seen now := by
  unfold heard RoadBook.since
  cases spell : l.spell name with
  | none =>
      cases waiting : l.book.waiting name with
      | none => rfl
      | some w =>
          obtain ⟨last, is⟩ := inv.waits name w waiting
          rw [spell] at is
          cases is
  | some s =>
      dsimp only
      by_cases same : s.kind = seen.kind
      · obtain written | ⟨waiting, -⟩ := inv.reads name s spell
        · exact absurd (same ▸ written) other
        · rw [if_pos same, waiting]
          dsimp only
          rw [if_pos same]
      · rw [if_neg same]
        cases waiting : l.book.waiting name with
        | none => rfl
        | some w =>
            obtain ⟨last, is⟩ := inv.waits name w waiting
            rw [spell] at is
            cases is
            dsimp only
            rw [if_neg same]

theorem Inv.rest (inv : Inv c now l) (wait : ¬ l.book.Ripe name seen now) :
    Inv c now (read c now l (name, some seen)) := by
  have spell_eq (other : l.book.kind name ≠ some seen.kind) :
      heard (l.spell name) seen.kind now = ⟨seen.kind, l.book.since name seen now, now⟩ := by
    rw [← inv.since_eq other]
    exact heard_eq (l.spell name) seen.kind now
  rw [read_rest wait]
  refine ⟨?_, ?_, inv.stands, inv.started, ?_, inv.newest, inv.sparing⟩
  · intro other w waiting
    by_cases same : other = name
    · subst same
      simp only [RoadBook.rest, Function.update_self] at waiting ⊢
      split at waiting
      · cases waiting
      · rename_i differs
        cases waiting
        exact ⟨now, congrArg some (spell_eq differs)⟩
    · simp only [RoadBook.rest, Function.update_of_ne same] at waiting ⊢
      exact inv.waits other w waiting
  · intro other s spell
    by_cases same : other = name
    · subst same
      simp only [Function.update_self] at spell
      cases spell
      by_cases written : l.book.kind other = some seen.kind
      · left
        rw [heard_kind]
        exact written
      · right
        rw [spell_eq written]
        simp only [RoadBook.rest, Function.update_self, if_neg written, true_and]
        refine Nat.lt_of_lt_of_le ?_ (hold_le l.book other seen)
        exact Nat.lt_of_not_le fun held => wait (.inl ⟨written, held⟩)
    · simp only [RoadBook.rest, Function.update_of_ne same] at spell ⊢
      exact inv.reads other s spell
  · intro e isIn
    obtain ⟨past, waits, writes⟩ := inv.after e isIn
    refine ⟨past, ?_, writes⟩
    intro w waiting
    by_cases same : e.road.target = name
    · simp only [RoadBook.rest, same, Function.update_self] at waiting
      split at waiting
      · cases waiting
      · cases waiting
        unfold RoadBook.since
        split
        · rename_i w is
          split
          · exact waits w (same ▸ is)
          · exact past
        · exact past
    · simp only [RoadBook.rest, Function.update_of_ne same] at waiting
      exact waits w waiting

/-- What a road that is due comes after. -/
theorem Inv.sparing_cons (inv : Inv c now l) (due : l.book.Ripe name seen now) :
    Sparing (⟨now, ⟨name, seen.kind, seen.ms⟩, l.book.kind name, (heard (l.spell name) seen.kind now).since,
      if l.book.started then roadsIn c l.table name else none⟩ :: l.log) where
  honest := by
    intro e isIn other
    obtain rfl | old := List.mem_cons.mp isIn
    · obtain ⟨-, since, waiting, held⟩ | ⟨w, is, same, -⟩ := ripe_cases due
      · have eq : (heard (l.spell name) seen.kind now).since = since := by
          rw [inv.since_eq other, RoadBook.since, waiting]
          exact if_pos rfl
        dsimp only
        rw [eq]
        exact held
      · exact absurd (same ▸ RoadBook.kind_of_written is) other
    · exact inv.sparing.honest e old other
  apart := by
    refine List.pairwise_cons.mpr ⟨?_, inv.sparing.apart⟩
    rintro e isIn rfl
    obtain ⟨-, waits, w, written, before⟩ := inv.after e isIn
    obtain ⟨-, since, waiting, held⟩ | ⟨w', is, -, -, floor⟩ := ripe_cases due
    · have after : e.moment ≤ since := waits _ waiting
      have long := settle_le_hold l.book e.road.target seen
      dsimp only
      omega
    · rw [written] at is
      cases is
      have : SETTLE ≤ MS_FLOOR := by decide
      dsimp only
      omega
  follows := by
    intro newer e older e' is found
    cases newer with
    | nil =>
        cases is
        obtain ⟨w, written, same⟩ := inv.newest name e' found
        refine ⟨same.not_due due written, ?_⟩
        intro again
        obtain ⟨other, -⟩ | ⟨w', is, -, -, floor⟩ := ripe_cases due
        · exact absurd (RoadBook.kind_of_written written ▸ congrArg some (same.1.symm.trans again)) other
        · rw [written] at is
          cases is
          have target : e'.road.target = name := by simpa using List.find?_some found
          obtain ⟨-, -, w', written', before⟩ := inv.after e' (List.mem_of_find?_eq_some found)
          rw [target, written] at written'
          cases written'
          dsimp only
          omega
    | cons first rest => exact inv.sparing.follows rest e older e' (List.cons.inj is).2 found
  fresh := by
    intro e isIn
    obtain rfl | old := List.mem_cons.mp isIn
    · dsimp only
      split
      · rename_i started
        intro is
        obtain ⟨w, written, same⟩ := inv.started started name _ is
        exact same.not_due due written rfl
      · exact nofun
    · exact inv.sparing.fresh e old

theorem Inv.wrote (inv : Inv c now l) (due : l.book.Ripe name seen now) :
    Inv c now (read c now l (name, some seen)) := by
  have sparing := inv.sparing_cons due
  have lands : roadsIn c (Function.update l.table name (some (c.toJson ⟨name, seen.kind, seen.ms⟩))) name =
      some ⟨name, seen.kind, seen.ms⟩ := by
    rw [roadsIn, Function.update_self]
    exact c.back ⟨name, seen.kind, seen.ms⟩
  have kept {other : String} (differs : other ≠ name) {text : Option Text} :
      roadsIn c (Function.update l.table name text) other = roadsIn c l.table other := by
    rw [roadsIn, Function.update_of_ne differs, roadsIn]
  rw [read_ripe due]
  refine ⟨?_, ?_, ?_, ?_, ?_, ?_, sparing⟩
  · intro other w waiting
    by_cases same : other = name
    · subst same
      simp only [RoadBook.wrote, Function.update_self] at waiting
      cases waiting
    · simp only [RoadBook.wrote, Function.update_of_ne same] at waiting ⊢
      exact inv.waits other w waiting
  · intro other s spell
    by_cases same : other = name
    · subst same
      simp only [Function.update_self] at spell
      cases spell
      left
      rw [heard_kind, RoadBook.kind, RoadBook.wrote]
      simp only [Function.update_self, Option.map_some]
    · simp only [RoadBook.wrote, RoadBook.kind, Function.update_of_ne same] at spell ⊢
      exact inv.reads other s spell
  · intro other w written
    by_cases same : other = name
    · subst same
      simp only [RoadBook.wrote, Function.update_self] at written
      cases written
      exact ⟨_, lands, rfl, rfl⟩
    · simp only [RoadBook.wrote, Function.update_of_ne same] at written
      dsimp only
      rw [kept same]
      exact inv.stands other w written
  · intro started other r is
    by_cases same : other = name
    · subst same
      dsimp only at is
      rw [lands] at is
      cases is
      exact ⟨_, Function.update_self _ _ _, rfl, rfl⟩
    · dsimp only at is
      rw [kept same] at is
      simp only [RoadBook.wrote, Function.update_of_ne same]
      exact inv.started started other r is
  · intro e isIn
    obtain rfl | old := List.mem_cons.mp isIn
    · refine ⟨Nat.le_refl _, ?_, _, Function.update_self _ _ _, Nat.le_refl _⟩
      intro w waiting
      simp only [RoadBook.wrote, Function.update_self] at waiting
      cases waiting
    · obtain ⟨past, waits, writes⟩ := inv.after e old
      by_cases same : e.road.target = name
      · refine ⟨past, ?_, ?_⟩
        · intro w waiting
          simp only [RoadBook.wrote, same, Function.update_self] at waiting
          cases waiting
        · simp only [RoadBook.wrote, same, Function.update_self]
          exact ⟨_, rfl, past⟩
      · simp only [RoadBook.wrote, Function.update_of_ne same]
        exact ⟨past, waits, writes⟩
  · intro other e found
    rw [List.find?_cons] at found
    split at found
    · rename_i same
      cases found
      simp only [decide_eq_true_eq] at same
      subst same
      exact ⟨_, Function.update_self _ _ _, rfl, rfl⟩
    · rename_i differs
      simp only [decide_eq_false_iff_not] at differs
      simp only [RoadBook.wrote, Function.update_of_ne (Ne.symm differs)]
      exact inv.newest other e found

theorem Inv.read (inv : Inv c now l) (reading : String × Option Seen) : Inv c now (Roads.read c now l reading) := by
  obtain ⟨name, seen⟩ := reading
  cases seen with
  | none => exact inv.idle name
  | some seen =>
      by_cases due : l.book.Ripe name seen now
      · exact inv.wrote due
      · exact inv.rest due

theorem Inv.readings (readings : List (String × Option Seen)) (inv : Inv c now l) :
    Inv c now (readings.foldl (Roads.read c now) l) := by
  induction readings generalizing l with
  | nil => exact inv
  | cons reading readings ih => exact ih (inv.read reading)

/-! ### A whole beat -/

theorem Inv.startFrom (inv : Inv c now l) :
    Inv c now { l with book := l.book.startFrom (roadsIn c l.table) now } := by
  unfold RoadBook.startFrom
  split
  · exact inv
  · have starts (name : String) (w : Written) (is : l.book.entry (roadsIn c l.table) now name = some w) :
        ∃ r, roadsIn c l.table name = some r ∧ Same w r := by
      unfold RoadBook.entry at is
      split at is
      · rename_i r held
        cases is
        exact ⟨r, held, rfl, rfl⟩
      · exact inv.stands name w is
    -- what was written before the book started is in the table, so starting changes no kind
    have keeps (name : String) (w : Written) (is : l.book.written name = some w) :
        ∃ w', l.book.entry (roadsIn c l.table) now name = some w' ∧ w'.kind = w.kind ∧ w'.ms = w.ms ∧
          w'.msAt = now := by
      obtain ⟨r, held, kind, ms⟩ := inv.stands name w is
      rw [RoadBook.entry, held]
      exact ⟨_, rfl, kind, ms, rfl⟩
    refine ⟨inv.waits, ?_, starts, ?_, ?_, ?_, inv.sparing⟩
    · intro name s spell
      refine (inv.reads name s spell).imp_left fun written => ?_
      obtain ⟨w, is, kind⟩ := Option.map_eq_some_iff.mp written
      obtain ⟨w', is', kind', -, -⟩ := keeps name w is
      rw [RoadBook.kind]
      dsimp only
      rw [is', Option.map_some, kind', kind]
    · intro _ name r held
      dsimp only at held ⊢
      rw [RoadBook.entry, held]
      exact ⟨_, rfl, rfl, rfl⟩
    · intro e isIn
      obtain ⟨past, waits, w, is, before⟩ := inv.after e isIn
      obtain ⟨w', is', -, -, time⟩ := keeps _ w is
      refine ⟨past, waits, w', is', ?_⟩
      omega
    · intro name e found
      obtain ⟨w, is, kind, ms⟩ := inv.newest name e found
      obtain ⟨w', is', kind', ms', -⟩ := keeps _ w is
      exact ⟨w', is', kind.trans kind'.symm, ms.trans ms'.symm⟩

/-- The ledger's book and table are those of the beat, whose roads the table takes at once. -/
theorem readings_eq (now : Nat) (table : Table) (sets : ∀ road, table.sets road = true)
    (readings : List (String × Option Seen)) (l : Ledger Text) :
    (readings.foldl (read c now) l).book = (noteAll now l.book readings).1 ∧
      (readings.foldl (read c now) l).table = (noteAll now l.book readings).2.foldl (setRoad c table) l.table := by
  induction readings generalizing l with
  | nil => exact ⟨rfl, rfl⟩
  | cons reading readings ih =>
      obtain ⟨name, seen⟩ := reading
      rw [List.foldl_cons]
      obtain ⟨book, same⟩ := ih (read c now l (name, seen))
      rw [book, same]
      cases seen with
      | none => exact ⟨rfl, rfl⟩
      | some seen =>
          by_cases due : l.book.Ripe name seen now
          · rw [read_ripe due, noteAll, RoadBook.note_ripe due]
            dsimp only
            rw [Option.toList_some, List.singleton_append, List.foldl_cons, setRoad, sets, if_pos rfl]
            exact ⟨rfl, rfl⟩
          · rw [read_rest due, noteAll, RoadBook.note_rest due]
            exact ⟨rfl, rfl⟩

/-- What is due after a reading that was not was due before it. -/
theorem ripe_of_waiting {other : String} {w : Option Waiting}
    (fresh : ∀ since, w = some ⟨seen.kind, since⟩ → other = name → since = b.since name seen now)
    (due : ({ b with waiting := Function.update b.waiting name w } : RoadBook).Ripe other seen now) :
    b.Ripe other seen now := by
  obtain ⟨differs, held⟩ | same := due
  · refine .inl ⟨differs, Nat.le_trans held (Nat.le_of_eq ?_)⟩
    by_cases eq : other = name
    · subst eq
      have some_time := b.hold_pos other seen
      have held : b.hold other seen ≤ now - RoadBook.since { b with waiting := Function.update b.waiting other w }
        other seen now := held
      simp only [RoadBook.since, Function.update_self] at held ⊢
      cases w with
      | none =>
          dsimp only at held
          omega
      | some w =>
          dsimp only at held ⊢
          by_cases kind : w.kind = seen.kind
          · rw [if_pos kind]
            rw [fresh w.since (by rw [← kind]) rfl]
            rfl
          · rw [if_neg kind] at held
            omega
    · simp only [RoadBook.since, Function.update_of_ne eq]
  · exact .inr same

/-- Where nothing is due before the readings of a beat, nothing is after them. -/
theorem noteAll_nil (readings : List (String × Option Seen))
    (none_due : ∀ name seen, (name, some seen) ∈ readings → ¬ b.Ripe name seen now) :
    (noteAll now b readings).2 = [] := by
  induction readings generalizing b with
  | nil => rfl
  | cons reading readings ih =>
      obtain ⟨name, seen⟩ := reading
      cases seen with
      | none =>
          rw [noteAll]
          refine ih fun other seen isIn due => none_due other seen (.tail _ isIn) ?_
          refine ripe_of_waiting ?_ due
          rintro _ ⟨⟩
      | some seen =>
          have wait := none_due name seen (.head _)
          rw [noteAll, RoadBook.note_rest wait]
          dsimp only
          rw [Option.toList_none, List.nil_append]
          refine ih fun other seen' isIn due => none_due other seen' (.tail _ isIn) ?_
          refine ripe_of_waiting ?_ due
          intro since is _
          split at is
          · cases is
          · obtain ⟨kind, time⟩ : seen.kind = seen'.kind ∧ b.since name seen now = since := by simpa using is
            rw [← time, RoadBook.since, RoadBook.since, kind]

/-- A beat that fails nowhere with a road to write leaves on disk what the ledger took. -/
theorem disk_eq {w : World Text} {here : Bool} {readings : List (String × Option Seen)} {table : Table}
    (kept : w.Kept c (.beat now here readings table)) :
    (w.step c (.beat now here readings table)).book = (w.ledger c now here readings).book ∧
      (w.step c (.beat now here readings table)).disk = (w.ledger c now here readings).table := by
  have all := readings_eq (c := c) now ⟨true, fun _ => true, true⟩ (fun _ => rfl) readings
    ⟨w.opened c now here, w.disk, w.spell, w.log⟩
  refine ⟨all.1.symm, ?_⟩
  refine Eq.trans ?_ all.2.symm
  change flush c table w.disk (noteAll now (w.opened c now here) readings).2 = _
  by_cases any : ∃ name seen, (name, some seen) ∈ readings ∧ (w.opened c now here).Ripe name seen now
  · obtain ⟨loads, sets, lands⟩ := kept any
    have same : setRoad c table = setRoad c ⟨true, fun _ => true, true⟩ := by
      funext doc road
      rw [setRoad, setRoad, sets]
    unfold flush
    rw [loads, lands, same]
    cases (noteAll now (w.opened c now here) readings).2 <;> rfl
  · have nothing := noteAll_nil readings fun name seen isIn due => any ⟨name, seen, isIn, due⟩
    dsimp only
    rw [nothing]
    rfl

/-- The invariant between beats. -/
def World.Inv (c : Codec Text) (w : World Text) : Prop := Roads.Inv c w.now ⟨w.book, w.disk, w.spell, w.log⟩

theorem World.Inv.start (disk : Registers Text) : World.Inv c (World.start disk) where
  waits := fun _ _ is => nomatch is
  reads := fun _ _ is => nomatch is
  stands := fun _ _ is => nomatch is
  started := fun is => nomatch is
  after := fun _ isIn => nomatch isIn
  newest := fun _ _ is => nomatch is
  sparing :=
    { honest := fun _ isIn => nomatch isIn
      apart := .nil
      follows := fun newer _ _ _ is => by cases newer <;> cases is
      fresh := fun _ isIn => nomatch isIn }

theorem World.Inv.step {w : World Text} {e : Event} (may : w.May e ∧ w.Kept c e) (inv : World.Inv c w) :
    World.Inv c (w.step c e) := by
  obtain ⟨may, kept⟩ := may
  cases e with
  | sampled sat failed => exact ⟨inv.waits, inv.reads, inv.stands, inv.started, inv.after, inv.newest, inv.sparing⟩
  | beat now here readings table =>
      have opened : Roads.Inv c now ⟨w.opened c now here, w.disk, w.spell, w.log⟩ := by
        have later := Inv.later inv may
        unfold World.opened
        split
        · exact later.startFrom
        · exact later
      have read := opened.readings readings
      obtain ⟨book, disk⟩ := disk_eq kept
      unfold World.Inv
      rw [book, disk]
      exact read

/-- Where no beat fails with a road to write, the roads handed out are sparing and honest, and a kind that was read long
enough without interruption is in the table on disk. -/
theorem roads_sparing (disk : Registers Text) (w : World Text)
    (run : Runs (World.step c) (fun w e => w.May e ∧ w.Kept c e) (World.start disk) w) :
    Sparing w.log ∧
      ∀ name s, w.spell name = some s → s.since + s.kind.hold ≤ s.last →
        ∃ r, roadsIn c w.disk name = some r ∧ r.kind = s.kind := by
  have inv : World.Inv c w := run.invariant World.Inv.step (World.Inv.start disk)
  refine ⟨inv.sparing, ?_⟩
  intro name s spell long
  obtain written | ⟨-, short⟩ := inv.reads name s spell
  · obtain ⟨wr, is, kind⟩ := Option.map_eq_some_iff.mp written
    obtain ⟨r, there, same⟩ := inv.stands name wr is
    exact ⟨r, there, same.1.trans kind⟩
  · omega

end

/-! ### A road that is lost -/

/-- A register that holds the road itself. -/
def plain : Codec (Kind × Option UInt16) where
  toJson road := (road.kind, road.ms)
  fromJson name text := some ⟨name, text.1, text.2⟩
  back _ := rfl

def direct : Seen := ⟨⟨.direct, none, none, none⟩, none⟩

/-- A beat that reads a direct wire to `a`, and a table whose flush lands or does not. -/
def direct_beat (now : Nat) (lands : Bool) : Event := .beat now true [("a", some direct)] ⟨true, fun _ => true, lands⟩

def blank : World (Kind × Option UInt16) := World.start fun _ => none

/-- After the first reading. -/
def once : World (Kind × Option UInt16) := blank.step plain (direct_beat 0 true)

/-- A direct wire that has held is in the table. -/
theorem roads_sparing_direct :
    ∃ r, roadsIn plain (once.step plain (direct_beat SETTLE true)).disk "a" = some r ∧ r.kind = direct.kind := by
  have first : blank.May (direct_beat 0 true) ∧ blank.Kept plain (direct_beat 0 true) :=
    ⟨Nat.le_refl 0, fun _ => ⟨rfl, fun _ => rfl, rfl⟩⟩
  have second : once.May (direct_beat SETTLE true) ∧ once.Kept plain (direct_beat SETTLE true) :=
    ⟨Nat.zero_le _, fun _ => ⟨rfl, fun _ => rfl, rfl⟩⟩
  exact (roads_sparing (c := plain) _ _ (.tail (.single ⟨_, first, rfl⟩) ⟨_, second, rfl⟩)).2 "a"
    ⟨direct.kind, 0, SETTLE⟩ rfl (by decide)

/-- The flush fails on the beat that has the road to write. -/
def lost : World (Kind × Option UInt16) := once.step plain (direct_beat SETTLE false)

/-- `n` more beats, five seconds apart, none of which fails. -/
def later : Nat → World (Kind × Option UInt16)
  | 0 => lost
  | n + 1 => (later n).step plain (direct_beat (SETTLE + (n + 1) * (5 * SECOND)) true)

/-- The book has the road as written, and the table does not. -/
structure Lost (w : World (Kind × Option UInt16)) (now : Nat) : Prop where
  started : w.book.started = true
  written : ∃ moment, w.book.written "a" = some ⟨direct.kind, none, moment⟩
  disk : w.disk "a" = none
  spell : w.spell "a" = some ⟨direct.kind, 0, now⟩
  now : w.now = now

theorem Lost.step {w : World (Kind × Option UInt16)} {t : Nat} (h : Lost w t) (now : Nat) :
    Lost (w.step plain (direct_beat now true)) now := by
  obtain ⟨moment, written⟩ := h.written
  have opened : w.opened plain now true = w.book := by
    rw [World.opened, if_pos rfl, RoadBook.startFrom, if_pos h.started]
  have wait : ¬ (w.opened plain now true).Ripe "a" direct now := by
    rw [opened]
    intro due
    obtain ⟨other, -⟩ | ⟨w', is, -, moved, -⟩ := ripe_cases due
    · exact other (RoadBook.kind_of_written written)
    · rw [written] at is
      cases is
      exact moved rfl
  have nothing : (noteAll now (w.opened plain now true) [("a", some direct)]).2 = [] := by
    refine noteAll_nil _ fun name seen isIn => ?_
    cases List.mem_singleton.mp isIn
    exact wait
  have all := readings_eq (c := plain) now ⟨true, fun _ => true, true⟩ (fun _ => rfl) [("a", some direct)]
    ⟨w.opened plain now true, w.disk, w.spell, w.log⟩
  have book : (w.step plain (direct_beat now true)).book = w.book.rest "a" direct now := by
    refine all.1.symm.trans ?_
    rw [List.foldl_cons, List.foldl_nil, read_rest wait, opened]
  refine ⟨?_, ⟨moment, ?_⟩, ?_, ?_, rfl⟩
  · rw [book]
    exact h.started
  · rw [book]
    exact written
  · change flush plain _ w.disk (noteAll now (w.opened plain now true) [("a", some direct)]).2 "a" = none
    rw [nothing]
    exact h.disk
  · change (w.ledger plain now true [("a", some direct)]).spell "a" = _
    rw [World.ledger, List.foldl_cons, List.foldl_nil, read_rest wait]
    dsimp only
    rw [Function.update_self, h.spell]
    rfl

theorem later_lost (n : Nat) : Lost (later n) (SETTLE + n * (5 * SECOND)) := by
  induction n with
  | zero => exact ⟨rfl, ⟨SETTLE, rfl⟩, rfl, rfl, rfl⟩
  | succ n ih => exact ih.step _

/-- One flush fails; from then on the same road is read at every beat and no beat fails, but the road is never in the
table. -/
theorem lost_road :
    Runs (World.step plain) World.May blank lost ∧
      ∀ n, Runs (World.step plain) World.May lost (later n) ∧
        (later n).spell "a" = some ⟨direct.kind, 0, SETTLE + n * (5 * SECOND)⟩ ∧ (later n).disk "a" = none := by
  constructor
  · exact .tail (.single ⟨direct_beat 0 true, Nat.le_refl 0, rfl⟩) ⟨direct_beat SETTLE false, Nat.zero_le _, rfl⟩
  · intro n
    refine ⟨?_, (later_lost n).spell, (later_lost n).disk⟩
    induction n with
    | zero => exact .refl _
    | succ n ih =>
        refine .tail ih ⟨direct_beat (SETTLE + (n + 1) * (5 * SECOND)) true, ?_, rfl⟩
        change (later n).now ≤ _
        rw [(later_lost n).now]
        exact Nat.add_le_add_left (Nat.mul_le_mul_right _ (Nat.le_succ n)) _

end Khor.Roads
