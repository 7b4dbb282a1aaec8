/-
Module: Khor.Readings.DayChange
Purpose: The change of the day record from an earlier copy makes the later record of it, unless a sample fell before the
  copy's last minute or a row that was dropped for room came back.
Trusted boundary: none
Main exports: Move, Day.moved, evicted, Agrees, Agrees.moved
-/
import Khor.Readings.Day

namespace Khor.Readings

/-- What changes a record: a sample, rows whose state nobody knows, or the clock. -/
inductive Move where
  | observe (nowMs : Int) (rows : List (String × Word))
  | unavailable (nowMs : Int) (ids : List String)
  | roll (nowMs : Int)

def Move.at : Move → Int
  | .observe nowMs _ | .unavailable nowMs _ | .roll nowMs => minute nowMs

def Day.move (d : Day) : Move → Day
  | .observe nowMs rows => d.observe nowMs rows
  | .unavailable nowMs ids => d.unavailable nowMs ids
  | .roll nowMs => d.roll (minute nowMs)

def Day.moved (d : Day) (moves : List Move) : Day := moves.foldl Day.move d

/-! ### Reading a minute -/

/-- What the record says of a minute. -/
def Day.watchedAt (d : Day) (min : Int) : UInt8 := ((d.slot min).map d.watched).getD UNWATCHED

/-- What the record says of a session in a minute. -/
def Day.cellAt (d : Day) (id : String) (min : Int) : UInt8 :=
  (do let cells ← d.rows.get id; let i ← d.slot min; pure (cells i)).getD ABSENT

theorem minutes_pos : 0 < MINUTES := by decide

variable {d d' : Day} {min : Int} {i : Fin MINUTES} {cells : Cells} {moves : List Move} {since : DaySince}

theorem slot_some : d.slot min = some i ↔ min = d.from_ + i.val := by
  unfold Day.slot
  have less := i.isLt
  split
  · rename_i inside
    rw [Option.some_inj, Fin.ext_iff]
    dsimp only
    omega
  · rename_i outside
    exact iff_of_false nofun fun is => outside (by omega)

theorem slot_none : d.slot min = none ↔ min < d.from_ ∨ d.last < min := by
  unfold Day.slot Day.last
  split
  · rename_i inside
    exact iff_of_false nofun (by omega)
  · rename_i outside
    exact iff_of_true rfl (by omega)

theorem watchedAt_slot (d : Day) (i : Fin MINUTES) : d.watchedAt (d.from_ + i.val) = d.watched i := by
  unfold Day.watchedAt
  rw [slot_some.mpr rfl]
  rfl

theorem cellAt_slot {id : String} (is : d.rows.get id = some cells) (i : Fin MINUTES) :
    d.cellAt id (d.from_ + i.val) = cells i := by
  unfold Day.cellAt
  rw [is, slot_some.mpr rfl]
  rfl

theorem cellAt_none {id : String} (is : d.rows.get id = none) (min : Int) : d.cellAt id min = ABSENT := by
  unfold Day.cellAt
  rw [is]
  rfl

/-! ### Rolling -/

/-- The window stays, is new, or moves by less than its width. -/
theorem roll_cases (d : Day) (nowMin : Int) :
    d.roll nowMin = d ∧ nowMin ≤ d.last ∨
    d.last < (d.roll nowMin).from_ ∧ d.roll nowMin = ⟨nowMin - MINUTES + 1, blank UNWATCHED, .empty⟩ ∨
    ∃ shift : Nat, (d.roll nowMin).from_ = nowMin - MINUTES + 1 ∧ (d.roll nowMin).from_ = d.from_ + shift ∧
      (d.roll nowMin).watched = shiftLeft d.watched shift UNWATCHED ∧
      ∀ id, (d.roll nowMin).rows.get id = ((d.rows.get id).map (shiftLeft · shift ABSENT)).filter someSeen := by
  unfold Day.roll Day.last
  dsimp only
  split
  · exact .inl ⟨rfl, by omega⟩
  · split
    · exact .inr (.inl ⟨by dsimp only; omega, rfl⟩)
    · refine .inr (.inr ⟨_, rfl, by dsimp only; omega, rfl, fun id => ?_⟩)
      rw [SortedMap.get_retain, SortedMap.get_mapValues]

theorem roll_from (d : Day) (nowMin : Int) : (d.roll nowMin).from_ = max d.from_ (nowMin - MINUTES + 1) := by
  obtain ⟨same, le⟩ | ⟨past, is⟩ | ⟨shift, from_, more, _⟩ := roll_cases d nowMin
  · rw [same]
    unfold Day.last at le
    omega
  · have pos := minutes_pos
    rw [is] at past ⊢
    unfold Day.last at past
    dsimp only at past ⊢
    omega
  · omega

/-- The window does not go back. -/
theorem from_roll (d : Day) (nowMin : Int) : d.from_ ≤ (d.roll nowMin).from_ := by
  rw [roll_from]
  exact le_max_left ..

/-- What a shifted row says where the window still is, and the fill behind its old end. -/
theorem shiftLeft_reads {shift : Nat} (from_ : d'.from_ = d.from_ + shift) (cells : Cells) (fill : UInt8)
    (le : d'.from_ ≤ min) :
    ((d'.slot min).map (shiftLeft cells shift fill)).getD fill = ((d.slot min).map cells).getD fill := by
  cases is : d'.slot min with
  | none =>
      have past := slot_none.mp is
      have before : d.slot min = none := slot_none.mpr (.inr (by unfold Day.last at *; omega))
      rw [before]
      rfl
  | some i =>
      have at_ := slot_some.mp is
      show shiftLeft cells shift fill i = _
      unfold shiftLeft
      split
      · rename_i inside
        have there : d.slot min = some ⟨i + shift, inside⟩ := slot_some.mpr (by simp only; omega)
        rw [there]
        rfl
      · rename_i outside
        have before : d.slot min = none := slot_none.mpr (.inr (by unfold Day.last; omega))
        rw [before]
        rfl

theorem roll_watchedAt (d : Day) (nowMin : Int) (le : (d.roll nowMin).from_ ≤ min) :
    (d.roll nowMin).watchedAt min = d.watchedAt min := by
  obtain ⟨same, _⟩ | ⟨past, is⟩ | ⟨shift, _, more, watched, _⟩ := roll_cases d nowMin
  · rw [same]
  · have before : d.slot min = none := slot_none.mpr (.inr (by omega))
    rw [is]
    unfold Day.watchedAt
    rw [before]
    cases Day.slot _ min <;> rfl
  · unfold Day.watchedAt
    rw [watched]
    exact shiftLeft_reads more d.watched UNWATCHED le

theorem someSeen_false (none_ : ¬someSeen cells) (i : Fin MINUTES) : cells i = ABSENT := by
  by_contra other
  exact none_ (List.any_eq_true.mpr ⟨i, List.mem_finRange i, decide_eq_true other⟩)

theorem cellAt_eq (d : Day) (id : String) (min : Int) :
    d.cellAt id min = ((d.rows.get id).map fun cells => ((d.slot min).map cells).getD ABSENT).getD ABSENT := by
  unfold Day.cellAt
  cases d.rows.get id with
  | none => rfl
  | some cells => cases d.slot min <;> rfl

/-- A row that rolling takes away says nothing any more. -/
theorem roll_cellAt (d : Day) (nowMin : Int) (id : String) (le : (d.roll nowMin).from_ ≤ min) :
    (d.roll nowMin).cellAt id min = d.cellAt id min := by
  obtain ⟨same, _⟩ | ⟨past, is⟩ | ⟨shift, _, more, _, rows⟩ := roll_cases d nowMin
  · rw [same]
  · have before : d.slot min = none := slot_none.mpr (.inr (by omega))
    rw [is, cellAt_none rfl, cellAt_eq, before]
    cases d.rows.get id <;> rfl
  · rw [cellAt_eq, cellAt_eq, rows]
    cases d.rows.get id with
    | none => rfl
    | some cells =>
        have reads := shiftLeft_reads more cells ABSENT le
        by_cases seen : someSeen (shiftLeft cells shift ABSENT)
        · rw [Option.map_some, Option.filter_some_pos seen]
          exact reads
        · rw [Option.map_some, Option.filter_some_neg (Bool.eq_false_iff.mpr seen)]
          refine Eq.trans ?_ reads
          show ABSENT = _
          cases (d.roll nowMin).slot min with
          | none => rfl
          | some i => exact (someSeen_false seen i).symm

/-! ### Laying bytes -/

/-- The rows that are no longer there. -/
def gone (d d' : Day) : List String := d.rows.keys.filter fun id => (d'.rows.get id).isNone

/-- Making room takes rows away and touches nothing else. -/
structure Fewer (d d' : Day) : Prop where
  from_ : d'.from_ = d.from_
  watched : d'.watched = d.watched
  rows : ∀ id, d'.rows.get id = d.rows.get id ∨ d'.rows.get id = none

theorem dropStalest_fewer (fuel : Nat) (d : Day) : Fewer d (d.dropStalest fuel) := by
  induction fuel generalizing d with
  | zero => exact ⟨rfl, rfl, fun _ => .inl rfl⟩
  | succ fuel ih =>
      unfold Day.dropStalest
      split
      · exact ⟨rfl, rfl, fun _ => .inl rfl⟩
      · split
        · rename_i stale _
          obtain ⟨from_, watched, rows⟩ := ih { d with rows := d.rows.erase stale }
          refine ⟨from_, watched, fun id => ?_⟩
          obtain same | none_ := rows id
          · rw [same]
            show (d.rows.erase stale).get id = _ ∨ _
            rw [SortedMap.get_erase]
            split
            · exact .inr rfl
            · exact .inl rfl
          · exact .inr none_
        · exact ⟨rfl, rfl, fun _ => .inl rfl⟩

theorem roomFor_fewer (d : Day) (id : String) : Fewer d (d.roomFor id) := by
  unfold Day.roomFor
  split
  · exact ⟨rfl, rfl, fun _ => .inl rfl⟩
  · exact dropStalest_fewer _ d

theorem Fewer.slot (h : Fewer d d') (min : Int) : d'.slot min = d.slot min :=
  Option.ext fun i => by rw [slot_some, slot_some, h.from_]

/-- The bytes that a move lays, row after row. -/
def Move.laid : Move → List (String × (UInt8 → UInt8))
  | .observe _ rows => rows.map fun row => (row.1, keep row.2)
  | .unavailable _ ids => ids.map fun id => (id, fun _ => UNWATCHED)
  | .roll _ => []

/-- Only a sample marks its minute watched. -/
def Day.sampled (d : Day) (i : Fin MINUTES) : Move → Day
  | .observe .. => { d with watched := Function.update d.watched i WATCHED }
  | _ => d

def Day.layAll (d : Day) (i : Fin MINUTES) (laid : List (String × (UInt8 → UInt8))) : Day :=
  laid.foldl (fun d x => d.lay i x.1 x.2) d

theorem move_eq (d : Day) (m : Move) :
    d.move m = match (d.roll m.at).slot m.at with
      | none => d.roll m.at
      | some i => ((d.roll m.at).sampled i m).layAll i m.laid := by
  cases m with
  | observe nowMs rows =>
      show d.observe nowMs rows = _
      unfold Day.observe Move.at
      dsimp only
      cases (d.roll (minute nowMs)).slot (minute nowMs) with
      | none => rfl
      | some i =>
          dsimp only
          unfold Day.layAll Move.laid
          rw [List.foldl_map]
          rfl
  | unavailable nowMs ids =>
      show d.unavailable nowMs ids = _
      unfold Day.unavailable Move.at
      dsimp only
      cases (d.roll (minute nowMs)).slot (minute nowMs) with
      | none => rfl
      | some i =>
          dsimp only
          unfold Day.layAll Move.laid
          rw [List.foldl_map]
          rfl
  | roll nowMs =>
      show d.roll (minute nowMs) = _
      split
      · rfl
      · rfl

/-- The rows that went to make room while bytes were laid. -/
def evictedBy (i : Fin MINUTES) : List (String × (UInt8 → UInt8)) → Day → List String
  | [], _ => []
  | x :: rest, d => gone d (d.roomFor x.1) ++ evictedBy i rest (d.lay i x.1 x.2)

def Day.evictedIn (d : Day) (m : Move) : List String :=
  match (d.roll m.at).slot m.at with
  | none => []
  | some i => evictedBy i m.laid ((d.roll m.at).sampled i m)

/-- The rows that went to make room, on the way. -/
def evicted : Day → List Move → List String
  | _, [] => []
  | d, m :: rest => d.evictedIn m ++ evicted (d.move m) rest

/-! ### Older minutes -/

/-- Before the last minute of a copy a later record says what the copy does, but nothing of a row that went to make room. -/
structure Agrees (held : Day) (out : List String) (d : Day) : Prop where
  from_ : held.from_ ≤ d.from_
  watched : ∀ min, d.from_ ≤ min → min < held.last → d.watchedAt min = held.watchedAt min
  rows : ∀ id, (∀ min, d.from_ ≤ min → min < held.last → d.cellAt id min = held.cellAt id min) ∨
    id ∈ out ∧ ∀ min, d.from_ ≤ min → min < held.last → d.cellAt id min = ABSENT

variable {held d : Day} {out : List String}

theorem Agrees.self (held : Day) : Agrees held [] held :=
  ⟨le_refl _, fun _ _ _ => rfl, fun _ => .inl fun _ _ _ => rfl⟩

theorem Agrees.roll (h : Agrees held out d) (nowMin : Int) : Agrees held out (d.roll nowMin) := by
  have later := from_roll d nowMin
  refine ⟨h.from_.trans later, fun min le less => ?_, fun id => ?_⟩
  · rw [roll_watchedAt d nowMin le]
    exact h.watched min (later.trans le) less
  · obtain same | ⟨gone, none_⟩ := h.rows id
    · refine .inl fun min le less => ?_
      rw [roll_cellAt d nowMin id le]
      exact same min (later.trans le) less
    · refine .inr ⟨gone, fun min le less => ?_⟩
      rw [roll_cellAt d nowMin id le]
      exact none_ min (later.trans le) less

theorem Agrees.sampled (h : Agrees held out d) (at_ : d.slot min = some i) (late : held.last ≤ min) (m : Move) :
    Agrees held out (d.sampled i m) := by
  have is := slot_some.mp at_
  cases m with
  | observe nowMs rows =>
      refine ⟨h.from_, fun min' le less => ?_, h.rows⟩
      have same : (d.sampled i (.observe nowMs rows)).slot min' = d.slot min' := rfl
      rw [← h.watched min' le less]
      unfold Day.watchedAt
      rw [same]
      cases there : d.slot min' with
      | none => rfl
      | some j =>
          have other : j ≠ i := by
            rintro rfl
            have := slot_some.mp there
            omega
          exact Function.update_of_ne other ..
  | unavailable | roll => exact h

/-- What a row says where a byte is not laid: what it said, or nothing if it went to make room. -/
theorem lay_cellAt (d : Day) (i : Fin MINUTES) (id : String) (f : UInt8 → UInt8) (id' : String) :
    (∀ min, min ≠ d.from_ + i → (d.lay i id f).cellAt id' min = d.cellAt id' min) ∨
    id' ∈ gone d (d.roomFor id) ∧ ∀ min, min ≠ d.from_ + i → (d.lay i id f).cellAt id' min = ABSENT := by
  have fewer := roomFor_fewer d id
  have laid (min : Int) (other : min ≠ d.from_ + i) :
      (d.lay i id f).cellAt id' min = (d.roomFor id).cellAt id' min := by
    have slots : (d.lay i id f).slot min = (d.roomFor id).slot min := rfl
    have row : (d.lay i id f).rows.get id' = if id' = id then
        some (Function.update (((d.roomFor id).rows.get id).getD (blank ABSENT)) i
          (f (((d.roomFor id).rows.get id).getD (blank ABSENT) i))) else (d.roomFor id).rows.get id' :=
      SortedMap.get_put ..
    rw [cellAt_eq, cellAt_eq, row, slots, fewer.slot]
    split
    · rename_i same
      subst same
      cases there : d.slot min with
      | none => cases (d.roomFor id').rows.get id' <;> rfl
      | some j =>
          have apart : j ≠ i := by
            rintro rfl
            exact other (slot_some.mp there)
          cases (d.roomFor id').rows.get id' with
          | none | some => exact Function.update_of_ne apart ..
    · rfl
  have slots (min : Int) : (d.roomFor id).slot min = d.slot min := fewer.slot min
  obtain same | none_ := fewer.rows id'
  · refine .inl fun min other => ?_
    rw [laid min other, cellAt_eq, cellAt_eq, same, slots]
  · cases before : d.rows.get id' with
    | none =>
        refine .inl fun min other => ?_
        rw [laid min other, cellAt_none none_, cellAt_none before]
    | some cells =>
        refine .inr ⟨List.mem_filter.mpr ⟨SortedMap.mem_keys.mpr (before ▸ rfl), by rw [none_]; rfl⟩, fun min other => ?_⟩
        rw [laid min other, cellAt_none none_]

theorem Agrees.lay (h : Agrees held out d) (late : held.last ≤ d.from_ + i) (id : String) (f : UInt8 → UInt8) :
    Agrees held (out ++ gone d (d.roomFor id)) (d.lay i id f) := by
  have fewer := roomFor_fewer d id
  have from_ : (d.lay i id f).from_ = d.from_ := fewer.from_
  refine ⟨from_ ▸ h.from_, fun min le less => ?_, fun id' => ?_⟩
  · have watched : (d.lay i id f).watched = d.watched := fewer.watched
    have slots : (d.lay i id f).slot min = d.slot min := fewer.slot min
    rw [← h.watched min (from_ ▸ le) less]
    unfold Day.watchedAt
    rw [watched, slots]
  · obtain same | ⟨went, none_⟩ := lay_cellAt d i id f id'
    · obtain old | ⟨out_, none_⟩ := h.rows id'
      · refine .inl fun min le less => ?_
        rw [same min (by omega)]
        exact old min (from_ ▸ le) less
      · refine .inr ⟨List.mem_append_left _ out_, fun min le less => ?_⟩
        rw [same min (by omega)]
        exact none_ min (from_ ▸ le) less
    · exact .inr ⟨List.mem_append_right _ went, fun min le less => none_ min (by omega)⟩

theorem Agrees.layAll (laid : List (String × (UInt8 → UInt8))) (h : Agrees held out d)
    (late : held.last ≤ d.from_ + i) : Agrees held (out ++ evictedBy i laid d) (d.layAll i laid) := by
  induction laid generalizing d out with
  | nil =>
      rw [show evictedBy i [] d = [] from rfl, List.append_nil]
      exact h
  | cons x rest ih =>
      have from_ : (d.lay i x.1 x.2).from_ = d.from_ := (roomFor_fewer d x.1).from_
      have one := h.lay late x.1 x.2
      have all := ih one (from_ ▸ late)
      rw [List.append_assoc] at all
      exact all

theorem Agrees.move (h : Agrees held out d) {m : Move} (late : held.last ≤ m.at) :
    Agrees held (out ++ d.evictedIn m) (d.move m) := by
  have rolled := h.roll m.at
  rw [move_eq]
  unfold Day.evictedIn
  cases at_ : (d.roll m.at).slot m.at with
  | none =>
      rw [List.append_nil]
      exact rolled
  | some i =>
      have is := slot_some.mp at_
      have from_ : ((d.roll m.at).sampled i m).from_ = (d.roll m.at).from_ := by cases m <;> rfl
      exact (rolled.sampled at_ late m).layAll m.laid (by omega)

theorem Agrees.moved (h : Agrees held out d) (late : ∀ m ∈ moves, held.last ≤ m.at) :
    Agrees held (out ++ evicted d moves) (d.moved moves) := by
  induction moves generalizing d out with
  | nil =>
      rw [show evicted d [] = [] from rfl, List.append_nil]
      exact h
  | cons m rest ih =>
      have one := h.move (late m (.head _))
      have all := ih one fun m' mem => late m' (.tail m mem)
      rw [List.append_assoc] at all
      exact all

/-! ### Text -/

/-- The record has no byte that would not be a character of its own. -/
structure Day.Ascii (d : Day) : Prop where
  watched : ∀ i, d.watched i < 0x80
  rows : ∀ id cells, d.rows.get id = some cells → ∀ i, cells i < 0x80

theorem textOf_ascii (ascii : ∀ i, cells i < 0x80) : textOf cells = List.ofFn cells := by
  refine lossy_ascii fun b mem => ?_
  obtain ⟨i, rfl⟩ := List.mem_ofFn.mp mem
  exact ascii i

theorem tailOf_ascii (ascii : ∀ i, cells i < 0x80) (place : Fin MINUTES) :
    tailOf place cells = (List.ofFn cells).drop place := by
  refine lossy_ascii fun b mem => ?_
  obtain ⟨i, rfl⟩ := List.mem_ofFn.mp (List.mem_of_mem_drop mem)
  exact ascii i

theorem cellsOf_textOf (ascii : ∀ i, cells i < 0x80) : cellsOf (textOf cells) = some cells := by
  rw [textOf_ascii ascii]
  unfold cellsOf
  rw [dif_pos List.length_ofFn]
  refine congrArg some (funext fun i => ?_)
  exact List.getElem_ofFn ..

/-- What is written is read back. -/
theorem fromStored_toStored (ascii : d.Ascii) : Day.fromStored d.toStored = some d := by
  have long (id : String) (cells : Cells) (is : d.rows.get id = some cells) : (textOf cells).length = MINUTES := by
    rw [textOf_ascii (ascii.rows id cells is)]
    exact List.length_ofFn
  have all : (d.rows.mapValues textOf).entries.all fun e => e.2.length = MINUTES := by
    simp only [List.all_eq_true, decide_eq_true_eq]
    intro e mem
    have is := SortedMap.get_eq_some.mpr mem
    rw [SortedMap.get_mapValues] at is
    obtain ⟨cells, there, same⟩ := Option.map_eq_some_iff.mp is
    exact same ▸ long e.1 cells there
  have rows : (d.rows.mapValues textOf).mapValues (fun text => (cellsOf text).getD (blank ABSENT)) = d.rows := by
    refine SortedMap.ext_get fun id => ?_
    rw [SortedMap.get_mapValues, SortedMap.get_mapValues]
    cases is : d.rows.get id with
    | none => rfl
    | some cells =>
        show some ((cellsOf (textOf cells)).getD (blank ABSENT)) = some cells
        rw [cellsOf_textOf (ascii.rows id cells is)]
        rfl
  unfold Day.fromStored Day.toStored
  dsimp only
  rw [cellsOf_textOf ascii.watched]
  dsimp only
  rw [if_pos all, rows]

theorem Day.Ascii.watchedAt (h : d.Ascii) (min : Int) : d.watchedAt min < 0x80 := by
  unfold Day.watchedAt
  cases d.slot min with
  | none => exact (by decide : UNWATCHED < 0x80)
  | some i => exact h.watched i

theorem Day.Ascii.cellAt (h : d.Ascii) (id : String) (min : Int) : d.cellAt id min < 0x80 := by
  rw [cellAt_eq]
  cases is : d.rows.get id with
  | none => exact (by decide : ABSENT < 0x80)
  | some cells =>
      cases d.slot min with
      | none => exact (by decide : ABSENT < 0x80)
      | some i => exact h.rows id cells is i

theorem byteOf_ascii (word : Word) : byteOf word < 0x80 := by
  cases word <;> decide

theorem laid_ascii {m : Move} {x : String × (UInt8 → UInt8)} (mem : x ∈ m.laid) (b : UInt8) : x.2 b < 0x80 := by
  cases m with
  | observe nowMs rows =>
      obtain ⟨row, _, rfl⟩ := List.mem_map.mp mem
      exact byteOf_ascii _
  | unavailable nowMs ids =>
      obtain ⟨id, _, rfl⟩ := List.mem_map.mp mem
      exact (by decide : UNWATCHED < 0x80)
  | roll => cases mem

theorem shiftLeft_ascii (ascii : ∀ i, cells i < 0x80) {fill : UInt8} (small : fill < 0x80) (shift : Nat)
    (i : Fin MINUTES) : shiftLeft cells shift fill i < 0x80 := by
  unfold shiftLeft
  split
  · exact ascii _
  · exact small

theorem Day.Ascii.roll (h : d.Ascii) (nowMin : Int) : (d.roll nowMin).Ascii := by
  obtain ⟨same, _⟩ | ⟨_, is⟩ | ⟨shift, _, _, watched, rows⟩ := roll_cases d nowMin
  · rw [same]
    exact h
  · rw [is]
    exact ⟨fun _ => (by decide : UNWATCHED < 0x80), nofun⟩
  · refine ⟨fun i => ?_, fun id cells is => ?_⟩
    · rw [watched]
      exact shiftLeft_ascii h.watched (by decide) shift i
    · rw [rows id] at is
      obtain ⟨mapped, _⟩ := Option.filter_eq_some_iff.mp is
      obtain ⟨before, there, rfl⟩ := Option.map_eq_some_iff.mp mapped
      exact shiftLeft_ascii (h.rows id before there) (by decide) shift

theorem Day.Ascii.sampled (h : d.Ascii) (i : Fin MINUTES) (m : Move) : (d.sampled i m).Ascii := by
  cases m with
  | observe nowMs rows =>
      refine ⟨fun j => ?_, h.rows⟩
      show Function.update d.watched i WATCHED j < 0x80
      by_cases same : j = i
      · rw [same, Function.update_self]
        decide
      · rw [Function.update_of_ne same]
        exact h.watched j
  | unavailable | roll => exact h

theorem Day.Ascii.lay (h : d.Ascii) (i : Fin MINUTES) (id : String) {f : UInt8 → UInt8} (small : ∀ b, f b < 0x80) :
    (d.lay i id f).Ascii := by
  have fewer := roomFor_fewer d id
  have old (id' : String) (cells : Cells) (is : (d.roomFor id).rows.get id' = some cells) (j : Fin MINUTES) :
      cells j < 0x80 := by
    obtain same | none_ := fewer.rows id'
    · exact h.rows id' cells (same ▸ is) j
    · rw [none_] at is
      cases is
  have before (j : Fin MINUTES) : ((d.roomFor id).rows.get id).getD (blank ABSENT) j < 0x80 := by
    cases is : (d.roomFor id).rows.get id with
    | none => exact (by decide : ABSENT < 0x80)
    | some cells => exact old id cells is j
  refine ⟨fun j => ?_, fun id' cells is j => ?_⟩
  · have watched : (d.lay i id f).watched = d.watched := fewer.watched
    rw [watched]
    exact h.watched j
  · have row := (SortedMap.get_put ..).symm.trans is
    split at row
    · cases row
      by_cases same : j = i
      · rw [same, Function.update_self]
        exact small _
      · rw [Function.update_of_ne same]
        exact before j
    · exact old id' cells row j

theorem Day.Ascii.layAll (i : Fin MINUTES) {laid : List (String × (UInt8 → UInt8))} (h : d.Ascii)
    (small : ∀ x ∈ laid, ∀ b, x.2 b < 0x80) : (d.layAll i laid).Ascii := by
  induction laid generalizing d with
  | nil => exact h
  | cons x rest ih =>
      exact ih (h.lay i x.1 (small x (.head _))) fun y mem => small y (.tail x mem)

theorem Day.Ascii.moved (h : d.Ascii) : (d.moved moves).Ascii := by
  induction moves generalizing d with
  | nil => exact h
  | cons m rest ih =>
      refine ih ?_
      have rolled := h.roll m.at
      rw [move_eq]
      split
      · exact rolled
      · rename_i i _
        exact (rolled.sampled i m).layAll i fun x mem => laid_ascii mem

/-! ### The change -/

/-- The later cells from `place` on, over what is held. -/
def laidOver (place : Fin MINUTES) (held later : Cells) : Cells := fun i => if i < place then held i else later i

theorem layTail_tailOf {place : Fin MINUTES} {later : Cells} (ascii : ∀ i, later i < 0x80) (held : Cells) :
    layTail held (tailOf place later) = some (laidOver place held later) := by
  have less := place.isLt
  have length : (tailOf place later).length = MINUTES - place := by
    rw [tailOf_ascii ascii, List.length_drop, List.length_ofFn]
  unfold layTail
  rw [if_pos (by omega)]
  refine congrArg some (funext fun i => ?_)
  unfold laidOver
  rw [length]
  by_cases before : i < place
  · rw [if_pos before, if_pos (by have : i.val < place.val := before; omega)]
  · have after : place.val ≤ i.val := Nat.le_of_not_lt before
    rw [if_neg before, if_neg (by omega), tailOf_ascii ascii, List.getD_eq_getElem?_getD, List.getElem?_drop,
      List.getElem?_ofFn, dif_pos (by omega)]
    show later _ = later i
    congr 1
    refine Fin.ext ?_
    show place.val + (i.val - (MINUTES - (MINUTES - place.val))) = i.val
    omega

theorem layRows_get {es : List (String × Text)} (nodup : (es.map Prod.fst).Nodup) (held rows : SortedMap String Cells)
    (later : String → Cells)
    (laid : ∀ e ∈ es, layTail ((held.get e.1).getD (blank ABSENT)) e.2 = some (later e.1)) :
    ∃ rows', layRows held es rows = some rows' ∧
      ∀ id, rows'.get id = if id ∈ es.map Prod.fst then some (later id) else rows.get id := by
  induction es generalizing held rows with
  | nil => exact ⟨rows, rfl, fun id => (if_neg List.not_mem_nil).symm⟩
  | cons e es ih =>
      obtain ⟨fresh, nodup'⟩ := List.nodup_cons.mp nodup
      obtain ⟨rows', is, each⟩ := ih nodup' (held.erase e.1) (rows.put e.1 (later e.1)) fun e' mem => by
        have other : e'.1 ≠ e.1 := fun same => fresh (same ▸ List.mem_map_of_mem mem)
        rw [SortedMap.get_erase, if_neg other]
        exact laid e' (.tail e mem)
      refine ⟨rows', ?_, fun id => ?_⟩
      · unfold layRows
        rw [laid e List.mem_cons_self]
        exact is
      · rw [each, SortedMap.get_put, List.map_cons]
        by_cases same : id = e.1
        · subst same
          rw [if_neg fresh, if_pos rfl, if_pos List.mem_cons_self]
        · by_cases mem : id ∈ es.map Prod.fst
          · rw [if_pos mem, if_pos (List.mem_cons_of_mem _ mem)]
          · rw [if_neg mem, if_neg same, if_neg fun also => (List.mem_cons.mp also).elim same mem]

/-- Before the copy's last minute the later record says what the copy does, of its rows and of who was looking. -/
structure OlderSame (held later : Day) : Prop where
  watched : ∀ min, later.from_ ≤ min → min < held.last → later.watchedAt min = held.watchedAt min
  rows : ∀ id, (later.rows.get id).isSome → ∀ min, later.from_ ≤ min → min < held.last →
    later.cellAt id min = held.cellAt id min

/-- What the change makes of the copy. -/
theorem applied_since {later : Day} (ascii : later.Ascii) (from_ : held.from_ ≤ later.from_) {place : Fin MINUTES}
    (at_ : later.slot held.last = some place) (is : later.since held.last = some since) :
    ∃ made, held.applied since = some made ∧ made.from_ = later.from_ ∧
      (∀ i, made.watched i = if i < place then held.watchedAt (later.from_ + i.val) else later.watched i) ∧
      ∀ id, made.rows.get id = (later.rows.get id).map fun cells i =>
        if i < place then held.cellAt id (later.from_ + i.val) else cells i := by
  have rolled : (held.roll (later.from_ + MINUTES - 1)).from_ = later.from_ := by
    rw [roll_from]
    omega
  generalize tick : later.from_ + MINUTES - 1 = nowMin at *
  have le (i : Fin MINUTES) : (held.roll nowMin).from_ ≤ later.from_ + i.val := by omega
  have row (id : String) (i : Fin MINUTES) :
      ((held.roll nowMin).rows.get id).getD (blank ABSENT) i = held.cellAt id (later.from_ + i.val) := by
    rw [← roll_cellAt held nowMin id (le i)]
    cases there : (held.roll nowMin).rows.get id with
    | none => exact (cellAt_none there _).symm
    | some old =>
        have reads := cellAt_slot there i
        rw [rolled] at reads
        exact reads.symm
  have laid (id : String) (cells : Cells) :
      laidOver place (((held.roll nowMin).rows.get id).getD (blank ABSENT)) cells =
        fun i => if i < place then held.cellAt id (later.from_ + i.val) else cells i := by
    funext i
    unfold laidOver
    rw [row]
  obtain ⟨rows', rowsLaid, each⟩ := layRows_get (later.rows.mapValues (tailOf place)).nodup (held.roll nowMin).rows .empty
    (fun id => laidOver place (((held.roll nowMin).rows.get id).getD (blank ABSENT))
      ((later.rows.get id).getD (blank ABSENT)))
    fun ⟨id, tail⟩ mem => by
      have entry := SortedMap.get_eq_some.mpr mem
      rw [SortedMap.get_mapValues] at entry
      obtain ⟨cells, there, rfl⟩ := Option.map_eq_some_iff.mp entry
      rw [layTail_tailOf (ascii.rows id cells there), there]
      rfl
  unfold Day.since at is
  rw [at_] at is
  cases is
  refine ⟨⟨later.from_, laidOver place (held.roll nowMin).watched later.watched, rows'⟩, ?_, rfl, fun i => ?_, fun id => ?_⟩
  · unfold Day.applied
    dsimp only
    rw [tick, rolled, if_neg (not_not.mpr rfl), layTail_tailOf ascii.watched, rowsLaid]
  · show laidOver place (held.roll nowMin).watched later.watched i = _
    unfold laidOver
    have reads := watchedAt_slot (held.roll nowMin) i
    rw [rolled, roll_watchedAt held nowMin (le i)] at reads
    rw [reads]
  · refine (each id).trans ?_
    have keys : id ∈ (later.rows.mapValues (tailOf place)).entries.map Prod.fst ↔ (later.rows.get id).isSome := by
      have mem := SortedMap.mem_keys (m := later.rows.mapValues (tailOf place)) (k := id)
      rw [SortedMap.get_mapValues, Option.isSome_map] at mem
      exact mem
    cases there : later.rows.get id with
    | none => rw [if_neg (by rw [keys, there]; exact nofun)]; rfl
    | some cells =>
        rw [if_pos (by rw [keys, there]; rfl), laid]
        rfl

/-- The change makes the later record of the copy exactly if before the copy's last minute the two say the same. -/
theorem applied_since_iff {later : Day} (ascii : later.Ascii) (from_ : held.from_ ≤ later.from_)
    (is : later.since held.last = some since) : held.applied since = some later ↔ OlderSame held later := by
  obtain ⟨place, at_, _⟩ := Option.map_eq_some_iff.mp is
  obtain ⟨made, applied, madeFrom, watched, rows⟩ := applied_since ascii from_ at_ is
  have there := slot_some.mp at_
  have older {min : Int} (le : later.from_ ≤ min) (less : min < held.last) :
      ∃ i : Fin MINUTES, i < place ∧ min = later.from_ + i.val := by
    have small := place.isLt
    refine ⟨⟨(min - later.from_).toNat, by omega⟩, ?_, by simp only; omega⟩
    show (min - later.from_).toNat < place.val
    omega
  rw [applied]
  constructor
  · intro same
    cases same
    refine ⟨fun min le less => ?_, fun id some_ min le less => ?_⟩
    · obtain ⟨i, before, rfl⟩ := older le less
      rw [watchedAt_slot, watched, if_pos before]
    · obtain ⟨i, before, rfl⟩ := older le less
      obtain ⟨cells, row⟩ := Option.isSome_iff_exists.mp some_
      have each := rows id
      rw [row] at each
      rw [cellAt_slot row]
      exact (congrFun (Option.some.inj each) i).trans (if_pos before)
  · intro same
    have watched_ : made.watched = later.watched := by
      funext i
      rw [watched]
      split
      · rename_i before
        have less : i.val < place.val := before
        rw [← same.watched _ (by omega) (by omega), watchedAt_slot]
      · rfl
    have rows_ : made.rows = later.rows := by
      refine SortedMap.ext_get fun id => ?_
      rw [rows]
      cases row : later.rows.get id with
      | none => rfl
      | some cells =>
          refine congrArg some (funext fun i => ?_)
          dsimp only
          split
          · rename_i before
            have less : i.val < place.val := before
            rw [← same.rows id (row ▸ rfl) _ (by omega) (by omega), cellAt_slot row]
          · rfl
    cases made
    cases later
    cases madeFrom
    cases watched_
    cases rows_
    rfl

/-- Samples that are not before the copy's last minute change nothing older, but for a row that went to make room. -/
theorem moved_olderSame (late : ∀ m ∈ moves, held.last ≤ m.at)
    (kept : ∀ id ∈ evicted held moves, held.rows.get id = none ∨ (held.moved moves).rows.get id = none) :
    OlderSame held (held.moved moves) := by
  have agrees := (Agrees.self held).moved late
  refine ⟨agrees.watched, fun id some_ min le less => ?_⟩
  obtain same | ⟨went, none_⟩ := agrees.rows id
  · exact same min le less
  · obtain absent | absent := kept id went
    · rw [none_ min le less, cellAt_none absent]
    · rw [absent] at some_
      cases some_

theorem moved_from (moves : List Move) (d : Day) : d.from_ ≤ (d.moved moves).from_ := by
  induction moves generalizing d with
  | nil => exact le_refl _
  | cons m rest ih =>
      have layAll (i : Fin MINUTES) (laid : List (String × (UInt8 → UInt8))) (d : Day) : (d.layAll i laid).from_ = d.from_ := by
        induction laid generalizing d with
        | nil => rfl
        | cons x rest ih => exact (ih _).trans (roomFor_fewer d x.1).from_
      have one : d.from_ ≤ (d.move m).from_ := by
        rw [move_eq]
        split
        · exact from_roll d m.at
        · rename_i i _
          rw [layAll]
          exact (from_roll d m.at).trans (le_of_eq (by cases m <;> rfl))
      exact one.trans (ih _)

theorem toWire_inj {Wire : Type} {json : Json Wire} (ascii : d.Ascii) (ascii' : d'.Ascii)
    (same : d.toWire json = d'.toWire json) : d = d' := by
  have stored : d.toStored = d'.toStored := by
    have parsed := congrArg json.parse same
    unfold Day.toWire at parsed
    rw [json.parse_text, json.parse_text] at parsed
    exact Option.some.inj parsed
  have read := fromStored_toStored ascii
  rw [stored, fromStored_toStored ascii'] at read
  exact (Option.some.inj read).symm

/-- On the wire too the change makes the later record exactly if nothing older differs. -/
theorem applySince_iff {Wire : Type} (json : Json Wire) (ascii : held.Ascii) (moves : List Move)
    (is : (held.moved moves).since held.last = some since) :
    applySince json (held.toWire json) since = some ((held.moved moves).toWire json) ↔
      OlderSame held (held.moved moves) := by
  have later : (held.moved moves).Ascii := ascii.moved
  have iff_ := applied_since_iff later (moved_from moves held) is
  have read : (json.parse (held.toWire json)).bind Day.fromStored = some held := by
    unfold Day.toWire
    rw [json.parse_text, Option.bind_some]
    exact fromStored_toStored ascii
  have unfolded (since : DaySince) : applySince json (held.toWire json) since =
      (held.applied since).map fun d => d.toWire json := by
    unfold applySince
    rw [read]
    rfl
  rw [unfolded, ← iff_]
  constructor
  · intro same
    obtain ⟨made, applied, wire⟩ := Option.map_eq_some_iff.mp same
    obtain ⟨place, at_, _⟩ := Option.map_eq_some_iff.mp is
    obtain ⟨made', applied', _, watched, rows⟩ := applied_since later (moved_from moves held) at_ is
    rw [applied'] at applied
    obtain rfl := Option.some.inj applied
    have small : made'.Ascii := by
      refine ⟨fun i => ?_, fun id cells row i => ?_⟩
      · rw [watched]
        split
        · exact ascii.watchedAt _
        · exact later.watched i
      · rw [rows] at row
        obtain ⟨cells', row', rfl⟩ := Option.map_eq_some_iff.mp row
        dsimp only
        split
        · exact ascii.cellAt id _
        · exact later.rows id cells' row' i
    rw [applied', toWire_inj small later wire]
  · intro same
    rw [same, Option.map_some]

end Khor.Readings
