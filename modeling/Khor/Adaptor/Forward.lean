/-
Module: Khor.Adaptor.Forward
Purpose: What one page of newer events gives: the history from where its cursor stands up to where the next one
  does, and what that cursor says of the bytes that are left.
Trusted boundary: none
Main exports: between, Left, Reads
-/
import Khor.Adaptor.Backward

namespace Khor.Adaptor

variable {T : Type} {parse : List UInt8 → List T} {bytes : List UInt8}

/-! ### The history between two positions -/

/-- The history from one position up to another. -/
def between (parse : List UInt8 → List T) (bytes : List UInt8) (q q' : Position) : List (Event T) :=
  (remaining parse bytes q').filter fun e => ¬Before e.position q

variable {q q' : Position} {e : Event T} {a b : Nat}

theorem between_inOrder : InOrder (between parse bytes q q') :=
  (history_inOrder.filter _).filter _

theorem mem_between : e ∈ between parse bytes q q' ↔
    e ∈ history parse bytes ∧ Before e.position q' ∧ ¬Before e.position q := by
  rw [between, List.mem_filter, decide_eq_true_eq, remaining, List.mem_filter, decide_eq_true_eq, and_assoc]

theorem before_at {s : Nat} : Before q (.at_ s) ↔ q.start < s := by
  change q.start < s ∨ q.start = s ∧ q.item < 0 ↔ _
  omega

/-- Positions that are not before one another in turn. -/
theorem not_before_trans {q'' : Position} (h : ¬Before q' q) (h' : ¬Before q'' q') : ¬Before q'' q := by
  unfold Before at *
  omega

theorem between_eq_nil (back : ¬Before q q') : between parse bytes q q' = [] := by
  refine List.eq_nil_iff_forall_not_mem.mpr fun e mem => ?_
  obtain ⟨_, before, not_⟩ := mem_between.mp mem
  unfold Before at *
  omega

/-- An event between two positions tells that they are apart. -/
theorem before_of_mem (mem : e ∈ between parse bytes q q') : Before q q' := by
  obtain ⟨_, before, not_⟩ := mem_between.mp mem
  unfold Before at *
  omega

theorem between_append {q'' : Position} (on : ¬Before q' q) (on' : ¬Before q'' q') :
    between parse bytes q q' ++ between parse bytes q' q'' = between parse bytes q q'' := by
  refine InOrder.ext (List.pairwise_append.mpr ⟨between_inOrder, between_inOrder, ?_⟩) between_inOrder fun e => ?_
  · intro e mem e' mem'
    have before := (mem_between.mp mem).2.1
    have after := (mem_between.mp mem').2.2
    unfold Before at *
    omega
  · rw [List.mem_append, mem_between, mem_between, mem_between]
    have order : (Before e.position q' ∧ ¬Before e.position q) ∨ (Before e.position q'' ∧ ¬Before e.position q') ↔
        Before e.position q'' ∧ ¬Before e.position q := by
      unfold Before at *
      omega
    rw [← order]
    tauto

/-- What is between positions that rest does not change when bytes are appended. -/
theorem mem_inlineRecords_append {more : List UInt8} {r : Span} (up : r.stop ≤ bytes.length) :
    r ∈ inlineRecords (bytes ++ more) ↔ r ∈ inlineRecords bytes := by
  have marks : ∀ k, k < bytes.length → (Marks isNewline (bytes ++ more) k ↔ Marks isNewline bytes k) := by
    intro k lt
    unfold Marks
    rw [List.getElem?_append_left lt]
  rw [mem_inlineRecords, mem_inlineRecords]
  refine ⟨fun ⟨h, ends, short⟩ => ?_, fun ⟨h, ends, short⟩ => ?_⟩
  · have lt := h.lt
    refine ⟨⟨h.from_, lt, up, ?_, fun k ge less => ?_, .inl ((marks _ (by omega)).mp ends)⟩,
      (marks _ (by omega)).mp ends, short⟩
    · exact h.first.imp id fun mark => (marks _ (by omega)).mp mark
    · exact fun mark => h.inner k ge less ((marks k (by omega)).mpr mark)
  · have lt := h.lt
    refine ⟨⟨h.from_, lt, ?_, ?_, fun k ge less => ?_, .inl ((marks _ (by omega)).mpr ends)⟩,
      (marks _ (by omega)).mpr ends, short⟩
    · rw [List.length_append]
      omega
    · exact h.first.imp id fun mark => (marks _ (by omega)).mpr mark
    · exact fun mark => h.inner k ge less ((marks k (by omega)).mp mark)

theorem slice_append {more : List UInt8} {r : Span} (up : r.stop ≤ bytes.length) (le : r.start ≤ r.stop) :
    slice (bytes ++ more) r = slice bytes r := by
  unfold slice
  rw [List.drop_append_of_le_length (by omega), List.take_append_of_le_length]
  rw [List.length_drop]
  omega

theorem Edge.append {s : Nat} (h : Edge bytes s) (more : List UInt8) : Edge (bytes ++ more) s := by
  cases h with
  | boundary begins =>
      refine .boundary ?_
      obtain zero | ⟨b, there, mark⟩ := begins
      · exact .inl zero
      · have lt := (List.getElem?_eq_some_iff.mp there).1
        exact .inr ⟨b, by rwa [List.getElem?_append_left lt], mark⟩
  | giant lo hi from_ up within long inner =>
      refine .giant lo hi from_ up (by rw [List.length_append]; omega) long fun k ge lt mark => ?_
      obtain ⟨b, there, mark⟩ := mark
      rw [List.getElem?_append_left (by omega)] at there
      exact inner k ge lt ⟨b, there, mark⟩

theorem Rests.append {q : Position} (h : Rests parse bytes q) (more : List UInt8) :
    Rests parse (bytes ++ more) q where
  le := h.le
  fits := by
    rw [List.length_append]
    exact Nat.le_add_right_of_le h.fits
  edge := fun item => (h.edge item).append more
  within := fun item => by
    obtain ⟨mem, le⟩ := h.within item
    rw [slice_append h.fits h.le]
    exact ⟨(mem_inlineRecords_append h.fits).mpr mem, le⟩

/-- What is before a place that rests is there for good. -/
theorem remaining_append (h : Rests parse bytes q) (more : List UInt8) :
    remaining parse (bytes ++ more) q = remaining parse bytes q := by
  refine InOrder.ext (history_inOrder.filter _) (history_inOrder.filter _) fun e => ?_
  rw [remaining, List.mem_filter, remaining, List.mem_filter, mem_history, mem_history, decide_eq_true_eq]
  constructor
  · rintro ⟨⟨r, mem, inside⟩, before⟩
    have up := (((h.append more).place.before_iff mem (mem_eventsOf.mp inside).1).mp before).1
    have fits := Nat.le_trans up h.place.bound_le
    rw [slice_append fits (mem_inlineRecords.mp mem).1.lt.le] at inside
    exact ⟨⟨r, (mem_inlineRecords_append fits).mp mem, inside⟩, before⟩
  · rintro ⟨⟨r, mem, inside⟩, before⟩
    have piece := (mem_inlineRecords.mp mem).1
    rw [← @slice_append _ more _ piece.up piece.lt.le] at inside
    exact ⟨⟨r, (mem_inlineRecords_append piece.up).mpr mem, inside⟩, before⟩

theorem between_grown (h : Rests parse bytes q') (more : List UInt8) :
    between parse (bytes ++ more) q q' = between parse bytes q q' := by
  rw [between, remaining_append h, between]

theorem mem_drop_eventsOf {range : Span} {line : List UInt8} {n : Nat} :
    e ∈ (eventsOf parse range line).drop n ↔ e ∈ eventsOf parse range line ∧ n ≤ e.position.item := by
  have cut := List.take_append_drop n (eventsOf parse range line)
  have ordered := @eventsOf_inOrder _ parse range line
  constructor
  · intro mem
    refine ⟨List.mem_of_mem_drop mem, ?_⟩
    by_contra less
    have early : e ∈ (eventsOf parse range line).take n :=
      mem_take_eventsOf.mpr ⟨List.mem_of_mem_drop mem, not_le.mp less⟩
    rw [← cut] at ordered
    exact Before.irrefl _ ((List.pairwise_append.mp ordered).2.2 e early e mem)
  · rintro ⟨mem, le⟩
    rw [← cut] at mem
    obtain early | late := List.mem_append.mp mem
    · exact absurd (mem_take_eventsOf.mp early).2 (not_lt.mpr le)
    · exact late

/-- Where no record begins nothing happens. -/
theorem between_gap (le : a ≤ b) (none_ : ∀ r ∈ inlineRecords bytes, ¬(a ≤ r.start ∧ r.start < b)) :
    between parse bytes q (.at_ b) = between parse bytes q (.at_ a) := by
  refine between_inOrder.ext between_inOrder fun e => ?_
  rw [mem_between, mem_between, before_at, before_at]
  refine and_congr_right fun mem => and_congr_left fun _ => ⟨fun lt => ?_, fun lt => by omega⟩
  obtain ⟨r, listed, inside⟩ := mem_history.mp mem
  have start := (mem_eventsOf.mp inside).1
  by_contra ge
  exact none_ r listed ⟨by omega, by omega⟩

/-- A record adds its events, those before the position left out. -/
theorem between_record {q : Position} {r : Span} (mem : r ∈ inlineRecords bytes) (from_ : q.start ≤ r.start) :
    between parse bytes q (.at_ r.stop) = between parse bytes q (.at_ r.start) ++
      (eventsOf parse r (slice bytes r)).drop (if r.start = q.start then q.item else 0) := by
  have lt := (mem_inlineRecords.mp mem).1.lt
  refine between_inOrder.ext (List.pairwise_append.mpr
    ⟨between_inOrder, (eventsOf_inOrder _ _).sublist (List.drop_sublist _ _), ?_⟩) fun e => ?_
  · intro e before e' inside
    have start := (mem_eventsOf.mp (mem_drop_eventsOf.mp inside).1).1
    exact .inl (start ▸ before_at.mp (mem_between.mp before).2.1)
  · rw [List.mem_append, mem_between, mem_between, before_at, before_at, mem_drop_eventsOf]
    have skipped : e.position.start = r.start →
        ((if r.start = q.start then q.item else 0) ≤ e.position.item ↔ ¬Before e.position q) := by
      intro start
      unfold Before
      split <;> omega
    constructor
    · rintro ⟨listed, up, not_⟩
      by_cases early : e.position.start < r.start
      · exact .inl ⟨listed, early, not_⟩
      · obtain ⟨r', mem', inside⟩ := mem_history.mp listed
        have start := (mem_eventsOf.mp inside).1
        have lt' := (mem_inlineRecords.mp mem').1.lt
        obtain rfl | before | after := inlineRecords_apart mem mem'
        · exact .inr ⟨inside, (skipped start).mpr not_⟩
        · omega
        · omega
    · rintro (⟨listed, early, not_⟩ | ⟨inside, le⟩)
      · exact ⟨listed, by omega, not_⟩
      · have start := (mem_eventsOf.mp inside).1
        exact ⟨mem_history.mpr ⟨r, mem, inside⟩, by omega, (skipped start).mp le⟩

/-! ### The pieces of one page -/

/-- What a page leaves: no record ends there, and no more bytes than one that is parsed may have. -/
structure Left (bytes : List UInt8) (len : Nat) (c : Cursor) : Prop where
  unended : ∀ k, c.position.start ≤ k → k < len → ¬Marks isNewline bytes k
  small : len - c.position.start ≤ INLINE_RECORD_BYTES
  pending : c.pending.isSome → len ≤ c.position.start

/-- A pending record is cut by the cursor, after its own start. -/
def Pends (bytes : List UInt8) (c : Cursor) : Prop :=
  ∀ pending ∈ c.pending, pending.start ≤ c.position.start ∧ ¬Boundary bytes c.position.start

section Page

variable {observation : FileVersion} {source : String} {cursor : Cursor} {observedLen hi : Nat}

/-- A page is underway, with the pieces before `a` seen. -/
structure Upto (parse : List UInt8 → List T) (bytes : List UInt8) (observation : FileVersion) (source : String)
    (cursor : Cursor) (a : Nat) (s : Forward T) : Prop where
  from_ : cursor.position.start ≤ a
  events : s.events = between parse bytes cursor.position (.at_ a)
  short : s.events.length ≤ EVENT_LIMIT
  goes : s.hasMore = false
  newer : a = cursor.position.start ∧ s.pending = cursor.pending ∧
      s.newer = observation.cursor source cursor.position ∨
    cursor.position.start < a ∧ Marks isNewline bytes (a - 1) ∧ s.pending = none ∧
      s.newer = observation.cursor source (.at_ a)

/-- What is known when the pieces of a window that ends at `hi` have been seen. -/
structure Reads (parse : List UInt8 → List T) (bytes : List UInt8) (observation : FileVersion) (source : String)
    (cursor : Cursor) (hi : Nat) (s : Forward T) : Prop where
  rests : Rests parse bytes s.newer.position
  on : ¬Before s.newer.position cursor.position
  events : s.events = between parse bytes cursor.position s.newer.position
  source : s.newer.source = source
  version : (⟨s.newer.file, s.newer.len, s.newer.modified⟩ : FileVersion) = observation
  pends : Pends bytes s.newer
  more : s.hasMore = true → s.events ≠ [] ∧ s.newer.waitingForAppend = false
  left : s.hasMore = false → Left bytes hi s.newer
  waits : s.newer.waitingForAppend = true → hi = observation.len
  stops : s.hasMore = false → s.newer.position.start = hi ∨ s.newer.waitingForAppend = decide (hi = observation.len)

variable {s : Forward T}

theorem Reads.len (h : Reads parse bytes observation source cursor hi s) :
    s.newer.len = observation.len := congrArg FileVersion.len h.version

theorem version_cursor {q : Position} (fits : q.stop ≤ observation.len) :
    (⟨(observation.cursor source q).file, (observation.cursor source q).len,
      (observation.cursor source q).modified⟩ : FileVersion) = observation := by
  unfold FileVersion.cursor
  rw [Nat.max_eq_left fits]

/-- A cursor of the version observed that tells no more than its position. -/
theorem cursor_eq {c : Cursor} (version : (⟨c.file, c.len, c.modified⟩ : FileVersion) = observation)
    (of_ : c.source = source) (none_ : c.pending = none) (goes : c.waitingForAppend = false)
    (fits : c.position.stop ≤ observation.len) : c = observation.cursor source c.position := by
  subst version of_
  cases c
  simp only at none_ goes
  subst none_ goes
  unfold FileVersion.cursor
  simp only [Nat.max_eq_left fits]

/-- A cursor that stands at the end of what has been read. -/
theorem left_end {c : Cursor} (ends : c.position.start = hi) : Left bytes hi c where
  unended := fun k ge lt => by omega
  small := by
    rw [ends, Nat.sub_self]
    exact Nat.zero_le _
  pending := fun _ => ends.ge

/-- The position within a record that is parsed begins where that does. -/
theorem Rests.edge_start (h : Rests parse bytes q) : Edge bytes q.start := by
  by_cases item : q.item = 0
  · exact h.edge item
  · exact .boundary (mem_inlineRecords.mp (h.within item).1).1.first

/-- Where a record goes on unended, and is not small or was cut before, it is a giant one. -/
theorem edge_unended (edge : Edge bytes a) (le : a < b) (fits : b ≤ bytes.length)
    (inner : ∀ k, a ≤ k → k + 1 < b → ¬Marks isNewline bytes k)
    (large : Boundary bytes a → INLINE_RECORD_BYTES < b - a) : Edge bytes b := by
  by_cases begins : Boundary bytes a
  · exact .giant a b (by omega) (Nat.le_refl _) fits (large begins) inner
  · cases edge with
    | boundary here => exact absurd here begins
    | giant lo hi from_ up within long old =>
        by_cases inside : b ≤ hi
        · exact .giant lo hi (by omega) inside within long old
        · refine .giant lo b (by omega) (Nat.le_refl _) fits (by omega) fun k ge lt => ?_
          by_cases early : k + 1 < hi
          · exact old k ge early
          · by_cases here : a ≤ k
            · exact inner k here lt
            · -- The byte before `a` is no newline, as no record begins at `a`.
              intro mark
              have same : k = a - 1 := by omega
              exact begins (.inr (same ▸ mark))

/-- A cursor that the version observed takes. -/
structure Stands (parse : List UInt8 → List T) (bytes : List UInt8) (observation : FileVersion)
    (cursor : Cursor) : Prop where
  fits : cursor.position.stop ≤ observation.len
  rests : Rests parse bytes cursor.position
  pends : Pends bytes cursor

section Steps

variable {a b : Nat} {s : Forward T} (h : Upto parse bytes observation source cursor a s)

section

variable (h : Upto parse bytes observation source cursor a s)
include h

/-- Between records nothing is pending. -/
theorem Upto.pending_none (pends : Pends bytes cursor) (begins : Boundary bytes a) : s.pending = none := by
  obtain ⟨rfl, same, _⟩ | ⟨_, _, none, _⟩ := h.newer
  · rw [same]
    refine Option.eq_none_iff_forall_not_mem.mpr fun pending mem => ?_
    exact (pends pending mem).2 begins
  · exact none

theorem Upto.start_edge (rests : Rests parse bytes cursor.position) : Edge bytes a := by
  obtain ⟨rfl, _⟩ | ⟨_, mark, _⟩ := h.newer
  · exact rests.edge_start
  · exact .boundary (.inr mark)

theorem Upto.fresh (fits : cursor.position.stop ≤ observation.len) (up : a ≤ observation.len) :
    (⟨s.newer.file, s.newer.len, s.newer.modified⟩ : FileVersion) = observation ∧ s.newer.source = source ∧
      s.newer.pending = none ∧ s.newer.waitingForAppend = false := by
  obtain ⟨_, _, same⟩ | ⟨_, _, _, same⟩ := h.newer
  · rw [same]
    exact ⟨version_cursor fits, rfl, rfl, rfl⟩
  · rw [same]
    exact ⟨version_cursor up, rfl, rfl, rfl⟩

end

/-- No record that is parsed begins in a piece that is not one of them. -/
theorem gap_of_piece {lo : Nat} (piece : Piece isNewline bytes lo hi a b) (ends : Marks isNewline bytes (b - 1))
    (not_ : ⟨a, b⟩ ∉ inlineRecords bytes) : ∀ r ∈ inlineRecords bytes, ¬(a ≤ r.start ∧ r.start < b) := by
  rintro r mem ⟨ge, lt⟩
  obtain ⟨record, mark, _⟩ := mem_inlineRecords.mp mem
  have less := record.lt
  have start : r.start = a := by
    by_contra other
    obtain zero | before := record.first
    · omega
    · exact piece.inner (r.start - 1) (by omega) (by omega) before
  have stop : r.stop = b := by
    obtain before | same | after := Nat.lt_trichotomy r.stop b
    · exact absurd mark (piece.inner (r.stop - 1) (by omega) (by omega))
    · exact same
    · exact absurd ends (record.inner (b - 1) (by have := piece.lt; omega) (by have := piece.lt; omega))
  refine not_ ?_
  rw [← start, ← stop]
  exact mem

/-- The pieces that end are seen in turn, an event shown for each that is a record, until the page is full. -/
theorem Upto.next (h : Upto parse bytes observation source cursor a s) {s' : Forward T} (lt : a < b)
    (ends : Marks isNewline bytes (b - 1)) (events : s'.events = between parse bytes cursor.position (.at_ b))
    (short : s'.events.length ≤ EVENT_LIMIT) (goes : s'.hasMore = false) (none_ : s'.pending = none)
    (newer : s'.newer = observation.cursor source (.at_ b)) :
    Upto parse bytes observation source cursor b s' where
  from_ := Nat.le_trans h.from_ lt.le
  events := events
  short := short
  goes := goes
  newer := .inr ⟨Nat.lt_of_le_of_lt h.from_ lt, ends, none_, newer⟩

end Steps

/-- A record that is parsed: its events are shown, or the page is full before one of them. -/
theorem step_inline {a b : Nat} {s : Forward T} (h : Upto parse bytes observation source cursor a s)
    (stands : Stands parse bytes observation cursor) (mem : ⟨a, b⟩ ∈ inlineRecords bytes) (up : b ≤ observation.len) :
    Upto parse bytes observation source cursor b
        (forwardStep parse observation source cursor s (.inline ⟨a, b⟩ (slice bytes ⟨a, b⟩))) ∨
      (forwardStep parse observation source cursor s (.inline ⟨a, b⟩ (slice bytes ⟨a, b⟩))).hasMore = true ∧
        Reads parse bytes observation source cursor hi
          (forwardStep parse observation source cursor s (.inline ⟨a, b⟩ (slice bytes ⟨a, b⟩))) := by
  obtain ⟨piece, ends, _⟩ := mem_inlineRecords.mp mem
  have lt : a < b := piece.lt
  have none_ := h.pending_none stands.pends piece.first
  have fresh := h.fresh stands.fits (Nat.le_trans lt.le up)
  have all := @between_record _ parse bytes cursor.position ⟨a, b⟩ mem h.from_
  dsimp only at all
  rw [← h.events] at all
  generalize shows : (eventsOf parse ⟨a, b⟩ (slice bytes ⟨a, b⟩)).drop
    (if a = cursor.position.start then cursor.position.item else 0) = events at all
  have short := h.short
  cases full : events[EVENT_LIMIT - s.events.length]? with
  | none =>
      simp only [forwardStep, none_, shows, full]
      refine .inl (h.next lt ends all.symm ?_ h.goes rfl (cursor_eq fresh.1 fresh.2.1 fresh.2.2.1 fresh.2.2.2 up))
      have fits := List.getElem?_eq_none_iff.mp full
      rw [List.length_append]
      omega
  | some event =>
      simp only [forwardStep, none_, shows, full]
      refine .inr ⟨trivial, ?_⟩
      have some_ : 0 < EVENT_LIMIT := by decide
      obtain ⟨inside, at_⟩ := List.getElem?_eq_some_iff.mp full
      -- The page is full: the event that no longer fits is the first of the next.
      have split : between parse bytes cursor.position (.at_ b) =
          (s.events ++ events.take (EVENT_LIMIT - s.events.length)) ++
            event :: events.drop (EVENT_LIMIT - s.events.length + 1) := by
        rw [all, List.append_assoc, ← at_, ← List.drop_eq_getElem_cons inside, List.take_append_drop]
      have listed : event ∈ between parse bytes cursor.position (.at_ b) :=
        split ▸ List.mem_append_right _ (.head _)
      obtain ⟨known, before, on⟩ := mem_between.mp listed
      have shown : s.events ++ events.take (EVENT_LIMIT - s.events.length) =
          between parse bytes cursor.position event.position := by
        have ordered : InOrder (between parse bytes cursor.position (.at_ b)) := between_inOrder
        rw [split] at ordered
        rw [← ordered.filter_before, ← split, between, between, remaining_before before, List.filter_filter,
          List.filter_filter]
        refine List.filter_congr fun e _ => ?_
        rw [Bool.and_comm]
      have stop : event.position.stop ≤ observation.len := by
        have record := (mem_eventsOf.mp (List.mem_of_mem_drop (shows ▸ List.mem_of_getElem? full))).2.1
        rw [record]
        exact up
      refine ⟨rests_of_event known, on, shown, rfl, version_cursor stop, nofun, fun _ => ⟨?_, rfl⟩, nofun,
        nofun, nofun⟩
      intro nil
      have length := congrArg List.length nil
      change (s.events ++ events.take (EVENT_LIMIT - s.events.length)).length = 0 at length
      rw [List.length_append, List.length_take] at length
      omega

/-- A record that is too long is passed by. -/
theorem step_oversized (h : Upto parse bytes observation source cursor a s)
    (stands : Stands parse bytes observation cursor) (piece : Piece isNewline bytes cursor.position.start hi a b)
    (long : INLINE_RECORD_BYTES < b - a) (ends : Marks isNewline bytes (b - 1)) (begins : Boundary bytes a)
    (up : b ≤ observation.len) : Upto parse bytes observation source cursor b
      (forwardStep parse observation source cursor s (.oversized ⟨a, b⟩)) := by
  have gap := gap_of_piece piece ends fun mem => absurd (mem_inlineRecords.mp mem).2.2 (not_le.mpr long)
  have fresh := h.fresh stands.fits (Nat.le_trans piece.lt.le up)
  refine h.next piece.lt ends ?_ h.short h.goes (h.pending_none stands.pends begins)
    (cursor_eq fresh.1 fresh.2.1 fresh.2.2.1 fresh.2.2.2 up)
  exact h.events.trans (between_gap piece.lt.le gap).symm

/-- The end of what was cut is passed by. -/
theorem step_ended (h : Upto parse bytes observation source cursor a s)
    (stands : Stands parse bytes observation cursor) (piece : Piece isNewline bytes cursor.position.start hi a b)
    (ends : Marks isNewline bytes (b - 1)) (cut : ¬Boundary bytes a) (up : b ≤ observation.len) (missingStart : Bool) :
    Upto parse bytes observation source cursor b
      (forwardStep parse observation source cursor s (.fragment ⟨a, b⟩ missingStart false)) := by
  have gap := gap_of_piece piece ends fun mem => cut (mem_inlineRecords.mp mem).1.first
  have fresh := h.fresh stands.fits (Nat.le_trans piece.lt.le up)
  refine h.next piece.lt ends (h.events.trans (between_gap piece.lt.le gap).symm) h.short h.goes ?_ ?_
  · unfold forwardStep forwardFragment
    simp only [Bool.false_eq_true, false_and, if_false]
  · unfold forwardStep forwardFragment
    simp only [Bool.false_eq_true, false_and, if_false, Bool.false_and]
    exact cursor_eq fresh.1 fresh.2.1 rfl rfl up

/-- The record that goes on past the window: a small one is left, a giant one is pending. -/
theorem step_unended (h : Upto parse bytes observation source cursor a s)
    (stands : Stands parse bytes observation cursor) (piece : Piece isNewline bytes cursor.position.start hi a hi)
    (fits : hi ≤ bytes.length) (goes : ¬Marks isNewline bytes (hi - 1)) (up : hi ≤ observation.len)
    (covers : cursor.position.item ≠ 0 → cursor.position.stop ≤ hi) {missingStart : Bool}
    (cut : missingStart = true ↔ ¬Boundary bytes a) : Reads parse bytes observation source cursor hi
      (forwardStep parse observation source cursor s (.fragment ⟨a, hi⟩ missingStart true)) := by
  have lt := piece.lt
  have unended : ∀ k, a ≤ k → k < hi → ¬Marks isNewline bytes k := by
    intro k ge less
    by_cases last : k + 1 < hi
    · exact piece.inner k ge last
    · have same : k = hi - 1 := by omega
      exact same ▸ goes
  have fresh := h.fresh stands.fits (Nat.le_trans lt.le up)
  unfold forwardStep forwardFragment
  by_cases small : s.pending = none ∧ missingStart = false ∧ hi - a ≤ INLINE_RECORD_BYTES
  · obtain ⟨none_, begun, short⟩ := small
    have begins : Boundary bytes a := by
      by_contra not_
      have cut_ := cut.mpr not_
      rw [begun] at cut_
      cases cut_
    simp only [none_, begun, Option.map_none, Option.getD_none, Bool.false_eq_true, not_false_eq_true, true_and,
      short, if_true, Bool.true_and]
    refine ⟨rests_at (by omega) (.boundary begins), ?_, h.events, fresh.2.1, fresh.1, nofun, ?_, fun _ => ?_, ?_, ?_⟩
    · -- A cursor within a record is before its newline, which the window has.
      rintro (before | ⟨same, before⟩)
      · exact absurd h.from_ (not_le.mpr before)
      · change a = cursor.position.start at same
        have item : cursor.position.item ≠ 0 := Nat.ne_of_gt (Nat.lt_of_le_of_lt (Nat.zero_le _) before)
        obtain ⟨record, ends, _⟩ := mem_inlineRecords.mp (stands.rests.within item).1
        have less := record.lt
        have inside := covers item
        dsimp only at less ends
        exact unended (cursor.position.stop - 1) (by omega) (by omega) ends
    · intro more
      rw [h.goes] at more
      cases more
    · exact ⟨unended, short, nofun⟩
    · exact of_decide_eq_true
    · exact fun _ => .inr rfl
  · have large : Boundary bytes a → INLINE_RECORD_BYTES < hi - a := by
      intro begins
      have none_ := h.pending_none stands.pends begins
      have begun : missingStart = false := by
        by_contra not_
        exact cut.mp (Bool.eq_true_of_not_eq_false not_) begins
      by_contra le
      exact small ⟨none_, begun, not_lt.mp le⟩
    have edge : Edge bytes hi := edge_unended (h.start_edge stands.rests) lt fits piece.inner large
    have gap : ∀ r ∈ inlineRecords bytes, ¬(a ≤ r.start ∧ r.start < hi) := by
      rintro r mem ⟨ge, less⟩
      obtain ⟨record, ends, _⟩ := mem_inlineRecords.mp mem
      have lt := record.lt
      obtain before | after := edge.clean r mem
      · exact unended (r.stop - 1) (by omega) (by omega) ends
      · omega
    have still : ¬(true = true ∧ s.pending = none ∧ ¬((s.pending.map (·.missingStart)).getD missingStart = true) ∧
        hi - a ≤ INLINE_RECORD_BYTES) := by
      rintro ⟨_, none_, begun, short⟩
      rw [none_] at begun
      exact small ⟨none_, Bool.eq_false_of_not_eq_true begun, short⟩
    dsimp only
    rw [if_neg still]
    refine ⟨rests_at fits edge, ?_, h.events.trans (between_gap lt.le gap).symm, fresh.2.1, fresh.1, ?_, ?_,
      fun _ => left_end rfl, ?_, fun _ => .inl rfl⟩
    · rintro (before | ⟨same, _⟩)
      · change hi < cursor.position.start at before
        have := h.from_
        omega
      · change hi = cursor.position.start at same
        have := h.from_
        omega
    · rintro pending mem
      change pending ∈ (if true = true then some _ else none) at mem
      rw [if_pos rfl] at mem
      cases mem
      refine ⟨?_, fun begins => ?_⟩
      · change (s.pending.map (·.start)).getD a ≤ hi
        obtain ⟨rfl, same, _⟩ | ⟨_, _, none_, _⟩ := h.newer
        · rw [same]
          cases is : cursor.pending with
          | none => exact lt.le
          | some pending => exact Nat.le_trans (stands.pends pending is).1 lt.le
        · rw [none_]
          exact lt.le
      · change Boundary bytes hi at begins
        obtain zero | mark := begins
        · omega
        · exact goes mark
    · intro more
      change s.hasMore = true at more
      rw [h.goes] at more
      cases more
    · intro waits
      change (true && decide (hi = observation.len)) = true at waits
      exact of_decide_eq_true waits

theorem forwardSteps_full (full : s.hasMore = true) (pieces : List Record) :
    forwardSteps parse observation source cursor s pieces = s := by
  cases pieces with
  | nil => rfl
  | cons piece pieces => exact if_pos full

theorem Upto.reads (h : Upto parse bytes observation source cursor a s)
    (stands : Stands parse bytes observation cursor) (ends : a = hi) (fits : hi ≤ bytes.length)
    (up : hi ≤ observation.len) : Reads parse bytes observation source cursor hi s := by
  subst ends
  have fresh := h.fresh stands.fits up
  have stays : s.events = between parse bytes cursor.position s.newer.position ∧
      Rests parse bytes s.newer.position ∧ ¬Before s.newer.position cursor.position ∧
      s.newer.position.start = a := by
    obtain ⟨rfl, _, same⟩ | ⟨lt, mark, _, same⟩ := h.newer
    · rw [same]
      refine ⟨h.events.trans ?_, stands.rests, Before.irrefl _, rfl⟩
      have back : ¬Before cursor.position (.at_ cursor.position.start) := fun before =>
        Nat.lt_irrefl _ (before_at.mp before)
      exact (between_eq_nil back).trans (between_eq_nil (Before.irrefl _)).symm
    · rw [same]
      refine ⟨h.events, rests_at fits (.boundary (.inr mark)), ?_, rfl⟩
      rintro (before | ⟨back, _⟩)
      · exact absurd lt (not_lt.mpr before.le)
      · exact absurd lt (back ▸ Nat.lt_irrefl _)
  obtain ⟨events, rests, on, start⟩ := stays
  refine ⟨rests, on, events, fresh.2.1, fresh.1, ?_, ?_, fun _ => left_end start, ?_, fun _ => .inl start⟩
  · intro pending mem
    rw [fresh.2.2.1] at mem
    cases mem
  · intro more
    rw [h.goes] at more
    cases more
  · intro waits
    rw [fresh.2.2.2] at waits
    cases waits

/-- The pieces of a window in turn. -/
theorem forwardSteps_reads (stands : Stands parse bytes observation cursor) (fits : hi ≤ bytes.length)
    (up : hi ≤ observation.len) (covers : cursor.position.item ≠ 0 → cursor.position.stop ≤ hi) (le : a ≤ hi)
    (h : Upto parse bytes observation source cursor a s) : Reads parse bytes observation source cursor hi
      (forwardSteps parse observation source cursor s
        ((ranges isNewline a a ((bytes.drop a).take (hi - a))).map fun r =>
          (readRange bytes observedLen cursor.position.start hi).record ⟨r.1, r.2⟩)) := by
  -- The induction is on the bytes of the window that are left.
  generalize left : hi - a = n
  induction n using Nat.strong_induction_on generalizing a s with
  | _ n ih =>
    subst left
    obtain rfl | lt : a = hi ∨ a < hi := by omega
    · rw [Nat.sub_self, List.take_zero]
      unfold ranges
      rw [if_pos rfl]
      exact h.reads stands rfl fits up
    · obtain ⟨b, piece, cut⟩ := @ranges_cons _ isNewline bytes a hi lt fits
      rw [cut, List.map_cons]
      have less := piece.lt
      have inside : Piece isNewline bytes cursor.position.start hi a b := by
        refine ⟨h.from_, piece.lt, piece.up, ?_, piece.inner, piece.last⟩
        obtain ⟨same, _⟩ | ⟨_, mark, _⟩ := h.newer
        · exact .inl same
        · exact .inr mark
      have seen : b ≤ observation.len := Nat.le_trans piece.up up
      have rest : ∀ {s' : Forward T}, Upto parse bytes observation source cursor b s' →
          Reads parse bytes observation source cursor hi (forwardSteps parse observation source cursor s'
            ((ranges isNewline b b ((bytes.drop b).take (hi - b))).map fun r =>
              (readRange bytes observedLen cursor.position.start hi).record ⟨r.1, r.2⟩)) :=
        fun next => ih (hi - b) (by omega) piece.up next rfl
      have goes : ∀ record pieces, forwardSteps parse observation source cursor s (record :: pieces) =
          forwardSteps parse observation source cursor (forwardStep parse observation source cursor s record)
            pieces := fun record pieces => if_neg (by rw [h.goes]; exact Bool.false_ne_true)
      have begins : (a = cursor.position.start → Boundary bytes cursor.position.start) → Boundary bytes a := by
        intro first
        obtain ⟨same, _⟩ | ⟨_, mark, _⟩ := h.newer
        · exact same ▸ first same
        · exact .inr mark
      rw [goes]
      obtain ⟨is, mem⟩ | ⟨is, long, edge, ends⟩ | ⟨missingStart, missingEnd, is, start, stop, one⟩ :=
        @window_record _ observedLen _ _ fits _ _ inside
      · rw [is]
        obtain next | ⟨full, reads⟩ := @step_inline _ _ _ _ _ _ hi _ _ _ h stands mem seen
        · exact rest next
        · rw [forwardSteps_full full]
          exact reads
      · rw [is]
        exact rest (step_oversized h stands inside long ends (begins edge) seen)
      · rw [is]
        have cut_ : missingStart = true ↔ ¬Boundary bytes a := by
          rw [start]
          refine ⟨fun both => both.1 ▸ both.2, fun not_ => ?_⟩
          obtain ⟨same, _⟩ | ⟨_, mark, _⟩ := h.newer
          · exact ⟨same, same ▸ not_⟩
          · exact absurd (.inr mark) not_
        cases missingEnd with
        | false =>
            have ends : Marks isNewline bytes (b - 1) := by
              by_contra not_
              cases stop.mpr not_
            have begun : missingStart = true := one.resolve_right Bool.false_ne_true
            exact rest (step_ended h stands inside ends (cut_.mp begun) seen missingStart)
        | true =>
            have goes_ := stop.mp rfl
            obtain same : b = hi := piece.last.resolve_left goes_
            subst same
            have none_ : ranges isNewline b b ((bytes.drop b).take (b - b)) = [] := by
              rw [Nat.sub_self, List.take_zero]
              exact if_pos rfl
            rw [none_]
            exact step_unended h stands inside fits goes_ up covers cut_

end Page

end Khor.Adaptor
