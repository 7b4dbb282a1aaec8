/-
Module: Khor.Adaptor.History
Purpose: The history that a transcript holds: the events of its records that are whole and not too long, in
  file order; and which of them the window of an older page shows.
Trusted boundary: none
Main exports: Before, inlineRecords, history, Place, remaining
-/
import Khor.Adaptor.Page

namespace Khor.Adaptor

/-- In the order of the file, and within a record. -/
def Before (q q' : Position) : Prop := q.start < q'.start ∨ q.start = q'.start ∧ q.item < q'.item

instance (q q' : Position) : Decidable (Before q q') := inferInstanceAs (Decidable (_ ∨ _ ∧ _))

theorem Before.trans {q q' q'' : Position} (h : Before q q') (h' : Before q' q'') : Before q q'' := by
  unfold Before at *
  omega

theorem Before.irrefl (q : Position) : ¬Before q q := by
  unfold Before
  omega

variable {q : Position} {range : Span} {line : List UInt8}

theorem Before.asymm {q' : Position} (h : Before q q') : ¬Before q' q := by
  unfold Before at *
  omega

variable {T : Type}

/-- Events in their order, none twice. -/
def InOrder (events : List (Event T)) : Prop :=
  events.Pairwise fun e e' => Before e.position e'.position

/-- Events in order are known by which they are. -/
theorem InOrder.ext {es es' : List (Event T)} (h : InOrder es) (h' : InOrder es')
    (same : ∀ e, e ∈ es ↔ e ∈ es') : es = es' := by
  have nodup : ∀ {es : List (Event T)}, InOrder es → es.Nodup := fun h =>
    h.imp fun before => by
      rintro rfl
      exact Before.irrefl _ before
  have perm := (List.perm_ext_iff_of_nodup (nodup h) (nodup h')).mpr same
  exact perm.eq_of_pairwise (fun e e' _ _ before after => absurd after before.asymm) h h'

variable {e : Event T}

/-- What stands before an event of a list in order. -/
theorem InOrder.filter_before {pre post : List (Event T)} (h : InOrder (pre ++ e :: post)) :
    (pre ++ e :: post).filter (fun e' => Before e'.position e.position) = pre := by
  obtain ⟨_, after, apart⟩ := List.pairwise_append.mp h
  rw [List.filter_append, List.filter_cons, if_neg (by simpa using Before.irrefl e.position)]
  rw [List.filter_eq_self.mpr, List.filter_eq_nil_iff.mpr, List.append_nil]
  · intro e' mem
    have later := (List.pairwise_cons.mp after).1 e' mem
    simpa using later.asymm
  · intro e' mem
    simpa using apart e' mem e List.mem_cons_self

/-! ### The records of a file -/

def slice (bytes : List UInt8) (r : Span) : List UInt8 := (bytes.drop r.start).take (r.stop - r.start)

/-- The records that end with a newline and are not too long, in file order. -/
def inlineRecords (bytes : List UInt8) : List Span :=
  ((ranges isNewline 0 0 bytes).map fun r => ⟨r.1, r.2⟩).filter fun r =>
    (slice bytes r).getLast?.any isNewline && (r.stop - r.start ≤ INLINE_RECORD_BYTES)

variable (parse : List UInt8 → List T)

/-- What parsing these records gives, in file order. -/
def history (bytes : List UInt8) : List (Event T) :=
  (inlineRecords bytes).flatMap fun r => eventsOf parse r (slice bytes r)

/-- The history before a position. -/
def remaining (bytes : List UInt8) (q : Position) : List (Event T) :=
  (history parse bytes).filter fun e => Before e.position q

variable {parse} {bytes : List UInt8}

theorem slice_length {r : Span} (le : r.start ≤ r.stop) (fits : r.stop ≤ bytes.length) :
    (slice bytes r).length = r.stop - r.start := by
  rw [slice, List.length_take, List.length_drop]
  omega

theorem any_isNewline {o : Option UInt8} : o.any isNewline = true ↔ ∃ a ∈ o, isNewline a = true := by
  cases o <;> simp

theorem slice_last {r : Span} (lt : r.start < r.stop) (fits : r.stop ≤ bytes.length) :
    ((slice bytes r).getLast?.any isNewline = true) ↔ Marks isNewline bytes (r.stop - 1) := by
  rw [any_isNewline, List.getLast?_eq_getElem?, slice_length (by omega) fits, slice,
    List.getElem?_take_of_lt (by omega), List.getElem?_drop,
    show r.start + (r.stop - r.start - 1) = r.stop - 1 by omega]
  rfl

theorem mem_fileRanges {r : Nat × Nat} :
    r ∈ ranges isNewline 0 0 bytes ↔ Piece isNewline bytes 0 bytes.length r.1 r.2 := by
  have mem := @mem_ranges _ isNewline bytes 0 bytes.length (Nat.zero_le _) le_rfl r.1 r.2
  simpa using mem

theorem mem_inlineRecords {r : Span} : r ∈ inlineRecords bytes ↔
    Piece isNewline bytes 0 bytes.length r.start r.stop ∧ Marks isNewline bytes (r.stop - 1) ∧
      r.stop - r.start ≤ INLINE_RECORD_BYTES := by
  unfold inlineRecords
  rw [List.mem_filter, List.mem_map]
  constructor
  · rintro ⟨⟨range, mem, rfl⟩, kept⟩
    have piece := mem_fileRanges.mp mem
    rw [Bool.and_eq_true, slice_last piece.lt piece.up, decide_eq_true_eq] at kept
    exact ⟨piece, kept⟩
  · rintro ⟨piece, kept⟩
    refine ⟨⟨(r.start, r.stop), mem_fileRanges.mpr piece, rfl⟩, ?_⟩
    rw [Bool.and_eq_true, slice_last piece.lt piece.up, decide_eq_true_eq]
    exact kept

/-- Where one record ends the next may begin. -/
theorem inlineRecords_pairwise : (inlineRecords bytes).Pairwise fun r r' => r.stop ≤ r'.start := by
  unfold inlineRecords
  refine List.Pairwise.filter _ (List.pairwise_map.mpr ?_)
  exact ranges_pairwise (Nat.le_refl 0) bytes

theorem mem_eventsOf : e ∈ eventsOf parse range line ↔ e.position.start = range.start ∧ e.position.stop = range.stop ∧
      (parse line)[e.position.item]? = some e.payload := by
  unfold eventsOf
  rw [List.mem_map]
  constructor
  · rintro ⟨⟨payload, item⟩, mem, rfl⟩
    exact ⟨rfl, rfl, (List.mem_zipIdx_iff_getElem?).mp mem⟩
  · rintro ⟨start, stop, found⟩
    refine ⟨(e.payload, e.position.item), List.mem_zipIdx_iff_getElem?.mpr found, ?_⟩
    rw [← start, ← stop]

theorem eventsOf_inOrder (range : Span) (line : List UInt8) : InOrder (eventsOf parse range line) := by
  unfold InOrder eventsOf
  rw [List.pairwise_map, List.pairwise_iff_getElem]
  intro i j hi hj lt
  simp only [List.getElem_zipIdx, Nat.zero_add]
  exact .inr ⟨rfl, lt⟩

/-- The events of records that lie one after the other are in order. -/
theorem flatMap_inOrder {records : List Span} {f : Span → List (Event T)} (line : Span → List UInt8)
    (apart : records.Pairwise fun r r' => r.stop ≤ r'.start) (some : ∀ r ∈ records, r.start < r.stop)
    (sub : ∀ r ∈ records, (f r).Sublist (eventsOf parse r (line r))) : InOrder (records.flatMap f) := by
  unfold InOrder
  rw [List.pairwise_flatMap]
  refine ⟨fun r mem => (eventsOf_inOrder r (line r)).sublist (sub r mem), ?_⟩
  refine apart.imp_of_mem fun {r r'} mem mem' le e inside e' inside' => .inl ?_
  have first := (mem_eventsOf.mp ((sub r mem).subset inside)).1
  have second := (mem_eventsOf.mp ((sub r' mem').subset inside')).1
  have := some r mem
  omega

theorem history_inOrder : InOrder (history parse bytes) :=
  flatMap_inOrder (slice bytes) inlineRecords_pairwise (fun _ mem => (mem_inlineRecords.mp mem).1.lt)
    fun _ _ => List.Sublist.refl _

theorem mem_history : e ∈ history parse bytes ↔
    ∃ r ∈ inlineRecords bytes, e ∈ eventsOf parse r (slice bytes r) := List.mem_flatMap

/-! ### The records of a window -/

/-- The events of a piece that an older page shows. -/
def shownOf (parse : List UInt8 → List T) (cursor : Option Cursor) : Record → List (Event T)
  | .inline range line => upTo cursor range (eventsOf parse range line)
  | _ => []

/-- What the window of an older page has to show. -/
def shown (parse : List UInt8 → List T) (cursor : Option Cursor) (w : TranscriptWindow) : List (Event T) :=
  w.records.flatMap (shownOf parse cursor)

variable {observedLen lo hi : Nat} {cursor : Option Cursor}

theorem readRange_range (le : lo ≤ hi) (fits : hi ≤ bytes.length) :
    (readRange bytes observedLen lo hi).range = ⟨lo, hi⟩ := by
  simp only [readRange, List.length_take, List.length_drop, Span.mk.injEq, true_and]
  omega

/-- A window does not see what is appended after it. -/
theorem readRange_append (le : lo ≤ hi) (fits : hi ≤ bytes.length) (more : List UInt8) :
    readRange (bytes ++ more) observedLen lo hi = readRange bytes observedLen lo hi := by
  have read : ((bytes ++ more).drop lo).take (hi - lo) = (bytes.drop lo).take (hi - lo) := by
    rw [List.drop_append_of_le_length (by omega), List.take_append_of_le_length]
    rw [List.length_drop]
    omega
  have edge : (decide (lo = 0) || (bytes ++ more)[lo - 1]?.any isNewline) =
      (decide (lo = 0) || bytes[lo - 1]?.any isNewline) := by
    by_cases first : lo = 0
    · simp [first]
    · rw [List.getElem?_append_left (by omega)]
  simp only [readRange, read, edge]

theorem beginsRecord_iff : (readRange bytes observedLen lo hi).beginsRecord = true ↔
    lo = 0 ∨ Marks isNewline bytes (lo - 1) := by
  simp only [readRange, Bool.or_eq_true, decide_eq_true_eq, any_isNewline]
  rfl

theorem window_line {i j : Nat} (from_ : lo ≤ i) (lt : i < j) (up : j ≤ hi) :
    ((readRange bytes observedLen lo hi).bytes.drop (i - lo)).take (j - i) = slice bytes ⟨i, j⟩ := by
  simp only [readRange, slice, List.drop_take, List.take_take, List.drop_drop]
  rw [show lo + (i - lo) = i by omega, show min (j - i) (hi - lo - (i - lo)) = j - i by omega]

theorem mem_windowRanges (le : lo ≤ hi) (fits : hi ≤ bytes.length) {r : Nat × Nat} :
    r ∈ ranges isNewline lo lo (readRange bytes observedLen lo hi).bytes ↔
      Piece isNewline bytes lo hi r.1 r.2 :=
  mem_ranges le fits

/-- A piece that begins as a record of the file does, and is whole. -/
theorem piece_of_window {i j : Nat} (h : Piece isNewline bytes lo hi i j) (fits : hi ≤ bytes.length)
    (begins : i = lo → lo = 0 ∨ Marks isNewline bytes (lo - 1)) (ends : Marks isNewline bytes (j - 1)) :
    Piece isNewline bytes 0 bytes.length i j where
  from_ := Nat.zero_le _
  lt := h.lt
  up := h.up.trans fits
  first := by
    obtain same | mark := h.first
    · obtain first | mark := begins same
      · exact .inl (same.trans first)
      · exact .inr (same ▸ mark)
    · exact .inr mark
  inner := h.inner
  last := .inl ends

/-- The record of the file that a window holds is one of its pieces. -/
theorem piece_to_window {i j : Nat} (h : Piece isNewline bytes 0 bytes.length i j)
    (ends : Marks isNewline bytes (j - 1)) (from_ : lo ≤ i) (up : j ≤ hi) :
    Piece isNewline bytes lo hi i j where
  from_ := from_
  lt := h.lt
  up := up
  first := by
    obtain same | mark := h.first
    · exact .inl (by omega)
    · exact .inr mark
  inner := h.inner
  last := .inl ends

/-- A piece of the window, told by what stands at its edges. -/
theorem window_record (fits : hi ≤ bytes.length) {i j : Nat} (h : Piece isNewline bytes lo hi i j) :
    ((readRange bytes observedLen lo hi).record ⟨i, j⟩ = .inline ⟨i, j⟩ (slice bytes ⟨i, j⟩) ∧
        ⟨i, j⟩ ∈ inlineRecords bytes) ∨
      ((readRange bytes observedLen lo hi).record ⟨i, j⟩ = .oversized ⟨i, j⟩ ∧
        INLINE_RECORD_BYTES < j - i ∧ (i = lo → lo = 0 ∨ Marks isNewline bytes (lo - 1)) ∧
        Marks isNewline bytes (j - 1)) ∨
      ∃ missingStart missingEnd,
        (readRange bytes observedLen lo hi).record ⟨i, j⟩ = .fragment ⟨i, j⟩ missingStart missingEnd ∧
          (missingStart = true ↔ i = lo ∧ ¬(lo = 0 ∨ Marks isNewline bytes (lo - 1))) ∧
          (missingEnd = true ↔ ¬Marks isNewline bytes (j - 1)) ∧
          (missingStart = true ∨ missingEnd = true) := by
  have line := @window_line bytes observedLen lo hi i j h.from_ h.lt h.up
  have up := h.up.trans fits
  have length := @slice_length bytes ⟨i, j⟩ h.lt.le up
  have last := @slice_last bytes ⟨i, j⟩ h.lt up
  have startIff : (decide (i = lo) && !(readRange bytes observedLen lo hi).beginsRecord) = true ↔
      i = lo ∧ ¬(lo = 0 ∨ Marks isNewline bytes (lo - 1)) := by
    rw [Bool.and_eq_true, decide_eq_true_eq, Bool.not_eq_true', ← Bool.not_eq_true, beginsRecord_iff]
  have endIff : (!(slice bytes ⟨i, j⟩).getLast?.any isNewline) = true ↔ ¬Marks isNewline bytes (j - 1) := by
    rw [Bool.not_eq_true', ← Bool.not_eq_true, last]
  unfold TranscriptWindow.record
  have start : (readRange bytes observedLen lo hi).range.start = lo := rfl
  simp only [start, line, length]
  by_cases edge : ((decide (i = lo) && !(readRange bytes observedLen lo hi).beginsRecord) ||
      !(slice bytes ⟨i, j⟩).getLast?.any isNewline) = true
  · rw [if_pos edge]
    exact .inr (.inr ⟨_, _, rfl, startIff, endIff, (Bool.or_eq_true _ _).mp edge⟩)
  · rw [if_neg edge]
    rw [Bool.or_eq_true, not_or, startIff, endIff, not_not] at edge
    obtain ⟨uncut, ends⟩ := edge
    have begins : i = lo → lo = 0 ∨ Marks isNewline bytes (lo - 1) :=
      fun same => by_contra fun cut => uncut ⟨same, cut⟩
    by_cases long : INLINE_RECORD_BYTES < j - i
    · rw [if_pos long]
      exact .inr (.inl ⟨rfl, long, begins, ends⟩)
    · rw [if_neg long]
      exact .inl ⟨rfl, mem_inlineRecords.mpr ⟨piece_of_window h fits begins ends, ends, not_lt.mp long⟩⟩

theorem mem_records (le : lo ≤ hi) (fits : hi ≤ bytes.length) {record : Record} :
    record ∈ (readRange bytes observedLen lo hi).records ↔
      ∃ i j, Piece isNewline bytes lo hi i j ∧
        (readRange bytes observedLen lo hi).record ⟨i, j⟩ = record := by
  unfold TranscriptWindow.records
  rw [List.mem_map]
  constructor
  · rintro ⟨⟨i, j⟩, mem, same⟩
    exact ⟨i, j, (mem_windowRanges le fits).mp mem, same⟩
  · rintro ⟨i, j, piece, same⟩
    exact ⟨(i, j), (mem_windowRanges le fits).mpr piece, same⟩

/-- The window's whole records are those of the file that lie in it. -/
theorem inline_mem_records (le : lo ≤ hi) (fits : hi ≤ bytes.length) :
    .inline range line ∈ (readRange bytes observedLen lo hi).records ↔
      range ∈ inlineRecords bytes ∧ lo ≤ range.start ∧ range.stop ≤ hi ∧ line = slice bytes range := by
  rw [mem_records le fits]
  constructor
  · rintro ⟨i, j, piece, same⟩
    obtain ⟨is, mem⟩ | ⟨is, _⟩ | ⟨_, _, is, _⟩ :=
      @window_record _ observedLen _ _ fits _ _ piece
    · rw [is] at same
      cases same
      exact ⟨mem, piece.from_, piece.up, rfl⟩
    · rw [is] at same
      cases same
    · rw [is] at same
      cases same
  · rintro ⟨mem, from_, up, rfl⟩
    obtain ⟨piece, ends, short⟩ := mem_inlineRecords.mp mem
    have here := piece_to_window piece ends from_ up
    refine ⟨range.start, range.stop, here, ?_⟩
    obtain ⟨is, _⟩ | ⟨_, long, _⟩ | ⟨_, _, _, start, stop, cut | cut⟩ :=
      @window_record _ observedLen _ _ fits _ _ here
    · exact is
    · exact absurd short (not_le.mpr long)
    · obtain ⟨same, unbegun⟩ := start.mp cut
      obtain first | mark := piece.first
      · exact absurd (.inl (by omega)) unbegun
      · exact absurd (.inr (same ▸ mark)) unbegun
    · exact absurd ends (stop.mp cut)

/-- The events of a window come in order. -/
theorem shown_inOrder (w : TranscriptWindow) : InOrder (shown parse cursor w) := by
  have spans : shown parse cursor w = ((ranges isNewline w.range.start w.range.start w.bytes).map
      fun r => (⟨r.1, r.2⟩ : Span)).flatMap fun r => shownOf parse cursor (w.record r) := by
    rw [shown, TranscriptWindow.records, List.flatMap_map, List.flatMap_map]
  rw [spans]
  refine @flatMap_inOrder _ parse _ _ (fun r => (w.bytes.drop (r.start - w.range.start)).take (r.stop - r.start))
    (List.pairwise_map.mpr (ranges_pairwise le_rfl _)) ?_ ?_
  · rintro r mem
    obtain ⟨range, listed, rfl⟩ := List.mem_map.mp mem
    exact (le_of_mem_ranges le_rfl listed).2
  · rintro r -
    unfold TranscriptWindow.record
    dsimp only
    split
    · exact List.nil_sublist _
    · split
      · exact List.nil_sublist _
      · simp only [shownOf, upTo]
        split
        · split
          · exact List.take_sublist _ _
          · exact List.Sublist.refl _
        · exact List.Sublist.refl _

/-! ### What an older page has to show -/

/-- Where an older page can be asked to stop: between records, within one, or inside a giant one. -/
structure Place (parse : List UInt8 → List T) (bytes : List UInt8) (q : Position) : Prop where
  le : q.start ≤ q.stop
  fits : q.stop ≤ bytes.length
  clean : q.item = 0 → ∀ r ∈ inlineRecords bytes, r.stop ≤ q.start ∨ q.start ≤ r.start
  within : q.item ≠ 0 → ⟨q.start, q.stop⟩ ∈ inlineRecords bytes ∧
    q.item ≤ (parse (slice bytes ⟨q.start, q.stop⟩)).length

/-- A record begins here. -/
def Boundary (bytes : List UInt8) (s : Nat) : Prop := s = 0 ∨ Marks isNewline bytes (s - 1)

/-- No record that is parsed is cut here, whatever is appended: one begins, or a giant one goes on. -/
inductive Edge (bytes : List UInt8) (s : Nat) : Prop
  | boundary (begins : Boundary bytes s)
  | giant (lo hi : Nat) (from_ : lo ≤ s) (up : s ≤ hi) (fits : hi ≤ bytes.length)
      (long : INLINE_RECORD_BYTES < hi - lo) (inner : ∀ k, lo ≤ k → k + 1 < hi → ¬Marks isNewline bytes k)

theorem Edge.clean {s : Nat} (h : Edge bytes s) : ∀ r ∈ inlineRecords bytes, r.stop ≤ s ∨ s ≤ r.start := by
  intro r mem
  obtain ⟨piece, ends, short⟩ := mem_inlineRecords.mp mem
  have lt := piece.lt
  by_contra cut
  cases h with
  | boundary begins =>
      obtain rfl | mark := begins
      · exact cut (.inr (Nat.zero_le _))
      · exact piece.inner (s - 1) (by omega) (by omega) mark
  | giant lo hi from_ up fits long inner =>
      -- The record would hold all of the giant one's bytes.
      have right : hi ≤ r.stop := by
        by_contra less
        exact inner (r.stop - 1) (by omega) (by omega) ends
      have left : r.start ≤ lo := by
        by_contra more
        obtain first | mark := piece.first
        · omega
        · exact inner (r.start - 1) (by omega) (by omega) mark
      omega

/-- A place that stays one, whatever is appended. -/
structure Rests (parse : List UInt8 → List T) (bytes : List UInt8) (q : Position) : Prop where
  le : q.start ≤ q.stop
  fits : q.stop ≤ bytes.length
  edge : q.item = 0 → Edge bytes q.start
  within : q.item ≠ 0 → ⟨q.start, q.stop⟩ ∈ inlineRecords bytes ∧
    q.item ≤ (parse (slice bytes ⟨q.start, q.stop⟩)).length

theorem Rests.place (h : Rests parse bytes q) : Place parse bytes q :=
  ⟨h.le, h.fits, fun item => (h.edge item).clean, h.within⟩

theorem rests_at {s : Nat} (fits : s ≤ bytes.length) (edge : Edge bytes s) : Rests parse bytes (.at_ s) where
  le := Nat.le_refl _
  fits := fits
  edge := fun _ => edge
  within := fun other => absurd rfl other

/-- The place where a record's event stands. -/
theorem rests_of_event (mem : e ∈ history parse bytes) : Rests parse bytes e.position := by
  obtain ⟨r, listed, inside⟩ := mem_history.mp mem
  obtain ⟨start, stop, found⟩ := mem_eventsOf.mp inside
  obtain ⟨piece, _, _⟩ := mem_inlineRecords.mp listed
  have range : (⟨e.position.start, e.position.stop⟩ : Span) = r := by rw [start, stop]
  refine ⟨by have := piece.lt; omega, by have := piece.up; omega, fun _ => .boundary ?_, fun _ => ?_⟩
  · rw [start]
    exact piece.first
  · rw [range]
    exact ⟨listed, (List.getElem?_eq_some_iff.mp found).1.le⟩

def Position.bound (q : Position) : Nat := if q.item = 0 then q.start else q.stop

/-- The position that an older page ends at. -/
def limit (bytes : List UInt8) (cursor : Option Cursor) : Position :=
  (cursor.map (·.position)).getD (.at_ bytes.length)

theorem Place.bound_le (place : Place parse bytes q) : q.bound ≤ bytes.length := by
  have le := place.le
  have fits := place.fits
  unfold Position.bound
  split <;> omega

theorem Place.start_le (place : Place parse bytes q) : q.start ≤ q.bound := by
  have le := place.le
  unfold Position.bound
  split <;> omega

/-- Records do not overlap. -/
theorem inlineRecords_apart {r r' : Span} (mem : r ∈ inlineRecords bytes) (mem' : r' ∈ inlineRecords bytes) :
    r = r' ∨ r.stop ≤ r'.start ∨ r'.stop ≤ r.start := by
  have piece := (mem_inlineRecords.mp mem).1
  have piece' := (mem_inlineRecords.mp mem').1
  by_cases first : r.start ≤ r'.start
  · by_cases inside : r'.start < r.stop
    · obtain ⟨start, stop⟩ := piece.unique piece' first inside
      exact .inl (by cases r; cases r'; simp_all)
    · exact .inr (.inl (not_lt.mp inside))
  · by_cases inside : r.start < r'.stop
    · obtain ⟨start, stop⟩ := piece'.unique piece (not_le.mp first).le inside
      exact .inl (by cases r; cases r'; simp_all)
    · exact .inr (.inr (not_lt.mp inside))

theorem mem_take_eventsOf {n : Nat} :
    e ∈ (eventsOf parse range line).take n ↔ e ∈ eventsOf parse range line ∧ e.position.item < n := by
  have at_ : ∀ {i}, (eventsOf parse range line)[i]? = some e → e.position.item = i := by
    intro i found
    simp only [eventsOf, List.getElem?_map, List.getElem?_zipIdx, Nat.zero_add, Option.map_eq_some_iff] at found
    obtain ⟨_, ⟨_, _, rfl⟩, rfl⟩ := found
    rfl
  constructor
  · intro mem
    obtain ⟨i, found⟩ := List.mem_iff_getElem?.mp mem
    have lt : i < n := by
      by_contra ge
      rw [List.getElem?_take, if_neg ge] at found
      cases found
    rw [List.getElem?_take_of_lt lt] at found
    exact ⟨List.mem_of_getElem? found, at_ found ▸ lt⟩
  · rintro ⟨mem, lt⟩
    obtain ⟨i, found⟩ := List.mem_iff_getElem?.mp mem
    rw [at_ found] at lt
    exact List.mem_iff_getElem?.mpr ⟨i, by rw [List.getElem?_take_of_lt lt, found]⟩

theorem mem_upTo : e ∈ upTo cursor range (eventsOf parse range line) ↔ e ∈ eventsOf parse range line ∧
      ∀ c ∈ cursor, range.start = c.position.start → e.position.item < c.position.item := by
  unfold upTo
  split
  · next c =>
    split
    · next same => rw [mem_take_eventsOf]; simp [same]
    · next other => simp [other]
  · simp

/-- What is before a position lies before its bound, and within its record before its item. -/
theorem Place.before_iff (place : Place parse bytes q) (mem : range ∈ inlineRecords bytes) {e : Position}
    (start : e.start = range.start) :
    Before e q ↔ range.stop ≤ q.bound ∧ (range.start = q.start → e.item < q.item) := by
  have lt := (mem_inlineRecords.mp mem).1.lt
  unfold Before Position.bound
  by_cases item : q.item = 0
  · rw [if_pos item]
    have clean := place.clean item range mem
    omega
  · rw [if_neg item]
    obtain ⟨record, _⟩ := place.within item
    have inside : q.start < q.stop := (mem_inlineRecords.mp record).1.lt
    obtain rfl | before | after := inlineRecords_apart mem record
    · dsimp only at start ⊢
      omega
    · dsimp only at before
      omega
    · dsimp only at after
      omega

/-- The window of an older page shows the history from its left edge up to where the page is to end. -/
theorem shown_eq (place : Place parse bytes (limit bytes cursor)) :
    shown parse cursor (readRange bytes observedLen ((limit bytes cursor).bound - (SCAN_BYTES - 1))
        (limit bytes cursor).bound) =
      (remaining parse bytes (limit bytes cursor)).filter fun e =>
        (limit bytes cursor).bound - (SCAN_BYTES - 1) ≤ e.position.start := by
  generalize left : (limit bytes cursor).bound - (SCAN_BYTES - 1) = lo
  have le : lo ≤ (limit bytes cursor).bound := by omega
  have asked : ∀ {range : Span} {e : Event T}, range ∈ inlineRecords bytes → e.position.start = range.start →
      range.stop ≤ (limit bytes cursor).bound →
      ((∀ c ∈ cursor, range.start = c.position.start → e.position.item < c.position.item) ↔
        (range.start = (limit bytes cursor).start → e.position.item < (limit bytes cursor).item)) := by
    intro range e mem start up
    cases cursor with
    | some c => simp [limit]
    | none =>
        have lt := (mem_inlineRecords.mp mem).1.lt
        have bound : (limit bytes none).bound = bytes.length := rfl
        have first : (limit bytes none).start = bytes.length := rfl
        simp only [reduceCtorEq, Option.mem_def, false_implies, implies_true, true_iff]
        omega
  refine (shown_inOrder _).ext ((history_inOrder.filter _).filter _) fun e => ?_
  rw [List.mem_filter, decide_eq_true_eq, remaining, List.mem_filter, decide_eq_true_eq, mem_history]
  unfold shown
  rw [List.mem_flatMap]
  constructor
  · rintro ⟨record, holds, inside⟩
    cases record with
    | oversized | fragment => cases inside
    | inline range line =>
        obtain ⟨mem, from_, up, rfl⟩ := (inline_mem_records le place.bound_le).mp holds
        obtain ⟨inside, before⟩ := mem_upTo.mp inside
        have start := (mem_eventsOf.mp inside).1
        exact ⟨⟨⟨range, mem, inside⟩, (place.before_iff mem start).mpr ⟨up, (asked mem start up).mp before⟩⟩,
          start ▸ from_⟩
  · rintro ⟨⟨⟨range, mem, inside⟩, before⟩, from_⟩
    have start := (mem_eventsOf.mp inside).1
    obtain ⟨up, before⟩ := (place.before_iff mem start).mp before
    exact ⟨.inline range (slice bytes range), (inline_mem_records le place.bound_le).mpr
      ⟨mem, start ▸ from_, up, rfl⟩, mem_upTo.mpr ⟨inside, (asked mem start up).mpr before⟩⟩

end Khor.Adaptor
