/-
Module: Khor.Adaptor.Backward
Purpose: Backward paging is exact: the pages that following older cursors gives are the history of the file
  at the first request, whatever is appended meanwhile, and what is not parsed is referred to.
Trusted boundary: the file can be read, and a read costs at most 16 KiB more on the wire than its bytes
Main exports: older_of_nil, older_of_events, older_step
-/
import Khor.Adaptor.History

namespace Khor.Adaptor

variable {T : Type} {parse : List UInt8 → List T} {bytes : List UInt8} {cursor : Option Cursor}
  {observedLen lo hi : Nat}

/-! ### The pieces of one page -/

/-- The last events of a list, as many as a page has. -/
def lastOf (events : List (Event T)) : List (Event T) := events.drop (events.length - EVENT_LIMIT)

theorem pushBack_eq (events more : List (Event T)) : pushBack events more = lastOf (events ++ more) := by
  simp only [pushBack, lastOf]

/-- The last elements of what is kept are the last ones of all. -/
theorem drop_kept {α : Type} (n : Nat) (a b : List α) :
    (a.drop (a.length - n) ++ b).drop ((a.drop (a.length - n) ++ b).length - n) =
      (a ++ b).drop ((a ++ b).length - n) := by
  have split : (a ++ b).drop (a.length - n) = a.drop (a.length - n) ++ b :=
    List.drop_append_of_le_length (Nat.sub_le _ _)
  rw [← split, List.drop_drop, List.length_drop, List.length_append]
  congr 1
  omega

theorem lastOf_append (a b : List (Event T)) : lastOf (lastOf a ++ b) = lastOf (a ++ b) := by
  simp only [lastOf]
  exact drop_kept _ a b

theorem lastOf_eq_nil {events : List (Event T)} : lastOf events = [] ↔ events = [] := by
  have some : 0 < EVENT_LIMIT := by decide
  rw [lastOf, List.drop_eq_nil_iff, ← List.length_eq_zero_iff]
  generalize EVENT_LIMIT = n at some
  omega

theorem lastOf_length (events : List (Event T)) : (lastOf events).length ≤ EVENT_LIMIT := by
  rw [lastOf, List.length_drop]
  generalize EVENT_LIMIT = n
  omega

theorem lastOf_short {events : List (Event T)} (short : events.length ≤ EVENT_LIMIT) : lastOf events = events := by
  rw [lastOf, Nat.sub_eq_zero_of_le short, List.drop_zero]

/-- What a piece that is not parsed is referred to by. -/
def referenceOf : Record → Option Reference
  | .inline _ _ => none
  | .oversized range => some ⟨range, false, false⟩
  | .fragment range missingStart missingEnd => some ⟨range, missingStart, missingEnd⟩

section Steps

variable (parse) (cursor) (window : TranscriptWindow)

theorem step_events (record : Record) {s : Older T} (short : s.events.length ≤ EVENT_LIMIT) :
    (olderStep parse cursor window s record).events = lastOf (s.events ++ shownOf parse cursor record) := by
  cases record with
  | inline range line => simp only [olderStep, shownOf, pushBack_eq]
  | oversized | fragment => simp only [olderStep, shownOf, List.append_nil, lastOf_short short]

theorem steps_events (records : List Record) {s : Older T} (short : s.events.length ≤ EVENT_LIMIT) :
    (records.foldl (olderStep parse cursor window) s).events =
      lastOf (s.events ++ records.flatMap (shownOf parse cursor)) := by
  induction records generalizing s with
  | nil => rw [List.foldl_nil, List.flatMap_nil, List.append_nil, lastOf_short short]
  | cons record records ih =>
      have here := step_events parse cursor window record short
      have kept : (olderStep parse cursor window s record).events.length ≤ EVENT_LIMIT :=
        here ▸ lastOf_length _
      rw [List.foldl_cons, ih kept, here, lastOf_append, List.append_assoc, List.flatMap_cons]

theorem step_references (record : Record) (s : Older T) :
    (olderStep parse cursor window s record).references = s.references ++ (referenceOf record).toList := by
  cases record with
  | inline range line => simp only [olderStep, referenceOf, Option.toList_none, List.append_nil]
  | oversized | fragment => simp only [olderStep, referenceOf, Option.toList_some]

theorem steps_references (records : List Record) (s : Older T) :
    (records.foldl (olderStep parse cursor window) s).references =
      s.references ++ records.filterMap referenceOf := by
  induction records generalizing s with
  | nil => rw [List.foldl_nil, List.filterMap_nil, List.append_nil]
  | cons record records ih =>
      rw [List.foldl_cons, ih, step_references, List.append_assoc, List.filterMap_cons]
      cases referenceOf record <;> rfl

/-- A piece at the left edge which began before it ends at `stop`. -/
def Leads (window : TranscriptWindow) (stop : Nat) (record : Record) : Prop :=
  ∃ missingEnd, record = .fragment ⟨window.range.start, stop⟩ true missingEnd

theorem step_leading (record : Record) (s : Older T) :
    ((∀ stop, ¬Leads window stop record) ∧ (olderStep parse cursor window s record).leadingEnd = s.leadingEnd) ∨
      ∃ stop, Leads window stop record ∧ (olderStep parse cursor window s record).leadingEnd = some stop := by
  cases record with
  | inline | oversized =>
      refine .inl ⟨?_, by simp only [olderStep]⟩
      rintro stop ⟨_, is⟩
      cases is
  | fragment range missingStart missingEnd =>
      by_cases leads : range.start = window.range.start ∧ missingStart = true
      · refine .inr ⟨range.stop, ⟨missingEnd, by rw [← leads.1, leads.2]⟩, ?_⟩
        simp only [olderStep]
        exact if_pos leads
      · refine .inl ⟨?_, ?_⟩
        · rintro stop ⟨_, is⟩
          cases is
          exact leads ⟨rfl, rfl⟩
        · simp only [olderStep]
          exact if_neg leads

/-- The leading end is that of the piece at the left edge, where that began before it. -/
theorem steps_leading (records : List Record) (s : Older T) :
    ((∀ stop, ∀ record ∈ records, ¬Leads window stop record) ∧
        (records.foldl (olderStep parse cursor window) s).leadingEnd = s.leadingEnd) ∨
      ∃ stop, (∃ record ∈ records, Leads window stop record) ∧
        (records.foldl (olderStep parse cursor window) s).leadingEnd = some stop := by
  induction records generalizing s with
  | nil => exact .inl ⟨fun _ _ mem => absurd mem (List.not_mem_nil), rfl⟩
  | cons record records ih =>
      rw [List.foldl_cons]
      obtain ⟨none_, same⟩ | ⟨stop, ⟨later, mem, leads⟩, is⟩ := ih (olderStep parse cursor window s record)
      · obtain ⟨not_, first⟩ | ⟨stop, leads, is⟩ := step_leading parse cursor window record s
        · refine .inl ⟨fun stop r mem => ?_, same.trans first⟩
          obtain rfl | later := List.mem_cons.mp mem
          · exact not_ stop
          · exact none_ stop r later
        · exact .inr ⟨stop, ⟨record, .head _, leads⟩, same.trans is⟩
      · exact .inr ⟨stop, ⟨later, .tail _ mem, leads⟩, is⟩

end Steps

/-! ### One page -/

/-- A byte that no record which is parsed holds. -/
def Unparsed (bytes : List UInt8) (k : Nat) : Prop :=
  k < bytes.length ∧ ∀ r ∈ inlineRecords bytes, ¬(r.start ≤ k ∧ k < r.stop)

def Page.Refers (page : Page T) (k : Nat) : Prop := ∃ r ∈ page.references, r.range.start ≤ k ∧ k < r.range.stop

/-- What is before a position that is before another. -/
theorem remaining_before {q q' : Position} (before : Before q' q) :
    remaining parse bytes q' = (remaining parse bytes q).filter fun e => Before e.position q' := by
  unfold remaining
  rw [List.filter_filter]
  refine List.filter_congr fun e _ => ?_
  by_cases here : Before e.position q'
  · simp [here, here.trans before]
  · simp [here]

/-- A list in order, cut at a byte. -/
theorem InOrder.cut {es : List (Event T)} (h : InOrder es) (lo : Nat) :
    es = es.filter (fun e => ¬lo ≤ e.position.start) ++ es.filter fun e => lo ≤ e.position.start := by
  refine h.ext (List.pairwise_append.mpr ⟨h.filter _, h.filter _, ?_⟩) fun e => ?_
  · intro e mem e' mem'
    have lt := of_decide_eq_true (List.mem_filter.mp mem).2
    have ge := of_decide_eq_true (List.mem_filter.mp mem').2
    exact .inl (by omega)
  · rw [List.mem_append, List.mem_filter, List.mem_filter, decide_eq_true_eq, decide_eq_true_eq]
    exact ⟨fun mem => (em _).symm.imp (.intro mem) (.intro mem), fun one => one.elim And.left And.left⟩

section Window

variable (le : lo ≤ hi) (fits : hi ≤ bytes.length)
include le fits

theorem leading_piece {record : Record} {stop : Nat}
    (mem : record ∈ (readRange bytes observedLen lo hi).records)
    (leads : Leads (readRange bytes observedLen lo hi) stop record) : Piece isNewline bytes lo hi lo stop := by
  obtain ⟨missingEnd, rfl⟩ := leads
  obtain ⟨i, j, piece, is⟩ := (mem_records le fits).mp mem
  obtain ⟨here, _⟩ | ⟨here, _⟩ | ⟨_, _, here, _⟩ := @window_record _ observedLen _ _ fits _ _ piece
  · rw [here] at is
    cases is
  · rw [here] at is
    cases is
  · rw [here] at is
    cases is
    exact piece

/-- Where no piece at the left edge began before it, the edge stands between records. -/
theorem uncut_edge (lt : lo < hi) (none_ : ∀ stop, ∀ record ∈ (readRange bytes observedLen lo hi).records,
      ¬Leads (readRange bytes observedLen lo hi) stop record) : Boundary bytes lo := by
  have length : (readRange bytes observedLen lo hi).bytes.length = hi - lo := by
    simp only [readRange, List.length_take, List.length_drop]
    omega
  obtain ⟨⟨i, j⟩, mem, ge, inside⟩ := @exists_range _ isNewline lo lo lo
    (readRange bytes observedLen lo hi).bytes (Nat.le_refl _) (by omega) (Nat.le_refl _)
  have piece := (mem_windowRanges le fits).mp mem
  have first : i = lo := Nat.le_antisymm ge piece.from_
  obtain ⟨_, listed⟩ | ⟨_, _, begins, _⟩ | ⟨missingStart, missingEnd, here, start, _⟩ :=
    @window_record _ observedLen _ _ fits _ _ piece
  · obtain zero | mark := (mem_inlineRecords.mp listed).1.first
    · exact .inl (first ▸ zero)
    · exact .inr (first ▸ mark)
  · exact begins first
  · by_contra cut
    have missing := start.mpr ⟨first, cut⟩
    refine none_ j _ ((mem_records le fits).mpr ⟨i, j, piece, here⟩) ⟨missingEnd, ?_⟩
    rw [missing, first]
    rfl

/-- What the window does not parse it refers to. -/
theorem window_refers {k : Nat} (from_ : lo ≤ k) (up : k < hi) (unparsed : Unparsed bytes k) :
    ∃ r ∈ (readRange bytes observedLen lo hi).records.filterMap referenceOf,
      r.range.start ≤ k ∧ k < r.range.stop := by
  have length : (readRange bytes observedLen lo hi).bytes.length = hi - lo := by
    simp only [readRange, List.length_take, List.length_drop]
    omega
  obtain ⟨⟨i, j⟩, mem, ge, inside⟩ := @exists_range _ isNewline lo lo k
    (readRange bytes observedLen lo hi).bytes from_ (by omega) (Nat.le_refl _)
  have piece := (mem_windowRanges le fits).mp mem
  have listed : (readRange bytes observedLen lo hi).record ⟨i, j⟩ ∈
      (readRange bytes observedLen lo hi).records := (mem_records le fits).mpr ⟨i, j, piece, rfl⟩
  obtain ⟨_, parsed⟩ | ⟨here, _⟩ | ⟨_, _, here, _⟩ := @window_record _ observedLen _ _ fits _ _ piece
  · exact absurd ⟨ge, inside⟩ (unparsed.2 _ parsed)
  · exact ⟨_, List.mem_filterMap.mpr ⟨_, listed, by rw [here]; rfl⟩, ge, inside⟩
  · exact ⟨_, List.mem_filterMap.mpr ⟨_, listed, by rw [here]; rfl⟩, ge, inside⟩

end Window

/-- The window of an older page. -/
def olderWindow (bytes : List UInt8) (observedLen : Nat) (cursor : Option Cursor) : TranscriptWindow :=
  readRange bytes observedLen ((limit bytes cursor).bound - (SCAN_BYTES - 1)) (limit bytes cursor).bound

/-- A page gives what stands between a position and where it was to end. -/
structure Continues (parse : List UInt8 → List T) (bytes : List UInt8) (ends : Position) (page : Page T)
    (q : Position) : Prop where
  place : Place parse bytes q
  events : remaining parse bytes ends = remaining parse bytes q ++ page.events
  refers : ∀ k, q.start ≤ k → k < ends.bound → Unparsed bytes k → page.Refers k

section OlderPage

variable {observation : FileVersion} {source : String} {reset : Bool}
  (place : Place parse bytes (limit bytes cursor))

theorem page_events (window : TranscriptWindow) :
    (parseOlder parse window observation source cursor reset).events = lastOf (shown parse cursor window) := by
  unfold parseOlder shown
  exact steps_events parse cursor window window.records (Nat.zero_le _)

/-- The page of a window that shows an event ends before its first one. -/
theorem page_of_events {window : TranscriptWindow} {e : Event T} {rest : List (Event T)}
    (events : (parseOlder parse window observation source cursor reset).events = e :: rest) :
    (parseOlder parse window observation source cursor reset).references =
        (window.records.filterMap referenceOf).filter (fun reference => e.position.start < reference.range.stop) ∧
      (parseOlder parse window observation source cursor reset).older =
        ((some e.position).filter fun position => 0 < position.start || 0 < position.item).map
          (observation.cursor source) := by
  unfold parseOlder at events ⊢
  dsimp only at events ⊢
  rw [events, steps_references]
  exact ⟨rfl, rfl⟩

/-- The page of a window without events ends where its leading piece does, or at its edge. -/
theorem page_of_none {window : TranscriptWindow}
    (events : (parseOlder parse window observation source cursor reset).events = []) :
    (parseOlder parse window observation source cursor reset).references =
        window.records.filterMap referenceOf ∧
      ∃ leadingEnd,
        ((∀ stop, ∀ record ∈ window.records, ¬Leads window stop record) ∧ leadingEnd = none ∨
          ∃ stop, (∃ record ∈ window.records, Leads window stop record) ∧ leadingEnd = some stop) ∧
        (parseOlder parse window observation source cursor reset).older =
          ((window.before.map fun start => Position.at_
              ((leadingEnd.filter fun stop => stop < window.range.stop).getD start)).filter
            fun position => 0 < position.start || 0 < position.item).map (observation.cursor source) := by
  have leading := steps_leading parse cursor window window.records
    ⟨[], [], none, observation.cursor source (.at_ window.range.start)⟩
  unfold parseOlder at events ⊢
  dsimp only at events ⊢
  rw [events, steps_references]
  exact ⟨rfl, _, leading, rfl⟩

include place

/-- A place within a record has an event before it, which the window shows. -/
theorem shown_nil (nil : shown parse cursor (olderWindow bytes observedLen cursor) = []) :
    (limit bytes cursor).item = 0 := by
  by_contra item
  obtain ⟨listed, le⟩ := place.within item
  have piece := (mem_inlineRecords.mp listed).1
  have short := (mem_inlineRecords.mp listed).2.2
  have wide : INLINE_RECORD_BYTES ≤ SCAN_BYTES - 1 := by decide
  have bound : (limit bytes cursor).bound = (limit bytes cursor).stop := if_neg item
  have some_ : 0 < (parse (slice bytes ⟨(limit bytes cursor).start, (limit bytes cursor).stop⟩)).length := by
    omega
  obtain ⟨payload, found⟩ : ∃ payload,
      (parse (slice bytes ⟨(limit bytes cursor).start, (limit bytes cursor).stop⟩))[0]? = some payload :=
    ⟨_, List.getElem?_eq_getElem some_⟩
  have first : (⟨⟨(limit bytes cursor).start, (limit bytes cursor).stop, 0⟩, payload⟩ : Event T) ∈
      shown parse cursor (olderWindow bytes observedLen cursor) := by
    rw [olderWindow, shown_eq place, List.mem_filter, decide_eq_true_eq, remaining, List.mem_filter,
      decide_eq_true_eq]
    refine ⟨⟨mem_history.mpr ⟨_, listed, mem_eventsOf.mpr ⟨rfl, rfl, found⟩⟩, .inr ⟨rfl, ?_⟩⟩, ?_⟩
    · exact Nat.pos_of_ne_zero item
    · dsimp only at short ⊢
      omega
  rw [nil] at first
  cases first

omit place in
theorem remaining_zero {q : Position} (start : q.start = 0) (item : q.item = 0) :
    remaining parse bytes q = [] := by
  unfold remaining
  refine List.filter_eq_nil_iff.mpr fun e _ => ?_
  rw [decide_eq_true_eq]
  unfold Before
  omega

/-- Where nothing is shown the history that remains begins before the window. -/
theorem remaining_of_nil (nil : shown parse cursor (olderWindow bytes observedLen cursor) = []) {s : Nat}
    (from_ : (limit bytes cursor).bound - (SCAN_BYTES - 1) ≤ s) (before : s < (limit bytes cursor).bound) :
    remaining parse bytes (limit bytes cursor) = remaining parse bytes (.at_ s) := by
  have item := shown_nil place nil
  have bound : (limit bytes cursor).bound = (limit bytes cursor).start := if_pos item
  rw [@remaining_before _ parse bytes (limit bytes cursor) (.at_ s) (.inl (bound ▸ before))]
  rw [olderWindow, shown_eq place, List.filter_eq_nil_iff] at nil
  refine (List.filter_eq_self.mpr fun e mem => ?_).symm
  have outside := nil e mem
  rw [decide_eq_true_eq] at outside ⊢
  refine .inl ?_
  change e.position.start < s
  omega

variable {page : Page T}

/-- A page without events goes on before the piece at its left edge, or before that edge. -/
theorem older_of_nil (nil : shown parse cursor (olderWindow bytes observedLen cursor) = [])
    (is : page = parseOlder parse (olderWindow bytes observedLen cursor) observation source cursor reset) :
    ∃ q, Rests parse bytes q ∧ Continues parse bytes (limit bytes cursor) page q ∧
      (page.older = none ∧ q.start = 0 ∧ q.item = 0 ∨
        Before q (limit bytes cursor) ∧ page.older = some (observation.cursor source q)) := by
  have events : page.events = [] := by
    rw [is, page_events, nil]
    exact lastOf_eq_nil.mpr rfl
  obtain ⟨references, leadingEnd, leading, older⟩ := page_of_none (is ▸ events)
  rw [← is] at references older
  have item := shown_nil place nil
  have bound : (limit bytes cursor).bound = (limit bytes cursor).start := if_pos item
  have kept := @remaining_of_nil _ parse _ _ observedLen place nil
  have fits := place.bound_le
  have wide : INLINE_RECORD_BYTES < SCAN_BYTES - 1 := by decide
  unfold olderWindow at references leading older
  generalize SCAN_BYTES - 1 = span at references leading older kept wide
  generalize left : (limit bytes cursor).bound - span = lo at references leading older kept
  have le : lo ≤ (limit bytes cursor).bound := by omega
  have range := @readRange_range _ observedLen _ _ le fits
  have refers : ∀ k, lo ≤ k → k < (limit bytes cursor).bound → Unparsed bytes k → page.Refers k := by
    intro k from_ up unparsed
    unfold Page.Refers
    rw [references]
    exact window_refers le fits from_ up unparsed
  by_cases zero : lo = 0
  · have before : (readRange bytes observedLen lo (limit bytes cursor).bound).before = none :=
      if_neg (by omega)
    have rests : Rests parse bytes (.at_ 0) := rests_at (Nat.zero_le _) (.boundary (.inl rfl))
    refine ⟨.at_ 0, rests, ⟨rests.place, ?_, ?_⟩, .inl ⟨?_, rfl, rfl⟩⟩
    · rw [events, List.append_nil]
      by_cases empty : (limit bytes cursor).bound = 0
      · rw [remaining_zero (by omega) item, remaining_zero rfl rfl]
      · exact kept (by omega) (by omega)
    · exact fun k _ up => refers k (by omega) up
    · rw [older, before]
      rfl
  · have before : (readRange bytes observedLen lo (limit bytes cursor).bound).before = some lo :=
      if_pos (by omega)
    rw [before, range] at older
    -- Whichever end it is, no record is cut there.
    have goes : ∀ s, lo ≤ s → s < (limit bytes cursor).bound →
        Edge bytes s →
        (leadingEnd.filter fun stop => stop < (limit bytes cursor).bound).getD lo = s →
        ∃ q, Rests parse bytes q ∧ Continues parse bytes (limit bytes cursor) page q ∧
          (page.older = none ∧ q.start = 0 ∧ q.item = 0 ∨
            Before q (limit bytes cursor) ∧ page.older = some (observation.cursor source q)) := by
      intro s from_ lt edge same
      have rests : Rests parse bytes (.at_ s) := rests_at (by omega) edge
      refine ⟨.at_ s, rests, ⟨rests.place, ?_, ?_⟩, .inr ⟨.inl (bound ▸ lt), ?_⟩⟩
      · rw [events, List.append_nil]
        exact kept from_ lt
      · exact fun k ge up => refers k (Nat.le_trans from_ ge) up
      · have some_ : 0 < s := by omega
        rw [older]
        simp only [Option.map_some, same, Position.at_, Option.filter_some, some_, decide_true, Bool.true_or,
          if_true]
    obtain ⟨none_, rfl⟩ | ⟨stop, ⟨record, mem, leads⟩, rfl⟩ := leading
    · exact goes lo (Nat.le_refl _) (by omega)
        (.boundary (uncut_edge le fits (by omega) none_)) (by rw [Option.filter_none, Option.getD_none])
    · have piece := leading_piece le fits mem leads
      have lt := piece.lt
      by_cases whole : stop < (limit bytes cursor).bound
      · refine goes stop (by omega) whole (.boundary ?_) ?_
        swap
        · rw [Option.filter_some, if_pos (decide_eq_true whole), Option.getD_some]
        obtain mark | same := piece.last
        · exact .inr mark
        · omega
      · have same : stop = (limit bytes cursor).bound := Nat.le_antisymm piece.up (not_lt.mp whole)
        subst same
        refine goes lo (Nat.le_refl _) (by omega)
          (.giant lo _ (Nat.le_refl _) (by omega) fits (by omega) piece.inner) ?_
        · rw [Option.filter_some, if_neg (by simp), Option.getD_none]

/-- A page with events goes on before the first of them. -/
theorem older_of_events {e : Event T} {rest : List (Event T)}
    (is : page = parseOlder parse (olderWindow bytes observedLen cursor) observation source cursor reset)
    (events : page.events = e :: rest) :
    Rests parse bytes e.position ∧ Continues parse bytes (limit bytes cursor) page e.position ∧
      (page.older = none ∧ e.position.start = 0 ∧ e.position.item = 0 ∨
        Before e.position (limit bytes cursor) ∧ page.older = some (observation.cursor source e.position)) := by
  obtain ⟨references, older⟩ := page_of_events (is ▸ events)
  rw [← is] at references older
  have last : page.events = lastOf (shown parse cursor (olderWindow bytes observedLen cursor)) := by
    rw [is, page_events]
  have window := @shown_eq _ parse _ observedLen _ place
  have fits := place.bound_le
  unfold olderWindow at references last
  generalize (limit bytes cursor).bound - (SCAN_BYTES - 1) = lo at references last window
  generalize remains : remaining parse bytes (limit bytes cursor) = all at window
  have ordered : InOrder all := remains ▸ history_inOrder.filter _
  -- The page has the last events that remain.
  obtain ⟨pre, split⟩ : ∃ pre, all = pre ++ e :: rest := by
    rw [events, window, lastOf] at last
    refine ⟨(all.filter fun e => ¬lo ≤ e.position.start) ++ (all.filter fun e => lo ≤ e.position.start).take
      ((all.filter fun e => lo ≤ e.position.start).length - EVENT_LIMIT), ?_⟩
    rw [last, List.append_assoc, List.take_append_drop]
    exact ordered.cut lo
  have listed : e ∈ all := split ▸ List.mem_append_right _ (.head _)
  have mem : e ∈ history parse bytes ∧ Before e.position (limit bytes cursor) := by
    rw [← remains, remaining, List.mem_filter, decide_eq_true_eq] at listed
    exact listed
  have from_ : lo ≤ e.position.start := by
    have inside : e ∈ page.events := events ▸ List.mem_cons_self
    rw [last, window] at inside
    exact of_decide_eq_true (List.mem_filter.mp (List.mem_of_mem_drop inside)).2
  have before : remaining parse bytes e.position = pre := by
    rw [remaining_before mem.2, remains, split]
    exact (split ▸ ordered).filter_before
  have rests := rests_of_event mem.1
  refine ⟨rests, ⟨rests.place, ?_, ?_⟩, ?_⟩
  · rw [remains, before, events, split]
  · intro k ge up unparsed
    have le : lo ≤ (limit bytes cursor).bound := Nat.le_trans from_ (Nat.le_trans ge up.le)
    obtain ⟨r, refers, start, stop⟩ :=
      @window_refers _ observedLen _ _ le fits k (Nat.le_trans from_ ge) up unparsed
    refine ⟨r, ?_, start, stop⟩
    rw [references, List.mem_filter, decide_eq_true_eq]
    exact ⟨refers, Nat.lt_of_le_of_lt ge stop⟩
  · rw [older]
    by_cases more : 0 < e.position.start ∨ 0 < e.position.item
    · have kept : (decide (0 < e.position.start) || decide (0 < e.position.item)) = true := by
        rw [Bool.or_eq_true, decide_eq_true_eq, decide_eq_true_eq]
        exact more
      rw [Option.filter_some, if_pos kept]
      exact .inr ⟨mem.2, rfl⟩
    · have first : e.position.start = 0 ∧ e.position.item = 0 := by omega
      rw [Option.filter_some, first.1, first.2]
      exact .inl ⟨rfl, rfl, rfl⟩

/-- A page goes on before a place that is before its own end, or it is the first of the file. -/
theorem older_step
    (is : page = parseOlder parse (olderWindow bytes observedLen cursor) observation source cursor reset) :
    ∃ q, Rests parse bytes q ∧ Continues parse bytes (limit bytes cursor) page q ∧
      (page.older = none ∧ q.start = 0 ∧ q.item = 0 ∨
        Before q (limit bytes cursor) ∧ page.older = some (observation.cursor source q)) := by
  by_cases nil : shown parse cursor (olderWindow bytes observedLen cursor) = []
  · exact older_of_nil place nil is
  · cases events : page.events with
    | nil =>
        rw [is, page_events] at events
        exact absurd (lastOf_eq_nil.mp events) nil
    | cons e rest => exact ⟨e.position, older_of_events place is events⟩

end OlderPage

end Khor.Adaptor
