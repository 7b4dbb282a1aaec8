/-
Module: Khor.Adaptor.Paging
Purpose: Reading a transcript backward: a file that is only appended to can be read at each older cursor, and
  the pages from the tail to the beginning are its history as the tail was read.
Trusted boundary: the file can be read, and a read costs at most 16 KiB more on the wire than its bytes
Main exports: Grown, Fits, Pages, readPage_ok, older_pages_exact
-/
import Khor.Adaptor.Backward

namespace Khor.Adaptor

variable {T : Type} {parse : List UInt8 → List T} {wire : PreparedRead → Nat}

/-- A version that is accepted: the file has a name, and its time is one. -/
structure Readable (f : File) : Prop where
  named : 0 < f.identity.utf8ByteSize
  short : f.identity.utf8ByteSize ≤ 256
  nanos : f.modified.2 < 1000000000

/-- The file later, when it has only been appended to. -/
structure Grown (f f' : File) : Prop where
  same : f'.identity = f.identity
  appended : ∃ more, f'.bytes = f.bytes ++ more
  untouched : f'.bytes.length = f.bytes.length → f'.modified = f.modified

/-- The wire takes every window, with a name that is not too long. -/
def Fits (wire : PreparedRead → Nat) : Prop :=
  ∀ prepared : PreparedRead, prepared.observation.file.utf8ByteSize ≤ 256 →
    (∀ window ∈ prepared.window, window.bytes.length < SCAN_BYTES) → wire prepared ≤ WINDOW_WIRE_BYTES

/-! ### A file that grows -/

theorem Grown.refl (f : File) : Grown f f := ⟨rfl, ⟨[], (List.append_nil _).symm⟩, fun _ => rfl⟩

variable {f f' : File} {c : Cursor}

theorem Grown.length_le (h : Grown f f') : f.bytes.length ≤ f'.bytes.length := by
  obtain ⟨more, same⟩ := h.appended
  rw [same, List.length_append]
  exact Nat.le_add_right _ _

theorem Grown.trans {f f' f'' : File} (h : Grown f f') (h' : Grown f' f'') : Grown f f'' where
  same := h'.same.trans h.same
  appended := by
    obtain ⟨more, same⟩ := h.appended
    obtain ⟨more', same'⟩ := h'.appended
    exact ⟨more ++ more', by rw [same', same, List.append_assoc]⟩
  untouched := fun length => by
    have le := h.length_le
    have le' := h'.length_le
    exact (h'.untouched (by omega)).trans (h.untouched (by omega))

/-- A cursor that is current for a file is so when the file has grown. -/
theorem changed_grown (h : Grown f f') (current : (FileVersion.of f).changed c = false) :
    (FileVersion.of f').changed c = false := by
  unfold FileVersion.changed FileVersion.of at *
  simp only [Bool.or_eq_false_iff, Bool.and_eq_false_iff, decide_eq_false_iff_not, ne_eq, not_not] at current ⊢
  obtain ⟨⟨file, len⟩, modified⟩ := current
  have le := h.length_le
  refine ⟨⟨h.same.trans file, by omega⟩, ?_⟩
  by_cases same : f'.bytes.length = c.len
  · refine .inr ((h.untouched (by omega)).trans (modified.resolve_left ?_))
    omega
  · exact .inl same

theorem len_le_of_current (current : (FileVersion.of f).changed c = false) : c.len ≤ f.bytes.length := by
  unfold FileVersion.changed at current
  rw [Bool.or_eq_false_iff, Bool.or_eq_false_iff, decide_eq_false_iff_not, decide_eq_false_iff_not] at current
  exact not_lt.mp current.1.2

/-! ### Reading one page -/

section Read

variable {f f' : File} {source : String} {cursor : Option Cursor} {lo hi : Nat}

theorem window_validate (le : lo ≤ hi) (fits : hi ≤ f.bytes.length) (small : hi - lo < SCAN_BYTES) :
    (readRange f.bytes f.bytes.length lo hi).validate = .ok () := by
  have length : (readRange f.bytes f.bytes.length lo hi).bytes.length = hi - lo := by
    simp only [readRange, List.length_take, List.length_drop]
    omega
  have range := @readRange_range _ f.bytes.length _ _ le fits
  unfold TranscriptWindow.validate
  rw [length, range]
  refine if_neg ?_
  rintro (large | back | other | short | before | edge)
  · exact absurd small (not_lt.mpr large)
  · exact absurd le (not_le.mpr back)
  · exact other rfl
  · exact absurd fits (not_le.mpr short)
  · exact before rfl
  · have begins := (@beginsRecord_iff f.bytes f.bytes.length lo hi).mpr (.inl edge.1)
    rw [edge.2] at begins
    cases begins

/-- A window of the file as it was, with a later version of it, passes its checks. -/
theorem prepared_validate (readable : Readable f') (fitsWire : Fits wire)
    (later : f.bytes.length ≤ f'.bytes.length) (le : lo ≤ hi) (fits : hi ≤ f.bytes.length)
    (small : hi - lo < SCAN_BYTES) (forward : Bool) :
    PreparedRead.validate wire
      ⟨FileVersion.of f', some (readRange f.bytes f.bytes.length lo hi), forward, false⟩ = .ok () := by
  have length : (readRange f.bytes f.bytes.length lo hi).bytes.length = hi - lo := by
    simp only [readRange, List.length_take, List.length_drop]
    omega
  have budget := fitsWire ⟨FileVersion.of f', some (readRange f.bytes f.bytes.length lo hi), forward, false⟩
    readable.short (by rintro _ ⟨⟩; rw [length]; exact small)
  have version : ¬(f'.identity.utf8ByteSize = 0 ∨ 256 < f'.identity.utf8ByteSize ∨
      1000000000 ≤ f'.modified.2) := by
    have named := readable.named
    have short := readable.short
    have nanos := readable.nanos
    omega
  have observed : ¬f'.bytes.length < (readRange f.bytes f.bytes.length lo hi).observedLen := not_lt.mpr later
  have checked : PreparedRead.validateWindow
      ⟨FileVersion.of f', some (readRange f.bytes f.bytes.length lo hi), forward, false⟩ = .ok () := by
    unfold PreparedRead.validateWindow
    dsimp only
    rw [window_validate le fits small]
    exact if_neg observed
  unfold PreparedRead.validate
  rw [checked]
  exact (if_neg version).trans (if_neg (not_lt.mpr budget))

/-- A window that passes its own checks, of the range that is asked for. -/
theorem validateRequest_of {observation : FileVersion} {window : TranscriptWindow} {newer : Bool}
    (valid : PreparedRead.validate wire ⟨observation, some window, newer, false⟩ = .ok ())
    (same : cursor.any observation.changed = false) (recent : ∀ c ∈ cursor, c.len ≤ window.observedLen)
    (asked : requested window cursor newer = .ok window.range) :
    PreparedRead.validateRequest wire ⟨observation, some window, newer, false⟩ cursor newer = .ok () := by
  have known : (cursor.any fun c => (some window).any fun window => window.observedLen < c.len) = false := by
    cases cursor with
    | none => rfl
    | some c => exact decide_eq_false (not_lt.mpr (recent c rfl))
  unfold PreparedRead.validateRequest
  simp only [valid, bind, Except.bind, Bool.false_eq_true, if_false, Bool.not_false, Bool.and_true, ne_eq, not_true,
    same, known, asked]

/-- A cursor that the file as it is accepts. -/
structure Accepts (f : File) (source : String) (c : Cursor) : Prop where
  source : c.source = source
  le : c.position.start ≤ c.position.stop
  fits : c.position.stop ≤ c.len
  pending : c.pending = none
  current : (FileVersion.of f).changed c = false

theorem Accepts.grown (h : Accepts f source c) (grown : Grown f f') : Accepts f' source c :=
  { h with current := changed_grown grown h.current }

theorem Accepts.checkCursor (h : Accepts f source c) : checkCursor source (some c) = .ok () := by
  unfold Adaptor.checkCursor
  dsimp only
  rw [if_neg (not_not.mpr h.source), h.pending, if_neg]
  rintro (back | short | pending)
  · exact absurd h.le (not_le.mpr back)
  · exact absurd h.fits (not_le.mpr short)
  · cases pending

/-- Where an older page stops to read. -/
def stopOf (f : File) (cursor : Option Cursor) : Nat := (cursor.map Cursor.bound).getD f.bytes.length

/-- The window before a cursor, of the file as it is. -/
def windowOf (f : File) (cursor : Option Cursor) : TranscriptWindow :=
  readRange f.bytes f.bytes.length (stopOf f cursor - (SCAN_BYTES - 1)) (stopOf f cursor)

section Accepted

variable (accepts : ∀ c ∈ cursor, Accepts f source c)
include accepts

theorem checkCursor_ok : checkCursor source cursor = .ok () := by
  cases cursor with
  | none => rfl
  | some c => exact (accepts c rfl).checkCursor

theorem not_changed : cursor.any (FileVersion.of f).changed = false := by
  cases cursor with
  | none => rfl
  | some c => exact (accepts c rfl).current

theorem stopOf_le : stopOf f cursor ≤ f.bytes.length := by
  cases cursor with
  | none => exact Nat.le_refl _
  | some c =>
      have ok := accepts c rfl
      have le := ok.le
      refine Nat.le_trans ?_ (Nat.le_trans ok.fits (len_le_of_current ok.current))
      change Cursor.bound c ≤ _
      unfold Cursor.bound
      split <;> omega

theorem readWindow_eq : readWindow f.bytes (cursor.map Cursor.bound) = windowOf f cursor := by
  have le := stopOf_le accepts
  have same : min ((cursor.map Cursor.bound).getD f.bytes.length) f.bytes.length = stopOf f cursor :=
    Nat.min_eq_left le
  unfold readWindow windowOf
  dsimp only
  rw [same]

theorem validateRequest_ok (readable : Readable f') (grown : Grown f f') (fitsWire : Fits wire) :
    PreparedRead.validateRequest wire ⟨FileVersion.of f', some (windowOf f cursor), false, false⟩ cursor false =
      .ok () := by
  have le := stopOf_le accepts
  have span : stopOf f cursor - (SCAN_BYTES - 1) ≤ stopOf f cursor := Nat.sub_le _ _
  have small : stopOf f cursor - (stopOf f cursor - (SCAN_BYTES - 1)) < SCAN_BYTES := by
    have some_ : 0 < SCAN_BYTES := by decide
    generalize SCAN_BYTES = scan at some_
    omega
  have range := @readRange_range _ f.bytes.length _ _ span le
  have valid := @prepared_validate wire f f' _ _ readable fitsWire grown.length_le span le small false
  refine validateRequest_of valid (not_changed fun c is => (accepts c is).grown grown)
    (fun c is => len_le_of_current (accepts c is).current) ?_
  have stop : (cursor.map Cursor.bound).getD (windowOf f cursor).observedLen = stopOf f cursor := rfl
  unfold requested
  rw [if_neg Bool.false_ne_true, stop, windowOf, range]

end Accepted

/-- The window before a cursor is read and taken, though the file grows meanwhile. -/
theorem readPage_ok {file : Nat → File} (accepts : ∀ c ∈ cursor, Accepts (file 0) source c)
    (first : Grown (file 0) (file 1)) (second : Grown (file 1) (file 2)) (readable : Readable (file 2))
    (fitsWire : Fits wire) :
    readPage parse wire file source cursor false =
      .ok (parseOlder parse (windowOf (file 1) cursor) (FileVersion.of (file 2)) source cursor false) := by
  have accepts' : ∀ c ∈ cursor, Accepts (file 1) source c := fun c is => (accepts c is).grown first
  have checked := checkCursor_ok accepts
  have current := not_changed accepts
  have within : (cursor.any fun cursor => (FileVersion.of (file 0)).len < cursor.position.stop) = false := by
    cases cursor with
    | none => rfl
    | some c =>
        exact decide_eq_false (not_lt.mpr (Nat.le_trans (accepts c rfl).fits (len_le_of_current (accepts c rfl).current)))
  have window := readWindow_eq accepts'
  have asked := @validateRequest_ok wire _ _ _ _ accepts' readable second fitsWire
  have older : prepareOlder wire (file 0) (file 1) (file 2) source cursor false false =
      .ok ⟨FileVersion.of (file 2), some (windowOf (file 1) cursor), false, false⟩ := by
    have observed : ¬(FileVersion.of (file 2)).len < (windowOf (file 1) cursor).observedLen :=
      not_lt.mpr second.length_le
    unfold prepareOlder
    simp only [checked, current, checkCancelled, bind, Except.bind, Bool.false_eq_true, if_false, within, window,
      asked, observed]
  unfold readPage prepareRead parsePrepared
  simp only [checked, checkCancelled, bind, Except.bind, Bool.false_eq_true, if_false, false_and, Bool.false_and,
    older, asked]

end Read

/-! ### Reading every page -/

/-- What following the older cursors gives, the file being `file n` when the `n`th page is read. -/
inductive Pages (parse : List UInt8 → List T) (wire : PreparedRead → Nat) (file : Nat → File)
    (source : String) : Nat → Option Cursor → List (Page T) → Prop
  | last {n cursor page} (read : readPage parse wire (fun _ => file n) source cursor false = .ok page)
      (ends : page.older = none) : Pages parse wire file source n cursor [page]
  | next {n cursor page c pages} (read : readPage parse wire (fun _ => file n) source cursor false = .ok page)
      (older : page.older = some c) (rest : Pages parse wire file source (n + 1) (some c) pages) :
      Pages parse wire file source n cursor (page :: pages)

theorem Pages.length_pos {file : Nat → File} {source : String} {n : Nat} {cursor : Option Cursor} {pages : List (Page T)}
    (h : Pages parse wire file source n cursor pages) : 0 < pages.length := by
  cases h <;> exact Nat.succ_pos _

theorem before_wf : WellFounded Before := by
  have lex : WellFounded (Prod.Lex (· < ·) (· < · : Nat → Nat → Prop)) :=
    (Prod.lex Nat.lt_wfRel Nat.lt_wfRel).wf
  refine Subrelation.wf ?_ (InvImage.wf (fun q : Position => (q.start, q.item)) lex)
  rintro q q' (start | ⟨start, item⟩)
  · exact Prod.Lex.left _ _ start
  · unfold InvImage
    dsimp only
    rw [start]
    exact Prod.Lex.right _ item

section Run

variable {file : Nat → File} {source : String} {bytes : List UInt8}

/-- A page's older cursor is accepted by the file after it has grown. -/
theorem accepts_older {q : Position} (grown : Grown f f') (le : q.start ≤ q.stop) (fits : q.stop ≤ f.bytes.length) :
    Accepts f' source ((FileVersion.of f).cursor source q) := by
  obtain ⟨more, appended⟩ := grown.appended
  have longer : f.bytes.length ≤ f'.bytes.length := by
    rw [appended, List.length_append]
    exact Nat.le_add_right _ _
  have len : ((FileVersion.of f).cursor source q).len = f.bytes.length := Nat.max_eq_left fits
  refine ⟨rfl, le, Nat.le_max_right _ _, rfl, ?_⟩
  unfold FileVersion.changed
  rw [len]
  simp only [FileVersion.of, FileVersion.cursor, grown.same, ne_eq, not_true, decide_false, Bool.false_or,
    Bool.or_eq_false_iff, Bool.and_eq_false_iff, decide_eq_false_iff_not, not_lt, not_not]
  exact ⟨longer, (em _).symm.imp id grown.untouched⟩

/-- The bytes before the end of a page are those that were there at the first one. -/
theorem windowOf_eq {f : File} {cursor : Option Cursor} (place : Place parse bytes (limit bytes cursor))
    (appended : ∃ more, f.bytes = bytes ++ more) (stop : stopOf f cursor = (limit bytes cursor).bound) :
    windowOf f cursor = olderWindow bytes f.bytes.length cursor := by
  obtain ⟨more, appended⟩ := appended
  unfold windowOf olderWindow
  rw [stop, appended]
  generalize SCAN_BYTES - 1 = span
  exact readRange_append (Nat.sub_le _ _) place.bound_le more

/-- From any place the pages give what was before it, and refer to what they do not parse. -/
theorem pages_from (fitsWire : Fits wire) (readable : ∀ n, Readable (file n))
    (grown : ∀ n, Grown (file n) (file (n + 1))) (ends : Position) {n : Nat} {cursor : Option Cursor}
    (at_ : limit bytes cursor = ends) (place : Place parse bytes ends)
    (appended : ∃ more, (file n).bytes = bytes ++ more) (stop : stopOf (file n) cursor = ends.bound)
    (accepts : ∀ c ∈ cursor, Accepts (file n) source c) :
    ∃ pages, Pages parse wire file source n cursor pages ∧
      pages.reverse.flatMap (·.events) = remaining parse bytes ends ∧
      (∀ c ∈ pages.filterMap (·.older), Before c.position ends) ∧
      ((pages.filterMap (·.older)).Pairwise fun c c' => Before c'.position c.position) ∧
      ∀ k < ends.bound, Unparsed bytes k → ∃ page ∈ pages, page.Refers k := by
  induction ends using before_wf.induction generalizing n cursor with
  | _ ends ih =>
    subst at_
    have read := @readPage_ok _ parse wire _ _ (fun _ => file n) accepts (.refl _) (.refl _) (readable n) fitsWire
    rw [windowOf_eq place appended stop] at read
    obtain ⟨page, is⟩ : ∃ page, page = parseOlder parse (olderWindow bytes (file n).bytes.length cursor)
        (FileVersion.of (file n)) source cursor false := ⟨_, rfl⟩
    rw [← is] at read
    obtain ⟨q, _, continues, ⟨older, start, item⟩ | ⟨before, older⟩⟩ := older_step place is
    · refine ⟨[page], .last read older, ?_, ?_, ?_, ?_⟩
      · rw [continues.events, remaining_zero start item]
        simp
      · simp [older]
      · simp [older]
      · exact fun k up unparsed => ⟨page, List.mem_singleton_self _, continues.refers k (by omega) up unparsed⟩
    · have fits : q.stop ≤ (file n).bytes.length := by
        obtain ⟨more, same⟩ := appended
        rw [same, List.length_append]
        exact Nat.le_add_right_of_le continues.place.fits
      have later : ∃ more, (file (n + 1)).bytes = bytes ++ more := by
        obtain ⟨more, same⟩ := appended
        obtain ⟨more', same'⟩ := (grown n).appended
        exact ⟨more ++ more', by rw [same', same, List.append_assoc]⟩
      obtain ⟨pages, rest, events, below, falling, refers⟩ :=
        @ih q before (n + 1) (some ((FileVersion.of (file n)).cursor source q)) rfl
          continues.place later rfl fun c is => by
            cases is
            exact accepts_older (grown n) continues.place.le fits
      refine ⟨page :: pages, .next read older rest, ?_, ?_, ?_, ?_⟩
      · rw [continues.events, ← events]
        simp
      · rw [List.filterMap_cons, older]
        rintro c mem
        obtain rfl | mem := List.mem_cons.mp mem
        · exact before
        · exact (below c mem).trans before
      · rw [List.filterMap_cons, older]
        exact List.pairwise_cons.mpr ⟨fun c mem => below c mem, falling⟩
      · intro k up unparsed
        by_cases here : q.start ≤ k
        · exact ⟨page, .head _, continues.refers k here up unparsed⟩
        · have lt : k < q.bound := Nat.lt_of_lt_of_le (not_le.mp here) continues.place.start_le
          obtain ⟨p, mem, ref⟩ := refers k lt unparsed
          exact ⟨p, .tail _ mem, ref⟩

/-- Following the older cursors from the tail gives, in finitely many pages, the history of the file as the tail
was read: each event of a record once, and each byte outside such records in a reference. -/
theorem older_pages_exact (parse : List UInt8 → List T) (wire : PreparedRead → Nat) (fitsWire : Fits wire)
    (file : Nat → File) (readable : ∀ n, Readable (file n)) (grown : ∀ n, Grown (file n) (file (n + 1)))
    (source : String) :
    ∃ pages, Pages parse wire file source 0 none pages ∧
      ((pages.filterMap (·.older)).Pairwise fun c c' => Before c'.position c.position) ∧
      pages.reverse.flatMap (·.events) = history parse (file 0).bytes ∧
      InOrder (history parse (file 0).bytes) ∧
      ∀ k, Unparsed (file 0).bytes k → ∃ page ∈ pages, page.Refers k := by
  have tail : Place parse (file 0).bytes (limit (file 0).bytes none) :=
    ⟨Nat.le_refl _, Nat.le_refl _, fun _ r mem => .inl (mem_inlineRecords.mp mem).1.up, fun other => absurd rfl other⟩
  have whole : remaining parse (file 0).bytes (limit (file 0).bytes none) = history parse (file 0).bytes := by
    refine List.filter_eq_self.mpr fun e mem => ?_
    obtain ⟨r, listed, inside⟩ := mem_history.mp mem
    have piece := (mem_inlineRecords.mp listed).1
    have start := (mem_eventsOf.mp inside).1
    rw [decide_eq_true_eq]
    refine .inl ?_
    change e.position.start < (file 0).bytes.length
    exact start ▸ Nat.lt_of_lt_of_le piece.lt piece.up
  obtain ⟨pages, reads, events, _, falling, refers⟩ := @pages_from _ parse wire file source (file 0).bytes fitsWire
    readable grown _ 0 none rfl tail ⟨[], (List.append_nil _).symm⟩ rfl nofun
  exact ⟨pages, reads, falling, events.trans whole, history_inOrder, fun k unparsed => refers k unparsed.1 unparsed⟩

end Run

/-- Two records, and one more before each page. -/
def twoLinesAndMore (n : Nat) : File where
  identity := "66306:1573"
  modified := (n, 0)
  bytes := [97, 10, 98, 10] ++ (List.replicate n [99, 10]).flatten

/-- The bytes of a window, and what tells them. -/
def windowBytes (prepared : PreparedRead) : Nat := (prepared.window.map (·.bytes.length)).getD 0 + 512

theorem windowBytes_fits : Fits windowBytes := by
  intro prepared _ small
  have room : SCAN_BYTES + 512 ≤ WINDOW_WIRE_BYTES := by decide
  unfold windowBytes
  cases window : prepared.window with
  | none =>
      change 0 + 512 ≤ _
      omega
  | some w =>
      have lt := small w window
      change w.bytes.length + 512 ≤ _
      omega

theorem twoLinesAndMore_readable (n : Nat) : Readable (twoLinesAndMore n) := by
  refine ⟨?_, ?_, ?_⟩
  · change 0 < "66306:1573".utf8ByteSize
    decide
  · change "66306:1573".utf8ByteSize ≤ 256
    decide
  · change 0 < 1000000000
    decide

theorem twoLinesAndMore_grown (n : Nat) : Grown (twoLinesAndMore n) (twoLinesAndMore (n + 1)) := by
  refine ⟨rfl, ⟨[99, 10], ?_⟩, fun same => ?_⟩
  · simp only [twoLinesAndMore, List.replicate_succ', List.flatten_append, List.flatten_singleton,
      List.append_assoc]
  · simp [twoLinesAndMore, List.replicate_succ'] at same

/-- Each line gives as many events as a page takes. -/
def manyEvents (line : List UInt8) : List (List UInt8) := List.replicate EVENT_LIMIT line

/-- The two lines of the tail are shown on pages of their own, while lines are appended between these. -/
theorem older_pages_two_lines :
    ∃ pages, Pages manyEvents windowBytes twoLinesAndMore "s" 0 none pages ∧ 2 ≤ pages.length ∧
      ((pages.filterMap (·.older)).Pairwise fun c c' => Before c'.position c.position) ∧
      pages.reverse.flatMap (·.events) = history manyEvents (twoLinesAndMore 0).bytes ∧
      InOrder (history manyEvents (twoLinesAndMore 0).bytes) ∧
      ∀ k, Unparsed (twoLinesAndMore 0).bytes k → ∃ page ∈ pages, page.Refers k := by
  obtain ⟨pages, reads, rest⟩ := older_pages_exact manyEvents windowBytes windowBytes_fits twoLinesAndMore
    twoLinesAndMore_readable twoLinesAndMore_grown "s"
  refine ⟨pages, reads, ?_, rest⟩
  have older : ((readPage manyEvents windowBytes (fun _ => twoLinesAndMore 0) "s" none false).toOption.bind
      (·.older)).isSome = true := by decide +kernel
  cases reads with
  | last read ends =>
      rw [read] at older
      change (Option.isSome _) = true at older
      rw [Except.toOption, Option.bind_some, ends] at older
      cases older
  | next _ _ more => exact Nat.succ_le_succ more.length_pos

end Khor.Adaptor
