/-
Module: Khor.Adaptor.Newer
Purpose: One page of newer events of a file that is only appended to: the request is taken whenever the appends
  happen, and the page goes on from its cursor.
Trusted boundary: the file can be read, and a read costs at most 16 KiB more on the wire than its bytes
Main exports: Ready, readNext_unmoved, readNext_moved, Advances, forward_advances
-/
import Khor.Adaptor.Forward
import Khor.Adaptor.Paging

namespace Khor.Adaptor

variable {T : Type} {parse : List UInt8 → List T} {wire : PreparedRead → Nat}

/-! ### A file that grows -/

variable {f : File}

theorem Grown.marks {f' : File} (h : Grown f f') {k : Nat} (lt : k < f.bytes.length) :
    Marks isNewline f'.bytes k ↔ Marks isNewline f.bytes k := by
  obtain ⟨more, same⟩ := h.appended
  unfold Marks
  rw [same, List.getElem?_append_left lt]

theorem Grown.bytes_eq {f' : File} (h : Grown f f') (length : f'.bytes.length = f.bytes.length) :
    f'.bytes = f.bytes := by
  obtain ⟨more, same⟩ := h.appended
  have none := congrArg List.length same
  rw [List.length_append] at none
  have nil : more = [] := List.length_eq_zero_iff.mp (by omega)
  rw [same, nil, List.append_nil]

/-! ### A cursor that can be followed -/

/-- A cursor that the file as it is takes, and that tells the truth of what it waits for. -/
structure Ready (parse : List UInt8 → List T) (source : String) (f : File) (c : Cursor) : Prop where
  source : c.source = source
  current : (FileVersion.of f).changed c = false
  stop_le : c.position.stop ≤ c.len
  rests : Rests parse f.bytes c.position
  pends : Pends f.bytes c
  waits : c.waitingForAppend = true → Left f.bytes c.len c

section

variable {source : String} {f f' : File} {c : Cursor}

theorem Boundary.grown {s : Nat} (grown : Grown f f') (fits : s ≤ f.bytes.length) :
    Boundary f'.bytes s ↔ Boundary f.bytes s := by
  unfold Boundary
  by_cases zero : s = 0
  · simp only [zero, true_or]
  · simp only [zero, false_or]
    exact grown.marks (by omega)

theorem Left.grown {len : Nat} (h : Left f.bytes len c) (grown : Grown f f') (fits : len ≤ f.bytes.length) :
    Left f'.bytes len c where
  unended := fun k ge lt mark => h.unended k ge lt ((grown.marks (by omega)).mp mark)
  small := h.small
  pending := h.pending

theorem Pends.grown (h : Pends f.bytes c) (grown : Grown f f') (fits : c.position.start ≤ f.bytes.length) :
    Pends f'.bytes c := fun pending mem =>
  ⟨(h pending mem).1, fun begins => (h pending mem).2 ((Boundary.grown grown fits).mp begins)⟩

theorem Rests.grown {q : Position} (h : Rests parse f.bytes q) (grown : Grown f f') : Rests parse f'.bytes q := by
  obtain ⟨more, same⟩ := grown.appended
  rw [same]
  exact h.append more

theorem Ready.grown (h : Ready parse source f c) (grown : Grown f f') : Ready parse source f' c where
  source := h.source
  current := changed_grown grown h.current
  stop_le := h.stop_le
  rests := h.rests.grown grown
  pends := h.pends.grown grown (Nat.le_trans h.rests.le h.rests.fits)
  waits := fun waits => (h.waits waits).grown grown (len_le_of_current h.current)

theorem Ready.checkCursor (h : Ready parse source f c) : checkCursor source (some c) = .ok () := by
  unfold Adaptor.checkCursor
  dsimp only
  rw [if_neg (not_not.mpr h.source), if_neg]
  rintro (back | short | pending)
  · exact absurd h.rests.le (not_le.mpr back)
  · exact absurd h.stop_le (not_le.mpr short)
  · cases is : c.pending with
    | none =>
        rw [is] at pending
        cases pending
    | some p =>
        rw [is] at pending
        exact absurd (h.pends p is).1 (not_le.mpr (of_decide_eq_true pending))

end

/-! ### Reading one page of newer events -/

section Read

variable {file : Nat → File} {source : String} {c : Cursor}

/-- Where a newer page stops to read. -/
def forwardStop (f : File) (c : Cursor) : Nat := min (c.position.start + (SCAN_BYTES - 1)) f.bytes.length

/-- The window after a cursor. -/
def forwardWindow (f : File) (c : Cursor) : TranscriptWindow :=
  readRange f.bytes f.bytes.length c.position.start (forwardStop f c)

theorem forwardStop_le {f : File} : forwardStop f c ≤ f.bytes.length := Nat.min_le_right _ _

theorem le_forwardStop (rests : Rests parse f.bytes c.position) : c.position.start ≤ forwardStop f c := by
  have fits := Nat.le_trans rests.le rests.fits
  unfold forwardStop
  generalize SCAN_BYTES - 1 = span
  omega

theorem readForwardWindow_eq (rests : Rests parse f.bytes c.position) :
    readForwardWindow f.bytes c.position.start = forwardWindow f c := by
  have fits := Nat.le_trans rests.le rests.fits
  unfold readForwardWindow forwardWindow forwardStop
  dsimp only
  rw [Nat.min_eq_left fits]

/-- Nothing has been appended since the cursor was told to wait. -/
def Unmoved (f : File) (c : Cursor) : Prop :=
  c.waitingForAppend = true ∧ f.bytes.length = c.len ∧ f.modified = c.modified

theorem readNext_unmoved (ready : Ready parse source (file 0) c) (readable : Readable (file 0))
    (fitsWire : Fits wire) (unmoved : Unmoved (file 0) c) :
    readNext parse wire file source c false = .ok (unchangedPage (FileVersion.of (file 0)) source c) := by
  have checked := ready.checkCursor
  have current := ready.current
  obtain ⟨waits, len, modified⟩ := unmoved
  have within : ¬(FileVersion.of (file 0)).len < c.position.stop :=
    not_lt.mpr (Nat.le_trans ready.stop_le (len_le_of_current current))
  have budget := fitsWire ⟨FileVersion.of (file 0), none, true, false⟩ readable.short nofun
  have version : ¬((file 0).identity.utf8ByteSize = 0 ∨ 256 < (file 0).identity.utf8ByteSize ∨
      1000000000 ≤ (file 0).modified.2) := by
    have named := readable.named
    have short := readable.short
    have nanos := readable.nanos
    omega
  have valid : PreparedRead.validate wire ⟨FileVersion.of (file 0), none, true, false⟩ = .ok () :=
    (if_neg version).trans (if_neg (not_lt.mpr budget))
  have asked : PreparedRead.validateRequest wire ⟨FileVersion.of (file 0), none, true, false⟩ (some c) true = .ok () := by
    unfold PreparedRead.validateRequest
    simp only [valid, bind, Except.bind, Bool.false_eq_true, if_false, Bool.not_false, Bool.and_true, ne_eq, not_true,
      Option.any_some, current, Option.any_none]
  have len' : (FileVersion.of (file 0)).len = c.len := len
  have modified' : (FileVersion.of (file 0)).modified = c.modified := modified
  have prepared : prepareRead wire file source (some c) true false =
      .ok ⟨FileVersion.of (file 0), none, true, false⟩ := by
    unfold prepareRead
    simp only [checkCancelled, bind, Except.bind, Bool.false_eq_true, if_false, checked, reduceCtorEq, and_false,
      Option.any_some, current, Bool.not_false, Bool.and_true, if_true]
    rw [if_neg within, if_pos ⟨waits, len', modified'⟩]
  unfold readNext parsePrepared
  simp only [prepared, checkCancelled, bind, Except.bind, Bool.false_eq_true, if_false, checked, asked]
  rw [if_neg]
  simp only [waits, current, len', modified', Bool.not_true, Bool.or_false, ne_eq, not_true, decide_false,
    Bool.false_eq_true, not_false_eq_true]

theorem readNext_moved (ready : Ready parse source (file 0) c) (first : Grown (file 0) (file 1))
    (second : Grown (file 1) (file 2)) (readable : Readable (file 2)) (fitsWire : Fits wire)
    (moved : ¬Unmoved (file 0) c) :
    readNext parse wire file source c false =
      .ok (parseForward parse (forwardWindow (file 1) c) (FileVersion.of (file 2)) source c) := by
  have checked := ready.checkCursor
  have current := ready.current
  have current' := changed_grown (first.trans second) current
  have rests := (ready.grown first).rests
  have within : ¬(FileVersion.of (file 0)).len < c.position.stop :=
    not_lt.mpr (Nat.le_trans ready.stop_le (len_le_of_current current))
  have window := readForwardWindow_eq rests
  have le := le_forwardStop rests
  have fits := @forwardStop_le c (file 1)
  have small : forwardStop (file 1) c - c.position.start < SCAN_BYTES := by
    have some_ : 0 < SCAN_BYTES := by decide
    unfold forwardStop
    generalize SCAN_BYTES = scan at some_
    omega
  have range := @readRange_range _ (file 1).bytes.length _ _ le fits
  have valid := @prepared_validate wire (file 1) (file 2) _ _ readable fitsWire second.length_le le fits small true
  have recent := len_le_of_current (changed_grown first current)
  have asked : PreparedRead.validateRequest wire ⟨FileVersion.of (file 2), some (forwardWindow (file 1) c), true, false⟩
      (some c) true = .ok () := by
    refine validateRequest_of valid current' (fun _ is => ?_) ?_
    · cases is
      exact recent
    · unfold requested forwardWindow
      rw [if_pos rfl, range]
      rfl
  have observed : ¬(FileVersion.of (file 2)).len < (forwardWindow (file 1) c).observedLen :=
    not_lt.mpr second.length_le
  have moved' : ¬(c.waitingForAppend = true ∧ (FileVersion.of (file 0)).len = c.len ∧
      (FileVersion.of (file 0)).modified = c.modified) := moved
  have prepared : prepareRead wire file source (some c) true false =
      .ok ⟨FileVersion.of (file 2), some (forwardWindow (file 1) c), true, false⟩ := by
    unfold prepareRead
    simp only [checkCancelled, bind, Except.bind, Bool.false_eq_true, if_false, checked, reduceCtorEq, and_false,
      Option.any_some, current, Bool.not_false, Bool.and_true, if_true]
    rw [if_neg within, if_neg moved']
    simp only [window, current', Bool.false_eq_true, if_false, asked]
    rw [if_neg observed]
  unfold readNext parsePrepared
  simp only [prepared, checkCancelled, bind, Except.bind, Bool.false_eq_true, if_false, checked, asked]

end Read

/-! ### What a page of newer events gives -/

/-- A page goes on from a cursor: it shows the history up to where its own cursor stands, which can be followed. -/
structure Advances (parse : List UInt8 → List T) (source : String) (f : File) (c : Cursor) (page : Page T) :
    Prop where
  ready : Ready parse source f page.newer
  on : ¬Before page.newer.position c.position
  events : page.events = between parse f.bytes c.position page.newer.position
  len : page.newer.len = f.bytes.length
  idle : page.events = [] → page.hasMore = false → Left f.bytes f.bytes.length page.newer

section Advance

variable {source : String} {f f' : File} {c : Cursor}

theorem unmoved_advances (ready : Ready parse source f c) (unmoved : Unmoved f c) :
    Advances parse source f c (unchangedPage (FileVersion.of f) source c : Page T) where
  ready := ready
  on := Before.irrefl _
  events := (between_eq_nil (Before.irrefl _)).symm
  len := unmoved.2.1.symm
  idle := fun _ _ => unmoved.2.1 ▸ ready.waits unmoved.1

theorem between_later {q q' : Position} (rests : Rests parse f.bytes q') (grown : Grown f f') :
    between parse f'.bytes q q' = between parse f.bytes q q' := by
  obtain ⟨more, same⟩ := grown.appended
  rw [same]
  exact between_grown rests more

theorem unchanged_of_version {v : FileVersion} (same : (⟨c.file, c.len, c.modified⟩ : FileVersion) = v) :
    v.changed c = false := by
  subst same
  simp [FileVersion.changed]

/-- The pieces of a page's window have been seen. -/
theorem forward_reads (ready : Ready parse source f c) (grown : Grown f f') :
    Reads parse f.bytes (FileVersion.of f') source c (forwardStop f c)
      (forwardSteps parse (FileVersion.of f') source c
        ⟨[], [], c.pending, (FileVersion.of f').cursor source c.position, false⟩ (forwardWindow f c).records) := by
  have rests := ready.rests
  have later := grown.length_le
  have stands : Stands parse f.bytes (FileVersion.of f') c :=
    ⟨Nat.le_trans rests.fits later, rests, ready.pends⟩
  have start : Upto parse f.bytes (FileVersion.of f') source c c.position.start
      ⟨[], [], c.pending, (FileVersion.of f').cursor source c.position, false⟩ := by
    refine ⟨Nat.le_refl _, ?_, Nat.zero_le _, rfl, .inl ⟨rfl, rfl, rfl⟩⟩
    exact (between_eq_nil fun before => Nat.lt_irrefl _ (before_at.mp before)).symm
  refine forwardSteps_reads stands forwardStop_le (Nat.le_trans forwardStop_le later) (fun item => ?_)
    (le_forwardStop rests) start
  -- A record that is parsed fits in a window.
  have short := (mem_inlineRecords.mp (rests.within item).1).2.2
  have fits := rests.fits
  have wide : INLINE_RECORD_BYTES ≤ SCAN_BYTES - 1 := by decide
  dsimp only at short
  unfold forwardStop
  generalize SCAN_BYTES - 1 = span at wide
  omega

/-- A window that is full and leaves little has been gone through. -/
theorem start_lt_of_window {start : Nat} (wide : INLINE_RECORD_BYTES < SCAN_BYTES - 1)
    (full : forwardStop f c ≠ f.bytes.length) (small : forwardStop f c - start ≤ INLINE_RECORD_BYTES) :
    c.position.start < start := by
  unfold forwardStop at full small
  generalize SCAN_BYTES - 1 = span at wide full small
  generalize INLINE_RECORD_BYTES = inline at wide small
  omega

/-- The page of what has been seen. -/
def forwardPage (observation : FileVersion) (source : String) (s : Forward T) : Page T where
  events := s.events
  references := s.references
  older := none
  reset := false
  newer := s.newer
  hasMore := s.hasMore || (!s.newer.waitingForAppend && decide (s.newer.position.start < observation.len))
  origin := observation.cursor source (.at_ 0)

/-- The file was longer when it was looked at again, and nothing is left of it as it was read. -/
structure Behind (f f' : File) (c : Cursor) : Prop where
  lt : f.bytes.length < f'.bytes.length
  left : Left f.bytes f.bytes.length c
  stop_le : c.position.stop ≤ f.bytes.length

theorem Reads.advances {s : Forward T} (grown : Grown f f')
    (reads : Reads parse f.bytes (FileVersion.of f') source c (forwardStop f c) s) :
    Advances parse source f' c (forwardPage (FileVersion.of f') source s) ∧
      ((forwardPage (FileVersion.of f') source s).events = [] ∧
          (forwardPage (FileVersion.of f') source s).hasMore = false ∨
        Before c.position (forwardPage (FileVersion.of f') source s).newer.position ∨
        Behind f f' (forwardPage (FileVersion.of f') source s).newer) := by
  have later := grown.length_le
  have wide : INLINE_RECORD_BYTES < SCAN_BYTES - 1 := by decide
  have stop := @forwardStop_le c f
  have len : s.newer.len = f'.bytes.length := reads.len
  have within := Nat.le_trans reads.rests.le reads.rests.fits
  have rests := reads.rests.grown grown
  -- What is waited for stands at the end of the file as it was observed.
  have waits : s.newer.waitingForAppend = true → Left f'.bytes f'.bytes.length s.newer := by
    intro waits
    have ends : forwardStop f c = f'.bytes.length := reads.waits waits
    have same := grown.bytes_eq (Nat.le_antisymm (Nat.le_trans ends.ge stop) later)
    have goes : s.hasMore = false := by
      by_contra more
      have idle := (reads.more (Bool.eq_true_of_not_eq_false more)).2
      rw [waits] at idle
      cases idle
    have left := reads.left goes
    rw [ends] at left
    rw [same] at left ⊢
    exact left
  have current := unchanged_of_version reads.version
  refine ⟨⟨⟨reads.source, current, ?_, rests, reads.pends.grown grown within, fun w => len ▸ waits w⟩, reads.on,
    ?_, len, ?_⟩, ?_⟩
  · exact len ▸ Nat.le_trans reads.rests.fits later
  · exact reads.events.trans (between_later reads.rests grown).symm
  · intro _ idle
    unfold forwardPage at idle ⊢
    dsimp only at idle ⊢
    rw [Bool.or_eq_false_iff, Bool.and_eq_false_iff, Bool.not_eq_false', decide_eq_false_iff_not, not_lt] at idle
    obtain waiting | ends := idle.2
    · exact waits waiting
    · have ends : f'.bytes.length ≤ s.newer.position.start := ends
      exact ⟨fun k ge lt => by omega, by omega, fun _ => ends⟩
  · unfold forwardPage
    dsimp only
    by_cases shown : s.events = []
    · by_cases more : (s.hasMore || (!s.newer.waitingForAppend &&
          decide (s.newer.position.start < (FileVersion.of f').len))) = true
      · refine .inr ?_
        have goes : s.hasMore = false := by
          by_contra full
          exact (reads.more (Bool.eq_true_of_not_eq_false full)).1 shown
        rw [goes, Bool.false_or, Bool.and_eq_true, Bool.not_eq_true', decide_eq_true_eq] at more
        obtain ⟨waits, short⟩ := more
        by_cases ends : forwardStop f c = f'.bytes.length
        · exfalso
          obtain at_ | goes := reads.stops goes
          · have short : s.newer.position.start < f'.bytes.length := short
            omega
          · rw [waits] at goes
            exact of_decide_eq_false goes.symm ends
        · by_cases whole : forwardStop f c = f.bytes.length
          · exact .inr ⟨by omega, whole ▸ reads.left goes, reads.rests.fits⟩
          · exact .inl (.inl (start_lt_of_window wide whole (reads.left goes).small))
      · exact .inl ⟨shown, Bool.eq_false_of_not_eq_true more⟩
    · obtain ⟨e, rest, cons⟩ := List.exists_cons_of_ne_nil shown
      have mem : e ∈ between parse f.bytes c.position s.newer.position := by
        rw [← reads.events, cons]
        exact .head _
      exact .inr (.inl (before_of_mem mem))

/-- A page of what has been appended goes on, and gets on where anything was left of the file as it was read. -/
theorem forward_advances (ready : Ready parse source f c) (grown : Grown f f') {page : Page T}
    (is : page = parseForward parse (forwardWindow f c) (FileVersion.of f') source c) :
    Advances parse source f' c page ∧
      (page.events = [] ∧ page.hasMore = false ∨ Before c.position page.newer.position ∨ Behind f f' page.newer) := by
  subst is
  exact (forward_reads ready grown).advances grown

end Advance

end Khor.Adaptor
