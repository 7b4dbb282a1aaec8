/-
Module: Khor.Adaptor.Tail
Purpose: The page that a reader starts with, the tail or an older one: where its newer cursor stands, and when it
  hides nothing of what is appended while it is read.
Trusted boundary: none
Main exports: unfinished, resume, Quiet, Told, older_told
-/
import Khor.Adaptor.Newer

namespace Khor.Adaptor

variable {T : Type} {parse : List UInt8 → List T} {wire : PreparedRead → Nat}

/-! ### The end of a file -/

/-- How many bytes stand after the last newline. -/
def unfinished (bytes : List UInt8) : Nat := (bytes.reverse.takeWhile fun b => !isNewline b).length

/-- Where to go on from the tail: a record that is not too long is read again from its start. -/
def resume (bytes : List UInt8) : Nat :=
  if INLINE_RECORD_BYTES < unfinished bytes then bytes.length else bytes.length - unfinished bytes

section Tail

variable {bytes : List UInt8}

theorem unfinished_concat (bytes : List UInt8) (b : UInt8) :
    unfinished (bytes ++ [b]) = if isNewline b then 0 else unfinished bytes + 1 := by
  unfold unfinished
  rw [List.reverse_append, List.reverse_singleton, List.singleton_append, List.takeWhile_cons]
  cases isNewline b <;> simp

theorem unfinished_le (bytes : List UInt8) : unfinished bytes ≤ bytes.length := by
  unfold unfinished
  have le := (List.takeWhile_sublist (l := bytes.reverse) fun b => !isNewline b).length_le
  rwa [List.length_reverse] at le

theorem unfinished_unended (bytes : List UInt8) :
    ∀ k, bytes.length - unfinished bytes ≤ k → k < bytes.length → ¬Marks isNewline bytes k := by
  induction bytes using List.reverseRecOn with
  | nil => exact fun k _ lt => absurd lt (Nat.not_lt_zero k)
  | append_singleton bytes b ih =>
      rw [unfinished_concat, List.length_append, List.length_singleton]
      rintro k ge lt ⟨x, there, mark⟩
      split at ge
      · omega
      · next plain =>
        by_cases last : k = bytes.length
        · subst last
          rw [List.getElem?_concat_length] at there
          cases there
          exact plain mark
        · rw [List.getElem?_append_left (by omega)] at there
          exact ih k (by omega) (by omega) ⟨x, there, mark⟩

theorem unfinished_boundary (bytes : List UInt8) : Boundary bytes (bytes.length - unfinished bytes) := by
  induction bytes using List.reverseRecOn with
  | nil => exact .inl rfl
  | append_singleton bytes b ih =>
      rw [unfinished_concat, List.length_append, List.length_singleton]
      split
      · next newline => exact .inr ⟨b, by rw [Nat.sub_zero, Nat.add_sub_cancel, List.getElem?_concat_length]; rfl, newline⟩
      · rw [Nat.add_sub_add_right]
        refine ih.imp id fun ⟨x, there, mark⟩ => ⟨x, ?_, mark⟩
        rw [List.getElem?_append_left (List.getElem?_eq_some_iff.mp there).1]
        exact there

variable {a : Nat}

/-- What goes on to the end is part of the unfinished record. -/
theorem le_unfinished (goes : ∀ k, a ≤ k → k < bytes.length → ¬Marks isNewline bytes k) :
    bytes.length - a ≤ unfinished bytes := by
  have le := unfinished_le bytes
  by_contra more
  obtain zero | mark := unfinished_boundary bytes
  · omega
  · exact goes _ (by omega) (by omega) mark

theorem unfinished_eq (begins : Boundary bytes a) (le : a ≤ bytes.length)
    (goes : ∀ k, a ≤ k → k < bytes.length → ¬Marks isNewline bytes k) : unfinished bytes = bytes.length - a := by
  refine Nat.le_antisymm ?_ (le_unfinished goes)
  by_contra more
  obtain zero | mark := begins
  · have := unfinished_le bytes
    omega
  · by_cases zero : a = 0
    · have := unfinished_le bytes
      omega
    · exact unfinished_unended bytes (a - 1) (by omega) (by omega) mark

variable {observation : FileVersion} {source : String} {lo observedLen : Nat}

/-- What the newer cursor of a tail says. -/
structure TailReads (parse : List UInt8 → List T) (bytes : List UInt8) (observation : FileVersion) (source : String)
    (c : Cursor) : Prop where
  source : c.source = source
  version : (⟨c.file, c.len, c.modified⟩ : FileVersion) = observation
  position : c.position = .at_ (resume bytes)
  rests : Rests parse bytes c.position
  pends : Pends bytes c
  pending : c.pending.isSome → INLINE_RECORD_BYTES < unfinished bytes
  waits : c.waitingForAppend = true → unfinished bytes ≠ 0

theorem TailReads.of_ended {c : Cursor} (is : c = observation.cursor source (.at_ bytes.length))
    (fits : bytes.length ≤ observation.len) (ends : Boundary bytes bytes.length) :
    TailReads parse bytes observation source c := by
  have none_ : unfinished bytes = 0 := by
    rw [unfinished_eq ends (Nat.le_refl _) fun k ge lt => by omega, Nat.sub_self]
  have here : resume bytes = bytes.length := by
    unfold resume
    rw [none_, if_neg (Nat.not_lt_zero _), Nat.sub_zero]
  subst is
  refine ⟨rfl, version_cursor fits, ?_, rests_at (Nat.le_refl _) (.boundary ends), nofun, nofun, nofun⟩
  rw [here]
  rfl

/-- The unfinished record of a tail is kept from its start, or pending. -/
theorem olderStep_unended {window : TranscriptWindow} {s : Older T}
    (newer : s.newer = observation.cursor source (.at_ a)) (le : a ≤ bytes.length) (lt : a < bytes.length)
    (goes : ∀ k, a ≤ k → k < bytes.length → ¬Marks isNewline bytes k) (fits : bytes.length ≤ observation.len)
    {missingStart : Bool} (cut : missingStart = true ↔ ¬Boundary bytes a)
    (large : ¬Boundary bytes a → INLINE_RECORD_BYTES < bytes.length - a) : TailReads parse bytes observation source
      (olderStep parse none window s (.fragment ⟨a, bytes.length⟩ missingStart true)).newer := by
  have version := @version_cursor observation source (.at_ a) (Nat.le_trans le fits)
  have more := le_unfinished goes
  unfold olderStep
  dsimp only
  rw [if_pos rfl, newer]
  by_cases giant : INLINE_RECORD_BYTES < bytes.length - a
  · rw [if_pos (.inr giant)]
    have here : resume bytes = bytes.length := if_pos (by omega)
    refine ⟨rfl, version, by rw [here], ?_, ?_, fun _ => by omega, fun _ => by omega⟩
    · exact rests_at (Nat.le_refl _) (.giant a _ le (Nat.le_refl _) (Nat.le_refl _) giant
        fun k ge less => goes k ge (by omega))
    · rintro pending ⟨⟩
      refine ⟨le, ?_⟩
      rintro (zero | mark)
      · change bytes.length = 0 at zero
        omega
      · change Marks isNewline bytes (bytes.length - 1) at mark
        exact goes _ (by omega) (by omega) mark
  · have begins : Boundary bytes a := by_contra fun not_ => giant (large not_)
    have begun : missingStart ≠ true := fun is => cut.mp is begins
    rw [if_neg (by rintro (is | long); exacts [begun is, giant long])]
    have is := unfinished_eq begins le goes
    have here : resume bytes = a := by
      unfold resume
      rw [is, if_neg giant]
      omega
    exact ⟨rfl, version, by rw [here], rests_at le (.boundary begins), nofun, nofun, fun _ => by omega⟩

/-- The newer cursor of a tail, as the pieces of its window are seen. -/
theorem tail_reads (fits : bytes.length ≤ observation.len)
    (wide : lo = 0 ∨ INLINE_RECORD_BYTES < bytes.length - lo) {a : Nat} (from_ : lo ≤ a) (up : a ≤ bytes.length)
    (first : a = lo ∨ Marks isNewline bytes (a - 1)) {s : Older T}
    (newer : s.newer = observation.cursor source (.at_ a)) :
    TailReads parse bytes observation source
      ((((ranges isNewline a a ((bytes.drop a).take (bytes.length - a))).map fun r =>
        (readRange bytes observedLen lo bytes.length).record ⟨r.1, r.2⟩).foldl
          (olderStep parse none (readRange bytes observedLen lo bytes.length)) s)).newer := by
  generalize left : bytes.length - a = n
  induction n using Nat.strong_induction_on generalizing a s with
  | _ n ih =>
    subst left
    obtain ends | lt : a = bytes.length ∨ a < bytes.length := by omega
    · subst ends
      rw [Nat.sub_self, List.take_zero]
      unfold ranges
      rw [if_pos rfl, List.map_nil, List.foldl_nil]
      refine .of_ended newer fits ?_
      obtain same | mark := first
      · refine .inl ?_
        omega
      · exact .inr mark
    · obtain ⟨b, piece, cut⟩ := @ranges_cons _ isNewline bytes a bytes.length lt (Nat.le_refl _)
      rw [cut, List.map_cons, List.foldl_cons]
      have less := piece.lt
      have within := piece.up
      have inside : Piece isNewline bytes lo bytes.length a b :=
        ⟨from_, less, within, first, piece.inner, piece.last⟩
      have rest : ∀ {s' : Older T}, Marks isNewline bytes (b - 1) →
          s'.newer = { s.newer with position := .at_ b } →
          TailReads parse bytes observation source
            ((((ranges isNewline b b ((bytes.drop b).take (bytes.length - b))).map fun r =>
              (readRange bytes observedLen lo bytes.length).record ⟨r.1, r.2⟩).foldl
                (olderStep parse none (readRange bytes observedLen lo bytes.length)) s')).newer := by
        intro s' mark is
        have version := @version_cursor observation source (.at_ a) (Nat.le_trans up fits)
        have moved : s'.newer = observation.cursor source (.at_ b) := by
          rw [is, newer]
          exact cursor_eq version rfl rfl rfl (Nat.le_trans within fits)
        exact ih (bytes.length - b) (by omega) (by omega) within (.inr mark) moved rfl
      obtain ⟨is, mem⟩ | ⟨is, _, _, ends⟩ | ⟨missingStart, missingEnd, is, start, stop, one⟩ :=
        @window_record _ observedLen _ _ (Nat.le_refl _) _ _ inside
      · rw [is]
        exact rest (mem_inlineRecords.mp mem).2.1 rfl
      · rw [is]
        exact rest ends rfl
      · rw [is]
        cases missingEnd with
        | false =>
            have ends : Marks isNewline bytes (b - 1) := by
              by_contra not_
              cases stop.mpr not_
            exact rest ends rfl
        | true =>
            have goes_ := stop.mp rfl
            obtain same : b = bytes.length := piece.last.resolve_left goes_
            subst same
            have none_ : ranges isNewline bytes.length bytes.length
                ((bytes.drop bytes.length).take (bytes.length - bytes.length)) = [] := by
              rw [Nat.sub_self, List.take_zero]
              exact if_pos rfl
            rw [none_, List.map_nil, List.foldl_nil]
            have cut_ : missingStart = true ↔ ¬Boundary bytes a := by
              rw [start]
              refine ⟨fun both => both.1 ▸ both.2, fun not_ => ?_⟩
              obtain same | mark := first
              · exact ⟨same, same ▸ not_⟩
              · exact absurd (.inr mark) not_
            refine olderStep_unended newer up lt (fun k ge less => ?_) fits cut_ fun not_ => ?_
            · by_cases last : k + 1 < bytes.length
              · exact piece.inner k ge last
              · have same : k = bytes.length - 1 := by omega
                exact same ▸ goes_
            · obtain same | mark := first
              · obtain zero | long := wide
                · exact absurd (.inl (same.trans zero)) not_
                · exact same ▸ long
              · exact absurd (.inr mark) not_

end Tail

/-! ### The page that a run starts with -/

/-- Where a page starts: what is older comes before it. -/
def Page.start (page : Page T) : Position := (page.older.map (·.position)).getD (.at_ 0)

/-- No record ends from here on, and no more bytes stand there than one that is parsed may have. -/
def Untold (bytes : List UInt8) (s : Nat) : Prop :=
  (∀ b ∈ bytes.drop s, isNewline b = false) ∧ bytes.length - s ≤ INLINE_RECORD_BYTES

instance (bytes : List UInt8) (s : Nat) : Decidable (Untold bytes s) := inferInstanceAs (Decidable (_ ∧ _))

/-- The first page hides nothing, `f` being the file as its window is read and `f'` as its version is observed: it
shows an event, and no record was unfinished; or nothing was appended that a reader would have to be told of. -/
def Quiet (parse : List UInt8 → List T) (f f' : File) : Option Cursor → Prop
  | none => unfinished f.bytes = 0 ∧ shown parse none (windowOf f none) ≠ [] ∨
      Untold f'.bytes (resume f.bytes) ∧
        (INLINE_RECORD_BYTES < unfinished f.bytes → f'.bytes.length = f.bytes.length)
  | some c => shown parse (some c) (windowOf f (some c)) ≠ [] ∨ Untold f'.bytes c.position.start

/-- What the pages have shown is the history from where the first starts up to the last one's newer cursor, which
can be followed; and an idle page leaves nothing to be read. -/
structure Told (parse : List UInt8 → List T) (source : String) (f : File) (start : Position)
    (events : List (Event T)) (page : Page T) : Prop where
  ready : Ready parse source f page.newer
  on : ¬Before page.newer.position start
  events : events = between parse f.bytes start page.newer.position
  idle : page.events = [] → page.hasMore = false → Left f.bytes page.newer.len page.newer

section First

variable {source : String} {f f' : File} {cursor : Option Cursor} {page : Page T}

theorem Told.grown {start : Position} {events : List (Event T)} (h : Told parse source f start events page)
    (grown : Grown f f') : Told parse source f' start events page where
  ready := h.ready.grown grown
  on := h.on
  events := h.events.trans (between_later h.ready.rests grown).symm
  idle := fun nil goes => (h.idle nil goes).grown grown (len_le_of_current h.ready.current)

variable {bytes : List UInt8}

theorem Untold.left {c : Cursor} (h : Untold bytes c.position.start)
    (pending : c.pending.isSome → bytes.length ≤ c.position.start) : Left bytes bytes.length c where
  unended := by
    rintro k ge lt ⟨b, there, mark⟩
    have mem : b ∈ bytes.drop c.position.start := by
      refine List.mem_iff_getElem?.mpr ⟨k - c.position.start, ?_⟩
      rw [List.getElem?_drop, show c.position.start + (k - c.position.start) = k by omega]
      exact there
    rw [h.1 b mem] at mark
    cases mark
  small := h.2
  pending := pending

theorem Continues.between {ends q : Position} (h : Continues parse bytes ends page q) :
    page.events = between parse bytes q ends := by
  have ordered : InOrder (remaining parse bytes ends) := history_inOrder.filter _
  rw [h.events] at ordered
  have apart := (List.pairwise_append.mp ordered).2.2
  rw [Adaptor.between, h.events, List.filter_append, List.filter_eq_nil_iff.mpr, List.nil_append, List.filter_eq_self.mpr]
  · intro e mem
    rw [decide_eq_true_eq]
    intro before
    have listed : e ∈ remaining parse bytes ends := h.events ▸ List.mem_append_right _ mem
    have early : e ∈ remaining parse bytes q :=
      List.mem_filter.mpr ⟨(List.mem_filter.mp listed).1, decide_eq_true before⟩
    exact Before.irrefl _ (apart e early e mem)
  · intro e mem
    rw [decide_eq_true_eq, not_not]
    exact of_decide_eq_true (List.mem_filter.mp mem).2

/-- Nothing that rests stands after the place to go on from. -/
theorem not_before_rests {q : Position} (rests : Rests parse bytes q) : ¬Before (.at_ (resume bytes)) q := by
  have le := rests.le
  have fits := rests.fits
  have unended := unfinished_unended bytes
  have whole : q.item ≠ 0 → q.start < q.stop ∧ Marks isNewline bytes (q.stop - 1) := fun item =>
    have mem := mem_inlineRecords.mp (rests.within item).1
    ⟨mem.1.lt, mem.2.1⟩
  have edge := rests.edge
  unfold resume
  split
  · rintro (before | ⟨same, item⟩)
    · change bytes.length < q.start at before
      omega
    · change bytes.length = q.start at same
      have lt := (whole (Nat.ne_of_gt item)).1
      omega
  · next small =>
    generalize is : bytes.length - unfinished bytes = s at unended
    have begins : Boundary bytes s := is ▸ unfinished_boundary bytes
    intro before
    have ge : s ≤ q.start := before.elim (fun lt => Nat.le_of_lt lt) fun both => both.1.le
    by_cases item : q.item = 0
    · have lt : s < q.start := before.elim id fun both => absurd both.2 (item ▸ Nat.lt_irrefl 0)
      cases edge item with
      | boundary here =>
          obtain zero | mark := here
          · omega
          · exact unended (q.start - 1) (by omega) (by omega) mark
      | giant lo hi from_ up within long inner =>
          -- So long a part would begin before the unfinished record.
          obtain zero | mark := begins
          · omega
          · exact inner (s - 1) (by omega) (by omega) mark
    · obtain ⟨lt, mark⟩ := whole item
      exact unended (q.stop - 1) (by omega) (by omega) mark

theorem shown_of_events {window : TranscriptWindow} {observation : FileVersion} {reset : Bool}
    (nil : (parseOlder parse window observation source cursor reset).events = []) :
    shown parse cursor window = [] := by
  rw [page_events] at nil
  exact lastOf_eq_nil.mp nil

/-- A page starts at a place that rests, before where it ends. -/
theorem page_start {bytes : List UInt8} {observedLen : Nat} {observation : FileVersion} {reset : Bool}
    (place : Place parse bytes (limit bytes cursor))
    (is : page = parseOlder parse (olderWindow bytes observedLen cursor) observation source cursor reset) :
    ∃ q, Rests parse bytes q ∧ page.events = between parse bytes page.start (limit bytes cursor) ∧
      ¬Before (limit bytes cursor) page.start ∧ ∀ q', Before q' page.start ↔ Before q' q := by
  obtain ⟨q, rests, continues, other⟩ := older_step place is
  have same : ∀ q', Before q' page.start ↔ Before q' q := by
    intro q'
    unfold Page.start
    obtain ⟨older, start, item⟩ | ⟨_, older⟩ := other
    · rw [older]
      change q'.start < 0 ∨ q'.start = 0 ∧ q'.item < 0 ↔ q'.start < q.start ∨ q'.start = q.start ∧ q'.item < q.item
      omega
    · rw [older]
      rfl
  refine ⟨q, rests, ?_, ?_, same⟩
  · rw [continues.between, between, between]
    refine List.filter_congr fun e _ => ?_
    simp only [same]
  · rw [same]
    obtain ⟨_, start, item⟩ | ⟨before, _⟩ := other
    · unfold Before
      omega
    · exact before.asymm

theorem parseOlder_newer (window : TranscriptWindow) (observation : FileVersion) (reset : Bool) :
    (parseOlder parse window observation source none reset).newer =
      (window.records.foldl (olderStep parse none window)
        ⟨[], [], none, observation.cursor source (.at_ window.range.start)⟩).newer := rfl

theorem tail_newer {observation : FileVersion} {reset : Bool} (later : f.bytes.length ≤ observation.len) :
    TailReads parse f.bytes observation source
      (parseOlder parse (windowOf f none) observation source none reset).newer := by
  have wide : INLINE_RECORD_BYTES < SCAN_BYTES - 1 := by decide
  have stop : stopOf f none = f.bytes.length := rfl
  rw [parseOlder_newer, windowOf, stop]
  generalize SCAN_BYTES - 1 = span at wide ⊢
  refine @tail_reads _ parse f.bytes observation source (f.bytes.length - span) f.bytes.length later ?_
    (f.bytes.length - span) (Nat.le_refl _) (Nat.sub_le _ _) (.inl rfl) _ rfl
  omega

theorem tail_told (grown : Grown f f') (quiet : Quiet parse f f' none)
    (is : page = parseOlder parse (windowOf f none) (FileVersion.of f') source none false) :
    Told parse source f' page.start page.events page := by
  have place : Place parse f.bytes (limit f.bytes none) :=
    ⟨Nat.le_refl _, Nat.le_refl _, fun _ r mem => .inl (mem_inlineRecords.mp mem).1.up, fun other => absurd rfl other⟩
  have later := grown.length_le
  have nil := fun (none_ : page.events = []) => shown_of_events (is ▸ none_)
  have window := @windowOf_eq _ parse f.bytes f none place ⟨[], (List.append_nil _).symm⟩ rfl
  obtain ⟨q, rests, events, on, start⟩ :=
    @page_start _ parse source none page f.bytes f.bytes.length _ false place (window ▸ is)
  have reads : TailReads parse f.bytes (FileVersion.of f') source page.newer := is ▸ tail_newer later
  have len : page.newer.len = f'.bytes.length := congrArg FileVersion.len reads.version
  have at_ : page.newer.position.start = resume f.bytes := congrArg Position.start reads.position
  have within := Nat.le_trans reads.rests.le reads.rests.fits
  have current := unchanged_of_version reads.version
  -- Either way, where no more is shown nothing is left.
  have left : unfinished f.bytes ≠ 0 ∨ page.events = [] → Left f'.bytes f'.bytes.length page.newer := by
    intro one
    obtain ⟨finished, shown⟩ | ⟨untold, giant⟩ := quiet
    · obtain unended | none_ := one
      · exact absurd finished unended
      · exact absurd (nil none_) shown
    · refine Untold.left (at_ ▸ untold) fun pending => ?_
      have large := reads.pending pending
      have here : resume f.bytes = f.bytes.length := if_pos large
      rw [at_, here, giant large]
  refine ⟨⟨reads.source, current, ?_, reads.rests.grown grown, reads.pends.grown grown within, ?_⟩, ?_, ?_, ?_⟩
  · rw [len]
    exact Nat.le_trans reads.rests.fits later
  · rw [len]
    exact fun waits => left (.inl (reads.waits waits))
  · rw [start, reads.position]
    exact not_before_rests rests
  · rw [events, between_later reads.rests grown, reads.position]
    refine between_gap ?_ ?_
    · rw [← at_]
      exact within
    · rintro r mem ⟨ge, lt⟩
      obtain ⟨piece, mark, _⟩ := mem_inlineRecords.mp mem
      have less := piece.lt
      have up := piece.up
      unfold resume at ge
      split at ge
      · omega
      · exact unfinished_unended f.bytes (r.stop - 1) (by omega) (by omega) mark
  · rw [len]
    exact fun none_ _ => left (.inr none_)

theorem older_told {c : Cursor} (grown : Grown f f') (rests : Rests parse f.bytes c.position)
    (quiet : Quiet parse f f' (some c))
    (is : page = parseOlder parse (windowOf f (some c)) (FileVersion.of f') source (some c) false) :
    Told parse source f' page.start page.events page := by
  have later := grown.length_le
  have nil := fun (none_ : page.events = []) => shown_of_events (is ▸ none_)
  have window := @windowOf_eq _ parse f.bytes f (some c) rests.place ⟨[], (List.append_nil _).symm⟩ rfl
  have newer : page.newer = (FileVersion.of f').cursor source c.position := by
    rw [is]
    rfl
  rw [window] at is
  obtain ⟨q, _, events, on, _⟩ := @page_start _ parse source (some c) page f.bytes _ _ false rests.place is
  have len : page.newer.len = f'.bytes.length := by
    rw [newer]
    exact Nat.max_eq_left (Nat.le_trans rests.fits later)
  refine ⟨⟨?_, ?_, ?_, ?_, ?_, ?_⟩, ?_, ?_, ?_⟩
  · rw [newer]
    rfl
  · rw [newer]
    exact unchanged_of_version (version_cursor (Nat.le_trans rests.fits later))
  · rw [len, newer]
    exact Nat.le_trans rests.fits later
  · rw [newer]
    exact rests.grown grown
  · rw [newer]
    nofun
  · rw [newer]
    nofun
  · rw [newer]
    exact on
  · rw [newer]
    exact events.trans (between_later rests grown).symm
  · intro none_ _
    rw [len]
    refine Untold.left ?_ ?_
    · rw [newer]
      exact quiet.resolve_left fun shown => shown (nil none_)
    · rw [newer]
      nofun

end First

end Khor.Adaptor
