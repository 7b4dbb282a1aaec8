/-
Module: Khor.Adaptor.Following
Purpose: Reading a transcript forward: the pages that follow a tail, or an older page, along the newer cursors of a
  file that is only appended to, whenever in a request the appends happen.
Trusted boundary: the file can be read, and a read costs at most 16 KiB more on the wire than its bytes
Main exports: Reached, Follows, collected, since, forward_pages_exact
-/
import Khor.Adaptor.Tail

namespace Khor.Adaptor

variable {T : Type} {parse : List UInt8 → List T} {wire : PreparedRead → Nat}

/-! ### Every page after it -/

/-- The file at the looks of one request. -/
def looks (moment : Nat → File) (n : Nat) (k : Nat) : File := moment (3 * n + k)

/-- The tail, and the places that older cursors lead to from it, at the requests that follow one another. -/
inductive Reached (parse : List UInt8 → List T) (wire : PreparedRead → Nat) (moment : Nat → File)
    (source : String) : Nat → Option Cursor → Prop
  | tail (m : Nat) : Reached parse wire moment source m none
  | older {m : Nat} {cursor : Option Cursor} {page : Page T} {c : Cursor}
      (before : Reached parse wire moment source m cursor)
      (read : readPage parse wire (looks moment m) source cursor false = .ok page) (older : page.older = some c) :
      Reached parse wire moment source (m + 1) (some c)

/-- A page, and the newer pages that follow it. -/
structure Follows (parse : List UInt8 → List T) (wire : PreparedRead → Nat) (moment : Nat → File)
    (source : String) (m : Nat) (cursor : Option Cursor) (page : Nat → Page T) : Prop where
  first : readPage parse wire (looks moment m) source cursor false = .ok (page 0)
  next : ∀ n, readNext parse wire (looks moment (m + n + 1)) source (page n).newer false = .ok (page (n + 1))

section Run

variable {moment : Nat → File} {source : String} {m : Nat} {cursor : Option Cursor} {page page' : Nat → Page T}

variable (grown : ∀ n, Grown (moment n) (moment (n + 1)))
include grown

theorem grown_le {n k : Nat} (le : n ≤ k) : Grown (moment n) (moment k) := by
  induction k, le using Nat.le_induction with
  | base => exact .refl _
  | succ k _ ih => exact ih.trans (grown k)

variable (readable : ∀ n, Readable (moment n)) (fitsWire : Fits wire)
include readable fitsWire

/-- Older cursors are taken, and stand where no record is cut. -/
theorem Reached.accepts (h : Reached parse wire moment source m cursor) :
    ∀ c ∈ cursor, Accepts (looks moment m 0) source c ∧ Rests parse (looks moment m 0).bytes c.position := by
  induction h with
  | tail m => nofun
  | @older m cursor page c before read older ih =>
      rintro _ ⟨⟩
      have first : Grown (looks moment m 0) (looks moment m 1) := grown _
      have second : Grown (looks moment m 1) (looks moment m 2) := grown _
      have third : Grown (looks moment m 2) (looks moment (m + 1) 0) := grown _
      have ok := @readPage_ok _ parse wire _ _ (looks moment m) (fun c is => (ih c is).1) first second (readable _) fitsWire
      rw [ok] at read
      have is := (Except.ok.inj read).symm
      have place : Place parse (looks moment m 1).bytes (limit (looks moment m 1).bytes cursor) := by
        cases cursor with
        | none =>
            exact ⟨Nat.le_refl _, Nat.le_refl _, fun _ r mem => .inl (mem_inlineRecords.mp mem).1.up,
              fun other => absurd rfl other⟩
        | some c => exact ((ih c rfl).2.grown first).place
      have stop : stopOf (looks moment m 1) cursor = (limit (looks moment m 1).bytes cursor).bound := by
        cases cursor <;> rfl
      rw [windowOf_eq place ⟨[], (List.append_nil _).symm⟩ stop] at is
      obtain ⟨q, rests, _, ⟨none_, _⟩ | ⟨_, some_⟩⟩ := older_step place is
      · rw [older] at none_
        cases none_
      · rw [older] at some_
        cases some_
        have later : Rests parse (looks moment m 2).bytes q := rests.grown second
        exact ⟨accepts_older third later.le later.fits, later.grown third⟩

end Run

/-- The history from a position on. -/
def since (parse : List UInt8 → List T) (bytes : List UInt8) (q : Position) : List (Event T) :=
  (history parse bytes).filter fun e => ¬Before e.position q

theorem since_eq {bytes : List UInt8} {q q' : Position} (on : ¬Before q' q) :
    since parse bytes q = between parse bytes q q' ++ since parse bytes q' := by
  refine InOrder.ext (history_inOrder.filter _)
    (List.pairwise_append.mpr ⟨between_inOrder, history_inOrder.filter _, ?_⟩) fun e => ?_
  · intro e mem e' mem'
    have before := (mem_between.mp mem).2.1
    have after := of_decide_eq_true (List.mem_filter.mp mem').2
    unfold Before at *
    omega
  · rw [List.mem_append, mem_between, since, List.mem_filter, since, List.mem_filter, decide_eq_true_eq,
      decide_eq_true_eq]
    have order : ¬Before e.position q ↔
        (Before e.position q' ∧ ¬Before e.position q) ∨ ¬Before e.position q' := by
      unfold Before at *
      omega
    rw [order]
    tauto

/-- A position further on in the same record has events before it. -/
theorem between_ne_nil {bytes : List UInt8} {q q' : Position} (rests : Rests parse bytes q')
    (same : q.start = q'.start) (lt : q.item < q'.item) : between parse bytes q q' ≠ [] := by
  obtain ⟨mem, le⟩ := rests.within (Nat.ne_of_gt (Nat.lt_of_le_of_lt (Nat.zero_le _) lt))
  obtain ⟨payload, found⟩ : ∃ payload, (parse (slice bytes ⟨q'.start, q'.stop⟩))[q.item]? = some payload :=
    ⟨_, List.getElem?_eq_getElem (Nat.lt_of_lt_of_le lt le)⟩
  have listed : (⟨⟨q'.start, q'.stop, q.item⟩, payload⟩ : Event T) ∈ between parse bytes q q' := by
    refine mem_between.mpr ⟨mem_history.mpr ⟨_, mem, mem_eventsOf.mpr ⟨rfl, rfl, found⟩⟩, .inr ⟨rfl, lt⟩, ?_⟩
    rintro (before | ⟨_, before⟩)
    · exact Nat.lt_irrefl _ (same ▸ before)
    · exact Nat.lt_irrefl _ before
  exact List.ne_nil_of_mem listed

/-- What is left after a position: events to show, and bytes to go through. -/
def ahead (parse : List UInt8 → List T) (bytes : List UInt8) (q : Position) : Nat :=
  (since parse bytes q).length + (bytes.length - q.start)

theorem ahead_lt {bytes : List UInt8} {q q' : Position} (before : Before q q') (rests : Rests parse bytes q') :
    ahead parse bytes q' < ahead parse bytes q := by
  have cut := congrArg List.length (@since_eq _ parse bytes _ _ before.asymm)
  have fits := Nat.le_trans rests.le rests.fits
  rw [List.length_append] at cut
  unfold ahead
  obtain lt | ⟨same, lt⟩ := before
  · omega
  · have some_ := List.length_pos_of_ne_nil (between_ne_nil rests same lt)
    omega

variable {start : Position} {events : List (Event T)}

/-- Where nothing is left of the file up to a length, all that is there has been shown. -/
theorem Told.all_of_left {source : String} {f : File} {page : Page T} (h : Told parse source f start events page)
    {len : Nat} (left : Left f.bytes len page.newer) (le : len ≤ f.bytes.length)
    (fits : page.newer.position.stop ≤ len) : events = since parse (f.bytes.take len) start := by
  have length : (f.bytes.take len).length = len := by
    rw [List.length_take]
    exact Nat.min_eq_left le
  rw [h.events]
  have whole := List.take_append_drop len f.bytes
  refine between_inOrder.ext (history_inOrder.filter _) fun e => ?_
  rw [mem_between, since, List.mem_filter, decide_eq_true_eq, mem_history, mem_history, ← and_assoc]
  refine and_congr_left fun _ => ⟨fun ⟨⟨r, mem, inside⟩, before⟩ => ?_, fun ⟨r, mem, inside⟩ => ?_⟩
  · have up := ((h.ready.rests.place.before_iff mem (mem_eventsOf.mp inside).1).mp before).1
    have stop : page.newer.position.bound ≤ page.newer.position.stop := by
      have le := h.ready.rests.le
      unfold Position.bound
      split <;> omega
    have within : r.stop ≤ (f.bytes.take len).length := by
      rw [length]
      exact Nat.le_trans up (Nat.le_trans stop fits)
    have le := (mem_inlineRecords.mp mem).1.lt.le
    rw [← whole, mem_inlineRecords_append within] at mem
    rw [← whole, slice_append within le] at inside
    exact ⟨r, mem, inside⟩
  · obtain ⟨piece, _, _⟩ := mem_inlineRecords.mp mem
    have less := piece.lt
    have within := piece.up
    have listed : r ∈ inlineRecords f.bytes := by
      rw [← whole]
      exact (mem_inlineRecords_append within).mpr mem
    have line : slice f.bytes r = slice (f.bytes.take len) r := by
      conv_lhs => rw [← whole]
      exact slice_append within less.le
    have mark := (mem_inlineRecords.mp listed).2.1
    refine ⟨⟨r, listed, line ▸ inside⟩, .inl ?_⟩
    rw [(mem_eventsOf.mp inside).1]
    -- Its newline is not among the bytes that are left.
    by_contra ge
    exact left.unended (r.stop - 1) (by omega) (by omega) mark

/-- An idle page has shown all that is there. -/
theorem Told.all {source : String} {f : File} {page : Page T} (h : Told parse source f start events page)
    (none_ : page.events = []) (goes : page.hasMore = false) :
    events = since parse (f.bytes.take page.newer.len) start :=
  h.all_of_left (h.idle none_ goes) (len_le_of_current h.ready.current) h.ready.stop_le

theorem Told.next {source : String} {f f' : File} {start : Position} {events : List (Event T)} {page page' : Page T}
    (h : Told parse source f start events page) (grown : Grown f f')
    (advances : Advances parse source f' page.newer page') :
    Told parse source f' start (events ++ page'.events) page' where
  ready := advances.ready
  on := not_before_trans h.on advances.on
  events := by
    rw [h.events, advances.events, ← between_later h.ready.rests grown]
    exact between_append h.on advances.on
  idle := fun none_ goes => advances.len ▸ advances.idle none_ goes

/-- A newer page is read, and goes on. -/
theorem next_page {file : Nat → File} {source : String} {c : Cursor} (ready : Ready parse source (file 0) c)
    (first : Grown (file 0) (file 1)) (second : Grown (file 1) (file 2)) (readable : ∀ k, Readable (file k))
    (fitsWire : Fits wire) :
    ∃ page, readNext parse wire file source c false = .ok page ∧
      ∃ f, Grown (file 0) f ∧ Grown f (file 2) ∧ Advances parse source f c page ∧
        (page.events = [] ∧ page.hasMore = false ∨ Before c.position page.newer.position ∨
          Behind (file 1) (file 2) page.newer) := by
  by_cases unmoved : Unmoved (file 0) c
  · exact ⟨_, readNext_unmoved ready (readable 0) fitsWire unmoved, file 0, .refl _, first.trans second,
      unmoved_advances ready unmoved, .inl ⟨rfl, rfl⟩⟩
  · obtain ⟨advances, moves⟩ := forward_advances (ready.grown first) second rfl
    exact ⟨_, readNext_moved ready first second (readable 2) fitsWire unmoved, file 2, first.trans second, .refl _,
      advances, moves⟩

/-- The pages in turn. -/
def pagesFrom (parse : List UInt8 → List T) (wire : PreparedRead → Nat) (moment : Nat → File) (source : String)
    (m : Nat) (first : Page T) : Nat → Page T
  | 0 => first
  | n + 1 =>
      match readNext parse wire (looks moment (m + n + 1)) source
          (pagesFrom parse wire moment source m first n).newer false with
      | .ok page => page
      | .error _ => pagesFrom parse wire moment source m first n

/-- What the first pages have shown, up to the `n`th. -/
def collected (page : Nat → Page T) (n : Nat) : List (Event T) :=
  (List.range (n + 1)).flatMap fun i => (page i).events

theorem collected_succ (page : Nat → Page T) (n : Nat) :
    collected page (n + 1) = collected page n ++ (page (n + 1)).events := by
  unfold collected
  rw [List.range_succ (n := n + 1), List.flatMap_append, List.flatMap_singleton]

section Run

variable {moment : Nat → File} {source : String} {m : Nat} {cursor : Option Cursor} {page : Nat → Page T}
  (grown : ∀ n, Grown (moment n) (moment (n + 1))) (readable : ∀ n, Readable (moment n)) (fitsWire : Fits wire)
include grown readable fitsWire

/-- The first page is read, and hides nothing where it is quiet. -/
theorem first_told (reached : Reached parse wire moment source m cursor)
    (quiet : Quiet parse (looks moment m 1) (looks moment m 2) cursor) :
    ∃ page, readPage parse wire (looks moment m) source cursor false = .ok page ∧
      Told parse source (looks moment m 2) page.start page.events page := by
  have accepts := reached.accepts grown readable fitsWire
  have first : Grown (looks moment m 0) (looks moment m 1) := grown _
  have second : Grown (looks moment m 1) (looks moment m 2) := grown _
  refine ⟨_, readPage_ok (fun c is => (accepts c is).1) first second (readable _) fitsWire, ?_⟩
  cases cursor with
  | none => exact tail_told second quiet rfl
  | some c => exact older_told second ((accepts c rfl).2.grown first) quiet rfl

/-- One page follows another, and what they have shown is told of. -/
theorem told_next {page : Page T} {n : Nat} (h : Told parse source (looks moment n 2) start events page) :
    ∃ page', readNext parse wire (looks moment (n + 1)) source page.newer false = .ok page' ∧
      Told parse source (looks moment (n + 1) 2) start (events ++ page'.events) page' ∧
      (looks moment (n + 1) 0).bytes.length ≤ page'.newer.len ∧
      (page'.events = [] ∧ page'.hasMore = false ∨ Before page.newer.position page'.newer.position ∨
        Behind (looks moment (n + 1) 1) (looks moment (n + 1) 2) page'.newer) := by
  have before : Grown (looks moment n 2) (looks moment (n + 1) 0) := grown _
  obtain ⟨page', read, f, up, on, advances, moves⟩ := @next_page _ parse wire (looks moment (n + 1)) source page.newer
    (h.ready.grown before) (grown _) (grown _) (fun k => readable _) fitsWire
  exact ⟨page', read, (h.next (before.trans up) advances).grown on, advances.len ▸ up.length_le, moves⟩

variable {first : Page T}

section

variable (h : Told parse source (looks moment m 2) first.start first.events first)
include h

theorem pagesFrom_told (n : Nat) :
    Told parse source (looks moment (m + n) 2) first.start
      (collected (pagesFrom parse wire moment source m first) n) (pagesFrom parse wire moment source m first n) := by
  induction n with
  | zero =>
      have one : collected (pagesFrom parse wire moment source m first) 0 = first.events := List.append_nil _
      rw [one]
      exact h
  | succ n ih =>
      obtain ⟨page', read, told, _⟩ := told_next grown readable fitsWire ih
      have is : pagesFrom parse wire moment source m first (n + 1) = page' := by
        unfold pagesFrom
        rw [read]
      rw [collected_succ, is]
      exact told

theorem pagesFrom_follows (read : readPage parse wire (looks moment m) source cursor false = .ok first) :
    Follows parse wire moment source m cursor (pagesFrom parse wire moment source m first) where
  first := read
  next := fun n => by
    obtain ⟨page', read, _⟩ := told_next grown readable fitsWire (pagesFrom_told grown readable fitsWire h n)
    have is : pagesFrom parse wire moment source m first (n + 1) = page' := by
      conv_lhs => unfold pagesFrom
      rw [read]
    rw [is]
    exact read

/-- Where the file grows no more a page comes that is idle. -/
theorem pagesFrom_idle {k : Nat}
    (still : ∀ j, k ≤ j → moment j = moment k) : ∃ n, (pagesFrom parse wire moment source m first n).events = [] ∧
      (pagesFrom parse wire moment source m first n).hasMore = false ∧
      collected (pagesFrom parse wire moment source m first) n = since parse (moment k).bytes first.start := by
  -- From a request on that sees the last of the file, each page that is not idle leaves less ahead.
  have later : ∀ n, k ≤ 3 * (m + n) → ∃ n', (pagesFrom parse wire moment source m first n').events = [] ∧
      (pagesFrom parse wire moment source m first n').hasMore = false ∧
      collected (pagesFrom parse wire moment source m first) n' = since parse (moment k).bytes first.start := by
    intro n
    generalize left : ahead parse (moment k).bytes (pagesFrom parse wire moment source m first n).newer.position = size
    induction size using Nat.strong_induction_on generalizing n with
    | _ size ih =>
      intro past
      have told := pagesFrom_told grown readable fitsWire h n
      obtain ⟨page', read, told', len, moves⟩ := told_next grown readable fitsWire told
      have is : pagesFrom parse wire moment source m first (n + 1) = page' := by
        conv_lhs => unfold pagesFrom
        rw [read]
      have same : ∀ i, looks moment (m + n + 1) i = moment k := fun i => still _ (by omega)
      rw [same] at told' len
      rw [same, same] at moves
      obtain ⟨none_, goes⟩ | before | more := moves
      · refine ⟨n + 1, is ▸ none_, is ▸ goes, ?_⟩
        rw [collected_succ, is, told'.all none_ goes, List.take_of_length_le len]
      · have less : ahead parse (moment k).bytes page'.newer.position < size := by
          rw [← left]
          exact ahead_lt before told'.ready.rests
        exact ih _ less (n + 1) (by rw [is]) (by omega)
      · exact absurd more.lt (Nat.lt_irrefl _)
  exact later k (by omega)

/-- Each page goes on, or has shown all that was there when it was asked for. -/
theorem pagesFrom_moves (n : Nat) :
    Before (pagesFrom parse wire moment source m first n).newer.position
        (pagesFrom parse wire moment source m first (n + 1)).newer.position ∨
      ∃ len, (moment (3 * (m + n + 1))).bytes.length ≤ len ∧
        collected (pagesFrom parse wire moment source m first) (n + 1) =
          since parse ((moment (3 * (m + n + 1) + 2)).bytes.take len) first.start := by
  obtain ⟨page', read, told', len, moves⟩ :=
    told_next grown readable fitsWire (pagesFrom_told grown readable fitsWire h n)
  have is : pagesFrom parse wire moment source m first (n + 1) = page' := by
    conv_lhs => unfold pagesFrom
    rw [read]
  rw [collected_succ, is]
  obtain ⟨none_, goes⟩ | before | behind := moves
  · exact .inr ⟨_, len, told'.all none_ goes⟩
  · exact .inl before
  · have first : Grown (looks moment (m + n + 1) 0) (looks moment (m + n + 1) 1) := grown _
    have second : Grown (looks moment (m + n + 1) 1) (looks moment (m + n + 1) 2) := grown _
    exact .inr ⟨_, first.length_le, told'.all_of_left (behind.left.grown second (Nat.le_refl _)) behind.lt.le
      behind.stop_le⟩

end

end Run

/-- Following the newer cursors from the tail, or from any page that older cursors lead to: the pages show the
history from where the first starts up to the last one's newer cursor, each event once, whatever is appended between
and within the requests; an idle page leaves nothing to be read of what its cursor records; each page goes on, or has
shown all that was there when it was asked for; and once the file grows no more an idle page comes. The first page has to
hide nothing. -/
theorem forward_pages_exact (parse : List UInt8 → List T) (wire : PreparedRead → Nat) (fitsWire : Fits wire)
    (moment : Nat → File) (readable : ∀ n, Readable (moment n)) (grown : ∀ n, Grown (moment n) (moment (n + 1)))
    (source : String) (m : Nat) (cursor : Option Cursor) (reached : Reached parse wire moment source m cursor)
    (quiet : Quiet parse (looks moment m 1) (looks moment m 2) cursor) :
    ∃ page : Nat → Page T, Follows parse wire moment source m cursor page ∧
      (∀ n k, 3 * (m + n) + 2 ≤ k → InOrder (history parse (moment k).bytes) ∧
        collected page n = between parse (moment k).bytes (page 0).start (page n).newer.position ∧
        ((page n).events = [] → (page n).hasMore = false →
          Left (moment k).bytes (page n).newer.len (page n).newer ∧
          collected page n = since parse ((moment k).bytes.take (page n).newer.len) (page 0).start)) ∧
      (∀ n, Before (page n).newer.position (page (n + 1)).newer.position ∨
        ∃ len, (moment (3 * (m + n + 1))).bytes.length ≤ len ∧ collected page (n + 1) =
          since parse ((moment (3 * (m + n + 1) + 2)).bytes.take len) (page 0).start) ∧
      ∀ k, (∀ j, k ≤ j → moment j = moment k) → ∃ n, (page n).events = [] ∧ (page n).hasMore = false ∧
        collected page n = since parse (moment k).bytes (page 0).start := by
  obtain ⟨first, read, told⟩ := first_told grown readable fitsWire reached quiet
  refine ⟨pagesFrom parse wire moment source m first, pagesFrom_follows grown readable fitsWire told read,
    fun n k later => ?_, pagesFrom_moves grown readable fitsWire told, fun k still => pagesFrom_idle grown readable fitsWire told still⟩
  have now := (pagesFrom_told grown readable fitsWire told n).grown (grown_le grown later)
  exact ⟨history_inOrder, now.events, fun none_ goes => ⟨now.idle none_ goes, now.all none_ goes⟩⟩

/-- A file that gets a line at each look. -/
theorem forward_pages_two_lines :
    ∃ page : Nat → Page (List UInt8), Follows (fun line => [line]) windowBytes twoLinesAndMore "s" 0 none page ∧
      (∀ n k, 3 * (0 + n) + 2 ≤ k → InOrder (history (fun line => [line]) (twoLinesAndMore k).bytes) ∧
        collected page n = between (fun line => [line]) (twoLinesAndMore k).bytes (page 0).start
          (page n).newer.position ∧ ((page n).events = [] → (page n).hasMore = false →
          Left (twoLinesAndMore k).bytes (page n).newer.len (page n).newer ∧
          collected page n = since (fun line => [line]) ((twoLinesAndMore k).bytes.take (page n).newer.len)
            (page 0).start)) ∧
      (∀ n, Before (page n).newer.position (page (n + 1)).newer.position ∨
        ∃ len, (twoLinesAndMore (3 * (0 + n + 1))).bytes.length ≤ len ∧ collected page (n + 1) =
          since (fun line => [line]) ((twoLinesAndMore (3 * (0 + n + 1) + 2)).bytes.take len) (page 0).start) ∧
      ∀ k, (∀ j, k ≤ j → twoLinesAndMore j = twoLinesAndMore k) → ∃ n, (page n).events = [] ∧
        (page n).hasMore = false ∧
        collected page n = since (fun line => [line]) (twoLinesAndMore k).bytes (page 0).start :=
  forward_pages_exact (fun line => [line]) windowBytes windowBytes_fits twoLinesAndMore twoLinesAndMore_readable
    twoLinesAndMore_grown "s" 0 none (.tail 0) (.inl ⟨by decide +kernel, by decide +kernel⟩)

/-- A line that is unfinished as the window of the tail is read, and finished as the version is observed. -/
def lateNewline (n : Nat) : File where
  identity := "66306:1573"
  modified := if n < 2 then (0, 0) else (1, 0)
  bytes := if n < 2 then [120, 10, 121] else [120, 10, 121, 10]

def lateTail : Page (List UInt8) where
  events := [⟨⟨0, 2, 0⟩, [120, 10]⟩]
  references := [⟨⟨2, 3⟩, false, true⟩]
  older := none
  reset := false
  newer := ⟨"s", "66306:1573", 4, (1, 0), ⟨2, 2, 0⟩, none, true⟩
  hasMore := false
  origin := ⟨"s", "66306:1573", 4, (1, 0), ⟨0, 0, 0⟩, none, false⟩

def lateIdle : Page (List UInt8) := { lateTail with events := [], references := [] }

/-- The finished line is never shown: each page after the tail is idle, and the line stands after its cursor. -/
theorem tail_hides_the_late_line :
    ∃ page : Nat → Page (List UInt8), Follows (fun line => [line]) windowBytes lateNewline "s" 0 none page ∧
      ∀ n, (page (n + 1)).events = [] ∧ (page (n + 1)).hasMore = false ∧
        (page (n + 1)).newer.position.start = 2 ∧ (page (n + 1)).newer.len = 4 ∧
        ⟨2, 4⟩ ∈ inlineRecords (lateNewline (3 * (n + 1))).bytes := by
  refine ⟨fun n => match n with
    | 0 => lateTail
    | _ + 1 => lateIdle, ⟨by decide +kernel, fun n => ?_⟩, fun n => ?_⟩
  · have still : looks lateNewline (0 + n + 1) = fun _ => lateNewline 3 := by
      funext k
      have late : ¬3 * (0 + n + 1) + k < 2 := by omega
      unfold looks lateNewline
      rw [if_neg late, if_neg late, if_neg (by decide), if_neg (by decide)]
    rw [still]
    cases n with
    | zero =>
        change readNext _ windowBytes _ "s" lateTail.newer false = .ok lateIdle
        decide +kernel
    | succ n =>
        change readNext _ windowBytes _ "s" lateIdle.newer false = .ok lateIdle
        decide +kernel
  · have late : ¬3 * (n + 1) < 2 := by omega
    refine ⟨rfl, rfl, rfl, rfl, ?_⟩
    unfold lateNewline
    rw [if_neg late, if_neg late]
    decide

end Khor.Adaptor
