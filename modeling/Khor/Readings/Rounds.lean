/-
Module: Khor.Readings.Rounds
Purpose: Rounds between one asker and one answerer (crates/node/src/link.rs): the readings asked by digest, answered
  whole or as a change, and taken in; and what is held after a round.
Trusted boundary: the frame encoding, the digest and the order of a hash map's entries, as parameters; digests tell
  the frames that a round compares apart; whether an answer is too big for the frame is an input
Main exports: Codec, rowsSince, rowsRebuilt, State, Round
-/
import Khor.Lib.Runs
import Khor.Readings.DayChange

namespace Khor.Readings

/-- The answers a reading can have. -/
inductive Response (Row Wire Digest : Type) where
  | sessionRows (rows : List Row)
  | days (day : Wire)
  | sessionRowsSince (order : List String) (rows : List Row) (full : Digest)
  | daySince (since : DaySince) (full : Digest)
  | readingDeferred
  | refused (why : String)

/-- `proto::encode` of a row and of an answer, its reading, and the digest of a frame. -/
structure Codec (Row Wire Frame Digest : Type) where
  id : Row → String
  row : Row → List UInt8
  frame : Response Row Wire Digest → Frame
  decode : Frame → Option (Response Row Wire Digest)
  digest : Frame → Digest
  size : Frame → Nat
  /-- The frame without a byte, which stands for a refusal. -/
  empty : Frame
  json : Json Wire
  row_inj : ∀ a b, row a = row b → a = b
  decode_frame : ∀ r, decode (frame r) = some r
  frame_ne : ∀ r, frame r ≠ empty

variable {Row Wire Frame Digest : Type} (c : Codec Row Wire Frame Digest)

/-! ### Rows -/

/-- The last row under an id, as a hash map made of the rows has it. -/
def Codec.find (rows : List Row) (id : String) : Option Row := rows.reverse.find? (c.id · = id)

/-- What changed between the rows last sent and these: the order if it changed, and the rows that differ. -/
def rowsSince (was now : List Row) : Option (List String × List Row) :=
  if ¬(now.map c.id).Nodup ∨ now = [] ∧ was ≠ [] then none
  else
    let changed := now.filter fun r => ((c.find was (c.id r)).map c.row).all (· ≠ c.row r)
    some (if was.map c.id = now.map c.id then [] else now.map c.id, changed)

/-- Take the rows of these ids out of the map, one after the other. -/
def removeAll (byId : String → Option Row) : List String → Option (List Row)
  | [] => some []
  | id :: rest =>
      match byId id with
      | none => none
      | some r => (removeAll (fun i => if i = id then none else byId i) rest).map (r :: ·)

/-- The rows rebuilt from the copy held and a change. -/
def rowsRebuilt (held : List Row) (order : List String) (changed : List Row) : Option (List Row) :=
  removeAll (fun id => (c.find changed id).or (c.find held id)) (if order = [] then held.map c.id else order)

variable {c}

variable {rows : List Row} {tooBig : Bool} {frame : Frame}

theorem find_some {id : String} {r : Row} (is : c.find rows id = some r) : r ∈ rows ∧ c.id r = id := by
  have named := List.find?_some is
  exact ⟨List.mem_reverse.mp (List.mem_of_find?_eq_some is), of_decide_eq_true named⟩

/-- Among rows with ids of their own the one under a row's id is that row. -/
theorem find_mem (nodup : (rows.map c.id).Nodup) {r : Row} (mem : r ∈ rows) : c.find rows (c.id r) = some r := by
  cases is : c.find rows (c.id r) with
  | none => exact absurd (decide_eq_true rfl) (List.find?_eq_none.mp is r (List.mem_reverse.mpr mem))
  | some r' =>
      obtain ⟨there, same⟩ := find_some is
      exact congrArg some (List.inj_on_of_nodup_map nodup there mem same)

theorem removeAll_eq {byId : String → Option Row} (nodup : (rows.map c.id).Nodup)
    (each : ∀ r ∈ rows, byId (c.id r) = some r) : removeAll byId (rows.map c.id) = some rows := by
  induction rows generalizing byId with
  | nil => rfl
  | cons r rows ih =>
      obtain ⟨fresh, nodup'⟩ := List.nodup_cons.mp nodup
      rw [List.map_cons, removeAll, each r List.mem_cons_self]
      dsimp only
      rw [ih nodup' fun r' mem => ?_]
      · rfl
      · rw [if_neg fun same => fresh (List.mem_map.mpr ⟨r', mem, same⟩)]
        exact each r' (.tail r mem)

/-- A change of the rows always makes the rows of the copy it was made against. -/
theorem rows_change_suffices {was now : List Row} {order : List String} {changed : List Row}
    (is : rowsSince c was now = some (order, changed)) : rowsRebuilt c was order changed = some now := by
  unfold rowsSince at is
  split at is
  · cases is
  · rename_i fits
    cases is
    have nodup : (now.map c.id).Nodup := Decidable.not_not.mp fun not_ => fits (.inl not_)
    have order_ : (if (if was.map c.id = now.map c.id then [] else now.map c.id) = [] then was.map c.id
        else if was.map c.id = now.map c.id then [] else now.map c.id) = now.map c.id := by
      by_cases same : was.map c.id = now.map c.id
      · rw [if_pos same, if_pos rfl, same]
      · rw [if_neg same, if_neg]
        intro none_
        have empty : now = [] := List.map_eq_nil_iff.mp none_
        refine fits (.inr ⟨empty, ?_⟩)
        rintro rfl
        exact same (by rw [empty])
    unfold rowsRebuilt
    rw [order_]
    refine removeAll_eq nodup fun r mem => ?_
    have sub := (List.filter_sublist (p := fun r => ((c.find was (c.id r)).map c.row).all (· ≠ c.row r)) (l := now))
    by_cases differs : ((c.find was (c.id r)).map c.row).all (· ≠ c.row r)
    · rw [find_mem ((sub.map c.id).nodup nodup) (List.mem_filter.mpr ⟨mem, differs⟩), Option.some_or]
    · cases old : c.find was (c.id r) with
      | none => exact absurd (by rw [old]; rfl) differs
      | some r' =>
          have same : r' = r := by
            rw [old] at differs
            exact c.row_inj r' r (by simpa using differs)
          cases new : c.find (now.filter fun r => ((c.find was (c.id r)).map c.row).all (· ≠ c.row r)) (c.id r) with
          | none => exact congrArg some same
          | some r'' =>
              obtain ⟨there, id⟩ := find_some new
              obtain rfl := List.inj_on_of_nodup_map nodup (sub.subset there) mem id
              exact absurd (List.mem_filter.mp there).2 differs

/-! ### The answerer -/

/-- What became of a reading before its deadline. -/
inductive Computed (α : Type) where
  | late
  | refused
  | answer (a : α)

variable [DecidableEq Digest]

variable (c) in
/-- A frame that does not fit is deferred. -/
def deferred (tooBig : Bool) (frame : Frame) : Frame :=
  if tooBig then c.frame .readingDeferred else frame

variable (c) in
/-- `sessions`, to an asker that takes a change: the rows last sent it from now on, and the frame, if there is any. An
empty frame is a refusal. -/
def answerSessions (sent : Option (Digest × List Row)) (held : Option Digest) (tooBig : Bool) :
    Computed (List Row) → Option (Digest × List Row) × Option Frame
  | .late => (sent, none)
  | .refused => (sent, some c.empty)
  | .answer rows =>
      let frame := c.frame (.sessionRows rows)
      let digest := c.digest frame
      if some digest = held then (some (digest, rows), none)
      else
        let since := ((sent.filter fun s => some s.1 = held).bind fun s => rowsSince c s.2 rows).map fun change =>
          c.frame (.sessionRowsSince change.1 change.2 digest)
        (some (digest, rows), some (deferred c tooBig ((since.filter (c.size · < c.size frame)).getD frame)))

variable (c) in
/-- `days`, or `days@` and the last minute of the copy held. -/
def answerDays (held : Option Digest) (heldEnd : Option Int) (nowMs : Int) (tooBig : Bool) :
    Computed Wire → Option Frame
  | .late => none
  | .refused => some c.empty
  | .answer day =>
      let frame := c.frame (.days day)
      let digest := c.digest frame
      if some digest = held then none
      else
        let since := heldEnd.bind fun last => (Day.fromWire c.json day nowMs).bind fun d => d.since last
        some (deferred c tooBig ((since.map fun change => c.frame (.daySince change digest)).getD frame))

/-! ### The asker -/

structure HeldReading (Row Wire Digest : Type) where
  digest : Digest
  answer : Response Row Wire Digest

variable (c) in
def Codec.reading (answer : Response Row Wire Digest) : HeldReading Row Wire Digest :=
  ⟨c.digest (c.frame answer), answer⟩

variable (c) in
/-- A rebuilt answer counts if it has the whole answer's digest. -/
def rebuilt (answer : Option (Response Row Wire Digest)) (full : Digest) : Option (HeldReading Row Wire Digest) :=
  (answer.map c.reading).filter fun h => h.digest = full

def rowsOf : Response Row Wire Digest → Option (List Row)
  | .sessionRows rows => some rows
  | _ => none

def dayOf : Response Row Wire Digest → Option Wire
  | .days day => some day
  | _ => none

variable (c) in
/-- What is held after a reading was asked by itself, as its own kind of answer. -/
def askedRows (again : Option (Response Row Wire Digest)) : Option (HeldReading Row Wire Digest) :=
  (again.bind rowsOf).map fun rows => c.reading (.sessionRows rows)

variable (c) in
def askedDay (again : Option (Response Row Wire Digest)) : Option (HeldReading Row Wire Digest) :=
  (again.bind dayOf).map fun day => c.reading (.days day)

variable (c) in
/-- What is held after a deferred reading was asked by itself. -/
def askedDeferred : Option (Response Row Wire Digest) → Option (HeldReading Row Wire Digest)
  | none | some (.refused _) => none
  | some answer => some (c.reading answer)

variable [DecidableEq Frame]

variable (c) in
/-- One reading of an answer taken in, `again` being what the answerer says when the reading is asked by itself. -/
def takeReading (held : Option (HeldReading Row Wire Digest)) (again : Option (Response Row Wire Digest)) :
    Option Frame → Option (HeldReading Row Wire Digest)
  | none => held
  | some frame =>
      if frame = c.empty then none
      else
        match c.decode frame with
        | some (.sessionRowsSince order rows full) =>
            let answer := ((held.bind fun h => rowsOf h.answer).bind fun was => rowsRebuilt c was order rows).map
              Response.sessionRows
            (rebuilt c answer full).or (askedRows c again)
        | some (.daySince since full) =>
            let answer := ((held.bind fun h => dayOf h.answer).bind fun day => applySince c.json day since).map
              Response.days
            (rebuilt c answer full).or (askedDay c again)
        | some .readingDeferred => askedDeferred c again
        | some answer => some ⟨c.digest frame, answer⟩
        | none => none

/-! ### Rounds -/

/-- `sent` is the answerer's; the rest is the asker's. -/
structure State (Row Wire Digest : Type) where
  sent : Option (Digest × List Row)
  sessions : Option (HeldReading Row Wire Digest)
  days : Option (HeldReading Row Wire Digest)

/-- What happens in a round: what the answerer computed, its clock when it made the change of the day, which answers
did not fit, whether the reply was lost, and what it answered to a reading asked by itself. -/
structure Round (Row Wire Digest : Type) where
  rows : Computed (List Row)
  day : Computed Wire
  nowMs : Int
  rowsTooBig : Bool
  dayTooBig : Bool
  lost : Bool
  rowsAgain : Option (Response Row Wire Digest)
  dayAgain : Option (Response Row Wire Digest)

inductive Event (Row Wire Digest : Type) where
  | round (r : Round Row Wire Digest)
  | askerRestarts
  | answererRestarts

variable (c) in
/-- The last minute of the copy of the day that is held. -/
def heldEnd (held : Option (HeldReading Row Wire Digest)) : Option Int :=
  (held.bind fun h => dayOf h.answer).bind fun day => endOfWire c.json day

variable (c) in
def State.round (s : State Row Wire Digest) (r : Round Row Wire Digest) : State Row Wire Digest :=
  let (sent, sessions) := answerSessions c s.sent (s.sessions.map (·.digest)) r.rowsTooBig r.rows
  let days := answerDays c (s.days.map (·.digest)) (heldEnd c s.days) r.nowMs r.dayTooBig r.day
  if r.lost then { s with sent }
  else
    { sent
      sessions := takeReading c s.sessions r.rowsAgain sessions
      days := takeReading c s.days r.dayAgain days }

variable (c) in
def State.step (s : State Row Wire Digest) : Event Row Wire Digest → State Row Wire Digest
  | .round r => s.round c r
  | .askerRestarts => { s with sessions := none, days := none }
  | .answererRestarts => { s with sent := none }

/-- Nothing held and nothing sent yet. -/
def State.start : State Row Wire Digest := ⟨none, none, none⟩

/-- What is held and what was sent go by the digest of their own frame. -/
structure Inv (c : Codec Row Wire Frame Digest) (s : State Row Wire Digest) : Prop where
  sent : ∀ x, s.sent = some x → x.1 = c.digest (c.frame (.sessionRows x.2))
  sessions : ∀ h, s.sessions = some h → h = c.reading h.answer
  days : ∀ h, s.days = some h → h = c.reading h.answer

/-- The frames whose digests a round compares: of what is held, of the rows last sent, of the whole answers, and of a day
that the asker makes of a change. -/
inductive Compared (c : Codec Row Wire Frame Digest) (s : State Row Wire Digest) (r : Round Row Wire Digest) : Frame → Prop
  | held {h : HeldReading Row Wire Digest} (is : s.sessions = some h ∨ s.days = some h) : Compared c s r (c.frame h.answer)
  | sent {x : Digest × List Row} (is : s.sent = some x) : Compared c s r (c.frame (.sessionRows x.2))
  | rows {rows : List Row} (is : r.rows = .answer rows) : Compared c s r (c.frame (.sessionRows rows))
  | day {day : Wire} (is : r.day = .answer day) : Compared c s r (c.frame (.days day))
  | made {day held made : Wire} {last : Int} {d : Day} {since : DaySince} (is : r.day = .answer day)
      (ends : heldEnd c s.days = some last) (read : Day.fromWire c.json day r.nowMs = some d)
      (cut : d.since last = some since) (there : (s.days.bind fun h => dayOf h.answer) = some held)
      (makes : applySince c.json held since = some made) : Compared c s r (c.frame (.days made))

/-- Digests tell the answers that a round compares apart. -/
def Apart (c : Codec Row Wire Frame Digest) (s : State Row Wire Digest) (r : Round Row Wire Digest) : Prop :=
  ∀ a b, Compared c s r a → Compared c s r b → c.digest a = c.digest b → a = b

variable {s : State Row Wire Digest} {r : Round Row Wire Digest} {h : HeldReading Row Wire Digest}

omit [DecidableEq Frame] [DecidableEq Digest] in
theorem Apart.answer (apart : Apart c s r) {a b : Response Row Wire Digest} (left : Compared c s r (c.frame a))
    (right : Compared c s r (c.frame b)) (same : c.digest (c.frame a) = c.digest (c.frame b)) : a = b := by
  have frames := congrArg c.decode (apart _ _ left right same)
  rw [c.decode_frame, c.decode_frame] at frames
  exact Option.some.inj frames

omit [DecidableEq Frame] in
/-- The change is cut from what was last sent, which is what is held. -/
theorem held_is_sent (h : Inv c s) (apart : Apart c s r) {x : Digest × List Row}
    (is : (s.sent.filter fun x => some x.1 = s.sessions.map (·.digest)) = some x) :
    ∃ held, s.sessions = some held ∧ held.answer = .sessionRows x.2 := by
  obtain ⟨sent, same⟩ := Option.filter_eq_some_iff.mp is
  have digest : some x.1 = s.sessions.map (·.digest) := of_decide_eq_true same
  cases there : s.sessions with
  | none =>
      rw [there] at digest
      cases digest
  | some held =>
      rw [there] at digest
      have frames : c.digest (c.frame (.sessionRows x.2)) = c.digest (c.frame held.answer) := by
        rw [← h.sent x sent, Option.some.inj digest]
        exact congrArg HeldReading.digest (h.sessions held there)
      exact ⟨held, rfl, (apart.answer (.sent sent) (.held (.inl there)) frames).symm⟩

theorem take_whole (held : Option (HeldReading Row Wire Digest)) (again : Option (Response Row Wire Digest))
    {answer : Response Row Wire Digest} (whole : (rowsOf answer).isSome ∨ (dayOf answer).isSome) :
    takeReading c held again (some (c.frame answer)) = some (c.reading answer) := by
  unfold takeReading
  dsimp only
  rw [if_neg (c.frame_ne answer), c.decode_frame]
  cases answer with
  | sessionRows | days | refused => rfl
  | sessionRowsSince | daySince | readingDeferred => exact whole.elim nofun nofun

theorem take_deferred (held : Option (HeldReading Row Wire Digest)) (again : Option (Response Row Wire Digest)) :
    takeReading c held again (some (c.frame .readingDeferred)) = askedDeferred c again := by
  unfold takeReading
  dsimp only
  rw [if_neg (c.frame_ne _), c.decode_frame]

omit [DecidableEq Frame] in
theorem rebuilt_some {answer : Option (Response Row Wire Digest)} {full : Digest}
    (is : rebuilt c answer full = some h) : ∃ a, answer = some a ∧ h = c.reading a := by
  obtain ⟨mapped, _⟩ := Option.filter_eq_some_iff.mp is
  obtain ⟨a, there, rfl⟩ := Option.map_eq_some_iff.mp mapped
  exact ⟨a, there, rfl⟩

omit [DecidableEq Frame] in
/-- An answer rebuilt with the digest of the whole one is the whole one. -/
theorem rebuilt_digest {answer : Option (Response Row Wire Digest)} {whole : Response Row Wire Digest}
    (apart : ∀ a ∈ answer, c.digest (c.frame a) = c.digest (c.frame whole) → a = whole)
    (is : rebuilt c answer (c.digest (c.frame whole)) = some h) : h = c.reading whole := by
  obtain ⟨a, rfl, rfl⟩ := rebuilt_some is
  obtain ⟨_, same⟩ := Option.filter_eq_some_iff.mp is
  rw [apart a rfl (of_decide_eq_true same)]

omit [DecidableEq Frame] in
theorem rebuilt_whole (whole : Response Row Wire Digest) :
    rebuilt c (some whole) (c.digest (c.frame whole)) = some (c.reading whole) :=
  if_pos (decide_eq_true rfl)

omit [DecidableEq Digest] [DecidableEq Frame] in
theorem asked_reading {again : Option (Response Row Wire Digest)}
    (is : askedRows c again = some h ∨ askedDay c again = some h ∨ askedDeferred c again = some h) :
    h = c.reading h.answer := by
  obtain rows | day | deferred := is
  · obtain ⟨rows, _, rfl⟩ := Option.map_eq_some_iff.mp rows
    rfl
  · obtain ⟨day, _, rfl⟩ := Option.map_eq_some_iff.mp day
    rfl
  · unfold askedDeferred at deferred
    split at deferred
    · cases deferred
    · cases deferred
    · cases deferred
      rfl

/-- Whatever the rows the answerer computed, after the reply is taken in they are what is held, or the reading was
deferred and what is held is what the answerer says when asked for it. -/
theorem sessions_taken (h : Inv c s) (apart : Apart c s r) (answered : r.rows = .answer rows) (tooBig : Bool)
    (again : Option (Response Row Wire Digest)) :
    let reply := (answerSessions c s.sent (s.sessions.map (·.digest)) tooBig (.answer rows)).2
    takeReading c s.sessions again reply = some (c.reading (.sessionRows rows)) ∨
    tooBig = true ∧ takeReading c s.sessions again reply = askedDeferred c again := by
  unfold answerSessions
  dsimp only
  split
  · rename_i same
    refine .inl ?_
    cases there : s.sessions with
    | none =>
        rw [there] at same
        cases same
    | some held =>
        rw [there] at same
        have is := h.sessions held there
        rw [is] at same
        show some held = _
        rw [is, ← apart.answer (.rows answered) (.held (.inl there)) (Option.some.inj same)]
  · rename_i other
    cases tooBig with
    | true => exact .inr ⟨rfl, take_deferred ..⟩
    | false =>
        refine .inl ?_
        show takeReading c s.sessions again (some (Option.getD _ _)) = _
        cases since : Option.filter _ _ with
        | none => exact take_whole _ _ (.inl rfl)
        | some frame =>
            obtain ⟨mapped, _⟩ := Option.filter_eq_some_iff.mp since
            obtain ⟨change, bound, rfl⟩ := Option.map_eq_some_iff.mp mapped
            obtain ⟨sent, is, cut⟩ := Option.bind_eq_some_iff.mp bound
            obtain ⟨held, there, answer⟩ := held_is_sent h apart is
            unfold takeReading
            dsimp only [Option.getD_some]
            rw [if_neg (c.frame_ne _), c.decode_frame]
            dsimp only
            rw [there, Option.bind_some, answer]
            show (rebuilt c ((rowsRebuilt c sent.2 change.1 change.2).map Response.sessionRows) _).or _ = _
            rw [rows_change_suffices cut, Option.map_some, rebuilt_whole, Option.some_or]

/-- Whatever the day the answerer computed, after the reply is taken in it is what is held, or the reading was deferred
or its change did not make the whole, and what is held is what the answerer says when asked for it. -/
theorem days_taken (h : Inv c s) (apart : Apart c s r) {day : Wire} (answered : r.day = .answer day) (tooBig : Bool)
    (again : Option (Response Row Wire Digest)) :
    let reply := answerDays c (s.days.map (·.digest)) (heldEnd c s.days) r.nowMs tooBig (.answer day)
    takeReading c s.days again reply = some (c.reading (.days day)) ∨
    tooBig = true ∧ takeReading c s.days again reply = askedDeferred c again ∨
    (∃ last since d, heldEnd c s.days = some last ∧ Day.fromWire c.json day r.nowMs = some d ∧ d.since last = some since ∧
      (∀ held, (s.days.bind fun h => dayOf h.answer) = some held → applySince c.json held since ≠ some day) ∧
      takeReading c s.days again reply = askedDay c again) := by
  unfold answerDays
  dsimp only
  split
  · rename_i same
    refine .inl ?_
    cases there : s.days with
    | none =>
        rw [there] at same
        cases same
    | some held =>
        rw [there] at same
        have is := h.days held there
        rw [is] at same
        show some held = _
        rw [is, ← apart.answer (.day answered) (.held (.inr there)) (Option.some.inj same)]
  · rename_i other
    cases tooBig with
    | true => exact .inr (.inl ⟨rfl, take_deferred ..⟩)
    | false =>
        show takeReading c s.days again (some (Option.getD _ _)) = _ ∨ _
        cases cut : (heldEnd c s.days).bind fun last => (Day.fromWire c.json day r.nowMs).bind fun d => d.since last with
        | none => exact .inl (take_whole _ _ (.inr rfl))
        | some since =>
            obtain ⟨last, isLast, bound⟩ := Option.bind_eq_some_iff.mp cut
            obtain ⟨d, read, isSince⟩ := Option.bind_eq_some_iff.mp bound
            have taken : takeReading c s.days again (some (c.frame (.daySince since (c.digest (c.frame (.days day)))))) =
                (rebuilt c (((s.days.bind fun h => dayOf h.answer).bind fun day => applySince c.json day since).map
                  Response.days) (c.digest (c.frame (.days day)))).or (askedDay c again) := by
              unfold takeReading
              dsimp only
              rw [if_neg (c.frame_ne _), c.decode_frame]
            show takeReading c s.days again (some (c.frame (.daySince since _))) = _ ∨ _
            rw [taken]
            generalize made : ((s.days.bind fun h => dayOf h.answer).bind fun day => applySince c.json day since) = whole at taken ⊢
            cases fits : rebuilt c (whole.map Response.days) (c.digest (c.frame (.days day))) with
            | some held =>
                refine .inl ?_
                rw [Option.some_or, rebuilt_digest (fun a mem => ?_) fits]
                obtain ⟨made', is, rfl⟩ := Option.map_eq_some_iff.mp mem
                obtain ⟨copy, there, makes⟩ := Option.bind_eq_some_iff.mp (made.trans is)
                exact apart.answer (.made answered isLast read isSince there makes) (.day answered)
            | none =>
                refine .inr (.inr ⟨last, since, d, isLast, read, isSince, fun held there is => ?_,
                  taken.trans (by rw [fits, Option.none_or])⟩)
                rw [there, Option.bind_some, is] at made
                subst made
                rw [Option.map_some, rebuilt_whole] at fits
                cases fits

theorem take_reading {held : Option (HeldReading Row Wire Digest)} {again : Option (Response Row Wire Digest)}
    {reply : Option Frame} (old : ∀ h, held = some h → h = c.reading h.answer)
    (framed : ∀ frame, reply = some frame → frame = c.empty ∨ ∃ answer, frame = c.frame answer)
    (is : takeReading c held again reply = some h) : h = c.reading h.answer := by
  unfold takeReading at is
  split at is
  · exact old h is
  · rename_i frame
    split at is
    · cases is
    · rename_i some_
      split at is
      · obtain rebuilt_ | ⟨_, asked⟩ := Option.or_eq_some_iff.mp is
        · obtain ⟨a, _, rfl⟩ := rebuilt_some rebuilt_
          rfl
        · exact asked_reading (.inl asked)
      · obtain rebuilt_ | ⟨_, asked⟩ := Option.or_eq_some_iff.mp is
        · obtain ⟨a, _, rfl⟩ := rebuilt_some rebuilt_
          rfl
        · exact asked_reading (.inr (.inl asked))
      · exact asked_reading (.inr (.inr is))
      · rename_i answer _ _ _ decoded
        cases is
        obtain none_ | ⟨sent, rfl⟩ := framed frame rfl
        · exact absurd none_ some_
        · rw [c.decode_frame] at decoded
          rw [← Option.some.inj decoded]
          rfl
      · cases is

omit [DecidableEq Digest] [DecidableEq Frame] in
theorem deferred_framed (framed : ∃ answer, frame = c.frame answer) :
    ∃ answer, deferred c tooBig frame = c.frame answer := by
  unfold deferred
  split
  · exact ⟨_, rfl⟩
  · exact framed

omit [DecidableEq Frame] in
theorem sessions_framed {sent : Option (Digest × List Row)} {held : Option Digest} {rows : Computed (List Row)}
    (is : (answerSessions c sent held tooBig rows).2 = some frame) :
    frame = c.empty ∨ ∃ answer, frame = c.frame answer := by
  unfold answerSessions at is
  cases rows with
  | late => cases is
  | refused =>
      cases is
      exact .inl rfl
  | answer rows =>
      dsimp only at is
      split at is
      · cases is
      · cases is
        refine .inr (deferred_framed ?_)
        cases since : Option.filter _ _ with
        | none => exact ⟨_, rfl⟩
        | some frame =>
            obtain ⟨mapped, _⟩ := Option.filter_eq_some_iff.mp since
            obtain ⟨change, _, rfl⟩ := Option.map_eq_some_iff.mp mapped
            exact ⟨_, rfl⟩

omit [DecidableEq Frame] in
theorem days_framed {held : Option Digest} {last : Option Int} {nowMs : Int} {day : Computed Wire}
    (is : answerDays c held last nowMs tooBig day = some frame) :
    frame = c.empty ∨ ∃ answer, frame = c.frame answer := by
  unfold answerDays at is
  cases day with
  | late => cases is
  | refused =>
      cases is
      exact .inl rfl
  | answer day =>
      dsimp only at is
      split at is
      · cases is
      · cases is
        refine .inr (deferred_framed ?_)
        cases last.bind fun last => (Day.fromWire c.json day nowMs).bind fun d => d.since last with
        | none | some => exact ⟨_, rfl⟩

theorem Inv.step {s : State Row Wire Digest} (h : Inv c s) (e : Event Row Wire Digest) : Inv c (s.step c e) := by
  cases e with
  | round r =>
      have sent : ∀ x, (answerSessions c s.sent (s.sessions.map (·.digest)) r.rowsTooBig r.rows).1 = some x →
          x.1 = c.digest (c.frame (.sessionRows x.2)) := by
        unfold answerSessions
        cases r.rows with
        | late | refused => exact h.sent
        | answer rows =>
            dsimp only
            split <;> rintro x ⟨⟩ <;> rfl
      show Inv c (s.round c r)
      unfold State.round
      dsimp only
      split
      · exact ⟨sent, h.sessions, h.days⟩
      · exact ⟨sent, fun held is => take_reading h.sessions (fun _ => sessions_framed) is,
          fun held is => take_reading h.days (fun _ => days_framed) is⟩
  | askerRestarts => exact ⟨h.sent, nofun, nofun⟩
  | answererRestarts => exact ⟨nofun, h.sessions, h.days⟩

/-- After any history of rounds and restarts, a round whose reply is taken in leaves the asker with the whole reading
that the answerer computed, or with what the answerer says when the reading is asked by itself: because it was deferred,
or because a change of the day did not make the whole. A change of the rows always makes it, and a change of the day does
exactly if nothing before the copy's last minute differs: so it does, if no sample fell before that minute and no row
that went to make room came back. -/
theorem readings_by_change (c : Codec Row Wire Frame Digest) :
    (∀ s, Runs (State.step c) (fun _ _ => True) State.start s → ∀ r : Round Row Wire Digest, r.lost = false →
      Apart c s r → (∀ rows, r.rows = .answer rows →
        (s.round c r).sessions = some (c.reading (.sessionRows rows)) ∨
        r.rowsTooBig = true ∧ (s.round c r).sessions = askedDeferred c r.rowsAgain) ∧
      ∀ day, r.day = .answer day → (s.round c r).days = some (c.reading (.days day)) ∨
        r.dayTooBig = true ∧ (s.round c r).days = askedDeferred c r.dayAgain ∨
        (∃ last since d, heldEnd c s.days = some last ∧ Day.fromWire c.json day r.nowMs = some d ∧
          d.since last = some since ∧
          (∀ held, (s.days.bind fun h => dayOf h.answer) = some held → applySince c.json held since ≠ some day) ∧
          (s.round c r).days = askedDay c r.dayAgain)) ∧
    (∀ was now order changed, rowsSince c was now = some (order, changed) →
      rowsRebuilt c was order changed = some now) ∧
    ∀ held : Day, held.Ascii → ∀ moves since, (held.moved moves).since held.last = some since →
      (applySince c.json (held.toWire c.json) since = some ((held.moved moves).toWire c.json) ↔
        OlderSame held (held.moved moves)) ∧
      ((∀ m ∈ moves, held.last ≤ m.at) →
        (∀ id ∈ evicted held moves, held.rows.get id = none ∨ (held.moved moves).rows.get id = none) →
        applySince c.json (held.toWire c.json) since = some ((held.moved moves).toWire c.json)) := by
  refine ⟨fun s run r notLost apart => ?_, fun _ _ _ _ => rows_change_suffices, fun held ascii moves since is => ?_⟩
  · have inv : Inv c s := run.invariant (fun _ h => h.step _) ⟨nofun, nofun, nofun⟩
    have sessions : (s.round c r).sessions = takeReading c s.sessions r.rowsAgain
        (answerSessions c s.sent (s.sessions.map (·.digest)) r.rowsTooBig r.rows).2 := by
      unfold State.round
      rw [notLost]
      rfl
    have days : (s.round c r).days = takeReading c s.days r.dayAgain
        (answerDays c (s.days.map (·.digest)) (heldEnd c s.days) r.nowMs r.dayTooBig r.day) := by
      unfold State.round
      rw [notLost]
      rfl
    refine ⟨fun rows is => ?_, fun day is => ?_⟩
    · rw [sessions, is]
      exact sessions_taken inv apart is r.rowsTooBig r.rowsAgain
    · rw [days, is]
      exact days_taken inv apart is r.dayTooBig r.dayAgain
  · have iff_ := applySince_iff c.json ascii moves is
    exact ⟨iff_, fun late kept => iff_.mpr (moved_olderSame late kept)⟩

/-- A frame that is the answer itself. -/
inductive Bare where
  | empty
  | of (r : Response (List UInt8) Stored Bare)

def Bare.size : Bare → Nat
  | .of (.sessionRows rows) | .of (.sessionRowsSince _ rows _) => rows.length
  | _ => 0

def bare : Codec (List UInt8) Stored Bare Bare where
  id := fun row => toString row.length
  row := fun row => row
  frame := .of
  decode := fun
    | .of r => some r
    | .empty => none
  digest := fun frame => frame
  size := Bare.size
  empty := .empty
  json := asStored
  row_inj := fun _ _ same => same
  decode_frame := fun _ => rfl
  frame_ne := fun _ => nofun

/-- A round that tells of rows, and nothing of the day. -/
def told (rows : List (List UInt8)) : Round (List UInt8) Stored Bare :=
  ⟨.answer rows, .late, 0, false, false, false, none, none⟩

open Classical in
/-- Two rows are told whole, and then one of them changes. -/
theorem readings_by_change_twoRounds :
    (answerSessions bare (State.start.round bare (told [[7], [7, 7]])).sent (some (.of (.sessionRows [[7], [7, 7]])))
      false (.answer [[8], [7, 7]])).2 = some (.of (.sessionRowsSince [] [[8]] (.of (.sessionRows [[8], [7, 7]])))) ∧
    (State.start.round bare (told [[7], [7, 7]])).sessions = some (bare.reading (.sessionRows [[7], [7, 7]])) ∧
    ((State.start.round bare (told [[7], [7, 7]])).round bare (told [[8], [7, 7]])).sessions =
      some (bare.reading (.sessionRows [[8], [7, 7]])) := by
  have first : Runs (State.step bare) (fun _ _ => True) .start (State.start.round bare (told [[7], [7, 7]])) :=
    .single ⟨.round (told [[7], [7, 7]]), trivial, rfl⟩
  have sent : (State.start.round bare (told [[7], [7, 7]])).sent =
      some (.of (.sessionRows [[7], [7, 7]]), [[7], [7, 7]]) := by
    simp [State.round, State.start, told, answerSessions, bare]
  have since : rowsSince bare [[7], [7, 7]] [[8], [7, 7]] = some ([], [[8]]) := by decide
  refine ⟨?_, ?_, ?_⟩
  · rw [sent]
    have other : bare.digest (bare.frame (.sessionRows [[8], [7, 7]])) ≠ .of (.sessionRows [[7], [7, 7]]) := by
      simp [bare]
    simp only [answerSessions, Option.some.injEq, if_neg other, Option.filter_some, decide_true, if_true,
      Option.bind_some, since, Option.map_some]
    rfl
  · obtain held | ⟨tooBig, _⟩ :=
      ((readings_by_change bare).1 .start (.refl _) (told [[7], [7, 7]]) rfl fun _ _ _ _ => id).1 _ rfl
    · exact held
    · cases tooBig
  · obtain held | ⟨tooBig, _⟩ :=
      ((readings_by_change bare).1 _ first (told [[8], [7, 7]]) rfl fun _ _ _ _ => id).1 _ rfl
    · exact held
    · cases tooBig

/-- A record whose window ends ahead of the clock. -/
def ahead : Day := .empty 120000000

/-- A sample before the last minute of the copy is not in the change, whatever the JSON. -/
theorem change_misses_an_older_minute :
    ∃ since, (ahead.moved [.observe 119940000 []]).since ahead.last = some since ∧
      ∀ (Wire : Type) (json : Json Wire), applySince json (ahead.toWire json) since ≠
        some ((ahead.moved [.observe 119940000 []]).toWire json) := by
  have some_ : ((ahead.moved [.observe 119940000 []]).slot ahead.last).isSome := by decide
  obtain ⟨place, at_⟩ := Option.isSome_iff_exists.mp some_
  refine ⟨_, congrArg (Option.map _) at_, fun Wire json same => ?_⟩
  have ascii : ahead.Ascii := ⟨fun _ => (by decide : UNWATCHED < 0x80), nofun⟩
  have older := (applySince_iff json ascii _ (congrArg (Option.map _) at_)).mp same
  have watched := older.watched 1999 (by decide) (by decide)
  exact absurd watched (by decide)

end Khor.Readings
