/-
Module: Khor.Readings.DayHistory
Purpose: The day record against everything that was sampled: what a minute says of a session is what was said of it in
  that minute, through window rolls, clocks that jump, saves and loads.
Trusted boundary: JSON of the record, as a parameter; the file is the record's own
Main exports: moved_reads, moved_size, Diary, day_honest, older_sample_left_out
-/
import Khor.Lib.Runs
import Khor.Readings.DayChange
import Khor.Readings.DayStrip

namespace Khor.Readings

/-! ### What was said -/

/-- What a move says of a session in a minute, in the order it is laid: a word, or that nobody could tell. -/
def Move.heard (id : String) (min : Int) : Move → List (Option Word)
  | .observe nowMs rows => if minute nowMs = min then (rows.filter (·.1 = id)).map fun row => some row.2 else []
  | .unavailable nowMs ids => if minute nowMs = min then (ids.filter (· = id)).map fun _ => none else []
  | .roll _ => []

/-- All that was said of a session in a minute, the last first. -/
def heard (moves : List Move) (id : String) (min : Int) : List (Option Word) :=
  (moves.flatMap (Move.heard id min)).reverse

/-- The move samples the minute. -/
def Move.samples (min : Int) : Move → Bool
  | .observe nowMs _ => minute nowMs = min
  | _ => false

def sampledIn (moves : List Move) (min : Int) : Bool := moves.any (Move.samples min)

/-- The words since nobody could tell, the last first. -/
def words : List (Option Word) → List Word
  | some word :: older => word :: words older
  | _ => []

/-- What a minute says: that nobody watched, if nothing sampled it or nobody could tell the session's state at last;
else the word that ranks first, or that the session was not there. -/
def verdict (sampled : Bool) (heard : List (Option Word)) : DayCell :=
  if sampled = false ∨ heard.head? = some none then .unwatched
  else
    match (words heard).argmin Word.rank with
    | some word => .word word
    | none => .absent

/-- The byte that is left of what was said. -/
def left : List (Option Word) → UInt8
  | [] => ABSENT
  | none :: _ => UNWATCHED
  | some word :: older => keep word (left older)

theorem wordOf_byteOf (word : Word) : wordOf (byteOf word) = some word := by
  cases word <;> rfl

theorem word_rank_inj {a b : Word} (same : a.rank = b.rank) : a = b := by
  cases a <;> cases b <;> first | rfl | cases same

theorem wordOf_keep (word : Word) (byte : UInt8) :
    wordOf (keep word byte) = some ((wordOf byte).elim word fun had => if had.rank ≤ word.rank then had else word) := by
  unfold keep
  rw [wordOf_byteOf]
  cases wordOf byte <;> rfl

/-- The word that is left is the one that ranks first. -/
theorem wordOf_left (said : List (Option Word)) : wordOf (left said) = (words said).argmin Word.rank := by
  induction said with
  | nil => rfl
  | cons last older ih =>
      cases last with
      | none => rfl
      | some word =>
          rw [left, wordOf_keep, words, List.argmin_cons, ih]
          cases (words older).argmin Word.rank with
          | none => rfl
          | some had =>
              simp only [Option.elim_some]
              by_cases less : had.rank < word.rank
              · rw [if_pos less, if_pos (le_of_lt less)]
              · rw [if_neg less]
                split
                · rename_i le
                  rw [word_rank_inj (le_antisymm le (Nat.le_of_not_lt less))]
                · rfl

theorem byteOf_ne_unwatched (word : Word) : byteOf word ≠ UNWATCHED := by
  cases word <;> decide

theorem left_unwatched (said : List (Option Word)) : left said = UNWATCHED ↔ said.head? = some none := by
  cases said with
  | nil => exact iff_of_false (by decide) nofun
  | cons last older =>
      cases last with
      | none => exact iff_of_true rfl rfl
      | some word => exact iff_of_false (byteOf_ne_unwatched _) (by rw [List.head?_cons]; exact nofun)

/-- A cell is told by the two bytes of its minute. -/
theorem cell_eq (d : Day) (id : String) (i : Fin MINUTES) {sampled : Bool} {said : List (Option Word)}
    (watched : d.watchedAt (d.from_ + i.val) = if sampled then WATCHED else UNWATCHED)
    (cell : d.cellAt id (d.from_ + i.val) = left said) : d.cell (d.rows.get id) i = verdict sampled said := by
  rw [watchedAt_slot] at watched
  unfold Day.cell verdict
  rw [watched]
  cases sampled with
  | false =>
      rw [if_pos (by decide), if_pos (.inl rfl)]
  | true =>
      rw [if_neg (by decide)]
      cases row : d.rows.get id with
      | none =>
          rw [cellAt_none row] at cell
          have told := left_unwatched said
          rw [← cell] at told
          rw [if_neg (by rw [Option.any_none]; decide), if_neg, ← wordOf_left, ← cell]
          · rfl
          · rintro (none_ | last)
            · cases none_
            · exact absurd (told.mpr last) (by decide)
      | some cells =>
          rw [cellAt_slot row] at cell
          rw [← wordOf_left, ← cell]
          have told := left_unwatched said
          rw [← cell] at told
          by_cases last : said.head? = some none
          · rw [if_pos, if_pos (.inr last)]
            exact decide_eq_true (told.mpr last)
          · rw [if_neg, if_neg]
            · rfl
            · rintro (none_ | last')
              · cases none_
              · exact last last'
            · intro is
              exact last (told.mp (of_decide_eq_true is))

/-! ### What a move leaves -/

variable {d : Day}

variable {id : String} {min : Int}

theorem roomFor_get : (d.roomFor id).rows.get id = d.rows.get id := by
  unfold Day.roomFor
  split
  · rfl
  · rename_i none_
    have before : d.rows.get id = none := Option.not_isSome_iff_eq_none.mp none_
    obtain same | same := (roomFor_fewer d id).rows id
    · rw [Day.roomFor, if_neg none_] at same
      exact same
    · rw [Day.roomFor, if_neg none_] at same
      rw [same, before]

section

variable (i : Fin MINUTES) (id : String) (f : UInt8 → UInt8)

/-- A byte is laid in one minute of one row; every other row that did not go to make room stays. -/
theorem lay_reads {id' : String} (kept : id' ∉ gone d (d.roomFor id)) (min : Int) :
    (d.lay i id f).cellAt id' min =
      if id' = id ∧ min = d.from_ + i.val then f (d.cellAt id' min) else d.cellAt id' min := by
  have fewer := roomFor_fewer d id
  by_cases here : min = d.from_ + i.val
  · have slot : d.slot min = some i := slot_some.mpr here
    have slots : (d.lay i id f).slot min = some i := (fewer.slot min).trans slot
    have row : (d.lay i id f).rows.get id' = if id' = id then
        some (Function.update (((d.roomFor id).rows.get id).getD (blank ABSENT)) i
          (f (((d.roomFor id).rows.get id).getD (blank ABSENT) i))) else (d.roomFor id).rows.get id' :=
      SortedMap.get_put ..
    rw [cellAt_eq, cellAt_eq, row, slots, slot]
    by_cases same : id' = id
    · subst same
      rw [if_pos rfl, if_pos ⟨rfl, here⟩, roomFor_get]
      cases d.rows.get id' <;> exact Function.update_self ..
    · rw [if_neg same, if_neg fun both => same both.1]
      obtain same | none_ := fewer.rows id'
      · rw [same]
      · cases before : d.rows.get id' with
        | none => rw [none_]
        | some cells =>
            refine absurd (List.mem_filter.mpr ⟨SortedMap.mem_keys.mpr (before ▸ rfl), ?_⟩) kept
            rw [none_]
            rfl
  · rw [if_neg fun both => here both.2]
    obtain same | ⟨went, -⟩ := lay_cellAt d i id f id'
    · exact same min here
    · exact absurd went kept

theorem lay_from : (d.lay i id f).from_ = d.from_ :=
  (roomFor_fewer d id).from_

theorem lay_watched : (d.lay i id f).watched = d.watched :=
  (roomFor_fewer d id).watched

end

section

variable (i : Fin MINUTES) (laid : List (String × (UInt8 → UInt8)))

theorem layAll_from : (d.layAll i laid).from_ = d.from_ := by
  induction laid generalizing d with
  | nil => rfl
  | cons x rest ih => exact ih.trans (lay_from i x.1 x.2)

theorem layAll_watched : (d.layAll i laid).watched = d.watched := by
  induction laid generalizing d with
  | nil => rfl
  | cons x rest ih => exact ih.trans (lay_watched i x.1 x.2)

theorem layAll_reads (kept : id ∉ evictedBy i laid d) (min : Int) : (d.layAll i laid).cellAt id min =
      if min = d.from_ + i.val then (laid.filter (·.1 = id)).foldl (fun b x => x.2 b) (d.cellAt id min)
      else d.cellAt id min := by
  induction laid generalizing d with
  | nil =>
      split <;> rfl
  | cons x rest ih =>
      rw [evictedBy, List.mem_append, not_or] at kept
      have one := lay_reads i x.1 x.2 kept.1 min
      have all := ih kept.2
      rw [lay_from] at all
      change ((d.lay i x.1 x.2).layAll i rest).cellAt id min = _
      rw [all, one, List.filter_cons]
      by_cases here : min = d.from_ + i.val
      · rw [if_pos here, if_pos here]
        by_cases same : id = x.1
        · rw [if_pos ⟨same, here⟩, if_pos (decide_eq_true same.symm), List.foldl_cons]
        · rw [if_neg fun both => same both.1, if_neg]
          exact fun other => same (of_decide_eq_true other).symm
      · rw [if_neg here, if_neg here, if_neg fun both => here both.2]

end

/-- What the bytes of a move leave of a cell is what the move says. -/
theorem laid_left (m : Move) (id : String) (said : List (Option Word)) :
    (m.laid.filter (·.1 = id)).foldl (fun b x => x.2 b) (left said) = left ((m.heard id m.at).reverse ++ said) := by
  have fold (rs : List (Option Word)) (said : List (Option Word)) :
      rs.foldl (fun b r => r.elim UNWATCHED (keep · b)) (left said) =
        left (rs.reverse ++ said) := by
    induction rs generalizing said with
    | nil => rfl
    | cons r rs ih =>
        rw [List.foldl_cons, List.reverse_cons, List.append_assoc, List.singleton_append, ← ih (r :: said)]
        cases r <;> rfl
  cases m with
  | observe | unavailable =>
      rw [Move.heard, Move.at, if_pos rfl, ← fold, Move.laid, List.filter_map, List.foldl_map, List.foldl_map]
      rfl
  | roll nowMs => rfl

theorem heard_other {m : Move} (other : m.at ≠ min) (id : String) : m.heard id min = [] := by
  cases m with
  | observe | unavailable => exact if_neg other
  | roll nowMs => rfl

theorem sampled_from (i : Fin MINUTES) (m : Move) : (d.sampled i m).from_ = d.from_ := by
  cases m <;> rfl

theorem sampled_rows (i : Fin MINUTES) (m : Move) : (d.sampled i m).rows = d.rows := by
  cases m <;> rfl

theorem move_from (m : Move) : (d.move m).from_ = max d.from_ (m.at - MINUTES + 1) := by
  rw [← roll_from, move_eq]
  split
  · rfl
  · rw [layAll_from, sampled_from]

/-- In the minute of a move the bytes it lays for a session that did not go are laid over what was there. -/
theorem move_byte (m : Move) (kept : id ∉ d.evictedIn m) (le : (d.move m).from_ ≤ min) : (d.move m).cellAt id min =
      if m.at = min then (m.laid.filter (·.1 = id)).foldl (fun b x => x.2 b) (d.cellAt id min)
      else d.cellAt id min := by
  have rolled : (d.roll m.at).from_ ≤ min := by
    rw [roll_from, ← move_from]
    exact le
  have reads := roll_cellAt d m.at id rolled
  unfold Day.evictedIn at kept
  rw [move_eq]
  cases place : (d.roll m.at).slot m.at with
  | none =>
      have outside := slot_none.mp place
      have ends : (d.roll m.at).last = max d.last m.at := by
        unfold Day.last
        rw [roll_from]
        omega
      rw [if_neg (by omega)]
      exact reads
  | some i =>
      rw [place] at kept
      have is := slot_some.mp place
      have same : ((d.roll m.at).sampled i m).cellAt id min = (d.roll m.at).cellAt id min := by
        rw [cellAt_eq, cellAt_eq, sampled_rows]
        cases m <;> rfl
      dsimp only
      rw [layAll_reads i m.laid kept, same, reads, sampled_from, ← is]
      by_cases here : min = m.at
      · rw [if_pos here, if_pos here.symm]
      · rw [if_neg here, if_neg (Ne.symm here)]

/-- What a minute of the window says of a session that did not go: what it said before, and what the move says. -/
theorem move_cellAt (m : Move) (kept : id ∉ d.evictedIn m) (le : (d.move m).from_ ≤ min) {said : List (Option Word)}
    (before : d.cellAt id min = left said) : (d.move m).cellAt id min = left ((m.heard id min).reverse ++ said) := by
  rw [move_byte m kept le, before]
  split
  · rename_i here
    subst here
    exact laid_left m id said
  · rename_i other
    rw [heard_other other]
    rfl

theorem move_watchedAt (m : Move) (le : (d.move m).from_ ≤ min) :
    (d.move m).watchedAt min = if m.samples min then WATCHED else d.watchedAt min := by
  have rolled : (d.roll m.at).from_ ≤ min := by
    rw [roll_from, ← move_from]
    exact le
  have reads := roll_watchedAt d m.at rolled
  have samples_at (yes : m.samples min = true) : m.at = min := by
    cases m with
    | observe nowMs rows => exact of_decide_eq_true yes
    | unavailable | roll => cases yes
  rw [move_eq]
  cases place : (d.roll m.at).slot m.at with
  | none =>
      have outside := slot_none.mp place
      have ends : (d.roll m.at).last = max d.last m.at := by
        unfold Day.last
        rw [roll_from]
        omega
      rw [if_neg fun yes => by have := samples_at yes; omega]
      exact reads
  | some i =>
      have is := slot_some.mp place
      dsimp only
      have slot : (((d.roll m.at).sampled i m).layAll i m.laid).slot min = (d.roll m.at).slot min :=
        Option.ext fun j => by rw [slot_some, slot_some, layAll_from, sampled_from]
      unfold Day.watchedAt at reads ⊢
      rw [slot, layAll_watched]
      by_cases yes : m.samples min = true
      · rw [if_pos yes, ← samples_at yes, place]
        cases m with
        | observe nowMs rows => exact Function.update_self ..
        | unavailable | roll => cases yes
      · rw [if_neg yes, ← reads]
        cases m with
        | unavailable | roll => rfl
        | observe nowMs rows =>
            cases there : (d.roll (Move.observe nowMs rows).at).slot min with
            | none => rfl
            | some j =>
                have apart : j ≠ i := by
                  rintro rfl
                  have := slot_some.mp there
                  exact yes (decide_eq_true (is.trans this.symm))
                exact Function.update_of_ne apart ..

/-! ### The whole history -/

section

variable (moves : List Move) (m : Move)

theorem moved_snoc : d.moved (moves ++ [m]) = (d.moved moves).move m := by
  rw [Day.moved, List.foldl_append]
  rfl

theorem evicted_snoc : evicted d (moves ++ [m]) = evicted d moves ++ (d.moved moves).evictedIn m := by
  induction moves generalizing d with
  | nil => exact List.append_nil _
  | cons first moves ih =>
      rw [List.cons_append, evicted, evicted, ih, List.append_assoc]
      rfl

theorem heard_snoc (id : String) (min : Int) :
    heard (moves ++ [m]) id min = (m.heard id min).reverse ++ heard moves id min := by
  rw [heard, List.flatMap_append, List.flatMap_singleton, List.reverse_append]
  rfl

theorem sampledIn_snoc (min : Int) : sampledIn (moves ++ [m]) min = (sampledIn moves min || m.samples min) := by
  rw [sampledIn, List.any_append, List.any_cons, List.any_nil, Bool.or_false]
  rfl

end

/-- The last minute that any reading of the clock was in. -/
def latest (began : Int) (moves : List Move) : Int := moves.foldl (fun last m => max last m.at) (minute began)

theorem moved_last (began : Int) (moves : List Move) : ((Day.empty began).moved moves).last = latest began moves := by
  induction moves using List.reverseRecOn with
  | nil =>
      change minute began - MINUTES + 1 + MINUTES - 1 = minute began
      omega
  | append_singleton moves m ih =>
      rw [moved_snoc, latest, List.foldl_append, ← latest.eq_def, ← ih]
      change ((Day.empty began).moved moves |>.move m).from_ + MINUTES - 1 = max _ m.at
      rw [move_from]
      unfold Day.last
      omega

/-- Every minute of the window says what was sampled in it, of every session that never went to make room. -/
theorem moved_reads (began : Int) (moves : List Move) {min : Int}
    (le : ((Day.empty began).moved moves).from_ ≤ min) :
    ((Day.empty began).moved moves).watchedAt min = (if sampledIn moves min then WATCHED else UNWATCHED) ∧
      ∀ id, id ∉ evicted (Day.empty began) moves →
        ((Day.empty began).moved moves).cellAt id min = left (heard moves id min) := by
  induction moves using List.reverseRecOn with
  | nil =>
      refine ⟨?_, fun id _ => cellAt_none rfl min⟩
      change (((Day.empty began).slot min).map (blank UNWATCHED)).getD UNWATCHED = _
      cases (Day.empty began).slot min <;> rfl
  | append_singleton moves m ih =>
      rw [moved_snoc] at le ⊢
      have earlier : ((Day.empty began).moved moves).from_ ≤ min := by
        rw [move_from] at le
        exact (le_max_left ..).trans le
      obtain ⟨watched, cells⟩ := ih earlier
      constructor
      · rw [move_watchedAt m le, sampledIn_snoc, watched]
        cases m.samples min <;> cases sampledIn moves min <;> rfl
      · intro id kept
        rw [evicted_snoc, List.mem_append, not_or] at kept
        rw [heard_snoc]
        exact move_cellAt m kept.2 le (cells id kept.1)

/-! ### How many rows -/

theorem dropStalest_size {fuel : Nat} (enough : d.rows.size ≤ fuel) : (d.dropStalest fuel).rows.size < MAX_ROWS := by
  induction fuel generalizing d with
  | zero => exact Nat.lt_of_le_of_lt enough (by decide)
  | succ fuel ih =>
      unfold Day.dropStalest
      split
      · assumption
      · rename_i full
        cases stale : d.stalest with
        | some id =>
            dsimp only
            refine ih ?_
            obtain ⟨e, least, rfl⟩ := Option.map_eq_some_iff.mp stale
            have there : (d.rows.get e.1).isSome :=
              SortedMap.get_eq_some.mpr (List.argmin_mem least) ▸ rfl
            have := SortedMap.size_erase there
            dsimp only
            omega
        | none =>
            have none_ := List.argmin_eq_none.mp (Option.map_eq_none_iff.mp stale)
            have empty : d.rows.size = 0 := congrArg List.length none_
            rw [empty] at full
            exact absurd (by decide) full

theorem lay_size (few : d.rows.size ≤ MAX_ROWS) (i : Fin MINUTES) (id : String) (f : UInt8 → UInt8) :
    (d.lay i id f).rows.size ≤ MAX_ROWS := by
  change ((d.roomFor id).rows.put id _).size ≤ MAX_ROWS
  unfold Day.roomFor
  split
  · rename_i there
    exact (SortedMap.size_put_of_mem there _).trans few
  · exact (SortedMap.size_put ..).trans (dropStalest_size (le_refl _))

theorem roll_size (nowMin : Int) : (d.roll nowMin).rows.size ≤ d.rows.size := by
  have count : d.rows.size = d.rows.keys.length := List.length_map .. |>.symm
  rw [count]
  refine SortedMap.size_le fun id there => SortedMap.mem_keys.mpr ?_
  obtain ⟨same, -⟩ | ⟨-, is⟩ | ⟨shift, -, -, -, rows⟩ := roll_cases d nowMin
  · rw [same] at there
    exact there
  · rw [is] at there
    cases there
  · rw [rows] at there
    cases before : d.rows.get id with
    | none =>
        rw [before] at there
        cases there
    | some cells => rfl

theorem move_size (few : d.rows.size ≤ MAX_ROWS) (m : Move) : (d.move m).rows.size ≤ MAX_ROWS := by
  have rolled := (roll_size (d := d) m.at).trans few
  have layAll (i : Fin MINUTES) (laid : List (String × (UInt8 → UInt8))) {d : Day} (few : d.rows.size ≤ MAX_ROWS) :
      (d.layAll i laid).rows.size ≤ MAX_ROWS := by
    induction laid generalizing d with
    | nil => exact few
    | cons x rest ih => exact ih (lay_size few i x.1 x.2)
  rw [move_eq]
  split
  · exact rolled
  · refine layAll _ _ ?_
    rw [sampled_rows]
    exact rolled

theorem moved_size (few : d.rows.size ≤ MAX_ROWS) (moves : List Move) : (d.moved moves).rows.size ≤ MAX_ROWS := by
  induction moves generalizing d with
  | nil => exact few
  | cons m moves ih => exact ih (move_size few m)

/-! ### A sample now -/

theorem keep_fold (ws : List Word) (byte : UInt8) :
    (∀ had, wordOf byte = some had → ∃ kept, wordOf (ws.foldl (fun b w => keep w b) byte) = some kept ∧
        kept.rank ≤ had.rank) ∧
      ∀ w ∈ ws, ∃ kept, wordOf (ws.foldl (fun b w => keep w b) byte) = some kept ∧ kept.rank ≤ w.rank := by
  induction ws generalizing byte with
  | nil => exact ⟨fun had is => ⟨had, is, le_refl _⟩, fun _ mem => nomatch mem⟩
  | cons w ws ih =>
      obtain ⟨later, others⟩ := ih (keep w byte)
      obtain ⟨kept, is, le⟩ := later _ (wordOf_keep w byte)
      rw [List.foldl_cons]
      constructor
      · intro had was
        refine ⟨kept, is, le.trans ?_⟩
        rw [was, Option.elim_some]
        split <;> omega
      · intro w' mem
        obtain rfl | mem := List.mem_cons.mp mem
        · refine ⟨kept, is, le.trans ?_⟩
          cases wordOf byte with
          | none => exact le_refl _
          | some had =>
              rw [Option.elim_some]
              split <;> omega
        · exact others w' mem

/-- A sample whose minute is not before the window is recorded there; an older one is left out. -/
theorem observe_now (d : Day) (nowMs : Int) (rows : List (String × Word)) :
    (minute nowMs < d.from_ → d.observe nowMs rows = d) ∧
      (d.from_ ≤ minute nowMs → ∃ i, (d.observe nowMs rows).slot (minute nowMs) = some i ∧
        (d.observe nowMs rows).watched i = WATCHED ∧ ∀ row ∈ rows, row.1 ∉ d.evictedIn (.observe nowMs rows) →
          ∃ word, (d.observe nowMs rows).cell ((d.observe nowMs rows).rows.get row.1) i = .word word ∧
            word.rank ≤ row.2.rank) := by
  constructor
  · intro older
    have stays : d.roll (minute nowMs) = d := by
      unfold Day.roll
      have pos := minutes_pos
      exact if_pos (by omega)
    unfold Day.observe
    dsimp only
    rw [stays, slot_none.mpr (.inl older)]
  · intro newer
    have from_ : (d.observe nowMs rows).from_ = max d.from_ (minute nowMs - MINUTES + 1) :=
      move_from (.observe nowMs rows)
    have pos := minutes_pos
    have le : (d.move (.observe nowMs rows)).from_ ≤ minute nowMs := by
      rw [move_from, Move.at]
      omega
    cases place : (d.observe nowMs rows).slot (minute nowMs) with
    | none =>
        have outside := slot_none.mp place
        unfold Day.last at outside
        omega
    | some i =>
        have is := slot_some.mp place
        have watched : (d.observe nowMs rows).watchedAt (minute nowMs) = WATCHED :=
          (move_watchedAt (.observe nowMs rows) le).trans (if_pos (decide_eq_true rfl))
        have this_minute : (d.observe nowMs rows).watched i = WATCHED := by
          rw [← watchedAt_slot, ← is]
          exact watched
        refine ⟨i, rfl, this_minute, ?_⟩
        intro row mem kept
        have byte := move_byte (.observe nowMs rows) kept le
        rw [Move.at, if_pos rfl, Move.laid, List.filter_map, List.foldl_map] at byte
        have words : (d.observe nowMs rows).cellAt row.1 (minute nowMs) =
            ((rows.filter (·.1 = row.1)).map Prod.snd).foldl (fun b w => keep w b) (d.cellAt row.1 (minute nowMs)) := by
          rw [List.foldl_map]
          exact byte
        obtain ⟨word, known, le⟩ := (keep_fold ((rows.filter (·.1 = row.1)).map Prod.snd)
          (d.cellAt row.1 (minute nowMs))).2 row.2
            (List.mem_map_of_mem (List.mem_filter.mpr ⟨mem, decide_eq_true rfl⟩))
        rw [← words] at known
        refine ⟨word, ?_, le⟩
        unfold Day.cell
        rw [if_neg (not_not_intro this_minute)]
        cases there : (d.observe nowMs rows).rows.get row.1 with
        | none =>
            rw [cellAt_none there] at known
            cases known
        | some cells =>
            rw [is, cellAt_slot there] at known
            have other : cells i ≠ UNWATCHED := by
              intro same
              rw [same] at known
              cases known
            rw [Option.any_some, if_neg fun is => other (of_decide_eq_true is), Option.bind_some, known]

/-! ### Runs with saves and loads -/

section Runs

variable {Wire : Type} (json : Json Wire)

/-- The record, or an empty one where there is none that can be read, rolled to now. -/
def Day.load (file : Option Wire) (nowMs : Int) : Day :=
  ((file.bind fun text => (json.parse text).bind Day.fromStored).getD (Day.empty nowMs)).roll (minute nowMs)

/-- The record and its file. The ghosts are when the record began and what changed it since, now and at the last save. -/
structure Diary (Wire : Type) where
  day : Day
  file : Option Wire
  began : Int
  history : List Move
  savedBegan : Int
  saved : List Move

inductive Entry where
  | move (m : Move)
  | save
  | load (nowMs : Int)

namespace Diary

def start (nowMs : Int) : Diary Wire := ⟨Day.load json none nowMs, none, nowMs, [.roll nowMs], nowMs, []⟩

def step (w : Diary Wire) : Entry → Diary Wire
  | .move m => { w with day := w.day.move m, history := w.history ++ [m] }
  | .save => { w with file := some (w.day.toWire json), savedBegan := w.began, saved := w.history }
  | .load nowMs =>
      match w.file with
      | none => { w with day := Day.load json none nowMs, began := nowMs, history := [.roll nowMs] }
      | some text => { w with
          day := Day.load json (some text) nowMs
          began := w.savedBegan
          history := w.saved ++ [.roll nowMs] }

theorem step_load_none {w : Diary Wire} (none_ : w.file = none) (nowMs : Int) :
    w.step json (.load nowMs) =
      { w with day := Day.load json none nowMs, began := nowMs, history := [.roll nowMs] } := by
  unfold step
  dsimp only
  rw [none_]

theorem step_load_some {w : Diary Wire} {text : Wire} (is : w.file = some text) (nowMs : Int) :
    w.step json (.load nowMs) =
      { w with
        day := Day.load json (some text) nowMs
        began := w.savedBegan
        history := w.saved ++ [.roll nowMs] } := by
  unfold step
  dsimp only
  rw [is]

/-- The record is what its history makes of an empty one, and so is the file. -/
structure Inv (w : Diary Wire) : Prop where
  day : w.day = (Day.empty w.began).moved w.history
  file : ∀ text, w.file = some text → text = ((Day.empty w.savedBegan).moved w.saved).toWire json

end Diary

theorem empty_ascii (nowMs : Int) : (Day.empty nowMs).Ascii :=
  ⟨fun _ => (by decide : UNWATCHED < 0x80), nofun⟩

/-- What was saved is loaded, and rolled. -/
theorem load_toWire (ascii : d.Ascii) (nowMs : Int) :
    Day.load json (some (d.toWire json)) nowMs = d.roll (minute nowMs) := by
  rw [Day.load, Option.bind_some, Day.toWire, json.parse_text, Option.bind_some, fromStored_toStored ascii]
  rfl

theorem Diary.Inv.step {w : Diary Wire} {e : Entry} (_ : True) (inv : Diary.Inv json w) :
    Diary.Inv json (w.step json e) := by
  cases e with
  | move m =>
      refine ⟨?_, inv.file⟩
      change w.day.move m = (Day.empty w.began).moved (w.history ++ [m])
      rw [moved_snoc, inv.day]
  | save =>
      refine ⟨inv.day, ?_⟩
      rintro text ⟨⟩
      rw [inv.day]
      rfl
  | load nowMs =>
      cases file : w.file with
      | none =>
          rw [Diary.step_load_none json file]
          exact ⟨rfl, inv.file⟩
      | some text =>
          rw [Diary.step_load_some json file]
          refine ⟨?_, inv.file⟩
          change Day.load json (some text) nowMs = (Day.empty w.savedBegan).moved (w.saved ++ [.roll nowMs])
          rw [inv.file text file, load_toWire json (empty_ascii _).moved]
          exact (moved_snoc w.saved (.roll nowMs)).symm

/-- A record whose texts are plain. -/
structure Stored.Ascii (s : Stored) : Prop where
  watched : ∀ b ∈ s.watched, b < 0x80
  rows : ∀ id text, s.rows.get id = some text → ∀ b ∈ text, b < 0x80

theorem fromStored_ascii {s : Stored} (ascii : s.Ascii) (is : Day.fromStored s = some d) : d.Ascii := by
  have cells {text : Text} {cells : Cells} (small : ∀ b ∈ text, b < 0x80) (is : cellsOf text = some cells)
      (i : Fin MINUTES) : cells i < 0x80 := by
    unfold cellsOf at is
    split at is
    · cases is
      exact small _ (List.getElem_mem ..)
    · cases is
  unfold Day.fromStored at is
  split at is
  · cases is
  · rename_i watched there
    split at is
    · cases is
      refine ⟨cells ascii.watched there, ?_⟩
      intro id row is i
      rw [SortedMap.get_mapValues] at is
      obtain ⟨text, found, rfl⟩ := Option.map_eq_some_iff.mp is
      cases known : cellsOf text with
      | none => exact (by decide : ABSENT < 0x80)
      | some row => exact cells (ascii.rows id text found) known i
    · cases is

/-- A record that came over the wire in plain text is read back as it is. -/
theorem fromWire_toWire {text : Wire} {s : Stored} (parsed : json.parse text = some s) (ascii : s.Ascii) {nowMs : Int}
    (is : Day.fromWire json text nowMs = some d) (later : Int) :
    Day.fromWire json (d.toWire json) later = some (d.roll (minute later)) := by
  rw [Day.fromWire, parsed, Option.bind_some] at is
  obtain ⟨d', there, rfl⟩ := Option.map_eq_some_iff.mp is
  rw [Day.fromWire, Day.toWire, json.parse_text, Option.bind_some,
    fromStored_toStored ((fromStored_ascii ascii there).roll _)]
  rfl

/-- The day strip says what was sampled. In every run the window ends at the latest reading of the clock; each minute
of it says of each session that never went to make room what was sampled in that minute; a sample is recorded unless its
minute is before the window; there are never too many rows. A strip has the cells that are asked for, each the best of
its own minutes, and each minute is in one. What came over the wire in plain text is read back. -/
theorem day_honest :
    (∀ began w, Runs (Diary.step json) (fun _ _ => True) (Diary.start json began) w →
      w.day.last = latest w.began w.history ∧
      (∀ (i : Fin MINUTES) id, id ∉ evicted (Day.empty w.began) w.history → w.day.cell (w.day.rows.get id) i =
          verdict (sampledIn w.history (w.day.from_ + i)) (heard w.history id (w.day.from_ + i))) ∧
      (∀ nowMs rows, (minute nowMs ≤ w.day.last - MINUTES → w.day.observe nowMs rows = w.day) ∧
        (w.day.last - MINUTES < minute nowMs → ∃ i, (w.day.observe nowMs rows).slot (minute nowMs) = some i ∧
          (w.day.observe nowMs rows).watched i = WATCHED ∧
          ∀ row ∈ rows, row.1 ∉ w.day.evictedIn (.observe nowMs rows) →
            ∃ word, (w.day.observe nowMs rows).cell ((w.day.observe nowMs rows).rows.get row.1) i = .word word ∧
              word.rank ≤ row.2.rank)) ∧ w.day.rows.size ≤ MAX_ROWS) ∧
    (∀ (d : Day) id cells, 0 < cells → cells ≤ MINUTES → unroll (d.stripOf id cells) =
          (List.range cells).map (fun c => d.merged (d.rows.get id) (edge cells c) (edge cells (c + 1))) ∧
        (∀ c, c < cells → (∃ i : Fin MINUTES, edge cells c ≤ i ∧ i < edge cells (c + 1) ∧
            d.merged (d.rows.get id) (edge cells c) (edge cells (c + 1)) = d.cell (d.rows.get id) i) ∧
          ∀ i : Fin MINUTES, edge cells c ≤ i → i < edge cells (c + 1) →
            (d.merged (d.rows.get id) (edge cells c) (edge cells (c + 1))).rank ≤ (d.cell (d.rows.get id) i).rank) ∧
        ∀ i, i < MINUTES → ∃ c, c < cells ∧ (edge cells c ≤ i ∧ i < edge cells (c + 1)) ∧
          ∀ c', edge cells c' ≤ i → i < edge cells (c' + 1) → c' = c) ∧
    ∀ text s nowMs d later, json.parse text = some s → s.Ascii → Day.fromWire json text nowMs = some d →
      Day.fromWire json (d.toWire json) later = some (d.roll (minute later)) := by
  refine ⟨?_, ?_, fun _ _ _ _ later parsed ascii is => fromWire_toWire json parsed ascii is later⟩
  · intro began w run
    have start : Diary.Inv json (Diary.start json began) := ⟨rfl, nofun⟩
    have inv : Diary.Inv json w := run.invariant (Diary.Inv.step json) start
    refine ⟨?_, ?_, ?_, ?_⟩
    · rw [inv.day]
      exact moved_last ..
    · intro i id kept
      have from_ : w.day.from_ ≤ w.day.from_ + i.val := by omega
      have reads := @moved_reads w.began w.history (w.day.from_ + i.val) (by rw [← inv.day]; exact from_)
      rw [← inv.day] at reads
      exact cell_eq w.day id i reads.1 (reads.2 id kept)
    · intro nowMs rows
      obtain ⟨older, newer⟩ := observe_now w.day nowMs rows
      refine ⟨fun le => older ?_, fun less => newer ?_⟩
      · unfold Day.last at le
        omega
      · unfold Day.last at less
        omega
    · rw [inv.day]
      exact moved_size (Nat.zero_le _) _
  · intro d id cells some_ few
    refine ⟨stripOf_unroll d id some_ few, ?_, fun i inside => edges_partition some_ inside⟩
    intro c less
    have inside : edge cells (c + 1) ≤ MINUTES := by
      rw [← edge_last some_]
      exact edge_le less
    exact merged_best d _ (edge_lt some_ few) inside

end Runs

/-- A session that waits is saved, nobody can tell its state, the process starts again, and it is busy. -/
def restarted : List Entry :=
  [.move (.observe 0 [("s", .blocked), ("t", .idle)]), .save, .move (.unavailable 0 ["s"]), .load 0,
    .move (.observe 0 [("s", .busy)])]

/-- What was not saved is forgotten, and the word that ranks first stands. -/
theorem day_honest_restarted :
    (restarted.foldl (Diary.step asStored) (Diary.start asStored 0)).day.cell
      ((restarted.foldl (Diary.step asStored) (Diary.start asStored 0)).day.rows.get "s") ⟨MINUTES - 1, by decide⟩ =
        .word .blocked := by
  have run : Runs (Diary.step asStored) (fun _ _ => True) (Diary.start asStored 0)
      (restarted.foldl (Diary.step asStored) (Diary.start asStored 0)) :=
    Fits.runs ⟨trivial, trivial, trivial, trivial, trivial, trivial⟩
  obtain ⟨last, cells, -⟩ := (day_honest asStored).1 0 _ run
  have began : (restarted.foldl (Diary.step asStored) (Diary.start asStored 0)).began = 0 := rfl
  have history : (restarted.foldl (Diary.step asStored) (Diary.start asStored 0)).history =
      [.roll 0, .observe 0 [("s", .blocked), ("t", .idle)], .roll 0, .observe 0 [("s", .busy)]] := rfl
  generalize restarted.foldl (Diary.step asStored) (Diary.start asStored 0) = w at *
  rw [began, history] at last cells
  have now : w.day.from_ + (MINUTES - 1 : Nat) = 0 := by
    have zero : latest 0 [.roll 0, .observe 0 [("s", .blocked), ("t", .idle)], .roll 0, .observe 0 [("s", .busy)]] = 0 := by
      decide
    unfold Day.last at last
    have pos := minutes_pos
    omega
  rw [cells _ "s" (by decide)]
  dsimp only
  rw [now]
  decide

/-! ### A clock that came back, and a state nobody could tell -/

/-- Two days later than zero. -/
def farAhead : Int := 2 * 24 * 60 * CELL_MS

/-- One minute: a session waits, nobody can tell its state, it is busy. -/
def wavering : List Move := [.observe 0 [("s", .blocked)], .unavailable 0 ["s"], .observe 0 [("s", .busy)]]

/-- A sample taken after the clock came back from two days ahead is left out; and after a time in which a session's
state could not be told, a word before it that ranks higher is gone from its minute. -/
theorem older_sample_left_out :
    ((Day.empty 0).observe farAhead []).observe 0 [("s", .busy)] = (Day.empty 0).observe farAhead [] ∧
      ((Day.empty 0).moved wavering).cell (((Day.empty 0).moved wavering).rows.get "s") ⟨MINUTES - 1, by decide⟩ =
        .word .busy := by
  constructor
  · refine (observe_now _ 0 [("s", .busy)]).1 ?_
    have from_ : ((Day.empty 0).observe farAhead []).from_ = max (Day.empty 0).from_ (minute farAhead - MINUTES + 1) :=
      move_from (.observe farAhead [])
    rw [from_]
    exact lt_of_lt_of_le (by decide) (le_max_right ..)
  · have last : ((Day.empty 0).moved wavering).last = 0 := moved_last 0 wavering
    have now : ((Day.empty 0).moved wavering).from_ + (MINUTES - 1 : Nat) = 0 := by
      unfold Day.last at last
      have pos := minutes_pos
      omega
    have stays : "s" ∉ evicted (Day.empty 0) wavering := by decide
    have reads := @moved_reads 0 wavering 0 (by have pos := minutes_pos; omega)
    refine @cell_eq _ "s" ⟨MINUTES - 1, by decide⟩ true [some .busy, none, some .blocked] ?_ ?_
    · dsimp only
      rw [now]
      exact reads.1
    · dsimp only
      rw [now]
      exact reads.2 "s" stays

end Khor.Readings
