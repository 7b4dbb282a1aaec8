/-
Module: Khor.Term.Faces
Purpose: A terminal's feed and the faces that read it, over every order of pushes, new lives, clears and answers. What
  a face received since its last reset is a stretch of the stream, and while no answer starts a face over inside a
  sequence, a terminal that was fed the answers stands where the life's whole stream leads.
Trusted boundary: what the terminal emulator draws (`Draws`)
Main exports: Face, World, World.step, Inv.step, face_never_sees_a_hole
-/
import Khor.Lib.Runs
import Khor.Term.Feed

namespace Khor.Term

open Modes (Same digits)

/-- A face: the answer it began from, where the stream went on from there, and what it received since. -/
structure Face where
  opening : Bytes
  base : Nat
  got : Bytes
  cursor : Nat

/-- What a terminal that was reset has been fed by a face. -/
def Face.shown (face : Face) : Bytes := face.opening ++ face.got

/-- The feed, the ghost log of its whole stream and the faces. -/
structure World where
  feed : Feed
  log : List (Option UInt8)
  faces : Nat → Option Face

def World.start : World := ⟨.fresh, [], fun _ => none⟩

inductive Event where
  | push (bytes : Bytes)
  | restart
  | forget (alternate : Bool)
  | attach (face : Nat)
  | follow (face : Nat) (drawn : Bytes)

namespace World

/-- A face that starts over from an answer. -/
def opened (answer : Bytes) (cursor : Nat) : Face := ⟨answer, cursor, [], cursor⟩

/-- A face takes an answer of `take_since`. -/
def received (face : Face) : Bytes × Nat × Bool → Face
  | (answer, cursor, true) => opened answer cursor
  | (answer, cursor, false) => { face with got := face.got ++ answer, cursor }

/-- One face is told something. -/
def tell (w : World) (r : Nat) (face : Face) : World :=
  { w with faces := fun i => if i = r then some face else w.faces i }

def step (w : World) : Event → World
  | .push bytes => { w with feed := w.feed.push bytes, log := w.log ++ bytes.map some }
  | .restart => { w with feed := w.feed.restart, log := w.log ++ [none] }
  | .forget alternate => { w with feed := w.feed.forgetFeed alternate }
  | .attach r => w.tell r (opened w.feed.takeAll.1 w.feed.takeAll.2)
  | .follow r drawn =>
      match w.faces r with
      | none => w
      | some face => w.tell r (received face (w.feed.takeSince drawn face.cursor))

end World

/-- The faces are told the stream without a hole.
`consecutive`: what a face received since its last reset is the stretch of the stream up to its cursor.
`announced`: a cursor that is not among the held bytes is answered by a reset, any other by the stream from it on.
`placed`: a terminal that was fed the answers since the last reset stands where the life's stream stands. -/
structure NoHole (w : World) : Prop where
  oldest : w.feed.fed = w.log.length ∧ w.feed.bytes.length ≤ w.feed.fed ∧
    w.feed.bytes.map some = w.log.drop (w.feed.fed - w.feed.bytes.length)
  consecutive : ∀ r face, w.faces r = some face → face.base ≤ face.cursor ∧ face.cursor ≤ w.log.length ∧
    face.got.map some = (w.log.take face.cursor).drop face.base
  announced : ∀ drawn since,
    ((w.feed.takeSince drawn since).2.2 = true ↔ since < w.feed.oldest ∨ w.log.length < since) ∧
      ((w.feed.takeSince drawn since).2.2 = false →
        (w.feed.takeSince drawn since).1.map some = w.log.drop since ∧
          (w.feed.takeSince drawn since).2.1 = w.log.length)
  placed : ∀ r face, w.faces r = some face →
    Same (Modes.fresh.feed face.shown) (Modes.fresh.feed (lifeStream (w.log.take face.cursor)))

/-- A face that had everything when the feed forgot is not reset by what is pushed after, as long as that fits. -/
def Spared (f : Feed) (alternate : Bool) : Prop :=
  f.head.midSequence = false → ∀ (pieces : List Bytes) (drawn : Bytes),
    (f.forgetFeed alternate).bytes.length + pieces.flatten.length ≤ FEED_CAP →
      ((pieces.foldl Feed.push (f.forgetFeed alternate)).takeSince drawn f.fed).2.2 = false

/-- What an event has to keep. -/
def Kept (w : World) (e : Event) : Prop :=
  NoHole (w.step e) ∧ ∀ alternate, e = .forget alternate → Spared w.feed alternate

/-- The emulator draws as it is documented to. -/
def Genuine (w : World) : Event → Prop
  | .follow _ drawn => Draws w.feed.tail drawn
  | _ => True

/-- The line that the stream's end is on lies inside one sequence. -/
def Inside (f : Feed) : Prop :=
  f.bytes ≠ [] ∧ ∀ n, Feed.lineStart f.bytes ≤ n → n ≤ f.bytes.length →
    (f.head.feed (f.bytes.take n)).midSequence = true

/-- No face starts over inside a sequence from the screen or from nothing, and no line is forgotten that a sequence
goes on from. -/
def Clear (w : World) : Event → Prop
  | .attach _ => ¬(w.feed.bytes = [] ∧ w.feed.tail.midSequence = true)
  | .follow r _ => ∀ face, w.faces r = some face → face.cursor < w.feed.oldest →
      ¬((w.feed.bytes = [] ∨ w.feed.life ≤ face.cursor) ∧ w.feed.tail.midSequence = true)
  | .forget alternate => alternate = true ∨ ¬Inside w.feed
  | _ => True

/-- What holds in every state of a clear run. -/
structure Inv (w : World) : Prop where
  holds : w.feed.Holds w.log
  outside : w.feed.Outside
  consecutive : ∀ r face, w.faces r = some face → face.base ≤ face.cursor ∧ face.cursor ≤ w.log.length ∧
    face.got.map some = (w.log.take face.cursor).drop face.base
  placed : ∀ r face, w.faces r = some face →
    Same (Modes.fresh.feed face.shown) (Modes.fresh.feed (lifeStream (w.log.take face.cursor)))

variable {w : World}

theorem Inv.noHole (h : Inv w) : NoHole w where
  oldest := ⟨h.holds.counts, h.holds.within, h.holds.held⟩
  consecutive := h.consecutive
  announced := fun drawn since => by
    refine ⟨?_, fun on => ?_⟩
    · rw [← h.holds.counts]
      exact Feed.takeSince_reset drawn since
    · obtain ⟨-, -, answer, cursor⟩ := h.holds.continued drawn on
      exact ⟨answer, cursor⟩
  placed := h.placed

theorem Inv.start : Inv .start := ⟨.fresh, fun _ => rfl, nofun, nofun⟩

/-- The faces are as they were while the stream goes on. -/
theorem Inv.goes (h : Inv w) {f : Feed} {more : List (Option UInt8)} (holds : f.Holds (w.log ++ more))
    (outside : f.Outside) : Inv { w with feed := f, log := w.log ++ more } where
  holds := holds
  outside := outside
  consecutive := fun r face is => by
    obtain ⟨base, cursor, got⟩ := h.consecutive r face is
    refine ⟨base, ?_, ?_⟩
    · show face.cursor ≤ (w.log ++ more).length
      rw [List.length_append]
      omega
    · show _ = ((w.log ++ more).take face.cursor).drop face.base
      rw [List.take_append_of_le_length cursor]
      exact got
  placed := fun r face is => by
    obtain ⟨-, cursor, -⟩ := h.consecutive r face is
    show Same _ (Modes.fresh.feed (lifeStream ((w.log ++ more).take face.cursor)))
    rw [List.take_append_of_le_length cursor]
    exact h.placed r face is

variable {face : Face} {drawn : Bytes}

/-- One face is told something. -/
theorem Inv.told (h : Inv w) (r : Nat) (consecutive : face.base ≤ face.cursor ∧ face.cursor ≤ w.log.length ∧
      face.got.map some = (w.log.take face.cursor).drop face.base)
    (placed : Same (Modes.fresh.feed face.shown) (Modes.fresh.feed (lifeStream (w.log.take face.cursor)))) :
    Inv (w.tell r face) where
  holds := h.holds
  outside := h.outside
  consecutive := fun i face' is => by
    unfold World.tell at is
    dsimp only at is
    by_cases same : i = r
    · rw [if_pos same] at is
      cases is
      exact consecutive
    · rw [if_neg same] at is
      exact h.consecutive i face' is
  placed := fun i face' is => by
    unfold World.tell at is
    dsimp only at is
    by_cases same : i = r
    · rw [if_pos same] at is
      cases is
      exact placed
    · rw [if_neg same] at is
      exact h.placed i face' is

theorem opened_shown (answer : Bytes) (cursor : Nat) : (World.opened answer cursor).shown = answer :=
  List.append_nil answer

/-- A face that starts over at the end of the stream is placed where its answer leads to the tail. -/
theorem Inv.opened_placed (h : Inv w) (answer : Bytes) :
    Same (Modes.fresh.feed (World.opened answer w.feed.fed).shown)
      (Modes.fresh.feed (lifeStream (w.log.take (World.opened answer w.feed.fed).cursor))) ↔
      Same (Modes.fresh.feed answer) w.feed.tail := by
  rw [opened_shown]
  show Same _ (Modes.fresh.feed (lifeStream (w.log.take w.feed.fed))) ↔ _
  rw [h.holds.counts, List.take_length, ← h.holds.tail]

theorem Inv.opened (h : Inv w) (r : Nat) {answer : Bytes} (same : Same (Modes.fresh.feed answer) w.feed.tail) :
    Inv (w.tell r (World.opened answer w.feed.fed)) := by
  refine h.told r ⟨Nat.le_refl _, Nat.le_of_eq h.holds.counts, ?_⟩ ((h.opened_placed answer).mpr same)
  show ([] : Bytes).map some = (w.log.take w.feed.fed).drop w.feed.fed
  rw [List.drop_eq_nil_of_le (List.length_take_le _ _)]
  rfl

/-- Which answer a reset gives, and whether it leads to the tail. -/
theorem Inv.reset_placed (h : Inv w) (draws : Draws w.feed.tail drawn) {since : Nat} (off : since < w.feed.oldest) :
    ∃ answer, w.feed.takeSince drawn since = (answer, w.feed.fed, true) ∧
      (Same (Modes.fresh.feed answer) w.feed.tail ↔
        ¬((w.feed.bytes = [] ∨ w.feed.life ≤ since) ∧ w.feed.tail.midSequence = true)) := by
  unfold Feed.takeSince
  by_cases screen : w.feed.life ≤ since
  · refine ⟨_, if_pos ⟨off, screen⟩, (h.holds.screen draws).trans ⟨fun not_ mid => ?_, fun clear => ?_⟩⟩
    · rw [not_] at mid
      cases mid.2
    · exact Bool.eq_false_iff.mpr fun mid => clear ⟨.inr screen, mid⟩
  · refine ⟨_, (if_neg fun both => screen both.2).trans (if_pos (.inl off)), ?_⟩
    refine (h.holds.replay h.outside).trans (not_congr (and_congr_left fun _ => ?_))
    exact ⟨.inl, fun is => is.resolve_right screen⟩

/-- An answer that is no reset goes on where the face is. -/
theorem Inv.continues (h : Inv w) (r : Nat) (is : w.faces r = some face)
    (on : (w.feed.takeSince drawn face.cursor).2.2 = false) :
    Inv (w.tell r (World.received face (w.feed.takeSince drawn face.cursor))) := by
  obtain ⟨-, -, answer_, cursor_⟩ := h.holds.continued drawn on
  obtain ⟨base, cursor, got⟩ := h.consecutive r face is
  generalize w.feed.takeSince drawn face.cursor = said at *
  obtain ⟨answer, end_, reset⟩ := said
  dsimp only at on answer_ cursor_
  subst on cursor_
  refine h.told r ⟨?_, Nat.le_refl _, ?_⟩ ?_
  · exact Nat.le_trans base cursor
  · show (face.got ++ answer).map some = (w.log.take w.log.length).drop face.base
    rw [List.map_append, got, answer_, List.take_length]
    conv_rhs => rw [← List.take_append_drop face.cursor w.log]
    rw [List.drop_append_of_le_length]
    rw [List.length_take]
    omega
  · show Same (Modes.fresh.feed (face.opening ++ (face.got ++ answer)))
      (Modes.fresh.feed (lifeStream (w.log.take w.log.length)))
    have whole : lifeStream (w.log.take w.log.length) = lifeStream (w.log.take face.cursor) ++ answer := by
      rw [← lifeStream_push, answer_, List.take_append_drop, List.take_length]
    rw [whole, ← List.append_assoc, Modes.feed_append, Modes.feed_append Modes.fresh (lifeStream _)]
    exact (h.placed r face is).feed answer

/-- A face's reset, where it is answered so. -/
theorem Inv.follow_reset (h : Inv w) (r : Nat) (is : w.faces r = some face) (draws : Draws w.feed.tail drawn)
    (off : face.cursor < w.feed.oldest) :
    ∃ answer, w.step (.follow r drawn) = w.tell r (World.opened answer w.feed.fed) ∧
      (Same (Modes.fresh.feed answer) w.feed.tail ↔
        ¬((w.feed.bytes = [] ∨ w.feed.life ≤ face.cursor) ∧ w.feed.tail.midSequence = true)) := by
  obtain ⟨answer, said, right⟩ := h.reset_placed draws off
  refine ⟨answer, ?_, right⟩
  simp only [World.step, is, said]
  rfl

theorem follow_eq (r : Nat) (drawn : Bytes) (is : w.faces r = some face) :
    w.step (.follow r drawn) = w.tell r (World.received face (w.feed.takeSince drawn face.cursor)) := by
  simp only [World.step, is]

theorem follow_none (r : Nat) (drawn : Bytes) (is : w.faces r = none) : w.step (.follow r drawn) = w := by
  simp only [World.step, is]

/-- What each event keeps. -/
theorem Inv.step (h : Inv w) {e : Event} (genuine : Genuine w e) (clear : Clear w e) : Inv (w.step e) := by
  cases e with
  | push bytes =>
      obtain ⟨holds, outside⟩ := h.holds.push bytes
      exact h.goes holds outside
  | restart =>
      obtain ⟨holds, outside⟩ := h.holds.restart
      exact h.goes holds outside
  | forget alternate =>
      obtain ⟨holds, outside⟩ := h.holds.forgetFeed h.outside alternate
      exact ⟨holds, outside, h.consecutive, h.placed⟩
  | attach r => exact h.opened r ((h.holds.replay h.outside).mpr clear)
  | follow r drawn =>
      cases is : w.faces r with
      | none =>
          rw [follow_none r drawn is]
          exact h
      | some face =>
          cases on : (w.feed.takeSince drawn face.cursor).2.2 with
          | false =>
              rw [follow_eq r drawn is]
              exact h.continues r is on
          | true =>
              have off : face.cursor < w.feed.oldest := by
                have cursor := (h.consecutive r face is).2.1
                rw [← h.holds.counts] at cursor
                exact ((Feed.takeSince_reset drawn face.cursor).mp on).resolve_right (Nat.not_lt.mpr cursor)
              obtain ⟨answer, same, right⟩ := h.follow_reset r is genuine off
              rw [same]
              exact h.opened r (right.mpr (clear face is off))

/-! ### Faces that have everything -/

namespace Feed

variable {f : Feed}

/-- Where nothing has to go nothing goes. -/
theorem push_room (not_ : f.head.midSequence = false) {bytes : Bytes}
    (room : f.bytes.length + bytes.length ≤ FEED_CAP) :
    f.push bytes = { f with
      bytes := f.bytes ++ bytes, tail := f.tail.feed bytes, fed := f.fed + bytes.length } := by
  have stays (held : Bytes) : drain f.head held 0 = (f.head, held) := by
    unfold drain
    rw [List.take_zero, List.drop_zero, Modes.feed_nil]
    cases held with
    | nil => rfl
    | cons b held =>
        unfold runOn
        rw [not_]
        rfl
  have none_ : (f.bytes ++ bytes).length - FEED_CAP = 0 := by
    rw [List.length_append]
    exact Nat.sub_eq_zero_of_le room
  unfold push
  dsimp only
  rw [none_, stays]

theorem pushes_room (not_ : f.head.midSequence = false) (within : f.bytes.length ≤ f.fed) (pieces : List Bytes)
    (room : f.bytes.length + pieces.flatten.length ≤ FEED_CAP) :
    (pieces.foldl push f).oldest = f.oldest ∧ f.fed ≤ (pieces.foldl push f).fed := by
  induction pieces generalizing f with
  | nil => exact ⟨rfl, Nat.le_refl _⟩
  | cons bytes pieces ih =>
      rw [List.flatten_cons, List.length_append] at room
      rw [List.foldl_cons, push_room not_ (by omega)]
      have next := @ih { f with bytes := f.bytes ++ bytes, tail := f.tail.feed bytes, fed := f.fed + bytes.length }
        not_ (by dsimp only; rw [List.length_append]; omega) (by dsimp only; rw [List.length_append]; omega)
      refine ⟨next.1.trans ?_, Nat.le_trans (Nat.le_add_right _ _) next.2⟩
      show f.fed + bytes.length - (f.bytes ++ bytes).length = f.fed - f.bytes.length
      rw [List.length_append]
      omega

/-- A sequence that goes on over the whole last line takes everything with it. -/
theorem forget_inside (f : Feed) (inside : Inside f) :
    f.forget = { f with bytes := [], head := f.head.feed f.bytes } ∧ (f.head.feed f.bytes).midSequence = true := by
  obtain ⟨k, ge, le, same, -, ends⟩ := f.forget_spec
  have all : k = f.bytes.length := by
    refine Nat.le_antisymm le (Nat.le_of_not_lt fun lt => ?_)
    have := inside.2 k ge le
    rw [ends lt] at this
    cases this
  have mid := inside.2 k ge le
  rw [all, List.take_length] at mid
  rw [same, all, List.drop_length, List.take_length]
  exact ⟨rfl, mid⟩

theorem forget_outside (f : Feed) (not_ : f.head.midSequence = false) (clear : ¬Inside f) :
    f.forget.head.midSequence = false := by
  obtain ⟨k, ge, le, same, inside, ends⟩ := f.forget_spec
  rw [same]
  show (f.head.feed (f.bytes.take k)).midSequence = false
  cases mid : (f.head.feed (f.bytes.take k)).midSequence with
  | false => rfl
  | true =>
      have all : k = f.bytes.length := by
        refine Nat.le_antisymm le (Nat.le_of_not_lt fun lt => ?_)
        rw [ends lt] at mid
        cases mid
      refine absurd ⟨fun none_ => ?_, fun n from_ upto => ?_⟩ clear
      · rw [none_, List.take_nil, Modes.feed_nil, not_] at mid
        cases mid
      · by_cases last : n = k
        · rw [last]
          exact mid
        · exact inside n from_ (by omega)

end Feed

/-- Nothing of what comes after a clear is taken with it unless the last line lies inside one sequence. -/
theorem spared_iff {log : List (Option UInt8)} {f : Feed} (holds : f.Holds log) (outside : f.Outside)
    (alternate : Bool) : Spared f alternate ↔ alternate = true ∨ ¬Inside f := by
  constructor
  · intro spared
    cases alternate with
    | true => exact .inl rfl
    | false =>
        refine .inr fun inside => ?_
        have not_ : f.head.midSequence = false := Bool.eq_false_iff.mpr fun mid => inside.1 (outside mid)
        obtain ⟨same, mid⟩ := f.forget_inside inside
        -- one byte of the sequence is taken, and the face that had everything before it is off
        have one (life : Nat) : (Feed.push { f with bytes := [], head := f.head.feed f.bytes, life } [0]).oldest =
            f.fed + 1 := by
          have none_ : ([] ++ [0] : Bytes).length - FEED_CAP = 0 := Nat.sub_eq_zero_of_le (by decide)
          have taken : (Feed.drain (f.head.feed f.bytes) ([] ++ [0]) 0).2 = [] := by
            unfold Feed.drain
            rw [List.take_zero, List.drop_zero, Modes.feed_nil, List.nil_append]
            unfold Feed.runOn
            rw [if_pos mid]
            rfl
          unfold Feed.push Feed.oldest
          dsimp only
          rw [none_, taken]
          rfl
        have bare : f.forgetFeed false = { f with
            bytes := [], head := f.head.feed f.bytes,
            life := max f.forget.life f.forget.oldest } := by
          unfold Feed.forgetFeed
          rw [if_neg (by decide)]
          conv_lhs => rw [same]
          rw [same]
        have on := spared not_ [[0]] [] (by
          rw [bare]
          show 0 + 1 ≤ FEED_CAP
          decide)
        rw [List.foldl_cons, List.foldl_nil, bare] at on
        have off := (Feed.takeSince_reset (f := Feed.push { f with
            bytes := [], head := f.head.feed f.bytes,
            life := max f.forget.life f.forget.oldest } [0]) [] f.fed).mpr (.inl (by
          rw [one]
          exact Nat.lt_succ_self _))
        rw [on] at off
        cases off
  · intro clear not_ pieces drawn room
    have kept : (f.forgetFeed alternate).head.midSequence = false ∧ (f.forgetFeed alternate).fed = f.fed := by
      unfold Feed.forgetFeed
      cases alternate with
      | true => exact ⟨not_, rfl⟩
      | false =>
          obtain ⟨k, -, -, same, -⟩ := f.forget_spec
          rw [if_neg (by decide)]
          refine ⟨f.forget_outside not_ (clear.resolve_left (by decide)), ?_⟩
          show f.forget.fed = f.fed
          rw [same]
    obtain ⟨holds', -⟩ := holds.forgetFeed outside alternate
    obtain ⟨place, grows⟩ := Feed.pushes_room kept.1 holds'.within pieces room
    rw [kept.2] at grows
    refine Bool.eq_false_iff.mpr fun reset => ?_
    rcases (Feed.takeSince_reset drawn f.fed).mp reset with off | off
    · rw [place] at off
      have : (f.forgetFeed alternate).oldest ≤ f.fed := by
        rw [← kept.2]
        exact Nat.sub_le _ _
      omega
    · omega

/-- An event keeps what the faces are told exactly where it is clear. -/
theorem Inv.kept_iff (h : Inv w) {e : Event} (genuine : Genuine w e) : Kept w e ↔ Clear w e := by
  have enough (clear : Clear w e) (only : ∀ alternate, e ≠ .forget alternate) : Kept w e :=
    ⟨(h.step genuine clear).noHole, fun alternate is => absurd is (only alternate)⟩
  cases e with
  | push | restart => exact ⟨fun _ => trivial, fun clear => enough clear nofun⟩
  | forget alternate =>
      have spared := spared_iff h.holds h.outside alternate
      refine ⟨fun kept => spared.mp (kept.2 alternate rfl), fun clear => ⟨(h.step genuine clear).noHole, ?_⟩⟩
      rintro alternate' ⟨⟩
      exact spared.mpr clear
  | attach r =>
      refine ⟨fun kept => ?_, fun clear => enough clear nofun⟩
      have placed := kept.1.placed r (World.opened w.feed.takeAll.1 w.feed.takeAll.2) (if_pos rfl)
      exact (h.holds.replay h.outside).mp ((h.opened_placed _).mp placed)
  | follow r drawn =>
      refine ⟨fun kept face is off => ?_, fun clear => enough clear nofun⟩
      obtain ⟨answer, same, right⟩ := h.follow_reset r is genuine off
      have noHole := kept.1
      rw [same] at noHole
      exact right.mp ((h.opened_placed answer).mp (noHole.placed r _ (if_pos rfl)))

/-- In every run in which no face starts over inside a sequence and no line is forgotten that a sequence goes on from,
the faces are told the stream without a hole; and from each state of such a run an event keeps it so exactly where it
is clear. -/
theorem face_never_sees_a_hole (run : Runs World.step (fun w e => Genuine w e ∧ Clear w e) .start w) :
    NoHole w ∧ ∀ e, Genuine w e → (Kept w e ↔ Clear w e) := by
  have inv : Inv w := run.invariant (fun may h => h.step may.1 may.2) .start
  exact ⟨inv.noHole, fun e genuine => inv.kept_iff genuine⟩

/-- A blank screen as the emulator draws it: the cursor is shown, and everything is cleared. -/
def blank : Bytes :=
  [ESC, 0x5b, 0x3f, 0x32, 0x35, 0x68, ESC, 0x5b, 0x6d, ESC, 0x5b, 0x48, ESC, 0x5b, 0x4a]

theorem draws_blank {m : Modes} (visible : m.isSet 25 = true) : Draws m blank := by
  have parts : blank = [ESC, '['.toUInt8, '?'.toUInt8] ++ digits (25 : UInt16).toNat ++
      [if true then 'h'.toUInt8 else 'l'.toUInt8] ++ [ESC, 0x5b, 0x6d, ESC, 0x5b, 0x48, ESC, 0x5b, 0x4a] := by
    decide
  have mode := Modes.feed_mode (m := { m with parse := .ground }) rfl 25 (by decide) true (.inl rfl)
  unfold Draws
  rw [parts, Modes.feed_append]
  refine (mode.feed _).trans (.ground rfl rfl (fun mode => ?_) rfl rfl rfl)
  show (if mode = 25 then some true else m.set mode).getD (Modes.resetValue mode) = m.isSet mode
  split
  · rename_i here
    rw [here, visible]
    rfl
  · rfl

/-- A face that attached before anything was fed has nothing yet. -/
theorem attached_push (bytes : Bytes) : ([Event.attach 0, .push bytes].foldl World.step .start).feed =
      Feed.fresh.push bytes ∧
    ([Event.attach 0, .push bytes].foldl World.step .start).faces 0 = some (World.opened [] 0) :=
  ⟨rfl, rfl⟩

theorem Feed.push_tail (f : Feed) (bytes : Bytes) :
    (f.push bytes).tail = f.tail.feed bytes ∧ (f.push bytes).fed = f.fed + bytes.length ∧
      (f.push bytes).life = f.life := by
  unfold Feed.push
  exact ⟨rfl, rfl, rfl⟩

theorem clear_attach : Genuine .start (.attach 0) ∧ Clear .start (.attach 0) :=
  ⟨trivial, fun stuck => absurd stuck.2 (by decide)⟩

/-- A second face attaches while the first is behind, and both are answered when the program has gone on. -/
def twoFaces : List Event :=
  [.attach 0, .push [0x68, 0x69], .attach 1, .push [0x21], .follow 0 blank, .follow 1 blank]

theorem face_never_sees_a_hole_two :
    NoHole (twoFaces.foldl World.step .start) ∧
      ((twoFaces.foldl World.step .start).faces 0).map Face.got = some [0x68, 0x69, 0x21] ∧
      ((twoFaces.foldl World.step .start).faces 1).map Face.got = some [0x21] ∧
      (Kept (twoFaces.foldl World.step .start) (.forget false) ↔
        Clear (twoFaces.foldl World.step .start) (.forget false)) := by
  have clear {w : World} {r : Nat} (on : ∀ face, w.faces r = some face → w.feed.oldest ≤ face.cursor) :
      Clear w (.follow r blank) := fun face is behind => absurd (on face is) (Nat.not_le.mpr behind)
  have run : Fits World.step (fun w e => Genuine w e ∧ Clear w e) .start twoFaces := by
    refine ⟨clear_attach, ⟨trivial, trivial⟩, ⟨trivial, fun stuck => absurd stuck.1 (by decide +kernel)⟩, ⟨trivial, trivial⟩,
      ⟨draws_blank (by decide +kernel), clear ?_⟩, ⟨draws_blank (by decide +kernel), clear ?_⟩, trivial⟩
    · rintro _ ⟨⟩
      decide +kernel
    · rintro _ ⟨⟩
      decide +kernel
  obtain ⟨noHole, iff⟩ := face_never_sees_a_hole run.runs
  exact ⟨noHole, by decide +kernel, by decide +kernel, iff _ trivial⟩

/-- The fields of a feed after a push. -/
theorem Feed.push_eq (f : Feed) (bytes : Bytes) : f.push bytes =
    ⟨(drain f.head (f.bytes ++ bytes) ((f.bytes ++ bytes).length - FEED_CAP)).2,
      (drain f.head (f.bytes ++ bytes) ((f.bytes ++ bytes).length - FEED_CAP)).1,
      f.tail.feed bytes, f.life, f.fed + bytes.length⟩ := rfl

/-- The feed is capped. -/
theorem Feed.push_length (f : Feed) (bytes : Bytes) : (f.push bytes).bytes.length ≤ FEED_CAP := by
  obtain ⟨k, ge, -, same, -⟩ :=
    Feed.drain_spec f.head (f.bytes ++ bytes) (Nat.sub_le (f.bytes ++ bytes).length FEED_CAP)
  rw [Feed.push_eq, same, List.length_drop]
  refine Nat.sub_le_iff_le_add.mpr ?_
  rw [Nat.add_comm]
  exact Nat.sub_le_iff_le_add.mp ge

/-- A face that is behind is drawn the screen while the stream is inside a control sequence. -/
theorem behind_inside {bytes : Bytes} (long : FEED_CAP < bytes.length)
    (tail : Modes.fresh.feed bytes = { Modes.fresh with parse := .csi false false false 0 }) :
    ∃ w, Runs World.step Genuine .start w ∧ ¬NoHole w := by
  have fits : Fits World.step (fun w e => Genuine w e ∧ Clear w e) .start [.attach 0, .push bytes] :=
    ⟨clear_attach, ⟨trivial, trivial⟩, trivial⟩
  have inv := fits.runs.invariant (I := Inv) (fun may h => h.step may.1 may.2) .start
  have run := fits.runs.mono fun may => may.1
  obtain ⟨feed, face⟩ := attached_push bytes
  obtain ⟨pushed, fed, life⟩ := Feed.fresh.push_tail bytes
  generalize [Event.attach 0, .push bytes].foldl World.step .start = w at run inv feed face
  have behind : 0 < w.feed.oldest := by
    have le := Feed.fresh.push_length bytes
    have none_ : Feed.fresh.fed = 0 := rfl
    unfold Feed.oldest
    rw [feed, fed, none_]
    omega
  have none_ : Feed.fresh.tail = .fresh := rfl
  have stuck : w.feed.tail = { Modes.fresh with parse := .csi false false false 0 } := by
    rw [feed, pushed, none_, tail]
  have genuine : Genuine w (.follow 0 blank) := by
    refine draws_blank ?_
    rw [stuck]
    rfl
  refine ⟨w.step (.follow 0 blank), Relation.ReflTransGen.tail run ⟨_, genuine, rfl⟩, fun noHole => ?_⟩
  refine (inv.kept_iff genuine).mp ⟨noHole, nofun⟩ _ face behind ⟨.inr ?_, ?_⟩
  · rw [feed, life]
    exact Nat.le_refl _
  · rw [stuck]
    rfl

/-- A line that fills the feed, and the beginning of a control sequence. -/
def burst : Bytes := List.replicate FEED_CAP 0x61 ++ [ESC, 0x5b]

theorem feed_line (n : Nat) : Modes.fresh.feed (List.replicate n 0x61) = .fresh := by
  induction n with
  | zero => rfl
  | succ n ih =>
      rw [List.replicate_succ, Modes.feed_cons]
      exact ih

/-- A line of any length leads into the control sequence that begins after it. -/
theorem feed_into (n : Nat) :
    Modes.fresh.feed (List.replicate n 0x61 ++ [ESC, 0x5b]) =
      { Modes.fresh with parse := .csi false false false 0 } := by
  rw [Modes.feed_append, feed_line]
  rfl

theorem long_line (n : Nat) : n < (List.replicate n (0x61 : UInt8) ++ [ESC, 0x5b]).length := by
  rw [List.length_append, List.length_replicate]
  exact Nat.lt_add_of_pos_right (by decide)

/-- The rest of a sequence the screen was drawn inside of will be read as text. -/
theorem screen_cuts_a_sequence : ¬∀ w, Runs World.step Genuine .start w → NoHole w ∧
    ∀ alternate, Spared w.feed alternate := by
  intro always
  obtain ⟨w, run, hole⟩ := @behind_inside burst (long_line FEED_CAP) (feed_into FEED_CAP)
  exact hole (always w run).1

end Khor.Term
