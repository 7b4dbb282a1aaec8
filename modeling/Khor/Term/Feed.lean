/-
Module: Khor.Term.Feed
Purpose: The feed of a terminal (apps/gui/core/src/term.rs): the bytes that are held of the stream, the modes in front
  of them and at their end, and what a face is answered that attaches or asks for what follows its cursor. `Holds`
  compares a feed with the log of its whole stream, one entry for each position of the cursor: a byte, or the mark a
  new life leaves.
Trusted boundary: the terminal emulator that draws the screen is outside; what it draws is an input that is
  assumed to leave the tracked modes as they are (`Draws`)
Main exports: Feed, Feed.push, Feed.restart, Feed.forgetFeed, Feed.Holds
-/
import Khor.Term.Preamble

namespace Khor.Term

/-- `host::RING`. -/
def RING : Nat := 1 <<< 20

def FEED_CAP : Nat := 2 * RING

/-- `Feed`, with the cursor `fed` that moves only under its lock. -/
structure Feed where
  bytes : Bytes
  head : Modes
  tail : Modes
  life : Nat
  fed : Nat

namespace Feed

/-- `Feed::default`, nothing fed. -/
def fresh : Feed := ⟨[], .fresh, .fresh, 0, 0⟩

/-- The loop that drops from the front while the head stands inside a sequence. -/
def runOn (head : Modes) : Bytes → Modes × Bytes
  | [] => (head, [])
  | b :: held => if head.midSequence then runOn (head.byte b) held else (head, b :: held)

/-- `n` bytes go from the front, and those that end the sequence they were inside of. -/
def drain (head : Modes) (held : Bytes) (n : Nat) : Modes × Bytes :=
  runOn (head.feed (held.take n)) (held.drop n)

/-- `push_feed`. -/
def push (f : Feed) (bytes : Bytes) : Feed :=
  let held := f.bytes ++ bytes
  let kept := drain f.head held (held.length - FEED_CAP)
  { bytes := kept.2, head := kept.1, tail := f.tail.feed bytes, life := f.life, fed := f.fed + bytes.length }

/-- `restart_feed`. -/
def restart (f : Feed) : Feed := ⟨[], .fresh, .fresh, f.fed + 1, f.fed + 1⟩

/-- Where the last line begins, which is the line the cursor is on. -/
def lineStart (bytes : Bytes) : Nat :=
  bytes.length - (bytes.reverse.takeWhile fun b => b != '\n'.toUInt8).length

/-- `Feed::forget`. -/
def forget (f : Feed) : Feed :=
  let kept := drain f.head f.bytes (lineStart f.bytes)
  { f with bytes := kept.2, head := kept.1 }

/-- The position of the oldest byte that is held. -/
def oldest (f : Feed) : Nat := f.fed - f.bytes.length

/-- `forget_feed`. On the alternate screen nothing is forgotten. -/
def forgetFeed (alternate : Bool) (f : Feed) : Feed :=
  if alternate then f else { f.forget with life := max f.forget.life f.forget.oldest }

/-- `Feed::replay`. -/
def replay (f : Feed) : Bytes := f.head.preamble ++ f.bytes

/-- `take_all`: the answer and the cursor. -/
def takeAll (f : Feed) : Bytes × Nat := (f.replay, f.fed)

/-- `take_since`: the answer, the cursor and whether it is a reset. `drawn` is the screen as the emulator draws it. -/
def takeSince (f : Feed) (drawn : Bytes) (since : Nat) : Bytes × Nat × Bool :=
  if since < f.oldest ∧ f.life ≤ since then (f.tail.preamble ++ drawn, f.fed, true)
  else if since < f.oldest ∨ f.fed < since then (f.replay, f.fed, true)
  else (f.bytes.drop (since - f.oldest), f.fed, false)

end Feed

/-- The stream of the life that is current at the end of a log. -/
def lifeStream (log : List (Option UInt8)) : Bytes :=
  log.foldl (fun bytes entry => match entry with
    | some b => bytes ++ [b]
    | none => []) []

@[simp] theorem lifeStream_restart (log : List (Option UInt8)) : lifeStream (log ++ [none]) = [] := by
  simp [lifeStream, List.foldl_append]

theorem lifeStream_push (log : List (Option UInt8)) (bytes : Bytes) :
    lifeStream (log ++ bytes.map some) = lifeStream log ++ bytes := by
  induction bytes generalizing log with
  | nil => simp
  | cons b bytes ih =>
      have one : lifeStream (log ++ [some b]) = lifeStream log ++ [b] := by simp [lifeStream, List.foldl_append]
      have split : log ++ (b :: bytes).map some = log ++ [some b] ++ bytes.map some := by simp
      rw [split, ih, one, List.append_assoc, List.singleton_append]

namespace Feed

/-- The loop drops up to some place: inside a sequence everywhere before it, outside at it or nothing is left. -/
theorem runOn_spec (head : Modes) (held : Bytes) :
    ∃ k ≤ held.length, runOn head held = (head.feed (held.take k), held.drop k) ∧
      (∀ j < k, (head.feed (held.take j)).midSequence = true) ∧
      (k < held.length → (head.feed (held.take k)).midSequence = false) := by
  induction held generalizing head with
  | nil => exact ⟨0, Nat.le_refl _, rfl, nofun, nofun⟩
  | cons b held ih =>
      unfold runOn
      cases mid : head.midSequence with
      | false => exact ⟨0, Nat.zero_le _, rfl, nofun, fun _ => mid⟩
      | true =>
          obtain ⟨k, le, same, inside, outside⟩ := ih (head.byte b)
          refine ⟨k + 1, Nat.succ_le_succ le, same, fun j lt => ?_, fun lt => outside (Nat.lt_of_succ_lt_succ lt)⟩
          cases j with
          | zero => exact mid
          | succ j => exact inside j (Nat.lt_of_succ_lt_succ lt)

/-- What is dropped is a front of what is held, and what is left begins outside of any sequence. -/
theorem drain_spec (head : Modes) (held : Bytes) {n : Nat} (le : n ≤ held.length) :
    ∃ k, n ≤ k ∧ k ≤ held.length ∧ drain head held n = (head.feed (held.take k), held.drop k) ∧
      (∀ j, n ≤ j → j < k → (head.feed (held.take j)).midSequence = true) ∧
      (k < held.length → (head.feed (held.take k)).midSequence = false) := by
  obtain ⟨k, hk, same, inside, outside⟩ := runOn_spec (head.feed (held.take n)) (held.drop n)
  have at_ (j : Nat) : (head.feed (held.take n)).feed ((held.drop n).take j) = head.feed (held.take (n + j)) := by
    rw [← Modes.feed_append, List.take_add]
  rw [List.length_drop] at hk outside
  refine ⟨n + k, Nat.le_add_right _ _, by omega, ?_, fun j ge lt => ?_, fun lt => ?_⟩
  · unfold drain
    rw [same, at_, List.drop_drop]
  · have := inside (j - n) (by omega)
    rwa [at_, Nat.add_sub_cancel' ge] at this
  · rw [← at_]
    exact outside (by omega)

theorem lineStart_le (bytes : Bytes) : lineStart bytes ≤ bytes.length := Nat.sub_le _ _

/-- The feed holds the end of the log, and its readers of modes stand where the life's stream leads. -/
structure Holds (f : Feed) (log : List (Option UInt8)) : Prop where
  counts : f.fed = log.length
  within : f.bytes.length ≤ f.fed
  held : f.bytes.map some = log.drop f.oldest
  tail : f.tail = Modes.fresh.feed (lifeStream log)
  head : f.head = Modes.fresh.feed (lifeStream (log.take f.oldest))

/-- What is held begins outside of any sequence. -/
def Outside (f : Feed) : Prop := f.head.midSequence = true → f.bytes = []

variable {f : Feed} {log : List (Option UInt8)}

section

variable (h : Holds f log)
include h

/-- The log is what was dropped and what is held. -/
theorem Holds.log_eq : log = log.take f.oldest ++ f.bytes.map some := by
  rw [h.held, List.take_append_drop]

/-- What is held leads from the head to the tail. -/
theorem Holds.feed_bytes : f.head.feed f.bytes = f.tail := by
  rw [h.head, h.tail, ← Modes.feed_append, ← lifeStream_push, ← h.log_eq]

/-- Dropping a front keeps the feed at the end of its log. -/
theorem Holds.drained {k : Nat} (le : k ≤ f.bytes.length) (life : Nat) :
    Holds { f with bytes := f.bytes.drop k, head := f.head.feed (f.bytes.take k), life } log := by
  have within := h.within
  have oldest_ : Feed.oldest { f with bytes := f.bytes.drop k, head := f.head.feed (f.bytes.take k), life } =
      f.oldest + k := by
    show f.fed - (f.bytes.drop k).length = f.fed - f.bytes.length + k
    rw [List.length_drop]
    omega
  refine ⟨h.counts, ?_, ?_, h.tail, ?_⟩
  · show (f.bytes.drop k).length ≤ f.fed
    rw [List.length_drop]
    omega
  · rw [oldest_, ← List.drop_drop, ← h.held, List.map_drop]
  · rw [oldest_, List.take_add, ← h.held, ← List.map_take, lifeStream_push, Modes.feed_append, ← h.head]

/-- More of the stream goes to the end. -/
theorem Holds.grown (bytes : Bytes) :
    Holds { f with bytes := f.bytes ++ bytes, tail := f.tail.feed bytes, fed := f.fed + bytes.length }
      (log ++ bytes.map some) := by
  have within := h.within
  have oldest_ : Feed.oldest
      { f with bytes := f.bytes ++ bytes, tail := f.tail.feed bytes, fed := f.fed + bytes.length } = f.oldest := by
    show f.fed + bytes.length - (f.bytes ++ bytes).length = f.fed - f.bytes.length
    rw [List.length_append]
    omega
  have before : f.oldest ≤ log.length := by
    rw [← h.counts]
    exact Nat.sub_le _ _
  refine ⟨?_, ?_, ?_, ?_, ?_⟩
  · show f.fed + bytes.length = _
    rw [List.length_append, List.length_map, h.counts]
  · show (f.bytes ++ bytes).length ≤ f.fed + bytes.length
    rw [List.length_append]
    omega
  · rw [oldest_, List.map_append, h.held, List.drop_append_of_le_length before]
  · show f.tail.feed bytes = _
    rw [lifeStream_push, Modes.feed_append, h.tail]
  · rw [oldest_, List.take_append_of_le_length before]
    exact h.head

theorem Holds.push (bytes : Bytes) : Holds (f.push bytes) (log ++ bytes.map some) ∧ Outside (f.push bytes) := by
  obtain ⟨k, -, le, same, -, outside⟩ :=
    drain_spec f.head (f.bytes ++ bytes) (Nat.sub_le (f.bytes ++ bytes).length FEED_CAP)
  have push_ : f.push bytes = { f with
      bytes := (f.bytes ++ bytes).drop k
      head := f.head.feed ((f.bytes ++ bytes).take k)
      tail := f.tail.feed bytes
      fed := f.fed + bytes.length } := by
    unfold Feed.push
    dsimp only
    rw [same]
  rw [push_]
  refine ⟨(h.grown bytes).drained le f.life, fun mid => List.drop_eq_nil_of_le (Nat.le_of_not_lt fun lt => ?_)⟩
  have : (f.head.feed ((f.bytes ++ bytes).take k)).midSequence = true := mid
  rw [outside lt] at this
  cases this

theorem Holds.restart : Holds f.restart (log ++ [none]) ∧ Outside f.restart := by
  have oldest_ : f.restart.oldest = log.length + 1 := by rw [← h.counts]; rfl
  refine ⟨⟨?_, Nat.zero_le _, ?_, ?_, ?_⟩, fun _ => rfl⟩
  · rw [List.length_append, List.length_singleton, ← h.counts]
    rfl
  · rw [oldest_, List.drop_eq_nil_of_le (by simp)]
    rfl
  · rw [lifeStream_restart]
    rfl
  · rw [oldest_, List.take_of_length_le (by simp), lifeStream_restart]
    rfl

end

/-- Forgetting drops a front that reaches at least to the last line. -/
theorem forget_spec (f : Feed) :
    ∃ k, lineStart f.bytes ≤ k ∧ k ≤ f.bytes.length ∧
      f.forget = { f with bytes := f.bytes.drop k, head := f.head.feed (f.bytes.take k) } ∧
      (∀ j, lineStart f.bytes ≤ j → j < k → (f.head.feed (f.bytes.take j)).midSequence = true) ∧
      (k < f.bytes.length → (f.head.feed (f.bytes.take k)).midSequence = false) := by
  obtain ⟨k, ge, le, same, inside, outside⟩ := drain_spec f.head f.bytes (lineStart_le f.bytes)
  refine ⟨k, ge, le, ?_, inside, outside⟩
  unfold Feed.forget
  dsimp only
  rw [same]

theorem Holds.forgetFeed (h : Holds f log) (outside : Outside f) (alternate : Bool) :
    Holds (f.forgetFeed alternate) log ∧ Outside (f.forgetFeed alternate) := by
  unfold Feed.forgetFeed
  cases alternate with
  | true => exact ⟨h, outside⟩
  | false =>
      obtain ⟨k, -, le, same, -, ends⟩ := f.forget_spec
      rw [if_neg (by decide), same]
      refine ⟨h.drained le _, fun mid => List.drop_eq_nil_of_le (Nat.le_of_not_lt fun lt => ?_)⟩
      have : (f.head.feed (f.bytes.take k)).midSequence = true := mid
      rw [ends lt] at this
      cases this

theorem Holds.fresh : Holds Feed.fresh [] := ⟨rfl, Nat.le_refl _, rfl, rfl, rfl⟩

/-! ### What an answer says -/

/-- An answer is no reset exactly where the cursor is at a byte that is held, or at the end. -/
theorem takeSince_reset (drawn : Bytes) (since : Nat) :
    (f.takeSince drawn since).2.2 = true ↔ since < f.oldest ∨ f.fed < since := by
  unfold takeSince
  split
  · rename_i screen
    exact ⟨fun _ => .inl screen.1, fun _ => rfl⟩
  · split
    · rename_i off
      exact ⟨fun _ => off, fun _ => rfl⟩
    · rename_i on
      exact ⟨nofun, fun off => absurd off on⟩

/-- An answer that is no reset is the log from the cursor on. -/
theorem Holds.continued (h : Holds f log) (drawn : Bytes) {since : Nat}
    (on : (f.takeSince drawn since).2.2 = false) :
    f.oldest ≤ since ∧ since ≤ log.length ∧ (f.takeSince drawn since).1.map some = log.drop since ∧
      (f.takeSince drawn since).2.1 = log.length := by
  have place : ¬(since < f.oldest ∨ f.fed < since) := fun off => by
    rw [(takeSince_reset drawn since).mpr off] at on
    cases on
  have same : f.takeSince drawn since = (f.bytes.drop (since - f.oldest), f.fed, false) := by
    unfold takeSince
    rw [if_neg (fun screen => place (.inl screen.1)), if_neg place]
  rw [same, ← h.counts]
  refine ⟨by omega, by omega, ?_, rfl⟩
  show (f.bytes.drop (since - f.oldest)).map some = _
  rw [List.map_drop, h.held, List.drop_drop]
  congr 1
  omega

/-- The tail is a reader that began fresh. -/
theorem Holds.sound (h : Holds f log) : f.tail.Sound ∧ f.head.Sound := by
  rw [h.tail, h.head]
  exact ⟨Modes.Sound.fresh.feed _, Modes.Sound.fresh.feed _⟩

end Feed

open Modes (Same)

/-- What the emulator draws leaves the tracked modes, and the place outside of any sequence, as they are. -/
def Draws (m : Modes) (drawn : Bytes) : Prop :=
  Same (({ m with parse := .ground } : Modes).feed drawn) { m with parse := .ground }

namespace Feed

variable {f : Feed} {log : List (Option UInt8)}

/-- A reader outside of any sequence. -/
theorem ground_of {m : Modes} (not_ : m.midSequence = false) : ({ m with parse := .ground } : Modes) = m := by
  obtain ⟨parse, params, current, set, keypad, kitty, otherKeys⟩ := m
  have : parse = .ground := by simpa [Modes.midSequence] using not_
  rw [this]

/-- The screen starts a terminal over where the stream stands, unless that is inside a sequence. -/
theorem Holds.screen (h : Holds f log) {drawn : Bytes} (draws : Draws f.tail drawn) :
    Same (Modes.fresh.feed (f.tail.preamble ++ drawn)) f.tail ↔ f.tail.midSequence = false := by
  have all : Same (Modes.fresh.feed (f.tail.preamble ++ drawn)) { f.tail with parse := .ground } := by
    rw [Modes.feed_append]
    exact ((Modes.feed_preamble h.sound.1).feed drawn).trans draws
  constructor
  · intro same
    have : f.tail.parse = .ground := same.parse.symm.trans all.parse
    unfold Modes.midSequence
    rw [this]
    rfl
  · intro not_
    rw [ground_of not_] at all
    exact all

/-- What is held starts a terminal over where the stream stands, unless nothing is held and that is inside a
sequence. -/
theorem Holds.replay (h : Holds f log) (outside : Outside f) :
    Same (Modes.fresh.feed f.replay) f.tail ↔ ¬(f.bytes = [] ∧ f.tail.midSequence = true) := by
  have all : Same (Modes.fresh.feed f.head.preamble) { f.head with parse := .ground } := Modes.feed_preamble h.sound.2
  unfold Feed.replay
  rw [Modes.feed_append]
  cases mid : f.head.midSequence with
  | false =>
      rw [ground_of mid] at all
      have same := all.feed f.bytes
      rw [h.feed_bytes] at same
      refine ⟨fun _ stuck => ?_, fun _ => same⟩
      have : f.head = f.tail := by
        have := h.feed_bytes
        rwa [stuck.1, Modes.feed_nil] at this
      rw [this, stuck.2] at mid
      cases mid
  | true =>
      have none_ := outside mid
      have there : f.head = f.tail := by
        have := h.feed_bytes
        rwa [none_, Modes.feed_nil] at this
      rw [none_, Modes.feed_nil, ← there]
      refine ⟨fun same => ?_, fun not_ => absurd ⟨rfl, mid⟩ not_⟩
      have : f.head.parse = .ground := same.parse.symm.trans all.parse
      unfold Modes.midSequence at mid
      rw [this] at mid
      cases mid

end Feed

end Khor.Term
