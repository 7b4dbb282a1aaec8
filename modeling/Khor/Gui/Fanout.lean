/-
Module: Khor.Gui.Fanout
Purpose: One connection of the fan-out to the GUI (node/src/gui_host_fanout.rs): the bounded queue of frames under its
  lock, the producers that wait for room in it, and the writer thread that takes the frames to the socket.
Trusted boundary: the mutex, condition variable and waker of the language, one step for each stretch of code under a
  lock; what a write to the socket answers, and whether the stall clock has run out, are inputs
Main exports: Limits, Conn, Conn.enqueue, Conn.abort, Conn.Sound
-/
import Mathlib

namespace Khor.Fanout

abbrev Frame := List UInt8

structure Limits where
  frames : Nat
  bytes : Nat

def MAX_FRAMES : Nat := 128

def MAX_BYTES : Nat := 64 * 1024 * 1024

def Limits.default : Limits := ⟨MAX_FRAMES, MAX_BYTES⟩

/-- The most that one write to the socket is given. -/
def CHUNK : Nat := 64 * 1024

inductive SendError where
  | closed
  | frameTooLarge
  | tooManyWaiters

inductive Poll where
  | ready (result : Except SendError Unit)
  | pending

/-- Where the thread of `run_writer` is: before the queue's lock, asleep on the condition variable, in `write_frame` before
it looks at what remains or before the write, past `write_frame`, waking producers, past the loop, past the shutdown of
the socket, waking the last producers, or at its end. A frame whose write failed stays in hand until the last lock. -/
inductive Writer where
  | taking
  | asleep (notified : Bool)
  | writing (frame remaining : Frame)
  | pushing (frame remaining : Frame)
  | wrote (frame : Frame)
  | waking (waiters : List Nat)
  | leaving (failed : Option Frame)
  | shut (failed : Option Frame)
  | finishing (waiters : List Nat)
  | ended
deriving DecidableEq

namespace Writer

/-- The frame in the writer's hand. -/
@[grind] def inHand : Writer → List Frame
  | writing frame _ | pushing frame _ | wrote frame | leaving (some frame) | shut (some frame) => [frame]
  | _ => []

/-- What it has still to write of it. -/
@[grind] def remaining : Writer → List UInt8
  | writing _ remaining | pushing _ remaining => remaining
  | _ => []

/-- The producers it is about to wake. -/
def wakes : Writer → List Nat
  | waking waiters | finishing waiters => waiters
  | _ => []

/-- Past its last lock. -/
@[grind] def past : Writer → Bool
  | finishing _ | ended => true
  | _ => false

/-- Past the loop after a write that failed. -/
@[grind] def hasFailed : Writer → Bool
  | leaving (some _) | shut (some _) => true
  | _ => false

/-- Past the loop because the queue was closed. -/
@[grind] def hasLeft : Writer → Bool
  | leaving none | shut none => true
  | _ => false

def notify : Writer → Writer
  | asleep _ => asleep true
  | writer => writer

section

variable (w : Writer)

@[simp, grind =] theorem notify_inHand : w.notify.inHand = w.inHand := by cases w <;> rfl

@[simp, grind =] theorem notify_remaining : w.notify.remaining = w.remaining := by cases w <;> rfl

@[simp, grind =] theorem notify_wakes : w.notify.wakes = w.wakes := by cases w <;> rfl

@[simp, grind =] theorem notify_past : w.notify.past = w.past := by cases w <;> rfl

@[simp, grind =] theorem notify_hasFailed : w.notify.hasFailed = w.hasFailed := by cases w <;> rfl

@[simp, grind =] theorem notify_hasLeft : w.notify.hasLeft = w.hasLeft := by cases w <;> rfl

theorem notify_asleep : w.notify ≠ asleep false := by cases w <;> exact nofun

theorem notify_shut (failed : Option Frame) : w.notify = shut failed ↔ w = shut failed := by
  cases w <;> simp [notify]

theorem notify_ended : w.notify = ended ↔ w = ended := by cases w <;> simp [notify]

end

end Writer

/-- A connection: its queue, the socket and the writer thread. The fields from `admitted` on are ghosts: the frames
admitted, the bytes written, whether an abort came before the writer was done or a write failed, and the wakers whose
last poll was pending and that no one has woken since. -/
structure Conn where
  frames : List Frame
  outstandingFrames : Nat
  outstandingBytes : Nat
  draining : Bool
  aborted : Bool
  done : Bool
  capacityWaiters : List Nat
  socketShut : Bool
  writer : Writer
  admitted : List Frame
  written : List UInt8
  cut : Bool
  owed : List Nat

/-- What a write to the socket answers. -/
inductive Sent where
  | ok (written : Nat)
  | interrupted
  | wouldBlock
  | failed

namespace Conn

def new : Conn where
  frames := []
  outstandingFrames := 0
  outstandingBytes := 0
  draining := false
  aborted := false
  done := false
  capacityWaiters := []
  socketShut := false
  writer := .taking
  admitted := []
  written := []
  cut := false
  owed := []

/-- No frame is admitted any more. -/
def refuses (q : Conn) : Bool := q.aborted || q.draining || q.done

/-- There is no room for a frame. -/
def full (l : Limits) (q : Conn) (frame : Frame) : Bool :=
  decide (l.frames ≤ q.outstandingFrames) || decide (l.bytes - q.outstandingBytes < frame.length)

/-- A frame is admitted; `notify_one` reaches the writer, or another thread on the condition variable (`stolen`). -/
def accept (q : Conn) (frame : Frame) (stolen : Bool) : Conn :=
  { q with
    outstandingFrames := q.outstandingFrames + 1
    outstandingBytes := q.outstandingBytes + frame.length
    frames := q.frames ++ [frame]
    writer := if stolen then q.writer else q.writer.notify
    admitted := q.admitted ++ [frame] }

/-- `Shared::poll_enqueue`. -/
def pollEnqueue (l : Limits) (q : Conn) (frame : Frame) (waker : Nat) (stolen : Bool) : Conn × Poll :=
  if q.refuses then (q, .ready (.error .closed))
  else if l.bytes < frame.length then (q, .ready (.error .frameTooLarge))
  else if q.full l frame then
    if waker ∈ q.capacityWaiters then ({ q with owed := waker :: q.owed }, .pending)
    else if l.frames ≤ q.capacityWaiters.length then (q, .ready (.error .tooManyWaiters))
    else ({ q with capacityWaiters := q.capacityWaiters ++ [waker], owed := waker :: q.owed }, .pending)
  else (q.accept frame stolen, .ready (.ok ()))

/-- The part of `Shared::enqueue` under the lock, and whether the frame overflowed the queue. -/
def enqueue (l : Limits) (q : Conn) (frame : Frame) (stolen : Bool) : Conn × Bool :=
  if q.refuses then (q, false)
  else if q.full l frame then
    ({ q with aborted := true, frames := [], writer := q.writer.notify, cut := true }, true)
  else (q.accept frame stolen, false)

/-- The part of `Shared::abort` under the lock, and the producers it has to wake. -/
def abort (q : Conn) : Conn × List Nat :=
  ({ q with
    aborted := true
    frames := []
    capacityWaiters := []
    writer := q.writer.notify
    cut := q.cut || !q.done }, q.capacityWaiters)

/-- `close` tells the connection to drain. -/
def drain (q : Conn) : Conn := { q with draining := true, writer := q.writer.notify }

def shutdown (q : Conn) : Conn := { q with socketShut := true }

/-- A producer is woken. -/
def wake (q : Conn) (waker : Nat) : Conn := { q with owed := q.owed.filter (· ≠ waker) }

/-- `write_frame` answers with an error. -/
def fail (q : Conn) (frame : Frame) : Conn := { q with writer := .leaving (some frame), cut := true }

/-- The next step of `run_writer`. -/
def write (q : Conn) (stalled : Bool) (sent : Sent) : Conn :=
  match q.writer with
  | .taking =>
      if q.frames = [] ∧ q.aborted = false ∧ q.draining = false then { q with writer := .asleep false }
      else if q.aborted then { q with writer := .leaving none }
      else match q.frames with
        | frame :: frames => { q with frames, writer := .writing frame frame }
        | [] => { q with writer := .leaving none }
  | .asleep _ => { q with writer := .taking }
  | .writing frame [] => { q with writer := .wrote frame }
  | .writing frame (byte :: remaining) =>
      if q.aborted then q.fail frame
      else if stalled then q.fail frame
      else { q with writer := .pushing frame (byte :: remaining) }
  | .pushing frame remaining =>
      match sent with
      | .ok 0 => q.fail frame
      | .ok (n + 1) => { q with
          written := q.written ++ remaining.take (n + 1), writer := .writing frame (remaining.drop (n + 1)) }
      | .interrupted => { q with writer := .writing frame remaining }
      | .wouldBlock => if stalled then q.fail frame else { q with writer := .writing frame remaining }
      | .failed => q.fail frame
  | .wrote frame => { q with
      outstandingFrames := q.outstandingFrames - 1
      outstandingBytes := q.outstandingBytes - frame.length
      capacityWaiters := []
      writer := .waking q.capacityWaiters }
  | .waking (waker :: waiters) => { q.wake waker with writer := .waking waiters }
  | .waking [] => { q with writer := .taking }
  | .leaving failed => { q.shutdown with writer := .shut failed }
  | .shut _ => { q with
      aborted := true
      frames := []
      outstandingFrames := 0
      outstandingBytes := 0
      done := true
      capacityWaiters := []
      writer := .finishing q.capacityWaiters }
  | .finishing (waker :: waiters) => { q.wake waker with writer := .finishing waiters }
  | .finishing [] => { q with writer := .ended }
  | .ended => q

/-- A producer that waits for room, or that the writer is about to wake. -/
def Holds (q : Conn) (waker : Nat) : Prop := waker ∈ q.capacityWaiters ∨ waker ∈ q.writer.wakes

/-- What a write can answer: no more than it was given. -/
def Answers (q : Conn) : Sent → Prop
  | .ok written =>
      match q.writer with
      | .pushing _ remaining => written ≤ min remaining.length CHUNK
      | _ => True
  | _ => True

instance (q : Conn) (sent : Sent) : Decidable (q.Answers sent) := by
  unfold Answers
  split
  · split <;> infer_instance
  · infer_instance

end Conn

/-! ### What each step keeps -/

structure Conn.Sound (l : Limits) (q : Conn) : Prop where
  order : q.written ++ q.writer.remaining <+: q.admitted.flatten
  whole : q.cut = false → q.admitted.flatten = q.written ++ q.writer.remaining ++ q.frames.flatten
  counts : q.aborted = false → q.outstandingFrames = (q.frames ++ q.writer.inHand).length ∧
    q.outstandingBytes = (q.frames ++ q.writer.inHand).flatten.length
  covered : q.writer.inHand.length ≤ q.outstandingFrames ∧ q.writer.inHand.flatten.length ≤ q.outstandingBytes
  within : q.outstandingFrames ≤ l.frames ∧ q.outstandingBytes ≤ l.bytes
  few : q.capacityWaiters.length ≤ l.frames
  needs : q.capacityWaiters ≠ [] → q.aborted = false → 0 < q.outstandingFrames
  cut_ : q.aborted = true → q.done = false → q.cut = true
  cutBy : q.cut = true → q.aborted = true ∨ q.writer.hasFailed = true
  emptied : q.aborted = true → q.frames = []
  failed : q.writer.hasFailed = true → q.cut = true
  left : q.writer.hasLeft = true → q.aborted = false → q.draining = true ∧ q.frames = []
  asleep : q.writer = .asleep false → q.frames = [] ∧ q.aborted = false ∧ q.draining = false
  past : q.done = q.writer.past
  closed : q.done = true → q.aborted = true ∧ q.capacityWaiters = [] ∧ q.socketShut = true
  shut_ : ∀ failed, q.writer = .shut failed → q.socketShut = true

namespace Conn.Sound

variable {l : Limits} {q : Conn}

theorem new : Conn.new.Sound l := by
  constructor <;> simp [Conn.new, Writer.inHand, Writer.remaining, Writer.hasFailed, Writer.hasLeft, Writer.past]

variable {frame : Frame}

section

variable (h : q.Sound l)
include h

theorem accept (open_ : q.refuses = false) (room : q.full l frame = false) :
    (q.accept frame false).Sound l := by
  have notify_asleep := q.writer.notify_asleep
  have past : (q.writer.notify).past = q.writer.past := q.writer.notify_past
  simp only [refuses, Bool.or_eq_false_iff] at open_
  simp only [full, Bool.or_eq_false_iff, decide_eq_false_iff_not, Nat.not_le, Nat.not_lt] at room
  obtain ⟨⟨aborted, draining⟩, done⟩ := open_
  have counts := h.counts aborted
  constructor
  case order =>
      obtain ⟨more, is⟩ := h.order
      exact ⟨more ++ frame, by simp [Conn.accept, ← is]⟩
  case whole =>
      intro uncut
      have whole := h.whole uncut
      simp [Conn.accept, whole]
  case counts =>
      intro _
      simp [Conn.accept, counts.1, counts.2]
      omega
  all_goals
    obtain ⟨-, -, -, covered, within, few, needs, cut_, cutBy, emptied, failed, left, asleep, over_, closed, shut_⟩ := h
    grind [Conn.accept, Writer.notify_shut]

/-- A producer is told to wait, or is sent away. -/
theorem pollEnqueue (frame : Frame) (waker : Nat) {stolen : Bool}
    (unstolen : stolen = true → q.draining = true) : (q.pollEnqueue l frame waker stolen).1.Sound l := by
  unfold Conn.pollEnqueue
  split
  · exact h
  rename_i open_
  have open_ := Bool.eq_false_iff.mpr open_
  have unrefused := open_
  simp only [refuses, Bool.or_eq_false_iff] at unrefused
  obtain ⟨⟨aborted, draining⟩, done⟩ := unrefused
  split
  · exact h
  rename_i fits
  split
  · rename_i full
    split
    · exact ⟨h.order, h.whole, h.counts, h.covered, h.within, h.few, h.needs, h.cut_, h.cutBy, h.emptied, h.failed, h.left,
        h.asleep, h.past, h.closed, h.shut_⟩
    split
    · exact h
    rename_i some_
    have needs : 0 < q.outstandingFrames := by
      simp only [Conn.full, Bool.or_eq_true, decide_eq_true_eq] at full
      obtain full | full := full
      · omega
      · -- bytes are outstanding, so a frame is
        have counts := h.counts aborted
        rw [counts.1]
        refine List.length_pos_of_ne_nil fun none_ => ?_
        rw [none_] at counts
        simp at counts
        omega
    refine ⟨h.order, h.whole, h.counts, h.covered, h.within, ?_, fun _ _ => needs, h.cut_, h.cutBy, h.emptied, h.failed, h.left,
        h.asleep, h.past, fun is => ?_, h.shut_⟩
    · simp
      omega
    · rw [done] at is
      cases is
  · rename_i room
    have room := Bool.eq_false_iff.mpr room
    cases stolen with
    | false => exact h.accept open_ room
    | true =>
        rw [unstolen rfl] at draining
        cases draining

theorem enqueue (frame : Frame) {stolen : Bool}
    (unstolen : stolen = true → q.draining = true) : (q.enqueue l frame stolen).1.Sound l := by
  unfold Conn.enqueue
  split
  · exact h
  rename_i open_
  have open_ := Bool.eq_false_iff.mpr open_
  split
  · simp only [refuses, Bool.or_eq_false_iff] at open_
    obtain ⟨order, whole, counts, covered, within, few, needs, cut_, cutBy, emptied, failed, left, asleep, past, closed,
    shut_⟩ := h
    have notify_asleep := q.writer.notify_asleep
    constructor
    all_goals grind [Writer.notify_shut]
  · rename_i room
    have room := Bool.eq_false_iff.mpr room
    cases stolen with
    | false => exact h.accept open_ room
    | true =>
        simp [refuses, unstolen rfl] at open_

theorem abort : q.abort.1.Sound l := by
  obtain ⟨order, whole, counts, covered, within, few, needs, cut_, cutBy, emptied, failed, left, asleep, past, closed,
    shut_⟩ := h
  have notify_asleep := q.writer.notify_asleep
  unfold Conn.abort
  constructor
  all_goals grind [Writer.notify_shut]

theorem drain : q.drain.Sound l := by
  obtain ⟨order, whole, counts, covered, within, few, needs, cut_, cutBy, emptied, failed, left, asleep, past, closed,
    shut_⟩ := h
  have notify_asleep := q.writer.notify_asleep
  unfold Conn.drain
  constructor
  all_goals grind [Writer.notify_shut]

theorem shutdown : q.shutdown.Sound l :=
  ⟨h.order, h.whole, h.counts, h.covered, h.within, h.few, h.needs, h.cut_, h.cutBy, h.emptied, h.failed, h.left,
    h.asleep, h.past, fun is => ⟨(h.closed is).1, (h.closed is).2.1, rfl⟩, fun _ _ => rfl⟩

theorem wake (waker : Nat) : (q.wake waker).Sound l :=
  ⟨h.order, h.whole, h.counts, h.covered, h.within, h.few, h.needs, h.cut_, h.cutBy, h.emptied, h.failed, h.left,
    h.asleep, h.past, h.closed, h.shut_⟩

/-- A frame whose write fails is counted until the writer's last lock. -/
theorem fail (is : q.writer.inHand = [frame]) (not_ : q.writer.past = false) : (q.fail frame).Sound l := by
  obtain ⟨order, whole, counts, covered, within, few, needs, cut_, cutBy, emptied, failed, left, asleep, past, closed,
    shut_⟩ := h
  have upTo : q.written <+: q.admitted.flatten := (List.prefix_append _ _).trans order
  unfold Conn.fail
  constructor
  all_goals grind

/-- The writer goes on with the same frame, and nothing else changes. -/
theorem goes {w w' : Writer} (is : q.writer = w) (inHand : w'.inHand = w.inHand)
    (remaining : w'.remaining = w.remaining) (failed : w'.hasFailed = w.hasFailed) (past : w'.past = w.past)
    (left : w'.hasLeft = true → q.aborted = false → q.draining = true ∧ q.frames = [])
    (asleep : w' = .asleep false → q.frames = [] ∧ q.aborted = false ∧ q.draining = false)
    (shut_ : ∀ failed, w' = .shut failed → q.socketShut = true) : Conn.Sound l { q with writer := w' } where
  order := by
    dsimp only
    rw [remaining, ← is]
    exact h.order
  whole := by
    dsimp only
    rw [remaining, ← is]
    exact h.whole
  counts := by
    dsimp only
    rw [inHand, ← is]
    exact h.counts
  covered := by
    dsimp only
    rw [inHand, ← is]
    exact h.covered
  within := h.within
  few := h.few
  needs := h.needs
  cut_ := h.cut_
  cutBy := by
    dsimp only
    rw [failed, ← is]
    exact h.cutBy
  emptied := h.emptied
  failed := by
    dsimp only
    rw [failed, ← is]
    exact h.failed
  left := left
  asleep := asleep
  past := by
    dsimp only
    rw [past, ← is]
    exact h.past
  closed := h.closed
  shut_ := shut_

/-- The frame at the front goes to the writer. -/
theorem takes (is : q.writer = .taking) (aborted : q.aborted = false) {frames : List Frame}
    (queue : q.frames = frame :: frames) : Conn.Sound l { q with frames, writer := .writing frame frame } := by
  have uncut : q.cut = false := by
    have := h.cutBy
    grind
  have whole := h.whole uncut
  rw [is, queue] at whole
  obtain ⟨-, -, counts, covered, within, few, needs, cut_, cutBy, emptied, failed, left, asleep, past, closed,
    shut_⟩ := h
  constructor
  case order => exact ⟨frames.flatten, by simpa [Writer.remaining] using whole.symm⟩
  all_goals grind

/-- Bytes of the frame reach the socket. -/
theorem sends {remaining : Frame} (is : q.writer = .pushing frame remaining) (n : Nat) :
    Conn.Sound l { q with
      written := q.written ++ remaining.take n, writer := .writing frame (remaining.drop n) } := by
  have split_ : remaining.take n ++ remaining.drop n = remaining := List.take_append_drop _ _
  obtain ⟨order, whole, counts, covered, within, few, needs, cut_, cutBy, emptied, failed, left, asleep, past, closed,
    shut_⟩ := h
  constructor
  all_goals grind

/-- A frame was written: its room is free again, and the producers that waited are in the writer's hand. -/
theorem releases (is : q.writer = .wrote frame) : Conn.Sound l { q with
      outstandingFrames := q.outstandingFrames - 1
      outstandingBytes := q.outstandingBytes - frame.length
      capacityWaiters := []
      writer := .waking q.capacityWaiters } := by
  obtain ⟨order, whole, counts, covered, within, few, needs, cut_, cutBy, emptied, failed, left, asleep, past, closed,
    shut_⟩ := h
  constructor
  all_goals grind

/-- The writer's last lock. -/
theorem ends {failed_ : Option Frame} (is : q.writer = .shut failed_) :
    Conn.Sound l { q with
      aborted := true
      frames := []
      outstandingFrames := 0
      outstandingBytes := 0
      done := true
      capacityWaiters := []
      writer := .finishing q.capacityWaiters } := by
  obtain ⟨order, whole, counts, covered, within, few, needs, cut_, cutBy, emptied, failed, left, asleep, past, closed,
    shut_⟩ := h
  constructor
  case whole =>
      intro uncut
      have none_ : q.frames = [] := by
        cases failed_ with
        | none =>
            by_cases aborted : q.aborted = true
            · exact emptied aborted
            · exact (left (by rw [is]; rfl) (Bool.eq_false_iff.mpr aborted)).2
        | some frame =>
            have cut := failed (by rw [is]; rfl)
            rw [show q.cut = false from uncut] at cut
            cases cut
      have whole := whole uncut
      rw [is, none_] at whole
      exact whole
  all_goals grind

theorem write (stalled : Bool) (sent : Sent) : (q.write stalled sent).Sound l := by
  unfold Conn.write
  cases is : q.writer with
  | taking =>
      dsimp only
      split
      · rename_i sleeps
        exact h.goes is rfl rfl rfl rfl nofun (fun _ => sleeps) nofun
      rename_i wakes
      split
      · rename_i aborted
        exact h.goes is rfl rfl rfl rfl (fun _ not_ => absurd aborted (by rw [not_]; exact nofun)) nofun nofun
      rename_i unaborted
      split
      · rename_i queue
        exact h.takes is (Bool.eq_false_iff.mpr unaborted) queue
      · rename_i queue
        refine h.goes is rfl rfl rfl rfl (fun _ not_ => ⟨?_, queue⟩) nofun nofun
        grind
  | asleep notified => exact h.goes is rfl rfl rfl rfl nofun nofun nofun
  | writing frame remaining =>
      cases remaining with
      | nil => exact h.goes is rfl rfl rfl rfl nofun nofun nofun
      | cons byte remaining =>
          dsimp only
          split
          · exact h.fail (by rw [is]; rfl) (by rw [is]; rfl)
          split
          · exact h.fail (by rw [is]; rfl) (by rw [is]; rfl)
          · exact h.goes is rfl rfl rfl rfl nofun nofun nofun
  | pushing frame remaining =>
      cases sent with
      | ok n =>
          cases n with
          | zero => exact h.fail (by rw [is]; rfl) (by rw [is]; rfl)
          | succ n => exact h.sends is (n + 1)
      | wouldBlock =>
          dsimp only
          split
          · exact h.fail (by rw [is]; rfl) (by rw [is]; rfl)
          · exact h.goes is rfl rfl rfl rfl nofun nofun nofun
      | interrupted => exact h.goes is rfl rfl rfl rfl nofun nofun nofun
      | failed => exact h.fail (by rw [is]; rfl) (by rw [is]; rfl)
  | wrote frame => exact h.releases is
  | waking waiters =>
      cases waiters with
      | nil => exact h.goes is rfl rfl rfl rfl nofun nofun nofun
      | cons waker waiters => exact (h.wake waker).goes is rfl rfl rfl rfl nofun nofun nofun
  | leaving failed =>
      have failed_ := h.failed
      cases failed with
      | none =>
          refine h.shutdown.goes is rfl rfl rfl rfl (fun _ => h.left (by rw [is]; rfl)) nofun fun _ _ => rfl
      | some frame => exact h.shutdown.goes is rfl rfl rfl rfl nofun nofun fun _ _ => rfl
  | shut failed => exact h.ends is
  | finishing waiters =>
      cases waiters with
      | nil => exact h.goes is rfl rfl rfl rfl nofun nofun nofun
      | cons waker waiters => exact (h.wake waker).goes is rfl rfl rfl rfl nofun nofun nofun
  | ended => exact h

end

end Conn.Sound

/-- What a step of a connection leaves as it was, whoever takes it: `given` are the producers that the thread which
takes it has to wake, `woken` is the one it wakes. -/
structure Conn.Step (q q' : Conn) (given : List Nat) (woken : Option Nat) : Prop where
  draining : q.draining = true → q'.draining = true
  aborted : q.aborted = true → q'.aborted = true
  done : q.done = true → q'.done = true
  ended : q.writer = .ended → q'.writer = .ended
  owed : ∀ k ∈ q'.owed, q'.Holds k ∨ k ∈ given ∨ k ∈ q.owed ∧ ¬q.Holds k ∧ some k ≠ woken
  waits : q.aborted = true → ∀ k ∈ q'.capacityWaiters, k ∈ q.capacityWaiters
  admits : q.refuses = true → q'.admitted = q.admitted
  released : q'.outstandingFrames < q.outstandingFrames ∨ q'.outstandingBytes < q.outstandingBytes →
    q'.capacityWaiters = []

namespace Conn.Step

variable {l : Limits} {q : Conn}

section

variable (q : Conn)

theorem refl : q.Step q [] none := by
  constructor
  all_goals grind

theorem accept (open_ : q.refuses = false) (frame : Frame) (stolen : Bool) :
    q.Step (q.accept frame stolen) [] none := by
  have ended := q.writer.notify_ended
  unfold Conn.accept
  constructor
  all_goals grind [Conn.Holds]

theorem pollEnqueue (frame : Frame) (waker : Nat) (stolen : Bool) :
    q.Step (q.pollEnqueue l frame waker stolen).1 [] none := by
  unfold Conn.pollEnqueue
  split
  · exact refl q
  rename_i open_
  have unrefused := Bool.eq_false_iff.mpr open_
  split
  · exact refl q
  split
  · split
    · constructor
      all_goals grind [Conn.Holds]
    split
    · exact refl q
    · simp only [refuses, Bool.or_eq_false_iff] at unrefused
      constructor
      all_goals grind [Conn.Holds]
  · exact accept q unrefused frame stolen

theorem enqueue (frame : Frame) (stolen : Bool) : q.Step (q.enqueue l frame stolen).1 [] none := by
  unfold Conn.enqueue
  split
  · exact refl q
  rename_i open_
  split
  · have ended := q.writer.notify_ended
    constructor
    all_goals grind [Conn.Holds]
  · exact accept q (Bool.eq_false_iff.mpr open_) frame stolen

theorem abort : q.Step q.abort.1 q.abort.2 none := by
  have ended := q.writer.notify_ended
  unfold Conn.abort
  constructor
  all_goals grind [Conn.Holds]

theorem drain : q.Step q.drain [] none := by
  have ended := q.writer.notify_ended
  unfold Conn.drain
  constructor
  all_goals grind [Conn.Holds]

theorem shutdown : q.Step q.shutdown [] none := by
  unfold Conn.shutdown
  constructor
  all_goals grind [Conn.Holds]

theorem wake (waker : Nat) : q.Step (q.wake waker) [] (some waker) := by
  unfold Conn.wake
  constructor
  all_goals grind [Conn.Holds]

theorem fail (frame : Frame) (is : q.writer.wakes = []) (going : q.writer ≠ .ended) :
    q.Step (q.fail frame) [] none := by
  unfold Conn.fail
  constructor
  all_goals grind [Conn.Holds]

/-- The writer goes on with the same producers to wake. -/
theorem goes {w w' : Writer} (is : q.writer = w) (same : w'.wakes = w.wakes) (going : w ≠ .ended) :
    q.Step { q with writer := w' } [] none := by
  constructor
  all_goals grind [Conn.Holds]

theorem write (stalled : Bool) (sent : Sent) : q.Step (q.write stalled sent) [] none := by
  unfold Conn.write
  cases is : q.writer with
  | taking =>
      dsimp only
      split
      · exact goes q is rfl nofun
      split
      · exact goes q is rfl nofun
      split
      · constructor
        all_goals grind [Conn.Holds, Writer.wakes]
      · exact goes q is rfl nofun
  | asleep notified => exact goes q is rfl nofun
  | writing frame remaining =>
      cases remaining with
      | nil => exact goes q is rfl nofun
      | cons byte remaining =>
          dsimp only
          split
          · exact fail q frame (by rw [is]; rfl) (by rw [is]; exact nofun)
          split
          · exact fail q frame (by rw [is]; rfl) (by rw [is]; exact nofun)
          · exact goes q is rfl nofun
  | pushing frame remaining =>
      cases sent with
      | ok n =>
          cases n with
          | zero => exact fail q frame (by rw [is]; rfl) (by rw [is]; exact nofun)
          | succ n =>
              constructor
              all_goals grind [Conn.Holds, Writer.wakes]
      | wouldBlock =>
          dsimp only
          split
          · exact fail q frame (by rw [is]; rfl) (by rw [is]; exact nofun)
          · exact goes q is rfl nofun
      | interrupted => exact goes q is rfl nofun
      | failed => exact fail q frame (by rw [is]; rfl) (by rw [is]; exact nofun)
  | wrote frame | shut failed =>
      constructor
      all_goals grind [Conn.Holds, Writer.wakes]
  | waking waiters | finishing waiters =>
      cases waiters with
      | nil => exact goes q is rfl nofun
      | cons waker waiters =>
          constructor
          all_goals grind [Conn.Holds, Conn.wake, Writer.wakes]
  | leaving failed =>
      constructor
      all_goals grind [Conn.Holds, Conn.shutdown, Writer.wakes]
  | ended =>
      constructor
      all_goals grind [Conn.Holds]

end

end Conn.Step

/-- The writer aborts the connection only where it takes the producers that wait. -/
theorem Conn.write_aborts (q : Conn) (stalled : Bool) (sent : Sent) (aborted : (q.write stalled sent).aborted = true)
    (waits : (q.write stalled sent).capacityWaiters ≠ []) : q.aborted = true := by
  unfold Conn.write Conn.fail Conn.wake Conn.shutdown at *
  grind

end Khor.Fanout
