/-
Module: Khor.Acp.EventInvariant
Purpose: What holds of the event store at every moment, and that producers, fences and failures keep it.
Trusted boundary: none
Main exports: Inv, Aside, Inv.aside, Inv.cancel, Inv.run
-/
import Khor.Acp.EventStore

namespace Khor.Acp.EventStore

section Invariant

variable {N Q : Type} {x : Externals N} {w w' : World N Q}

/-- The record of an accepted event, under its number. -/
def Genuine (x : Externals N) (log : List (Event N Q)) (record : Record) : Prop :=
  ∃ event, 0 < record.sequence ∧ log[record.sequence - 1]? = some event ∧
    record = recordOf x record.sequence event

def GenuineItem (x : Externals N) (log : List (Event N Q)) (item : Queued N Q) : Prop :=
  ∃ event, 0 < item.record.sequence ∧ log[item.record.sequence - 1]? = some event ∧
    item = queuedOf x item.record.sequence event

/-- The number of the last event, where the source has closed. -/
def State.terminal (state : State N Q) : Option Nat := state.end.bind SourceEnd.eventSequence

/-- A progress that someone has seen. -/
def Seen (w : World N Q) (progress : Progress) : Prop :=
  progress.written ≤ w.state.written ∧
    (progress.failed = none → ∀ k, w.failedAt = some k → progress.written ≤ k)

/-- Every record in the spool is published as written. -/
def Synced (w : World N Q) : Prop := w.spool.records.length ≤ w.state.written

/-- What was read is delivered, or stands in the slot. -/
def ReadOk (w : World N Q) : Prop :=
  w.spool.read = w.state.delivered + if w.state.output.isSome then 1 else 0

def EndOk (w : World N Q) : WorkerEnd → Prop
  | .source end_ => w.state.end = some end_ ∧ end_.confirmed = true ∧
      (∀ s, end_.eventSequence = some s → s ≤ w.state.written) ∧
      w.state.delivered = w.log.length ∧ w.state.output = none
  | .cancelled => w.state.failed.isSome
  | .failed _ => True

/-- An event under its number, written. -/
def Placed (w : World N Q) (sequence : Nat) (event : Event N Q) : Prop :=
  0 < sequence ∧ sequence ≤ w.state.written ∧ w.log[sequence - 1]? = some event

def WorkerOk (x : Externals N) (w : World N Q) : Worker N Q → Prop
  | .starting => Synced w ∧ ReadOk w
  | .abandoned => Synced w ∧ ReadOk w
  | .next _ => Synced w ∧ ReadOk w
  | .reading => Synced w ∧ ReadOk w ∧ w.state.output = none
  | .writing item => Synced w ∧ ReadOk w ∧ GenuineItem x w.log item
  | .appended item => item.record.sequence = w.spool.records.length ∧ GenuineItem x w.log item ∧
      w.state.written < item.record.sequence ∧ ReadOk w
  | .terminal sequence _ => Synced w ∧ ReadOk w ∧ w.state.terminal = some sequence ∧
      w.log.length ≤ w.spool.records.length ∧ w.state.written ≤ sequence
  | .decoding record => Synced w ∧ Genuine x w.log record ∧ record.sequence ≤ w.state.written ∧
      record.sequence = w.state.delivered + 1 ∧ w.spool.read = w.state.delivered + 1 ∧
      w.state.output = none
  | .placing output => Synced w ∧ ∃ s, output.sequence = some s ∧ Placed w s output.event ∧
      s = w.state.delivered + 1 ∧ w.spool.read = w.state.delivered + 1 ∧ w.state.output = none
  | .merging progress next => Seen w progress ∧ WorkerOk x w next
  | .completing end_ => EndOk w end_
  | .emptying end_ => EndOk w end_
  | .cleaning end_ => EndOk w end_
  | .reporting end_ resource => EndOk w end_ ∧
      (resource = .ok () → (closing (N := N) (Q := Q) end_).1 = .ok ())
  | .ended => True

/-- The worker has reported. -/
def Worker.past : Worker N Q → Bool
  | .ended => true
  | .merging _ after => after.past
  | _ => false

def TaskOk (w : World N Q) : Task N Q → Prop
  | .enqueue event => event.isClosed = false ∧ ∀ s, event ≠ .ready s
  | .merge progress => Seen w progress
  | .watch through before => before ≤ through ∧ before ≤ w.log.length
  | _ => True

/-- The slot holds the next event, the last one, or that of a failure. -/
def OutputOk (w : World N Q) (output : Output N Q) : Prop :=
  match output.sequence with
  | some s => s = w.state.delivered + 1 ∧ (Placed w s output.event ∨
      (output.event.isClosed = true ∧ w.state.done = true ∧ w.state.terminal = some s ∧ s ≤ w.state.written))
  | none => output.event.isClosed = true ∧ w.state.done = true ∧ w.state.failed.isSome

/-- What the receiver was handed. -/
def HandedOk (w : World N Q) : Prop :=
  (w.handed = w.log.take w.state.delivered ∧ w.state.delivered ≤ w.log.length) ∨
    ((w.receiver = .ended ∨ w.receiver = .dropped) ∧ ∃ k error, k ≤ w.log.length ∧
      w.handed = w.log.take k ++ [.closed error] ∧
      (w.state.failed = none → k = w.log.length ∧ w.state.end.isSome))

/-- What a passed watch had waited for is on the disk, and was before anything failed. -/
def PassedOk (w : World N Q) (p : Passed) : Prop :=
  p.before ≤ p.through ∧ p.before ≤ w.spool.records.length ∧ p.through ≤ w.state.written ∧
    ∀ k, w.failedAt = some k → p.through ≤ k

structure Inv (x : Externals N) (w : World N Q) : Prop where
  ends : ∀ e, w.state.end = some e → e.dataThrough = w.log.length ∧
    ∀ s, e.eventSequence = some s → s = w.log.length + 1
  accepted : w.state.accepted = w.state.terminal.getD w.log.length
  plain : ∀ event ∈ w.log, event.isClosed = false
  session : ∀ s, Event.ready s ∈ w.log → w.state.session = some s
  spool : ∀ i record, w.spool.records[i]? = some record → record.sequence = i + 1 ∧ Genuine x w.log record
  read : w.spool.read ≤ w.spool.records.length
  queue : ∀ item ∈ w.state.queue, GenuineItem x w.log item
  interactions : ∀ k event, (k, event) ∈ w.interactions → 0 < k ∧ w.log[k - 1]? = some event
  written : w.state.written ≤ w.spool.records.length ∨
    (w.log.length ≤ w.spool.records.length ∧ w.state.terminal = some w.state.written)
  delivered : w.state.delivered ≤ w.state.written
  output : ∀ output, w.state.output = some output → OutputOk w output
  handed : HandedOk w
  polling : w.receiver = .polling →
    w.handed = w.log.take w.state.delivered ∧ w.state.delivered ≤ w.log.length
  unfailing : ∀ e, w.receiver ≠ .failing e
  cancelled : w.cancelled = true → w.state.failed.isSome
  failedAt : w.failedAt.isSome = w.state.failed.isSome
  failedAt_le : ∀ k, w.failedAt = some k → k ≤ w.state.written
  done : w.state.done = true → w.worker.past = true
  worker : WorkerOk x w w.worker
  progress : Seen w w.progress
  threads : ∀ thread ∈ w.threads, ∀ task ∈ thread, TaskOk w task
  passed : ∀ p ∈ w.passed, PassedOk w p

theorem Inv.init : Inv x (.init : World N Q) where
  ends := nofun
  accepted := rfl
  plain := nofun
  session := nofun
  spool := nofun
  read := Nat.le_refl 0
  queue := nofun
  interactions := nofun
  written := .inl (Nat.le_refl 0)
  delivered := Nat.le_refl 0
  output := nofun
  handed := .inl ⟨rfl, Nat.le_refl 0⟩
  polling _ := ⟨rfl, Nat.le_refl 0⟩
  unfailing := nofun
  cancelled := nofun
  failedAt := rfl
  failedAt_le := nofun
  done := nofun
  worker := ⟨Nat.le_refl 0, rfl⟩
  progress := ⟨Nat.le_refl 0, fun _ => nofun⟩
  threads := nofun
  passed := nofun

/-- There are no more records than accepted events. -/
theorem Inv.spool_le (inv : Inv x w) : w.spool.records.length ≤ w.log.length := by
  cases h : w.spool.records.length with
  | zero => exact Nat.zero_le _
  | succ n =>
      have there : w.spool.records[n]? = some w.spool.records[n] := List.getElem?_eq_getElem (by omega)
      obtain ⟨number, event, _, at_, _⟩ := inv.spool n _ there
      rw [number, Nat.add_sub_cancel] at at_
      have := (List.getElem?_eq_some_iff.1 at_).1
      omega

/-- Never more delivered than written, nor written than accepted. -/
theorem Inv.counts (inv : Inv x w) : w.state.delivered ≤ w.state.written ∧
    w.state.written ≤ w.state.accepted := by
  refine ⟨inv.delivered, ?_⟩
  have small := inv.spool_le
  rw [inv.accepted]
  rcases inv.written with le | ⟨_, terminal⟩
  · cases terminal : w.state.terminal with
    | none =>
        simp only [Option.getD_none]
        omega
    | some s =>
        obtain ⟨e, is_, number⟩ := Option.bind_eq_some_iff.1 terminal
        have := (inv.ends e is_).2 s number
        simp only [Option.getD_some]
        omega
  · rw [terminal]
    simp

/-! ### What lasts -/

theorem getElem?_of_prefix {α : Type} {l l' : List α} (grown : l <+: l') {i : Nat} {a : α}
    (at_ : l[i]? = some a) : l'[i]? = some a := by
  obtain ⟨small, rfl⟩ := List.getElem?_eq_some_iff.1 at_
  exact List.prefix_iff_getElem?.1 grown i small

theorem Genuine.mono {log log' : List (Event N Q)} {record : Record} (h : Genuine x log record)
    (grown : log <+: log') : Genuine x log' record := by
  obtain ⟨event, pos, at_, same⟩ := h
  exact ⟨event, pos, getElem?_of_prefix grown at_, same⟩

theorem GenuineItem.mono {log log' : List (Event N Q)} {item : Queued N Q}
    (h : GenuineItem x log item) (grown : log <+: log') : GenuineItem x log' item := by
  obtain ⟨event, pos, at_, same⟩ := h
  exact ⟨event, pos, getElem?_of_prefix grown at_, same⟩

theorem GenuineItem.record {log : List (Event N Q)} {item : Queued N Q} (h : GenuineItem x log item) :
    Genuine x log item.record := by
  obtain ⟨event, pos, at_, same⟩ := h
  exact ⟨event, pos, at_, congrArg Queued.record same⟩

/-- A failure that is recorded, if any, is recorded now or was before. -/
def FailedSince (w w' : World N Q) : Prop :=
  w'.failedAt = w.failedAt ∨ (w.failedAt = none ∧ w'.failedAt = some w.state.written)

theorem Seen.later {progress : Progress} (h : Seen w progress)
    (written : w.state.written ≤ w'.state.written) (failed : FailedSince w w') : Seen w' progress := by
  refine ⟨Nat.le_trans h.1 written, fun none_ k at_ => ?_⟩
  rcases failed with same | ⟨_, now⟩
  · exact h.2 none_ k (same ▸ at_)
  · rw [now] at at_
    cases at_
    exact h.1

theorem Seen.merge {p q : Progress} (one : Seen w p) (two : Seen w q) : Seen w (p.merge q) := by
  refine ⟨Nat.max_le.2 ⟨one.1, two.1⟩, fun none_ k at_ => ?_⟩
  have both : p.failed = none ∧ q.failed = none := by simpa [Progress.merge] using none_
  exact Nat.max_le.2 ⟨one.2 both.1 k at_, two.2 both.2 k at_⟩

/-- What a step of a producer, a fence or the receiver leaves of the world. -/
structure Aside (w w' : World N Q) : Prop where
  spool : w'.spool = w.spool
  worker : w'.worker = w.worker
  interactions : w'.interactions = w.interactions
  written : w'.state.written = w.state.written
  done : w'.state.done = w.state.done
  log : w.log <+: w'.log
  fixed : w.state.end.isSome → w'.log = w.log
  terminal : ∀ s, w.state.terminal = some s → w'.state.terminal = some s
  confirmed : ∀ e, w.state.end = some e → e.confirmed = true → w'.state.end = some e
  failed : w.state.failed.isSome → w'.state.failed.isSome
  failedAt : FailedSince w w'
  slot : w.state.done = true ∨
    (w'.state.delivered = w.state.delivered ∧ w'.state.output = w.state.output) ∨
    (w.state.output.isSome ∧ w'.state.output = none ∧ w'.state.delivered = w.state.delivered + 1)

section

variable (aside : Aside w w')
include aside

theorem Aside.seen {progress : Progress} (h : Seen w progress) : Seen w' progress :=
  h.later (Nat.le_of_eq aside.written.symm) aside.failedAt

theorem Aside.placed {s : Nat} {event : Event N Q} (h : Placed w s event) : Placed w' s event :=
  ⟨h.1, aside.written ▸ h.2.1, getElem?_of_prefix aside.log h.2.2⟩

theorem Aside.synced (h : Synced w) : Synced w' := by
  unfold Synced
  rw [aside.spool, aside.written]
  exact h

/-- An empty slot stays empty until the worker fills it. -/
theorem Aside.empty (live : w.state.done = false) (none_ : w.state.output = none) :
    w'.state.delivered = w.state.delivered ∧ w'.state.output = none := by
  rcases aside.slot with done | ⟨delivered, output⟩ | ⟨some_, _⟩
  · rw [live] at done
    cases done
  · exact ⟨delivered, output.trans none_⟩
  · rw [none_] at some_
    cases some_

theorem Aside.readOk (live : w.state.done = false) (h : ReadOk w) : ReadOk w' := by
  unfold ReadOk at h ⊢
  rw [aside.spool]
  rcases aside.slot with done | ⟨delivered, output⟩ | ⟨some_, none_, delivered⟩
  · rw [live] at done
    cases done
  · rw [delivered, output]
    exact h
  · rw [if_pos some_] at h
    simp [none_, delivered, h]

theorem Aside.endOk (live : w.state.done = false) {end_ : WorkerEnd} (h : EndOk w end_) : EndOk w' end_ := by
  cases end_ with
  | source e =>
      obtain ⟨is_, confirmed, number, delivered, none_⟩ := h
      obtain ⟨same, still⟩ := aside.empty live none_
      refine ⟨aside.confirmed e is_ confirmed, confirmed, fun s at_ => aside.written ▸ number s at_, ?_, still⟩
      rw [same, delivered, aside.fixed (by rw [is_]; rfl)]
  | cancelled => exact aside.failed h
  | failed => trivial

end

theorem terminal_end {s : Nat} (h : w.state.terminal = some s) : w.state.end.isSome := by
  obtain ⟨e, is_, _⟩ := Option.bind_eq_some_iff.1 h
  rw [is_]
  rfl

section

variable (aside : Aside w w')
include aside

theorem Aside.workerOk {worker : Worker N Q} (past : w.state.done = true → worker.past = true)
    (h : WorkerOk x w worker) : WorkerOk x w' worker := by
  have live : worker.past = false → w.state.done = false := fun not_past => by
    cases done : w.state.done with
    | false => rfl
    | true =>
        rw [past done] at not_past
        cases not_past
  induction worker with
  | starting | next => exact ⟨aside.synced h.1, aside.readOk (live rfl) h.2⟩
  | writing item => exact ⟨aside.synced h.1, aside.readOk (live rfl) h.2.1, h.2.2.mono aside.log⟩
  | appended item =>
      exact ⟨aside.spool ▸ h.1, h.2.1.mono aside.log, aside.written ▸ h.2.2.1, aside.readOk (live rfl) h.2.2.2⟩
  | terminal sequence preferRead =>
      obtain ⟨synced, read, terminal, all, le⟩ := h
      refine ⟨aside.synced synced, aside.readOk (live rfl) read, aside.terminal _ terminal, ?_,
        aside.written ▸ le⟩
      rw [aside.fixed (terminal_end terminal), aside.spool]
      exact all
  | reading =>
      exact ⟨aside.synced h.1, aside.readOk (live rfl) h.2.1, (aside.empty (live rfl) h.2.2).2⟩
  | decoding record =>
      obtain ⟨synced, genuine, written, number, read, none_⟩ := h
      obtain ⟨same, still⟩ := aside.empty (live rfl) none_
      exact ⟨aside.synced synced, genuine.mono aside.log, aside.written ▸ written, same ▸ number,
        by rw [aside.spool, same]; exact read, still⟩
  | placing output =>
      obtain ⟨synced, s, number, placed, next_, read, none_⟩ := h
      obtain ⟨same, still⟩ := aside.empty (live rfl) none_
      exact ⟨aside.synced synced, s, number, aside.placed placed, same ▸ next_,
        by rw [aside.spool, same]; exact read, still⟩
  | abandoned => exact ⟨aside.synced h.1, aside.readOk (live rfl) h.2⟩
  | merging progress next ih => exact ⟨aside.seen h.1, ih past h.2 live⟩
  | completing | emptying | cleaning => exact aside.endOk (live rfl) h
  | reporting => exact ⟨aside.endOk (live rfl) h.1, h.2⟩
  | ended => trivial

theorem Aside.taskOk {task : Task N Q} (h : TaskOk w task) : TaskOk w' task := by
  cases task with
  | merge progress => exact aside.seen h
  | watch through before => exact ⟨h.1, Nat.le_trans h.2 aside.log.length_le⟩
  | enqueue event => exact h
  | _ => trivial

theorem Aside.outputOk (same : w'.state.delivered = w.state.delivered)
    {output : Output N Q} (h : OutputOk w output) : OutputOk w' output := by
  unfold OutputOk at h ⊢
  split at h
  · obtain ⟨number, which⟩ := h
    refine ⟨same ▸ number, ?_⟩
    rcases which with placed | ⟨closed, done, terminal, le⟩
    · exact .inl (aside.placed placed)
    · exact .inr ⟨closed, aside.done ▸ done, aside.terminal _ terminal, aside.written ▸ le⟩
  · exact ⟨h.1, aside.done ▸ h.2.1, aside.failed h.2.2⟩

theorem Aside.passed {p : Passed} (h : PassedOk w p) : PassedOk w' p := by
  unfold PassedOk
  rw [aside.spool, aside.written]
  refine ⟨h.1, h.2.1, h.2.2.1, fun k at_ => ?_⟩
  rcases aside.failedAt with same | ⟨_, now⟩
  · exact h.2.2.2 k (same ▸ at_)
  · rw [now] at at_
    cases at_
    exact h.2.2.1

theorem Aside.tasks (inv : Inv x w) : ∀ thread ∈ w.threads, ∀ task ∈ thread, TaskOk w' task :=
  fun thread mem task mem' => aside.taskOk (inv.threads thread mem task mem')

theorem Aside.watches (inv : Inv x w) : ∀ p ∈ w.passed, PassedOk w' p :=
  fun p mem => aside.passed (inv.passed p mem)

end

/-- A step beside the worker keeps the invariant, where it keeps what it changes. -/
theorem Inv.aside (inv : Inv x w) (aside : Aside w w')
    (ends : ∀ e, w'.state.end = some e → e.dataThrough = w'.log.length ∧
      ∀ s, e.eventSequence = some s → s = w'.log.length + 1)
    (accepted : w'.state.accepted = w'.state.terminal.getD w'.log.length)
    (plain : ∀ event ∈ w'.log, event.isClosed = false)
    (session : ∀ s, Event.ready s ∈ w'.log → w'.state.session = some s)
    (queue : ∀ item ∈ w'.state.queue, GenuineItem x w'.log item)
    (delivered : w'.state.delivered ≤ w'.state.written)
    (output : ∀ output, w'.state.output = some output → OutputOk w' output) (handed : HandedOk w')
    (polling : w'.receiver = .polling →
      w'.handed = w'.log.take w'.state.delivered ∧ w'.state.delivered ≤ w'.log.length)
    (unfailing : ∀ e, w'.receiver ≠ .failing e) (cancelled : w'.cancelled = true → w'.state.failed.isSome)
    (failedAt : w'.failedAt.isSome = w'.state.failed.isSome) (progress : Seen w' w'.progress)
    (threads : ∀ thread ∈ w'.threads, ∀ task ∈ thread, TaskOk w' task) (passed : ∀ p ∈ w'.passed, PassedOk w' p) :
    Inv x w' where
  ends := ends
  accepted := accepted
  plain := plain
  session := session
  spool i record at_ := by
    obtain ⟨number, genuine⟩ := inv.spool i record (aside.spool ▸ at_)
    exact ⟨number, genuine.mono aside.log⟩
  read := aside.spool ▸ inv.read
  queue := queue
  interactions k event mem := by
    obtain ⟨pos, at_⟩ := inv.interactions k event (aside.interactions ▸ mem)
    exact ⟨pos, getElem?_of_prefix aside.log at_⟩
  written := by
    rw [aside.written, aside.spool]
    rcases inv.written with le | ⟨all, terminal⟩
    · exact .inl le
    · exact .inr ⟨by rw [aside.fixed (terminal_end terminal)]; exact all, aside.terminal _ terminal⟩
  delivered := delivered
  output := output
  handed := handed
  polling := polling
  unfailing := unfailing
  cancelled := cancelled
  failedAt := failedAt
  failedAt_le k at_ := by
    rw [aside.written]
    rcases aside.failedAt with same | ⟨_, now⟩
    · exact inv.failedAt_le k (same ▸ at_)
    · rw [now] at at_
      cases at_
      exact Nat.le_refl _
  done now := by
    rw [aside.worker]
    exact inv.done (aside.done ▸ now)
  worker := by
    rw [aside.worker]
    exact aside.workerOk inv.done inv.worker
  progress := progress
  threads := threads
  passed := passed

/-- A step that touches neither the events nor what was handed. -/
theorem Inv.quiet (inv : Inv x w) (aside : Aside w w') (log : w'.log = w.log)
    (end_ : w'.state.end = w.state.end) (accepted : w'.state.accepted = w.state.accepted)
    (session : ∀ s, w.state.session = some s → w'.state.session = some s)
    (queue : w'.state.queue = w.state.queue) (delivered : w'.state.delivered = w.state.delivered)
    (output : w'.state.output = w.state.output) (handed : w'.handed = w.handed)
    (receiver : w'.receiver = w.receiver ∨ w'.receiver = .dropped)
    (cancelled : w'.cancelled = true → w'.state.failed.isSome)
    (failedAt : w'.failedAt.isSome = w'.state.failed.isSome) (progress : Seen w' w'.progress)
    (threads : ∀ thread ∈ w'.threads, ∀ task ∈ thread, TaskOk w' task) (passed : ∀ p ∈ w'.passed, PassedOk w' p) :
    Inv x w' := by
  have terminal : w'.state.terminal = w.state.terminal := by simp only [State.terminal, end_]
  refine inv.aside aside ?_ ?_ ?_ ?_ ?_ ?_ ?_ ?_ ?_ ?_ cancelled failedAt progress threads passed
  · rw [end_, log]
    exact inv.ends
  · rw [accepted, terminal, log]
    exact inv.accepted
  · rw [log]
    exact inv.plain
  · intro s mem
    exact session s (inv.session s (log ▸ mem))
  · rw [queue, log]
    exact inv.queue
  · rw [delivered, aside.written]
    exact inv.delivered
  · intro o at_
    exact aside.outputOk delivered (inv.output o (output ▸ at_))
  · unfold HandedOk
    rw [handed, log, delivered, end_]
    rcases inv.handed with open_ | ⟨past, k, error, small, same, all⟩
    · exact .inl open_
    · refine .inr ⟨?_, k, error, small, same, fun none_ => all ?_⟩
      · rcases receiver with same | dropped
        · rw [same]
          exact past
        · exact .inr dropped
      · cases failed : w.state.failed with
        | none => rfl
        | some e =>
            have := aside.failed (by rw [failed]; rfl)
            rw [none_] at this
            cases this
  · rw [handed, log, delivered]
    rcases receiver with same | dropped
    · rw [same]
      exact inv.polling
    · rw [dropped]
      nofun
  · rcases receiver with same | dropped
    · rw [same]
      exact inv.unfailing
    · rw [dropped]
      nofun

/-- A step that leaves the state as it is. -/
theorem Aside.of_state (state : w'.state = w.state) (spool : w'.spool = w.spool)
    (worker : w'.worker = w.worker) (interactions : w'.interactions = w.interactions)
    (log : w'.log = w.log) (failedAt : w'.failedAt = w.failedAt) : Aside w w' where
  spool := spool
  worker := worker
  interactions := interactions
  written := by rw [state]
  done := by rw [state]
  log := log ▸ List.prefix_rfl
  fixed _ := log
  terminal s at_ := by rw [state]; exact at_
  confirmed e at_ _ := by rw [state]; exact at_
  failed some_ := by rw [state]; exact some_
  failedAt := .inl failedAt
  slot := .inr (.inl ⟨by rw [state], by rw [state]⟩)

section

variable (inv : Inv x w)
include inv

/-- Other threads, another progress, more fences that passed. -/
theorem Inv.of_state (state : w'.state = w.state) (spool : w'.spool = w.spool) (worker : w'.worker = w.worker)
    (interactions : w'.interactions = w.interactions) (log : w'.log = w.log)
    (failedAt : w'.failedAt = w.failedAt) (handed : w'.handed = w.handed) (receiver : w'.receiver = w.receiver)
    (cancelled : w'.cancelled = w.cancelled) (progress : Seen w' w'.progress)
    (threads : ∀ thread ∈ w'.threads, ∀ task ∈ thread, TaskOk w' task) (passed : ∀ p ∈ w'.passed, PassedOk w' p) :
    Inv x w' := by
  refine inv.quiet (Aside.of_state state spool worker interactions log failedAt) log
    (by rw [state]) (by rw [state]) (fun s at_ => by rw [state]; exact at_) (by rw [state])
    (by rw [state]) (by rw [state]) handed (.inl receiver) ?_ ?_ progress threads passed
  · rw [cancelled, state]
    exact inv.cancelled
  · rw [failedAt, state]
    exact inv.failedAt

/-- What a failure changes. -/
theorem Inv.cancel (reason : String) :
    Inv x (cancel w reason).1 ∧ Aside w (cancel w reason).1 ∧
      (cancel w reason).1.threads = w.threads ∧
      (∀ p, (cancel w reason).2 = some p → Seen (cancel w reason).1 p) ∧
      (w.state.done = false → (cancel w reason).1.state.failed.isSome) := by
  unfold EventStore.cancel
  split
  · next done =>
    refine ⟨inv, Aside.of_state rfl rfl rfl rfl rfl rfl, rfl, nofun, fun live => ?_⟩
    rw [done] at live
    cases live
  · have aside : Aside w { w with
        state := { w.state with failed := some (w.state.failed.getD reason) }
        cancelled := true
        failedAt := w.failedAt.or (some w.state.written) } :=
      { spool := rfl
        worker := rfl
        interactions := rfl
        written := rfl
        done := rfl
        log := List.prefix_rfl
        fixed := fun _ => rfl
        terminal := fun _ at_ => at_
        confirmed := fun _ at_ _ => at_
        failed := fun _ => rfl
        failedAt := by
          cases failedAt : w.failedAt with
          | none => exact .inr ⟨failedAt, by simp⟩
          | some k => exact .inl (by simp [failedAt])
        slot := .inr (.inl ⟨rfl, rfl⟩) }
    refine ⟨inv.quiet aside rfl rfl rfl (fun _ at_ => at_) rfl rfl rfl rfl (.inl rfl) (fun _ => rfl)
      (by simp) (aside.seen inv.progress) (aside.tasks inv) (aside.watches inv),
      aside, rfl, fun p same => ?_, fun _ => rfl⟩
    cases same
    exact ⟨Nat.le_refl _, nofun⟩

/-- An event that is accepted. -/
theorem Inv.push (event : Event N Q) (session : Option String) (readyEnqueued : Bool)
    (writable : w.state.writable = .ok ()) (plain : event.isClosed = false)
    (kept : ∀ s, w.state.session = some s → session = some s)
    (bound : ∀ s, event = .ready s → session = some s) :
    Inv x { w with
      state := { w.state with
        accepted := w.state.accepted + 1
        readyEnqueued := readyEnqueued
        session := session
        queue := w.state.queue ++ [queuedOf x (w.state.accepted + 1) event] }
      log := w.log ++ [event] } ∧
    Aside w { w with
      state := { w.state with
        accepted := w.state.accepted + 1
        readyEnqueued := readyEnqueued
        session := session
        queue := w.state.queue ++ [queuedOf x (w.state.accepted + 1) event] }
      log := w.log ++ [event] } := by
  have none_ : w.state.failed = none ∧ w.state.end = none := by
    unfold State.writable at writable
    split at writable
    · cases writable
    · next failed =>
      refine ⟨failed, ?_⟩
      split at writable
      · cases writable
      · split at writable
        · cases writable
        · next closed =>
          simp only [Bool.or_eq_true, not_or] at closed
          exact Option.not_isSome_iff_eq_none.1 closed.1
  obtain ⟨failed, source⟩ := none_
  have count : w.state.accepted = w.log.length := by
    rw [inv.accepted]
    simp [State.terminal, source]
  have grown : w.log <+: w.log ++ [event] := List.prefix_append _ _
  have aside : Aside w { w with
      state := { w.state with
        accepted := w.state.accepted + 1
        readyEnqueued := readyEnqueued
        session := session
        queue := w.state.queue ++ [queuedOf x (w.state.accepted + 1) event] }
      log := w.log ++ [event] } :=
    { spool := rfl
      worker := rfl
      interactions := rfl
      written := rfl
      done := rfl
      log := grown
      fixed := fun some_ => by rw [source] at some_; cases some_
      terminal := fun _ at_ => at_
      confirmed := fun _ at_ _ => at_
      failed := fun some_ => some_
      failedAt := .inl rfl
      slot := .inr (.inl ⟨rfl, rfl⟩) }
  have still : ∀ k, k ≤ w.log.length → (w.log ++ [event]).take k = w.log.take k := fun k le =>
    List.take_append_of_le_length le
  refine ⟨inv.aside aside ?_ ?_ ?_ ?_ ?_ inv.delivered (fun o at_ => aside.outputOk rfl (inv.output o at_))
    ?_ ?_ inv.unfailing inv.cancelled inv.failedAt (aside.seen inv.progress) (aside.tasks inv) (aside.watches inv), aside⟩
  · intro e is_
    rw [source] at is_
    cases is_
  · simp [State.terminal, source, count]
  · intro e mem
    rcases List.mem_append.1 mem with old | new
    · exact inv.plain e old
    · rw [List.mem_singleton.1 new]
      exact plain
  · intro s mem
    rcases List.mem_append.1 mem with old | new
    · exact kept s (inv.session s old)
    · exact bound s (List.mem_singleton.1 new).symm
  · intro item mem
    rcases List.mem_append.1 mem with old | new
    · exact (inv.queue item old).mono grown
    · rw [List.mem_singleton.1 new]
      have number : (queuedOf x (w.state.accepted + 1) event).record.sequence = w.log.length + 1 := by
        cases event <;> simp [queuedOf, recordOf, count]
      refine ⟨event, by omega, ?_, ?_⟩
      · rw [number]
        simp
      · rw [number, count]
  · rcases inv.handed with ⟨same, le⟩ | ⟨_, k, error, _, _, all⟩
    · refine .inl ⟨?_, Nat.le_trans le grown.length_le⟩
      simpa only [still _ le] using same
    · have := (all failed).2
      rw [source] at this
      cases this
  · intro receiving
    obtain ⟨same, le⟩ := inv.polling receiving
    refine ⟨?_, Nat.le_trans le grown.length_le⟩
    simpa only [still _ le] using same

theorem Inv.same : Inv x w ∧ Aside w w :=
  ⟨inv, Aside.of_state rfl rfl rfl rfl rfl rfl⟩

theorem Inv.enqueue {event : Event N Q} (plain : event.isClosed = false) (other : ∀ s, event ≠ .ready s) :
    Inv x ((enqueue x w event).toOption.getD w) ∧ Aside w ((enqueue x w event).toOption.getD w) ∧
      ((enqueue x w event).toOption.getD w).threads = w.threads := by
  unfold EventStore.enqueue
  cases writable : w.state.writable with
  | error e => exact ⟨inv, inv.same.2, rfl⟩
  | ok u =>
      by_cases small : w.state.accepted + 1 ≤ u64Max
      · simp only [bind, Except.bind, if_pos small]
        have pushed := inv.push event w.state.session w.state.readyEnqueued writable plain
          (fun _ at_ => at_) fun s same => absurd same (other s)
        exact ⟨pushed.1, pushed.2, rfl⟩
      · simp only [bind, Except.bind, if_neg small]
        exact ⟨inv, inv.same.2, rfl⟩

theorem Inv.acceptSession (session : String) :
    Inv x ((acceptSession w session).toOption.getD w) ∧
      Aside w ((acceptSession w session).toOption.getD w) ∧
      ((acceptSession w session).toOption.getD w).threads = w.threads := by
  unfold EventStore.acceptSession
  cases writable : w.state.writable with
  | error e => exact ⟨inv, inv.same.2, rfl⟩
  | ok u =>
      by_cases other : w.state.session.any (· ≠ session) = true
      · simp only [bind, Except.bind, if_pos other]
        exact ⟨inv, inv.same.2, rfl⟩
      · simp only [bind, Except.bind, if_neg other]
        have aside : Aside w { w with state := { w.state with session := some session } } :=
          ⟨rfl, rfl, rfl, rfl, rfl, List.prefix_rfl, fun _ => rfl, fun _ at_ => at_,
            fun _ at_ _ => at_, fun some_ => some_, .inl rfl, .inr (.inl ⟨rfl, rfl⟩)⟩
        refine ⟨inv.quiet aside rfl rfl rfl (fun s at_ => ?_) rfl rfl rfl rfl (.inl rfl)
          inv.cancelled inv.failedAt (aside.seen inv.progress) (aside.tasks inv)
          (aside.watches inv), aside, rfl⟩
        simp only [at_, Option.any_some, decide_eq_true_eq, ne_eq, Decidable.not_not] at other
        exact congrArg some other.symm

theorem Inv.ready (session : String) :
    Inv x ((ready x w session).toOption.getD w) ∧ Aside w ((ready x w session).toOption.getD w) ∧
      ((ready x w session).toOption.getD w).threads = w.threads := by
  unfold EventStore.ready
  cases writable : w.state.writable with
  | error e => exact ⟨inv, inv.same.2, rfl⟩
  | ok u =>
      simp only [bind, Except.bind]
      split
      · exact ⟨inv, inv.same.2, rfl⟩
      · split
        · exact ⟨inv, inv.same.2, rfl⟩
        · next other =>
          split
          · have pushed := inv.push (.ready session) (some session) true writable rfl
              (fun s at_ => by
                simp only [at_, Option.any_some, decide_eq_true_eq, ne_eq, Decidable.not_not] at other
                rw [other]) (fun s same => by cases same; rfl)
            exact ⟨pushed.1, pushed.2, rfl⟩
          · exact ⟨inv, inv.same.2, rfl⟩

/-- The source ends, with a last event or without. -/
theorem Inv.endWith (failed : w.state.failed = none) (source : w.state.end = none)
    {e : SourceEnd} (through : e.dataThrough = w.state.accepted)
    (number : ∀ s, e.eventSequence = some s → s = w.state.accepted + 1) (accepted : Nat)
    (count : accepted = e.eventSequence.getD w.state.accepted) :
    Inv x { w with state := { w.state with accepted := accepted, «end» := some e } } ∧
      Aside w { w with state := { w.state with accepted := accepted, «end» := some e } } := by
  have was : w.state.accepted = w.log.length := by
    rw [inv.accepted]
    simp [State.terminal, source]
  have aside : Aside w { w with state := { w.state with accepted := accepted, «end» := some e } } :=
    ⟨rfl, rfl, rfl, rfl, rfl, List.prefix_rfl, fun _ => rfl, fun s at_ => by
      simp [State.terminal, source] at at_, (fun _ at_ _ => by rw [source] at at_; cases at_),
      fun some_ => some_, .inl rfl, .inr (.inl ⟨rfl, rfl⟩)⟩
  refine ⟨inv.aside aside ?_ ?_ inv.plain inv.session inv.queue inv.delivered
    (fun o at_ => aside.outputOk rfl (inv.output o at_)) ?_ inv.polling inv.unfailing inv.cancelled inv.failedAt
    (aside.seen inv.progress) (aside.tasks inv) (aside.watches inv), aside⟩
  · intro e' same
    cases same
    exact ⟨through.trans was, fun s at_ => by rw [number s at_, was]⟩
  · rw [count, was]
    rfl
  · rcases inv.handed with open_ | ⟨_, k, error, _, _, all⟩
    · exact .inl open_
    · have := (all failed).2
      rw [source] at this
      cases this

/-- The end that is on its way is confirmed. -/
theorem Inv.confirmed {through sequence : Nat} (source : w.state.end = some (.closing through sequence))
    (error : Option String) :
    Inv x { w with state := { w.state with «end» := some (.closed through sequence error) } } ∧
      Aside w { w with state := { w.state with «end» := some (.closed through sequence error) } } := by
  have aside : Aside w { w with state := { w.state with «end» := some (.closed through sequence error) } } :=
    ⟨rfl, rfl, rfl, rfl, rfl, List.prefix_rfl, fun _ => rfl, fun s at_ => by
      simpa [State.terminal, source, SourceEnd.eventSequence] using at_,
      (fun e at_ confirmed => by rw [source] at at_; cases at_; cases confirmed),
      fun some_ => some_, .inl rfl, .inr (.inl ⟨rfl, rfl⟩)⟩
  refine ⟨inv.aside aside ?_ ?_ inv.plain inv.session inv.queue inv.delivered
    (fun o at_ => aside.outputOk rfl (inv.output o at_)) ?_ inv.polling inv.unfailing inv.cancelled inv.failedAt
    (aside.seen inv.progress) (aside.tasks inv) (aside.watches inv), aside⟩
  · intro e same
    cases same
    exact inv.ends (.closing through sequence) source
  · have := inv.accepted
    simpa [State.terminal, source, SourceEnd.eventSequence] using this
  · rcases inv.handed with open_ | ⟨past, k, error', small, same, all⟩
    · exact .inl open_
    · exact .inr ⟨past, k, error', small, same, fun none_ => ⟨(all none_).1, rfl⟩⟩

/-- A watch passes when what it waits for is written, and nothing has failed. -/
theorem Inv.watched {through before : Nat} (le : before ≤ through) (accepted : before ≤ w.log.length)
    (live : w.progress.failed = none) (reached : through ≤ w.progress.written) :
    Inv x { w with passed := w.passed ++ [⟨through, before⟩] } ∧
      Aside w { w with passed := w.passed ++ [⟨through, before⟩] } := by
  have aside : Aside w { w with passed := w.passed ++ [⟨through, before⟩] } := Aside.of_state rfl rfl rfl rfl rfl rfl
  refine ⟨inv.of_state rfl rfl rfl rfl rfl rfl rfl rfl rfl (aside.seen inv.progress) (aside.tasks inv)
    (fun p mem => ?_), aside⟩
  rcases List.mem_append.1 mem with old | new
  · exact aside.passed (inv.passed p old)
  · obtain rfl := List.mem_singleton.1 new
    have written : through ≤ w.state.written := Nat.le_trans reached inv.progress.1
    refine ⟨le, ?_, written, fun k at_ => Nat.le_trans reached (inv.progress.2 live k at_)⟩
    rcases inv.written with small | ⟨all, _⟩
    · exact Nat.le_trans (Nat.le_trans le written) small
    · exact Nat.le_trans accepted all

/-- A task keeps the invariant, and what its thread does next is as it must be. -/
theorem Inv.run {task : Task N Q} {new : List (Task N Q)} (ok : TaskOk w task)
    (ran : task.run x w = some (w', new)) :
    (Inv x w' ∧ Aside w w' ∧ w'.threads = w.threads) ∧ ∀ t ∈ new, TaskOk w' t := by
  have none_ : ∀ t ∈ ([] : List (Task N Q)), TaskOk w' t := nofun
  have one : ∀ {t : Task N Q}, TaskOk w' t → ∀ u ∈ [t], TaskOk w' u := fun ok u mem =>
    List.mem_singleton.1 mem ▸ ok
  have stay : Inv x w ∧ Aside w w ∧ w.threads = w.threads := ⟨inv, inv.same.2, rfl⟩
  cases task with
  | note n =>
      simp only [Task.run] at ran
      split at ran <;> cases ran
      · exact ⟨stay, one trivial⟩
      · exact ⟨stay, one ⟨rfl, nofun⟩⟩
  | enqueue event =>
      cases ran
      exact ⟨inv.enqueue ok.1 ok.2, none_⟩
  | acceptSession session =>
      cases ran
      exact ⟨inv.acceptSession session, none_⟩
  | ready session =>
      cases ran
      exact ⟨inv.ready session, none_⟩
  | beginClose =>
      simp only [Task.run] at ran
      split at ran
      · cases ran
        exact ⟨stay, none_⟩
      · next open_ =>
        simp only [Bool.or_eq_true, not_or, Option.not_isSome_iff_eq_none] at open_
        split at ran <;> cases ran
        · have closing := inv.endWith open_.2 open_.1
            (e := .closing w.state.accepted (w.state.accepted + 1)) rfl (fun s same => by cases same; rfl)
            (w.state.accepted + 1) rfl
          exact ⟨⟨closing.1, closing.2, rfl⟩, one trivial⟩
        · exact ⟨stay, one trivial⟩
  | confirm error =>
      simp only [Task.run] at ran
      split at ran
      · next through sequence source =>
        cases ran
        have confirmed := inv.confirmed source error
        exact ⟨⟨confirmed.1, confirmed.2, rfl⟩, one trivial⟩
      · cases ran
        exact ⟨stay, one trivial⟩
  | sourceEof =>
      cases ran
      simp only [EventStore.sourceEof]
      split
      · next open_ =>
        simp only [Bool.and_eq_true, Option.isNone_iff_eq_none] at open_
        have eof := inv.endWith open_.2 open_.1 (e := .eof w.state.accepted) rfl nofun
          w.state.accepted rfl
        exact ⟨⟨eof.1, eof.2, rfl⟩, fun u mem => List.mem_singleton.1 mem ▸ trivial⟩
      · exact ⟨stay, fun u mem => List.mem_singleton.1 mem ▸ trivial⟩
  | cancel reason =>
      have done := inv.cancel reason
      simp only [Task.run] at ran
      split at ran
      · next u same =>
        cases ran
        rw [same] at done
        exact ⟨⟨done.1, done.2.1, done.2.2.1⟩, none_⟩
      · next u progress same =>
        cases ran
        rw [same] at done
        exact ⟨⟨done.1, done.2.1, done.2.2.1⟩, one (done.2.2.2.1 progress rfl)⟩
  | pulse =>
      cases ran
      refine ⟨stay, one ⟨Nat.le_refl _, fun none_ k at_ => ?_⟩⟩
      have none_ : w.state.failed = none := none_
      have := inv.failedAt
      rw [at_, none_] at this
      cases this
  | merge progress =>
      cases ran
      have aside : Aside w { w with progress := w.progress.merge progress } :=
        Aside.of_state rfl rfl rfl rfl rfl rfl
      exact ⟨⟨inv.of_state rfl rfl rfl rfl rfl rfl rfl rfl rfl (aside.seen (inv.progress.merge ok))
        (aside.tasks inv) (aside.watches inv), aside, rfl⟩, none_⟩
  | fence =>
      simp only [Task.run] at ran
      split at ran <;> cases ran
      · exact ⟨stay, none_⟩
      · refine ⟨stay, one ⟨?_, Nat.le_refl _⟩⟩
        rw [inv.accepted]
        cases terminal : w.state.terminal with
        | none => simp
        | some s =>
            obtain ⟨e, is_, number⟩ := Option.bind_eq_some_iff.1 terminal
            have := (inv.ends e is_).2 s number
            simp only [Option.getD_some]
            omega
  | watch through before =>
      simp only [Task.run] at ran
      split at ran
      · cases ran
        exact ⟨stay, none_⟩
      · next live =>
        split at ran <;> cases ran
        next reached =>
        have watched := inv.watched ok.1 ok.2 (Option.not_isSome_iff_eq_none.1 live) reached
        exact ⟨⟨watched.1, watched.2, rfl⟩, none_⟩

end

end Invariant

end Khor.Acp.EventStore
