/-
Module: Khor.Gui.FanoutWakes
Purpose: What holds of the fan-out over whole runs: each connection gets its frames in order, the counters are true, who
  waits for room is woken, and after close no frame is admitted and the writers have ended, unless an add has reaped one
  that is about to end.
Trusted boundary: that of Khor.Gui.FanoutRuns; for the wakes, each thread that can go on does so at some time
Main exports: Right, Orderly, Inv.right, Inv.returns_iff, fanout_lossless
-/
import Khor.Gui.FanoutRuns
import Khor.Lib.Fair

namespace Khor.Fanout

open Function (update)

variable {l : Limits} {s s' : State}

/-! ### What an event makes of a connection -/

variable {c t k : Nat} {q : Conn} {e : Event}

theorem changes_conn {task : Task} {given : List Nat} {woken : Option Nat} (step : (s.conns c).Step q given woken)
    (d : Nat) : ∃ given woken, (s.conns d).Step ((s.changes c q t task).conns d) given woken := by
  by_cases is : d = c
  · subst is
    exact ⟨given, woken, by simpa [State.changes] using step⟩
  · exact ⟨[], none, by simpa [State.changes, is] using Conn.Step.refl _⟩

theorem same_conn {d : Nat} (same : s'.conns d = s.conns d) :
    ∃ given woken, (s.conns d).Step (s'.conns d) given woken :=
  ⟨[], none, by rw [same]; exact .refl _⟩

theorem closeNext_conn (t : Nat) (late : Bool) (left : Closing) (c : Nat) :
    ∃ given woken, (s.conns c).Step ((s.closeNext t late left).conns c) given woken := by
  unfold State.closeNext
  split
  · exact changes_conn (.drain _) c
  · exact same_conn rfl
  · split
    · exact same_conn rfl
    · exact same_conn rfl
  · exact same_conn rfl
  · exact same_conn rfl
  · exact same_conn rfl

theorem run_conn (t : Nat) (late stolen : Bool) (c : Nat) :
    ∃ given woken, (s.conns c).Step ((s.run l t late stolen).conns c) given woken := by
  unfold State.run
  split
  case h_1 => exact changes_conn (.abort _) c
  case h_2 => exact changes_conn (.shutdown _) c
  case h_3 waker _ _ _ => exact changes_conn (.wake _ waker) c
  case h_9 frame _ _ _ => exact changes_conn (.enqueue _ frame stolen) c
  case h_10 frame waker _ => exact changes_conn (.pollEnqueue _ frame waker stolen) c
  case h_11 left _ => exact closeNext_conn t late left c
  all_goals exact same_conn rfl

/-- Every event leaves a connection to one of its steps, or makes it. -/
theorem step_conn (e : Event) (c : Nat) :
    (s.closed = false ∧ c = s.next ∧ (s.step l e).conns c = .new) ∨
      ∃ given woken, (s.conns c).Step ((s.step l e).conns c) given woken := by
  cases e with
  | add t who spawns missed =>
      show _ ∨ ∃ given woken, (s.conns c).Step ((s.add t who spawns missed).conns c) given woken
      rw [show s.step l (.add t who spawns missed) = s.add t who spawns missed from rfl]
      unfold State.add
      split
      · exact .inr (same_conn rfl)
      rename_i open_
      split
      · exact .inr (same_conn rfl)
      split
      · by_cases is : c = s.next
        · exact .inl ⟨Bool.eq_false_iff.mpr open_, is, by simp [is]⟩
        · exact .inr (same_conn (Function.update_of_ne is _ _))
      · exact .inr (same_conn rfl)
  | send t frame order =>
      refine .inr (same_conn ?_)
      show (s.send t frame order).conns c = _
      unfold State.send
      split <;> rfl
  | sendTo t who frame =>
      refine .inr (same_conn ?_)
      show (s.sendTo t who frame).conns c = _
      unfold State.sendTo
      split
      · rfl
      split <;> rfl
  | pollSendTo t who frame waker =>
      refine .inr (same_conn ?_)
      show (s.pollSendTo t who frame waker).conns c = _
      unfold State.pollSendTo
      split
      · rfl
      split <;> rfl
  | remove t who =>
      refine .inr (same_conn ?_)
      show (s.remove t who).conns c = _
      unfold State.remove
      split <;> rfl
  | close t order => exact .inr (same_conn rfl)
  | run t late stolen => exact .inr (run_conn t late stolen c)
  | write d stalled sent =>
      by_cases is : c = d
      · subst is
        exact .inr ⟨[], none, by simpa [State.step] using Conn.Step.write _ stalled sent⟩
      · exact .inr (same_conn (Function.update_of_ne is _ _))

/-- Connections are only added, and none once the registry is closed. -/
theorem step_next (e : Event) : s.next ≤ (s.step l e).next ∧ (s.closed = true → (s.step l e).next = s.next) := by
  cases e with
  | add t who spawns missed =>
      show s.next ≤ (s.add t who spawns missed).next ∧ (_ → (s.add t who spawns missed).next = _)
      unfold State.add
      split
      · exact ⟨Nat.le_refl _, fun _ => rfl⟩
      rename_i open_
      split
      · exact ⟨Nat.le_refl _, fun _ => rfl⟩
      split
      · exact ⟨Nat.le_succ _, fun closed => absurd closed open_⟩
      · exact ⟨Nat.le_refl _, fun _ => rfl⟩
  | send t frame order =>
      show s.next ≤ (s.send t frame order).next ∧ (_ → (s.send t frame order).next = _)
      unfold State.send
      split <;> exact ⟨Nat.le_refl _, fun _ => rfl⟩
  | sendTo t who frame =>
      show s.next ≤ (s.sendTo t who frame).next ∧ (_ → (s.sendTo t who frame).next = _)
      unfold State.sendTo
      split
      · exact ⟨Nat.le_refl _, fun _ => rfl⟩
      split <;> exact ⟨Nat.le_refl _, fun _ => rfl⟩
  | pollSendTo t who frame waker =>
      show s.next ≤ (s.pollSendTo t who frame waker).next ∧ (_ → (s.pollSendTo t who frame waker).next = _)
      unfold State.pollSendTo
      split
      · exact ⟨Nat.le_refl _, fun _ => rfl⟩
      split <;> exact ⟨Nat.le_refl _, fun _ => rfl⟩
  | remove t who =>
      show s.next ≤ (s.remove t who).next ∧ (_ → (s.remove t who).next = _)
      unfold State.remove
      split <;> exact ⟨Nat.le_refl _, fun _ => rfl⟩
  | close t order => exact ⟨Nat.le_refl _, fun _ => rfl⟩
  | run t late stolen =>
      show s.next ≤ (s.run l t late stolen).next ∧ (_ → (s.run l t late stolen).next = _)
      unfold State.run
      split
      case h_11 left is =>
          unfold State.closeNext
          split
          case h_3 => split <;> exact ⟨Nat.le_refl _, fun _ => rfl⟩
          all_goals exact ⟨Nat.le_refl _, fun _ => rfl⟩
      all_goals exact ⟨Nat.le_refl _, fun _ => rfl⟩
  | write c stalled sent => exact ⟨Nat.le_refl _, fun _ => rfl⟩

/-! ### Every state that is reached is right -/

/-- What holds of the fan-out. A connection gets a prefix of what was admitted for it (`order`), all of it where its
writer ended without an abort or a failed write (`drained`). The counters are those of the frames queued and in hand
(`counts`), within the limits (`within`). Few wakers are kept (`few`). Who was told to wait waits still or is about to be
woken (`kept`), as room is released (`released`), the connection is aborted (`taken`) or its writer is done, and otherwise
the writer is at work (`busy`). Once `close` has returned no frame is admitted (`closed`). -/
structure Right (l : Limits) (s : State) : Prop where
  order : ∀ c, (s.conns c).written <+: (s.conns c).admitted.flatten
  drained : ∀ c, (s.conns c).done = true → (s.conns c).cut = false → (s.conns c).written = (s.conns c).admitted.flatten
  counts : ∀ c, (s.conns c).aborted = false →
    (s.conns c).outstandingFrames = ((s.conns c).frames ++ (s.conns c).writer.inHand).length ∧
    (s.conns c).outstandingBytes = ((s.conns c).frames ++ (s.conns c).writer.inHand).flatten.length
  within : ∀ c, (s.conns c).outstandingFrames ≤ l.frames ∧ (s.conns c).outstandingBytes ≤ l.bytes
  few : ∀ c, (s.conns c).capacityWaiters.length ≤ l.frames
  kept : ∀ c, ∀ k ∈ (s.conns c).owed, (s.conns c).Holds k ∨ ∃ t, k ∈ (s.tasks t).hand c
  released : ∀ e, s.May e → ∀ c, ((s.step l e).conns c).outstandingFrames < (s.conns c).outstandingFrames ∨
    ((s.step l e).conns c).outstandingBytes < (s.conns c).outstandingBytes →
    ((s.step l e).conns c).capacityWaiters = []
  taken : ∀ c, (s.conns c).aborted = true → (s.conns c).capacityWaiters ≠ [] →
    ∃ t, (s.tasks t).abort = some (.locking c)
  busy : ∀ c, (s.conns c).capacityWaiters ≠ [] → (s.conns c).writer.past = false ∧ (s.conns c).writer ≠ .asleep false
  closed : 0 < s.closes → ∀ c < s.next, (s.conns c).done = true ∧ (s.conns c).aborted = true ∧
    (s.conns c).socketShut = true ∧ (s.conns c).capacityWaiters = [] ∧ ∀ e, s.May e → (s.step l e).next = s.next ∧
      ((s.step l e).conns c).admitted = (s.conns c).admitted

theorem Inv.right (inv : Inv l s) : Right l s where
  order := fun c => (List.prefix_append _ _).trans (inv.sound c).order
  drained := fun c done uncut => by
    have sound := inv.sound c
    have whole := sound.whole uncut
    have past := sound.past ▸ done
    rw [sound.emptied (sound.closed done).1] at whole
    generalize (s.conns c).writer = w at whole past
    cases w <;> cases past
    all_goals simpa [Writer.remaining] using whole.symm
  counts := fun c => (inv.sound c).counts
  within := fun c => (inv.sound c).within
  few := fun c => (inv.sound c).few
  kept := inv.owed
  released := fun e _ c less => by
    obtain ⟨-, -, new⟩ | ⟨given, woken, step⟩ := step_conn (l := l) (s := s) e c
    · rw [new]
      rfl
    · exact step.released less
  taken := inv.left
  busy := fun c waits => by
    have sound := inv.sound c
    constructor
    · cases past : (s.conns c).writer.past with
      | false => rfl
      | true => exact absurd (sound.closed (sound.past.trans past)).2.1 waits
    · intro is
      obtain ⟨none_, unaborted, -⟩ := sound.asleep is
      have some_ := sound.needs waits unaborted
      rw [(sound.counts unaborted).1, none_, is] at some_
      exact absurd some_ (Nat.lt_irrefl _)
  closed := fun closes c lt => by
    obtain ⟨closed, done⟩ := inv.after closes
    obtain ⟨aborted, none_, shut⟩ := (inv.sound c).closed (done c lt)
    refine ⟨done c lt, aborted, shut, none_, fun e _ => ⟨(step_next e).2 closed, ?_⟩⟩
    obtain ⟨open_, -⟩ | ⟨given, woken, step⟩ := step_conn (l := l) (s := s) e c
    · rw [closed] at open_
      cases open_
    · exact step.admits (by simp [Conn.refuses, aborted])

/-! ### When `close` returns -/

/-- Every writer that a thread has still to join has ended. -/
def State.Joined (s : State) : Prop := ∀ t, ∀ c ∈ (s.tasks t).joins, (s.conns c).writer = .ended

/-- A call of `close` returns only where no `add` is still to join a writer it reaped. -/
def Orderly (s : State) (e : Event) : Prop :=
  s.May e ∧ ∀ t late stolen, e = .run t late stolen → (s.tasks t).returns = true → s.Joined

/-- As `close` returns, every writer has ended just where no `add` is still to join one. -/
theorem Inv.returns_iff (inv : Inv l s) (is : (s.tasks t).returns = true) :
    (∀ c < s.next, (s.conns c).writer = .ended) ↔ s.Joined := by
  constructor
  · exact fun ended t' c has => ended c (inv.joins t' c has).1
  · intro joined c lt
    obtain registered | ⟨t', has⟩ | past := inv.placed c lt
    · have closes : (s.tasks t).closes = true := by
        generalize s.tasks t = task at is
        unfold Task.returns at is
        split at is
        · rfl
        · cases is
      rw [inv.shut (inv.closer t closes).2] at registered
      cases registered
    · exact joined t' c has
    · exact past

/-- Once `close` has returned every writer has ended. -/
def State.Ended (s : State) : Prop := 0 < s.closes → ∀ c < s.next, (s.conns c).writer = .ended

theorem step_closes (e : Event) : (s.step l e).closes = s.closes ∨
    (∃ t late stolen, e = .run t late stolen ∧ (s.tasks t).returns = true) ∧ (s.step l e).conns = s.conns ∧
      (s.step l e).next = s.next := by
  cases e with
  | add t who spawns missed =>
      refine .inl ?_
      show (s.add t who spawns missed).closes = _
      unfold State.add
      split
      · rfl
      split
      · rfl
      split <;> rfl
  | send t frame order =>
      refine .inl ?_
      show (s.send t frame order).closes = _
      unfold State.send
      split <;> rfl
  | sendTo t who frame =>
      refine .inl ?_
      show (s.sendTo t who frame).closes = _
      unfold State.sendTo
      split
      · rfl
      split <;> rfl
  | pollSendTo t who frame waker =>
      refine .inl ?_
      show (s.pollSendTo t who frame waker).closes = _
      unfold State.pollSendTo
      split
      · rfl
      split <;> rfl
  | remove t who =>
      refine .inl ?_
      show (s.remove t who).closes = _
      unfold State.remove
      split <;> rfl
  | close t order => exact .inl rfl
  | run t late stolen =>
      show (s.run l t late stolen).closes = _ ∨ _ ∧ (s.run l t late stolen).conns = _ ∧ (s.run l t late stolen).next = _
      unfold State.run
      split
      case h_11 left is =>
          unfold State.closeNext
          split
          case h_3 => split <;> exact .inl rfl
          case h_6 => exact .inr ⟨⟨t, late, stolen, rfl, by rw [is]; rfl⟩, rfl, rfl⟩
          all_goals exact .inl rfl
      all_goals exact .inl rfl
  | write c stalled sent => exact .inl rfl

theorem Inv.step_ended (inv : Inv l s) (ended : s.Ended) (orderly : Orderly s e) : (s.step l e).Ended := by
  intro closes c lt
  obtain same | ⟨⟨t, late, stolen, is, returns⟩, conns, next⟩ := step_closes (l := l) (s := s) e
  · rw [same] at closes
    obtain ⟨closed, -⟩ := inv.after closes
    rw [(step_next e).2 closed] at lt
    obtain ⟨open_, -⟩ | ⟨given, woken, step⟩ := step_conn (l := l) (s := s) e c
    · rw [closed] at open_
      cases open_
    · exact step.ended (ended closes c lt)
  · rw [conns]
    rw [next] at lt
    exact (inv.returns_iff returns).mpr (orderly.2 t late stolen is returns) c lt

theorem ended_runs (run : Runs (State.step l) Orderly s s') (inv : Inv l s) (ended : s.Ended) : Inv l s' ∧ s'.Ended :=
  run.invariant (I := fun s => Inv l s ∧ s.Ended)
    (fun orderly both => ⟨both.1.step orderly.1, both.1.step_ended both.2 orderly⟩) ⟨inv, ended⟩

/-! ### Who is about to be woken is woken -/

/-- Who takes steps: a caller's thread, or the writer of a connection. -/
inductive Thread where
  | task (t : Nat)
  | writer (c : Nat)

def Event.takes : Event → Thread → Prop
  | .run t _ _, .task u => t = u
  | .write c _ _, .writer d => c = d
  | _, _ => False

/-- A thread that can go on. -/
def State.There (s : State) : Thread → Prop
  | .task t => s.tasks t ≠ .idle ∧ ∀ c, (s.tasks t).joinsNext = some c → (s.conns c).writer = .ended
  | .writer c => c < s.next ∧ (s.conns c).writer ≠ .ended ∧ (s.conns c).writer ≠ .asleep false

/-- How many steps of its abort a thread is from waking a producer. -/
def Task.before (k : Nat) : Task → Nat
  | ⟨some (.shutting _ waiters), _⟩ => waiters.idxOf k + 2
  | ⟨some (.waking _ waiters), _⟩ => waiters.idxOf k + 1
  | _ => 0

/-- No event but its own steps changes a thread that is in a call. -/
theorem step_task (busy : s.tasks t ≠ .idle) (may : s.May e) (not_ : ¬e.takes (.task t)) :
    (s.step l e).tasks t = s.tasks t := by
  have other {u : Nat} (idle : s.tasks u = .idle) : t ≠ u := by
    rintro rfl
    exact busy idle
  have keeps {u : Nat} (idle : s.tasks u = .idle) (task : Task) : update s.tasks u task t = s.tasks t :=
    Function.update_of_ne (other idle) _ _
  cases e with
  | add u who spawns missed =>
      show (s.add u who spawns missed).tasks t = _
      unfold State.add
      split
      · rfl
      split
      · rfl
      split
      · exact keeps may.1 _
      · rfl
  | send u frame order =>
      show (s.send u frame order).tasks t = _
      unfold State.send
      split
      · rfl
      · exact keeps may.1.1 _
  | sendTo u who frame =>
      show (s.sendTo u who frame).tasks t = _
      unfold State.sendTo
      split
      · rfl
      split
      · exact keeps may.1 _
      · rfl
  | pollSendTo u who frame waker =>
      show (s.pollSendTo u who frame waker).tasks t = _
      unfold State.pollSendTo
      split
      · rfl
      split
      · exact keeps may.1 _
      · rfl
  | remove u who =>
      show (s.remove u who).tasks t = _
      unfold State.remove
      split
      · exact keeps may.1 _
      · rfl
  | close u order => exact keeps may.1.1 _
  | run u late stolen =>
      have ne : t ≠ u := fun same => not_ same.symm
      show (s.run l u late stolen).tasks t = _
      unfold State.run
      split
      case h_5 => rfl
      case h_11 left is =>
          unfold State.closeNext
          split
          case h_3 => split <;> exact Function.update_of_ne ne _ _
          all_goals exact Function.update_of_ne ne _ _
      all_goals exact Function.update_of_ne ne _ _
  | write c stalled sent => rfl

/-- A thread that has a producer to wake comes nearer to it with each of its steps. -/
theorem task_wakes (has : k ∈ (s.tasks t).hand c) (late stolen : Bool) :
    k ∉ ((s.run l t late stolen).conns c).owed ∨ k ∈ ((s.run l t late stolen).tasks t).hand c ∧
      ((s.run l t late stolen).tasks t).before k < (s.tasks t).before k := by
  unfold State.run
  generalize is : s.tasks t = task at has
  unfold Task.hand at has
  split at has
  · rename_i d waiters call
    by_cases same : d = c
    · subst same
      rw [if_pos rfl] at has
      refine .inr ?_
      simp [State.changes, Task.hand, Task.before, has]
    · rw [if_neg same] at has
      cases has
  · rename_i d waiters call
    by_cases same : d = c
    · subst same
      rw [if_pos rfl] at has
      cases waiters with
      | nil => cases has
      | cons first waiters =>
          by_cases here : first = k
          · refine .inl ?_
            simp [State.changes, Conn.wake, here]
          · refine .inr ?_
            have has := (List.mem_cons.mp has).resolve_left (Ne.symm here)
            simp [State.changes, Task.hand, Task.before, has, here]
    · rw [if_neg same] at has
      cases has
  · cases has

/-- So does a writer. -/
theorem write_wakes (has : k ∈ q.writer.wakes) (stalled : Bool) (sent : Sent) :
    k ∉ (q.write stalled sent).owed ∨ k ∈ (q.write stalled sent).writer.wakes ∧
      (q.write stalled sent).writer.wakes.idxOf k < q.writer.wakes.idxOf k := by
  unfold Conn.write
  generalize is : q.writer = w at has
  unfold Writer.wakes at has
  split at has
  · rename_i waiters
    cases waiters with
    | nil => cases has
    | cons first waiters =>
        by_cases here : first = k
        · refine .inl ?_
          simp [Conn.wake, here]
        · refine .inr ?_
          have has := (List.mem_cons.mp has).resolve_left (Ne.symm here)
          simp [Writer.wakes, has, here]
  · rename_i waiters
    cases waiters with
    | nil => cases has
    | cons first waiters =>
        by_cases here : first = k
        · refine .inl ?_
          simp [Conn.wake, here]
        · refine .inr ?_
          have has := (List.mem_cons.mp has).resolve_left (Ne.symm here)
          simp [Writer.wakes, has, here]
  · cases has

theorem accept_wakes (q : Conn) (frame : Frame) (stolen : Bool) :
    (q.accept frame stolen).writer.wakes = q.writer.wakes := by
  unfold Conn.accept
  grind

theorem enqueue_wakes (q : Conn) (frame : Frame) (stolen : Bool) :
    (q.enqueue l frame stolen).1.writer.wakes = q.writer.wakes := by
  have accept := accept_wakes q frame stolen
  unfold Conn.enqueue
  grind

theorem pollEnqueue_wakes (q : Conn) (frame : Frame) (waker : Nat) (stolen : Bool) :
    (q.pollEnqueue l frame waker stolen).1.writer.wakes = q.writer.wakes := by
  have accept := accept_wakes q frame stolen
  unfold Conn.pollEnqueue
  grind

/-- No thread but the writer changes whom the writer is about to wake. -/
theorem changes_wakes {task : Task} (same : q.writer.wakes = (s.conns c).writer.wakes) (d : Nat) :
    ((s.changes c q t task).conns d).writer.wakes = (s.conns d).writer.wakes := by
  by_cases is : d = c
  · subst is
    simpa [State.changes] using same
  · simp [State.changes, is]

theorem run_wakes (t : Nat) (late stolen : Bool) (c : Nat) :
    ((s.run l t late stolen).conns c).writer.wakes = (s.conns c).writer.wakes := by
  unfold State.run
  split
  case h_1 => exact changes_wakes (Writer.notify_wakes _) c
  case h_2 | h_3 =>
      refine changes_wakes ?_ c
      rfl
  case h_9 frame _ _ _ => exact changes_wakes (enqueue_wakes _ frame stolen) c
  case h_10 frame waker _ => exact changes_wakes (pollEnqueue_wakes _ frame waker stolen) c
  case h_11 left _ =>
      unfold State.closeNext
      split
      · exact changes_wakes (Writer.notify_wakes _) c
      · rfl
      · split <;> rfl
      · rfl
      · rfl
      · rfl
  all_goals rfl

theorem step_wakes (not_ : ¬e.takes (.writer c)) : (s.step l e).conns c = .new ∨
    ((s.step l e).conns c).writer.wakes = (s.conns c).writer.wakes := by
  cases e with
  | add t who spawns missed =>
      show (s.add t who spawns missed).conns c = _ ∨ ((s.add t who spawns missed).conns c).writer.wakes = _
      unfold State.add
      split
      · exact .inr rfl
      split
      · exact .inr rfl
      split
      · by_cases is : c = s.next
        · exact .inl (by simp [is])
        · exact .inr (by simp [is])
      · exact .inr rfl
  | send t frame order =>
      refine .inr ?_
      show ((s.send t frame order).conns c).writer.wakes = _
      unfold State.send
      split <;> rfl
  | sendTo t who frame =>
      refine .inr ?_
      show ((s.sendTo t who frame).conns c).writer.wakes = _
      unfold State.sendTo
      split
      · rfl
      split <;> rfl
  | pollSendTo t who frame waker =>
      refine .inr ?_
      show ((s.pollSendTo t who frame waker).conns c).writer.wakes = _
      unfold State.pollSendTo
      split
      · rfl
      split <;> rfl
  | remove t who =>
      refine .inr ?_
      show ((s.remove t who).conns c).writer.wakes = _
      unfold State.remove
      split <;> rfl
  | close t order => exact .inr rfl
  | run t late stolen => exact .inr (run_wakes t late stolen c)
  | write d stalled sent => exact .inr (congrArg (fun q : Conn => q.writer.wakes) (Function.update_of_ne (Ne.symm not_) _ _))

/-- In a run that keeps no thread waiting for ever, a producer that a thread or the writer is about to wake is woken. -/
theorem held_woken (run : Endless (State.step l) State.May) (fair : run.Fair Event.takes State.There) {n : Nat}
    (known : c < (run.state n).next)
    (held : k ∈ ((run.state n).conns c).writer.wakes ∨ ∃ t, k ∈ ((run.state n).tasks t).hand c) :
    ∃ m, n ≤ m ∧ k ∉ ((run.state m).conns c).owed := by
  obtain has | ⟨t, has⟩ := held
  · refine Endless.eventually fair (I := fun s => c < s.next ∧ k ∈ (s.conns c).writer.wakes)
      (G := fun s => k ∉ (s.conns c).owed) (fun s => (s.conns c).writer.wakes.idxOf k) (fun _ => .writer c) ?_ ?_
      ⟨known, has⟩
    · rintro s ⟨lt, has⟩ -
      refine ⟨lt, fun is => ?_, fun is => ?_⟩
      all_goals
        rw [is] at has
        cases has
    · rintro s e may ⟨lt, has⟩ -
      by_cases takes : e.takes (.writer c)
      · cases e with
        | write d stalled sent =>
            obtain rfl : d = c := takes
            have now : (s.step l (.write d stalled sent)).conns d = (s.conns d).write stalled sent :=
              Function.update_self _ _ _
            rw [now]
            exact (write_wakes has stalled sent).imp_right fun ⟨still, less⟩ => ⟨⟨lt, still⟩, .inl less⟩
        | _ => exact takes.elim
      · obtain new | same := step_wakes (s := s) (l := l) takes
        · exact .inl (by rw [new]; exact nofun)
        · exact .inr ⟨⟨Nat.lt_of_lt_of_le lt (step_next e).1, same ▸ has⟩, .inr ⟨by rw [same], rfl, takes⟩⟩
  · refine Endless.eventually fair (I := fun s => k ∈ (s.tasks t).hand c) (G := fun s => k ∉ (s.conns c).owed)
      (fun s => (s.tasks t).before k) (fun _ => .task t) ?_ ?_ has
    · rintro s has -
      generalize is : s.tasks t = task at has
      refine ⟨fun idle => ?_, fun d joins => ?_⟩
      · rw [is] at idle
        rw [idle] at has
        cases has
      · -- a thread in an abort joins no one
        rw [is] at joins
        unfold Task.joinsNext at joins
        split at joins
        · cases has
        · cases has
        · cases joins
    · rintro s e may has -
      by_cases takes : e.takes (.task t)
      · cases e with
        | run u late stolen =>
            obtain rfl : u = t := takes
            exact (task_wakes has late stolen).imp_right fun ⟨still, less⟩ => ⟨still, .inl less⟩
        | _ => exact takes.elim
      · have busy : s.tasks t ≠ .idle := fun idle => by
          rw [idle] at has
          cases has
        have same := step_task (l := l) busy may takes
        exact .inr ⟨by rw [same]; exact has, .inr ⟨by rw [same], rfl, takes⟩⟩

/-- Where a connection was aborted, the thread that aborts it takes the producers that wait. -/
theorem aborted_taken (run : Endless (State.step l) State.May) (fair : run.Fair Event.takes State.There) {n : Nat}
    (locks : ((run.state n).tasks t).abort = some (.locking c)) :
    ∃ m, n ≤ m ∧ k ∉ ((run.state m).conns c).capacityWaiters := by
  have busy {s : State} (locks : (s.tasks t).abort = some (.locking c)) : s.tasks t ≠ .idle := fun idle => by
    rw [idle] at locks
    cases locks
  refine Endless.eventually fair (I := fun s => (s.tasks t).abort = some (.locking c))
    (G := fun s => k ∉ (s.conns c).capacityWaiters) (fun _ => 0) (fun _ => .task t) ?_ ?_ locks
  · rintro s locks -
    refine ⟨busy locks, fun d joins => ?_⟩
    generalize s.tasks t = task at locks joins
    obtain ⟨abort, call⟩ := task
    cases locks
    cases joins
  · rintro s e may locks -
    by_cases takes : e.takes (.task t)
    · cases e with
      | run u late stolen =>
          obtain rfl : u = t := takes
          refine .inl ?_
          show k ∉ ((s.run l u late stolen).conns c).capacityWaiters
          unfold State.run
          generalize s.tasks u = task at locks
          obtain ⟨abort, call⟩ := task
          cases locks
          simp [State.changes, Conn.abort]
      | _ => exact takes.elim
    · have same := step_task (l := l) (busy locks) may takes
      exact .inr ⟨by rw [same]; exact locks, .inr ⟨rfl, rfl, takes⟩⟩

/-! ### The fan-out is lossless -/

/-- In every state that is reached the fan-out is right, and a call of `close` that returns leaves no writer that has not
ended just where no `add` is still to join one it reaped; where every call of `close` returns so, every writer has ended
once one has returned; and in a run that keeps no thread waiting for ever, a producer that was told to wait is woken once
it was taken from the queue, or the connection aborted. -/
theorem fanout_lossless (l : Limits) :
    (∀ s, Runs (State.step l) State.May .start s → Right l s ∧
      ∀ t, (s.tasks t).returns = true → ((∀ c < s.next, (s.conns c).writer = .ended) ↔ s.Joined)) ∧
    (∀ s, Runs (State.step l) Orderly .start s → s.Ended) ∧
    ∀ run : Endless (State.step l) State.May, run.state 0 = .start → run.Fair Event.takes State.There →
      ∀ n, ∀ c < (run.state n).next, ∀ k ∈ ((run.state n).conns c).owed,
        k ∉ ((run.state n).conns c).capacityWaiters ∨ ((run.state n).conns c).aborted = true →
        ∃ m, n ≤ m ∧ k ∉ ((run.state m).conns c).owed := by
  refine ⟨fun s run => ?_, fun s run => (ended_runs run .start nofun).2, fun run start fair n c lt k _ left => ?_⟩
  · have inv := Inv.start.runs run
    exact ⟨inv.right, fun t returns => inv.returns_iff returns⟩
  · have inv (m : Nat) : Inv l (run.state m) := by
      refine Endless.always (fun may inv => inv.step may) ?_ (Nat.zero_le m)
      rw [start]
      exact .start
    have taken : ∃ m, n ≤ m ∧ k ∉ ((run.state m).conns c).capacityWaiters := by
      by_cases waits : k ∈ ((run.state n).conns c).capacityWaiters
      · have aborted := left.resolve_left fun not_ => not_ waits
        obtain ⟨t, locks⟩ := (inv n).left c aborted (List.ne_nil_of_mem waits)
        exact aborted_taken run fair locks
      · exact ⟨n, Nat.le_refl n, waits⟩
    obtain ⟨m, le, left⟩ := taken
    by_cases owes : k ∈ ((run.state m).conns c).owed
    · have known : c < (run.state m).next :=
        Endless.always (I := fun s : State => c < s.next) (fun _ lt => Nat.lt_of_lt_of_le lt (step_next _).1) lt le
      obtain ⟨m', le', woken⟩ := held_woken run fair known (((inv m).owed c k owes).imp_left fun holds =>
        holds.resolve_left left)
      exact ⟨m', Nat.le_trans le le', woken⟩
    · exact ⟨m, le, owes⟩

/-- An event in which a notification goes astray. -/
def Event.stolen : Event → Bool
  | .run _ _ stolen => stolen
  | _ => false

theorem may_of_ready (ready : s.Ready e ∧ e.stolen = false) : s.May e :=
  ⟨ready.1, fun t late is => by
    rw [is] at ready
    cases ready.2⟩

/-- A frame is sent, a producer that waits is woken as it is written, and `close` drains the connection. -/
def drained : List Event :=
  [.add 0 1 true [], .run 0 false false, .sendTo 0 1 [10, 20], .run 0 false false, .run 0 false false,
    .pollSendTo 0 1 [30] 7, .run 0 false false, .write 0 false .failed, .write 0 false .failed,
    .write 0 false (.ok 1), .write 0 false .failed, .write 0 false .interrupted, .write 0 false .failed,
    .write 0 false (.ok 1), .write 0 false .failed, .write 0 false .failed, .write 0 false .failed,
    .write 0 false .failed, .close 0 [0], .run 0 false false, .run 0 false false, .write 0 false .failed,
    .write 0 false .failed, .write 0 false .failed, .write 0 false .failed, .run 0 false false, .run 0 false false,
    .run 0 false false, .run 0 false false, .run 0 false false, .run 0 false false, .run 0 false false,
    .run 0 false false]

set_option maxRecDepth 4000 in
theorem fanout_lossless_drained : ∃ s, Runs (State.step ⟨1, 8⟩) State.May .start s ∧ Right ⟨1, 8⟩ s ∧ s.closes = 1 ∧
    (s.conns 0).written = [10, 20] ∧ (s.conns 0).owed = [] := by
  have fits : Fits (State.step ⟨1, 8⟩) (fun s e => s.Ready e ∧ e.stolen = false) .start drained := by decide
  have run := fits.runs.mono may_of_ready
  exact ⟨_, run, ((fanout_lossless ⟨1, 8⟩).1 _ run).1, by decide, by decide, by decide⟩

/-- The reader of a connection leaves; an `add` reaps the connection as its writer is about to end, and a `close` that
comes between returns while that writer goes on. -/
def reaped : List Event :=
  [.add 0 1 true [], .run 0 false false, .remove 0 1, .run 0 false false, .run 0 false false, .run 0 false false,
    .write 0 false .failed, .write 0 false .failed, .write 0 false .failed, .add 1 2 true [], .close 0 [1],
    .run 0 false false, .run 0 true false, .run 0 false false, .run 0 false false, .run 0 false false,
    .run 0 false false, .write 1 false .failed, .write 1 false .failed, .write 1 false .failed,
    .write 1 false .failed, .run 0 false false, .run 0 false false]

set_option maxRecDepth 4000 in
/-- `close` has returned and a writer has not ended. -/
theorem close_leaves_writer : ∃ s, Runs (State.step ⟨1, 8⟩) State.May .start s ∧ 0 < s.closes ∧
    ∃ c < s.next, (s.conns c).writer ≠ .ended := by
  have fits : Fits (State.step ⟨1, 8⟩) (fun s e => s.Ready e ∧ e.stolen = false) .start reaped := by decide
  exact ⟨_, fits.runs.mono may_of_ready, by decide, 0, by decide, by decide⟩

end Khor.Fanout
