/-
Module: Khor.Gui.CommandQueue
Purpose: The command queue of an attachment (apps/gui/core/src/command_queue.rs): callers submit, one worker thread
  takes the commands from the front, a close answers what is left, and each accepted command has a completion that its
  caller waits on or polls.
Trusted boundary: the mutex, condition variable and waker of the language, one event for each stretch of code under
  a lock; a command ends
Main exports: State, Event, State.step, State.May
-/
import Khor.Lib.Runs
import Khor.Lib.Fair

namespace Khor.Gui

def CLOSED : String := "attachment is closed"

def PANICKED : String := "attachment command panicked"

def CAPACITY : Nat := 256

/-- How the work of a command ends. -/
inductive Ran (V : Type) where
  | returned (result : Except String V)
  | panicked

/-- `catch_unwind` with its default. -/
def Ran.caught {V : Type} : Ran V → Except String V
  | .returned result => result
  | .panicked => .error PANICKED

/-- Where a worker thread is: about to take a command, with one it took, running it, with its result, or about to ring
for the result it stored. -/
inductive Worker (V : Type) where
  | absent
  | seeking
  | took (job : Nat)
  | working (job : Nat)
  | worked (job : Nat) (ran : Ran V)
  | stored (job : Nat) (wake : Bool)
  | gone

/-- The thread is there. -/
def Worker.Live {V : Type} : Worker V → Prop
  | .absent | .gone => False
  | _ => True

/-- The command a worker has to answer. -/
def Worker.carries {V : Type} : Worker V → Option Nat
  | .took job | .working job | .worked job _ => some job
  | _ => none

/-- A call of `close` past its lock: what it has to answer, and the command it is about to ring for. -/
structure Closing where
  left : List Nat
  ringing : Option (Nat × Bool)

/-- The holder of a `Pending`. `asked sync awake`: in `wait` or after a `poll`, asleep until it is woken. -/
inductive Asker (V : Type) where
  | absent
  | held
  | asked (sync awake : Bool)
  | resolved (result : Except String V)
  | dropped

/-- The one who waits on the condition variable is woken, and the task if its waker was taken. -/
def Asker.rung {V : Type} (wake : Bool) : Asker V → Asker V
  | .asked sync awake => .asked sync (awake || sync || wake)
  | asker => asker

/-- Where an accepted command is. -/
inductive Place where
  | absent
  | queued
  | worker (w : Nat)
  | closing (c : Nat)
  | answered
deriving DecidableEq

/-- The queue's state, its threads and the completions. The fields from `accepted` on are ghosts: what was accepted and
what was started, in order, what each command came to, every result stored for it, and where it is. -/
structure State (V : Type) where
  jobs : List Nat
  running : Bool
  closed : Bool
  workers : Nat → Worker V
  spawned : Nat
  closings : Nat → Option Closing
  closers : Nat
  result : Nat → Option (Except String V)
  waker : Nat → Bool
  asker : Nat → Asker V
  next : Nat
  accepted : List Nat
  started : List Nat
  own : Nat → Option (Ran V)
  answers : Nat → List (Except String V)
  place : Nat → Place

inductive Event (V : Type) where
  | submit (spawns : Bool)
  | close
  | work (w : Nat) (ran : Ran V)
  | answer (c : Nat)
  | ask (job : Nat) (sync : Bool)
  | drop (job : Nat)

/-- One value of a function is another. -/
def put {α : Type} (f : Nat → α) (i : Nat) (a : α) : Nat → α := fun k => if k = i then a else f k

@[simp, grind =] theorem put_apply {α : Type} (f : Nat → α) (i : Nat) (a : α) (k : Nat) :
    put f i a k = if k = i then a else f k := rfl

namespace State

variable {V : Type}

def start : State V where
  jobs := []
  running := false
  closed := false
  workers := fun _ => .absent
  spawned := 0
  closings := fun _ => none
  closers := 0
  result := fun _ => none
  waker := fun _ => false
  asker := fun _ => .absent
  next := 0
  accepted := []
  started := []
  own := fun _ => none
  answers := fun _ => []
  place := fun _ => .absent

/-- `CommandQueue::submit`, which holds the lock throughout. -/
def submit (s : State V) (spawns : Bool) : State V :=
  if s.closed then s
  else if CAPACITY ≤ s.jobs.length then s
  else
    let s' := { s with
      jobs := s.jobs ++ [s.next]
      next := s.next + 1
      asker := put s.asker s.next .held
      accepted := s.accepted ++ [s.next]
      place := put s.place s.next .queued }
    if s.running then s'
    else if spawns then
      { s' with running := true, workers := put s.workers s.spawned .seeking, spawned := s.spawned + 1 }
    else { s with running := false, jobs := [], next := s.next + 1 }

/-- The part of `CommandQueue::close` under the lock. -/
def close (s : State V) : State V :=
  { s with
    closed := true
    jobs := []
    closings := put s.closings s.closers (some ⟨s.jobs, none⟩)
    closers := s.closers + 1
    place := fun j => if s.place j = .queued then .closing s.closers else s.place j }

/-- A result is stored in the completion. -/
def store (s : State V) (job : Nat) (result : Except String V) : State V :=
  { s with
    result := put s.result job (some result)
    waker := put s.waker job false
    answers := put s.answers job (s.answers job ++ [result])
    place := put s.place job .answered }

def ring (s : State V) (job : Nat) (wake : Bool) : State V :=
  { s with asker := put s.asker job ((s.asker job).rung wake) }

/-- The next step of a worker. -/
def work (s : State V) (w : Nat) (ran : Ran V) : State V :=
  match s.workers w with
  | .seeking =>
      match s.jobs with
      | [] => { s with running := false, workers := put s.workers w .gone }
      | job :: jobs => { s with
          jobs, workers := put s.workers w (.took job), place := put s.place job (.worker w) }
  | .took job => { s with workers := put s.workers w (.working job), started := s.started ++ [job] }
  | .working job => { s with workers := put s.workers w (.worked job ran), own := put s.own job (some ran) }
  | .worked job ran =>
      { s.store job ran.caught with workers := put s.workers w (.stored job (s.waker job)) }
  | .stored job wake => { s.ring job wake with workers := put s.workers w .seeking }
  | .absent | .gone => s

/-- The next step of a close: the next command is told that the queue is closed, or is rung for. -/
def answer (s : State V) (c : Nat) : State V :=
  match s.closings c with
  | some ⟨left, some (job, wake)⟩ => { s.ring job wake with closings := put s.closings c (some ⟨left, none⟩) }
  | some ⟨job :: left, none⟩ =>
      { s.store job (.error CLOSED) with closings := put s.closings c (some ⟨left, some (job, s.waker job)⟩) }
  | some ⟨[], none⟩ => { s with closings := put s.closings c none }
  | none => s

/-- `Pending::wait` (`sync`) or `Pending::poll`, up to where it answers or sleeps. -/
def ask (s : State V) (job : Nat) (sync : Bool) : State V :=
  match s.result job with
  | some result => { s with result := put s.result job none, asker := put s.asker job (.resolved result) }
  | none => { s with
      asker := put s.asker job (.asked sync false)
      waker := if sync then s.waker else put s.waker job true }

def step (s : State V) : Event V → State V
  | .submit spawns => s.submit spawns
  | .close => s.close
  | .work w ran => s.work w ran
  | .answer c => s.answer c
  | .ask job sync => s.ask job sync
  | .drop job => { s with asker := put s.asker job .dropped }

/-- Which events can happen: a thread goes on while it is there, and `wait` takes the `Pending` for good. -/
def May (s : State V) : Event V → Prop
  | .work w _ => (s.workers w).Live
  | .answer c => s.closings c ≠ none
  | .ask job sync => s.asker job = .held ∨ ∃ before awake, s.asker job = .asked before awake ∧ (before = true → sync = true)
  | .drop job => s.asker job = .held ∨ ∃ awake, s.asker job = .asked false awake
  | _ => True

end State

variable {V : Type} {s s' : State V}

@[grind =] theorem live_iff (p : Worker V) : p.Live ↔ p ≠ .absent ∧ p ≠ .gone := by
  cases p <;> simp [Worker.Live]

/-! ### One worker -/

/-- The worker thread and the flag agree. -/
structure Threads (s : State V) : Prop where
  running : ∀ w, (s.workers w).Live → s.running = true
  lone : ∀ w w', (s.workers w).Live → (s.workers w').Live → w = w'
  live : s.running = true → ∃ w, (s.workers w).Live
  idle : s.running = false → s.jobs = []
  fresh : ∀ w, s.spawned ≤ w → s.workers w = .absent

variable {w job : Nat}

/-- A worker that is there goes on. -/
theorem Threads.moves (h : Threads s) (there : (s.workers w).Live) {p : Worker V} (live : p.Live)
    (running : s'.running = s.running) (spawned : s'.spawned = s.spawned) (workers : s'.workers = put s.workers w p) :
    Threads s' where
  running := fun _ _ => running.trans (h.running w there)
  lone := fun v v' hv hv' => by
    have only := h.lone w
    have at_ (k : Nat) := congrFun workers k
    grind
  live := fun _ => ⟨w, by rw [workers, put_apply, if_pos rfl]; exact live⟩
  idle := fun not_ => by
    rw [running, h.running w there] at not_
    cases not_
  fresh := fun v le => by
    have fresh := h.fresh
    have at_ := congrFun workers v
    grind

/-- The worker finds nothing and leaves. -/
theorem Threads.leaves (h : Threads s) (there : (s.workers w).Live) (running : s'.running = false)
    (spawned : s'.spawned = s.spawned) (workers : s'.workers = put s.workers w .gone) (none_ : s'.jobs = []) :
    Threads s' where
  running := fun v live => by
    have only := h.lone w
    have at_ := congrFun workers v
    grind
  lone := fun v v' hv hv' => by
    have only := h.lone w
    have at_ (k : Nat) := congrFun workers k
    grind
  live := fun on => by
    rw [running] at on
    cases on
  idle := fun _ => none_
  fresh := fun v le => by
    have fresh := h.fresh
    have at_ := congrFun workers v
    grind

/-- Nothing but the queue changes, and it stays empty where no worker is there. -/
theorem Threads.keeps (h : Threads s) (running : s'.running = s.running) (workers : s'.workers = s.workers)
    (spawned : s'.spawned = s.spawned) (idle : s.running = false → s'.jobs = []) : Threads s' where
  running := fun w live => by
    rw [running]
    exact h.running w (workers ▸ live)
  lone := fun w w' live live' => h.lone w w' (workers ▸ live) (workers ▸ live')
  live := fun is => by
    rw [workers]
    exact h.live (running ▸ is)
  idle := fun is => idle (running ▸ is)
  fresh := fun w le => by
    rw [workers]
    exact h.fresh w (spawned ▸ le)

theorem Threads.step (h : Threads s) {e : Event V} (may : s.May e) : Threads (s.step e) := by
  cases e with
  | submit spawns =>
      show Threads (s.submit spawns)
      unfold State.submit
      split
      · exact h
      split
      · exact h
      dsimp only
      split
      · rename_i on
        exact h.keeps rfl rfl rfl fun off => by rw [on] at off; cases off
      · rename_i off
        have none_ : ∀ w, ¬(s.workers w).Live := fun w live => off (h.running w live)
        split
        · refine ⟨fun _ _ => rfl, fun v v' hv hv' => ?_, fun _ => ⟨s.spawned, ?_⟩, nofun, fun v le => ?_⟩
          · grind
          · grind
          · have fresh := h.fresh
            grind
        · exact h.keeps (by simpa using (Bool.eq_false_iff.mpr off).symm) rfl rfl fun _ => rfl
  | close => exact h.keeps rfl rfl rfl fun _ => rfl
  | work w ran =>
      have there : (s.workers w).Live := may
      show Threads (s.work w ran)
      cases is : s.workers w with
      | absent | gone =>
          rw [is] at there
          exact there.elim
      | seeking =>
          cases jobs : s.jobs with
          | nil =>
              simp only [State.work, is, jobs]
              exact h.leaves there rfl rfl rfl rfl
          | cons job jobs' =>
              simp only [State.work, is, jobs]
              exact h.moves (p := .took job) there trivial rfl rfl rfl
      | took job =>
          simp only [State.work, is]
          exact h.moves (p := .working job) there trivial rfl rfl rfl
      | working job =>
          simp only [State.work, is]
          exact h.moves (p := .worked job ran) there trivial rfl rfl rfl
      | worked job ran =>
          simp only [State.work, is]
          exact h.moves (p := .stored job (s.waker job)) there trivial rfl rfl rfl
      | stored job wake =>
          simp only [State.work, is]
          exact h.moves (p := .seeking) there trivial rfl rfl rfl
  | answer c =>
      show Threads (s.answer c)
      unfold State.answer
      split
      · exact h.keeps rfl rfl rfl h.idle
      · exact h.keeps rfl rfl rfl h.idle
      · exact h.keeps rfl rfl rfl h.idle
      · exact h
  | ask job sync =>
      show Threads (s.ask job sync)
      unfold State.ask
      split
      · exact h.keeps rfl rfl rfl h.idle
      · exact h.keeps rfl rfl rfl h.idle
  | drop job => exact h.keeps rfl rfl rfl h.idle

/-! ### Every accepted command is in one place -/

structure Places (s : State V) : Prop where
  queued : ∀ j, s.place j = .queued ↔ j ∈ s.jobs
  worker : ∀ j w, s.place j = .worker w ↔ (s.workers w).carries = some j
  closing : ∀ j c, s.place j = .closing c ↔ ∃ closing, s.closings c = some closing ∧ j ∈ closing.left
  absent : ∀ j, s.place j = .absent ↔ j ∉ s.accepted
  jobs : s.jobs.Nodup
  left : ∀ c closing, s.closings c = some closing → closing.left.Nodup
  accepted : s.accepted.Nodup
  fresh : ∀ j ∈ s.accepted, j < s.next
  closers : ∀ c, s.closers ≤ c → s.closings c = none
  closed : s.closed = true → s.jobs = []

section

variable (h : Places s)
include h

theorem Places.keeps (jobs : s'.jobs = s.jobs)
    (workers : ∀ w, (s'.workers w).carries = (s.workers w).carries) (closings : s'.closings = s.closings)
    (place : s'.place = s.place) (accepted : s'.accepted = s.accepted) (next : s.next ≤ s'.next)
    (closers : s'.closers = s.closers) (closed : s'.closed = s.closed) : Places s' where
  queued := by rw [place, jobs]; exact h.queued
  worker := by simp only [place, workers]; exact h.worker
  closing := by rw [place, closings]; exact h.closing
  absent := by rw [place, accepted]; exact h.absent
  jobs := by rw [jobs]; exact h.jobs
  left := by rw [closings]; exact h.left
  accepted := by rw [accepted]; exact h.accepted
  fresh := fun j hj => by
    rw [accepted] at hj
    exact Nat.lt_of_lt_of_le (h.fresh j hj) next
  closers := by rw [closings, closers]; exact h.closers
  closed := by rw [closed, jobs]; exact h.closed

/-- One more command is accepted. -/
theorem Places.accepts (open_ : s.closed = false) {workers : Nat → Worker V} {running : Bool}
    {spawned : Nat} (same : ∀ w, (workers w).carries = (s.workers w).carries) :
    Places { s with
      jobs := s.jobs ++ [s.next]
      running
      workers
      spawned
      next := s.next + 1
      asker := put s.asker s.next .held
      accepted := s.accepted ++ [s.next]
      place := put s.place s.next .queued } := by
  have new : s.next ∉ s.accepted := fun is => Nat.lt_irrefl _ (h.fresh _ is)
  have nowhere := (h.absent s.next).mpr new
  cases h
  constructor
  all_goals grind

/-- The command at the front goes to a worker that had none. -/
theorem Places.pops {jobs : List Nat} (front : s.jobs = job :: jobs) (free : (s.workers w).carries = none) :
    Places { s with jobs, workers := put s.workers w (.took job), place := put s.place job (.worker w) } := by
  have here := (h.queued job).mpr (front ▸ List.mem_cons_self)
  have took : (Worker.took job : Worker V).carries = some job := rfl
  cases h
  constructor
  all_goals grind

/-- What is queued goes to the call of `close`. -/
theorem Places.closes : Places s.close := by
  have none_ := h.closers s.closers (Nat.le_refl _)
  obtain ⟨queued, worker, closing, absent, nodup, left, accepted, fresh, closers, closed⟩ := h
  unfold State.close
  have moved (j c : Nat) : (if s.place j = .queued then .closing s.closers else s.place j) = .closing c ↔
      ∃ closing, put s.closings s.closers (some ⟨s.jobs, none⟩) c = some closing ∧ j ∈ closing.left := by
    by_cases last : c = s.closers
    · rw [last, put_apply, if_pos rfl]
      constructor
      · intro is
        refine ⟨_, rfl, (queued j).mp ?_⟩
        grind
      · rintro ⟨closing, ⟨⟩, hj⟩
        rw [if_pos ((queued j).mpr hj)]
    · rw [put_apply, if_neg last, ← closing]
      grind
  constructor
  case closing => exact moved
  all_goals grind

/-- A worker answers the command it carries. -/
theorem Places.worker_stores (carries : (s.workers w).carries = some job) (result : Except String V)
    (wake : Bool) : Places { s.store job result with workers := put s.workers w (.stored job wake) } := by
  have here := (h.worker job w).mpr carries
  have none_ : (Worker.stored job wake : Worker V).carries = none := rfl
  cases h
  unfold State.store
  constructor
  all_goals grind

/-- A call of `close` answers the first of its commands. -/
theorem Places.closing_stores {c : Nat} {left : List Nat} {ringing : Option (Nat × Bool)}
    (is : s.closings c = some ⟨job :: left, ringing⟩) (result : Except String V) (ringing' : Option (Nat × Bool)) :
    Places { s.store job result with closings := put s.closings c (some ⟨left, ringing'⟩) } := by
  have here := (h.closing job c).mpr ⟨_, is, .head _⟩
  have nodup_ := h.left c _ is
  cases h
  unfold State.store
  constructor
  all_goals grind

/-- A call of `close` goes on with the same commands, or ends with none. -/
theorem Places.closing_goes {c : Nat} {left : List Nat} {ringing : Option (Nat × Bool)}
    (is : s.closings c = some ⟨left, ringing⟩) {next : Option Closing}
    (same : (∃ ringing', next = some ⟨left, ringing'⟩) ∨ left = [] ∧ next = none) (asker : Nat → Asker V) :
    Places { s with asker, closings := put s.closings c next } := by
  cases h
  constructor
  all_goals grind

theorem Places.step (threads : Threads s) {e : Event V} (may : s.May e) : Places (s.step e) := by
  cases e with
  | submit spawns =>
      show Places (s.submit spawns)
      unfold State.submit
      split
      · exact h
      rename_i open_
      have open_ := Bool.eq_false_iff.mpr open_
      split
      · exact h
      dsimp only
      split
      · exact h.accepts open_ fun _ => rfl
      · rename_i off
        split
        · refine h.accepts open_ fun w => ?_
          have fresh := threads.fresh s.spawned (Nat.le_refl _)
          rw [put_apply]
          split
          · rename_i is
            rw [is, fresh]
            rfl
          · rfl
        · have none_ := threads.idle (Bool.eq_false_iff.mpr off)
          exact h.keeps none_.symm (fun _ => rfl) rfl rfl rfl (Nat.le_succ _) rfl rfl
  | close => exact h.closes
  | work w ran =>
      have there : (s.workers w).Live := may
      have goes (p : Worker V) (same : p.carries = (s.workers w).carries) (v : Nat) :
          (put s.workers w p v).carries = (s.workers v).carries := by
        rw [put_apply]
        split
        · rename_i is
          rw [is, same]
        · rfl
      show Places (s.work w ran)
      cases is : s.workers w with
      | absent | gone =>
          rw [is] at there
          exact there.elim
      | seeking =>
          cases jobs : s.jobs with
          | nil =>
              simp only [State.work, is, jobs]
              exact h.keeps jobs.symm (goes .gone (by rw [is]; rfl)) rfl rfl rfl (Nat.le_refl _) rfl rfl
          | cons job jobs' =>
              simp only [State.work, is, jobs]
              exact h.pops jobs (by rw [is]; rfl)
      | took job =>
          simp only [State.work, is]
          exact h.keeps rfl (goes (.working job) (by rw [is]; rfl)) rfl rfl rfl (Nat.le_refl _) rfl rfl
      | working job =>
          simp only [State.work, is]
          exact h.keeps rfl (goes (.worked job ran) (by rw [is]; rfl)) rfl rfl rfl (Nat.le_refl _) rfl rfl
      | worked job ran =>
          simp only [State.work, is]
          exact h.worker_stores (by rw [is]; rfl) ran.caught _
      | stored job wake =>
          simp only [State.work, is]
          exact h.keeps rfl (goes .seeking (by rw [is]; rfl)) rfl rfl rfl (Nat.le_refl _) rfl rfl
  | answer c =>
      show Places (s.answer c)
      unfold State.answer
      split
      · rename_i left job wake is
        exact h.closing_goes is (.inl ⟨none, rfl⟩) _
      · rename_i job left is
        exact h.closing_stores is _ _
      · rename_i is
        exact h.closing_goes is (.inr ⟨rfl, rfl⟩) _
      · exact h
  | ask job sync =>
      show Places (s.ask job sync)
      unfold State.ask
      split
      · exact h.keeps rfl (fun _ => rfl) rfl rfl rfl (Nat.le_refl _) rfl rfl
      · exact h.keeps rfl (fun _ => rfl) rfl rfl rfl (Nat.le_refl _) rfl rfl
  | drop job => exact h.keeps rfl (fun _ => rfl) rfl rfl rfl (Nat.le_refl _) rfl rfl

end

end Khor.Gui
