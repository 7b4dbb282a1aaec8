/-
Module: Khor.Gui.FanoutRuns
Purpose: The fan-out to the GUI as a whole (node/src/gui_host_fanout.rs): the registry of connections and the threads
  that call add, send, send_to, poll_send_to, remove and close, with the writers of Khor.Gui.Fanout beside them. In
  every run each connection gets a prefix of what was admitted for it, the counters are true and within their bounds,
  and no producer that waits is lost.
Trusted boundary: that of Khor.Gui.Fanout; the order in which the map of clients is gone through, the clock, and whether
  a thread can be spawned are inputs
Main exports: State, Event, State.step, Inv, Inv.step
-/
import Khor.Gui.Fanout
import Khor.Lib.Runs

namespace Khor.Fanout

open Function (update)

/-- Where a thread is in `Shared::abort` of a connection: before the lock, past it, waking the producers. -/
inductive Abort where
  | locking (c : Nat)
  | shutting (c : Nat) (waiters : List Nat)
  | waking (c : Nat) (waiters : List Nat)
deriving DecidableEq

/-- What is left of a call of `close` that holds the closing lock; `asleep` on the first connection it awaits. -/
structure Closing where
  drains : List Nat
  awaits : List Nat
  asleep : Bool
  aborts : List Nat
  joins : List Nat
deriving DecidableEq

/-- What a thread has still to do of its call. -/
inductive Call where
  | idle
  | joining (clients : List Nat)
  | sending (frame : Frame) (clients : List Nat)
  | polling (c : Nat) (frame : Frame) (waker : Nat)
  | closing (left : Closing)
deriving DecidableEq

/-- A thread: an abort it is in, and then the rest of its call. -/
structure Task where
  abort : Option Abort
  call : Call
deriving DecidableEq

namespace Task

def idle : Task := ⟨none, .idle⟩

/-- The producers of a connection that the thread is about to wake. -/
@[grind] def hand (c : Nat) : Task → List Nat
  | ⟨some (.shutting d waiters), _⟩ | ⟨some (.waking d waiters), _⟩ => if d = c then waiters else []
  | _ => []

@[grind] def joins : Task → List Nat
  | ⟨_, .joining clients⟩ => clients
  | ⟨_, .closing left⟩ => left.joins
  | _ => []

@[grind] def drains : Task → List Nat
  | ⟨_, .closing left⟩ => left.drains
  | _ => []

@[grind] def awaits : Task → List Nat
  | ⟨_, .closing left⟩ => left.awaits
  | _ => []

@[grind] def closes : Task → Bool
  | ⟨_, .closing _⟩ => true
  | _ => false

/-- The connection whose writer the thread joins next. -/
def joinsNext : Task → Option Nat
  | ⟨none, .joining (c :: _)⟩ | ⟨none, .closing ⟨[], [], _, [], c :: _⟩⟩ => some c
  | _ => none

/-- The connection that the thread gives a frame next. -/
def givesNext : Task → Option Nat
  | ⟨none, .sending _ (c :: _)⟩ | ⟨none, .polling c _ _⟩ => some c
  | _ => none

/-- The connection on whose condition variable the thread is asleep. -/
def sleepsOn : Task → Option Nat
  | ⟨none, .closing ⟨[], c :: _, true, _, _⟩⟩ => some c
  | _ => none

/-- The thread is about to return from `close`. -/
def returns : Task → Bool
  | ⟨none, .closing ⟨[], [], _, [], []⟩⟩ => true
  | _ => false

end Task

/-- The fan-out: the connections that were ever made, the registry, who holds the closing lock, how many calls of `close`
have returned, and the threads. -/
structure State where
  conns : Nat → Conn
  next : Nat
  clients : List (Nat × Nat)
  closed : Bool
  closing : Option Nat
  closes : Nat
  tasks : Nat → Task

/-- The first stretch of a call, the next step of a thread, or the next step of a writer. `missed` are connections whose
writer ends after `add` has looked at it. -/
inductive Event where
  | add (t who : Nat) (spawns : Bool) (missed : List Nat)
  | send (t : Nat) (frame : Frame) (order : List Nat)
  | sendTo (t who : Nat) (frame : Frame)
  | pollSendTo (t who : Nat) (frame : Frame) (waker : Nat)
  | remove (t who : Nat)
  | close (t : Nat) (order : List Nat)
  | run (t : Nat) (late stolen : Bool)
  | write (c : Nat) (stalled : Bool) (sent : Sent)

namespace State

def start : State where
  conns := fun _ => .new
  next := 0
  clients := []
  closed := false
  closing := none
  closes := 0
  tasks := fun _ => .idle

/-- A thread goes on. -/
def goes (s : State) (t : Nat) (task : Task) : State := { s with tasks := update s.tasks t task }

/-- A connection is changed by a thread, which goes on. -/
def changes (s : State) (c : Nat) (q : Conn) (t : Nat) (task : Task) : State :=
  { s with conns := update s.conns c q, tasks := update s.tasks t task }

/-- `Fanout::add` up to the joins. -/
def add (s : State) (t who : Nat) (spawns : Bool) (missed : List Nat) : State :=
  if s.closed then s
  else if s.clients.any (·.1 == who) then s
  else if spawns then
    let finished (client : Nat × Nat) : Bool := (s.conns client.2).done && !missed.contains client.2
    { s with
      conns := update s.conns s.next .new
      next := s.next + 1
      clients := s.clients.filter (!finished ·) ++ [(who, s.next)]
      tasks := update s.tasks t ⟨none, .joining ((s.clients.filter finished).map (·.2))⟩ }
  else s

/-- `Fanout::send` up to the queues. -/
def send (s : State) (t : Nat) (frame : Frame) (order : List Nat) : State :=
  if s.closed then s else s.goes t ⟨none, .sending frame order⟩

/-- `Fanout::send_to` up to the queue. -/
def sendTo (s : State) (t who : Nat) (frame : Frame) : State :=
  if s.closed then s
  else match s.clients.lookup who with
    | some c => s.goes t ⟨none, .sending frame [c]⟩
    | none => s

/-- `Fanout::poll_send_to` up to the queue. -/
def pollSendTo (s : State) (t who : Nat) (frame : Frame) (waker : Nat) : State :=
  if s.closed then s
  else match s.clients.lookup who with
    | some c => s.goes t ⟨none, .polling c frame waker⟩
    | none => s

/-- `Fanout::remove` up to the abort. -/
def remove (s : State) (t who : Nat) : State :=
  match s.clients.lookup who with
  | some c => s.goes t ⟨some (.locking c), .idle⟩
  | none => s

/-- `Fanout::close` takes the closing lock and the connections. -/
def close (s : State) (t : Nat) (order : List Nat) : State :=
  { s with
    closed := true
    clients := []
    closing := some t
    tasks := update s.tasks t ⟨none, .closing ⟨order, order, false, order, order⟩⟩ }

/-- The next step of a call of `close`. -/
def closeNext (s : State) (t : Nat) (late : Bool) : Closing → State
  | ⟨c :: drains, awaits, asleep, aborts, joins⟩ =>
      s.changes c (s.conns c).drain t ⟨none, .closing ⟨drains, awaits, asleep, aborts, joins⟩⟩
  | ⟨[], c :: awaits, true, aborts, joins⟩ => s.goes t ⟨none, .closing ⟨[], c :: awaits, false, aborts, joins⟩⟩
  | ⟨[], c :: awaits, false, aborts, joins⟩ =>
      if (s.conns c).done || late then s.goes t ⟨none, .closing ⟨[], awaits, false, aborts, joins⟩⟩
      else s.goes t ⟨none, .closing ⟨[], c :: awaits, true, aborts, joins⟩⟩
  | ⟨[], [], asleep, c :: aborts, joins⟩ =>
      s.goes t ⟨some (.locking c), .closing ⟨[], [], asleep, aborts, joins⟩⟩
  | ⟨[], [], asleep, [], _ :: joins⟩ => s.goes t ⟨none, .closing ⟨[], [], asleep, [], joins⟩⟩
  | ⟨[], [], _, [], []⟩ => { s with closing := none, closes := s.closes + 1, tasks := update s.tasks t .idle }

/-- The next step of a thread. -/
def run (l : Limits) (s : State) (t : Nat) (late stolen : Bool) : State :=
  match s.tasks t with
  | ⟨some (.locking c), call⟩ =>
      s.changes c (s.conns c).abort.1 t ⟨some (.shutting c (s.conns c).abort.2), call⟩
  | ⟨some (.shutting c waiters), call⟩ => s.changes c (s.conns c).shutdown t ⟨some (.waking c waiters), call⟩
  | ⟨some (.waking c (waker :: waiters)), call⟩ =>
      s.changes c ((s.conns c).wake waker) t ⟨some (.waking c waiters), call⟩
  | ⟨some (.waking _ []), call⟩ => s.goes t ⟨none, call⟩
  | ⟨none, .idle⟩ => s
  | ⟨none, .joining []⟩ => s.goes t .idle
  | ⟨none, .joining (_ :: clients)⟩ => s.goes t ⟨none, .joining clients⟩
  | ⟨none, .sending _ []⟩ => s.goes t .idle
  | ⟨none, .sending frame (c :: clients)⟩ =>
      let (q, overflow) := (s.conns c).enqueue l frame stolen
      s.changes c q t ⟨if overflow then some (.locking c) else none, .sending frame clients⟩
  | ⟨none, .polling c frame waker⟩ => s.changes c ((s.conns c).pollEnqueue l frame waker stolen).1 t .idle
  | ⟨none, .closing left⟩ => s.closeNext t late left

def step (l : Limits) (s : State) : Event → State
  | .add t who spawns missed => s.add t who spawns missed
  | .send t frame order => s.send t frame order
  | .sendTo t who frame => s.sendTo t who frame
  | .pollSendTo t who frame waker => s.pollSendTo t who frame waker
  | .remove t who => s.remove t who
  | .close t order => s.close t order
  | .run t late stolen => s.run l t late stolen
  | .write c stalled sent => { s with conns := update s.conns c ((s.conns c).write stalled sent) }

/-- A thread makes one call at a time, `close` waits for its lock, and a join waits for the writer. -/
def Ready (s : State) : Event → Prop
  | .add t _ _ _ | .sendTo t _ _ | .pollSendTo t _ _ _ | .remove t _ => s.tasks t = .idle
  | .send t _ order => s.tasks t = .idle ∧ order.Perm (s.clients.map (·.2))
  | .close t order => s.tasks t = .idle ∧ s.closing = none ∧ order.Perm (s.clients.map (·.2))
  | .run t _ _ => s.tasks t ≠ .idle ∧ ∀ c ∈ (s.tasks t).joinsNext, (s.conns c).writer = .ended
  | .write c _ sent => c < s.next ∧ (s.conns c).writer ≠ .ended ∧ (s.conns c).Answers sent

instance (s : State) : ∀ e, Decidable (s.Ready e)
  | .add t _ _ _ | .sendTo t _ _ | .pollSendTo t _ _ _ | .remove t _ => inferInstanceAs (Decidable (s.tasks t = .idle))
  | .send .. | .close .. | .run .. | .write .. => inferInstanceAs (Decidable (_ ∧ _))

/-- Which events can happen: those whose thread is ready, where a notification goes astray (`stolen`) only if another
thread is asleep on the same condition variable. -/
def May (s : State) (e : Event) : Prop :=
  s.Ready e ∧ ∀ t late, e = .run t late true → ∀ c, (s.tasks t).givesNext = some c →
    ∃ t', (s.tasks t').sleepsOn = some c

end State

variable {l : Limits} {s s' : State}

structure Inv (l : Limits) (s : State) : Prop where
  sound : ∀ c, (s.conns c).Sound l
  owed : ∀ c, ∀ k ∈ (s.conns c).owed, (s.conns c).Holds k ∨ ∃ t, k ∈ (s.tasks t).hand c
  left : ∀ c, (s.conns c).aborted = true → (s.conns c).capacityWaiters ≠ [] →
    ∃ t, (s.tasks t).abort = some (.locking c)
  known : ∀ client ∈ s.clients, client.2 < s.next
  joins : ∀ t, ∀ c ∈ (s.tasks t).joins, c < s.next ∧ ((s.tasks t).closes = true ∨ (s.conns c).done = true)
  awaits : ∀ t, ∀ c ∈ (s.tasks t).awaits, c < s.next ∧ (c ∈ (s.tasks t).drains ∨ (s.conns c).draining = true)
  placed : ∀ c < s.next, c ∈ s.clients.map (·.2) ∨ (∃ t, c ∈ (s.tasks t).joins) ∨ (s.conns c).writer = .ended
  closer : ∀ t, (s.tasks t).closes = true → s.closing = some t ∧ s.closed = true
  shut : s.closed = true → s.clients = []
  after : 0 < s.closes → s.closed = true ∧ ∀ c < s.next, (s.conns c).done = true

theorem Inv.start : Inv l State.start := by
  constructor
  case sound => exact fun _ => .new
  all_goals simp [State.start, Conn.new, Task.idle, Task.joins, Task.awaits, Task.closes]

/-- What a thread keeps of its obligations in a step on a connection that is then `q`. -/
structure Task.Goes (s : State) (c : Nat) (q : Conn) (old new : Task) : Prop where
  hands : ∀ d ≠ c, ∀ k ∈ old.hand d, k ∈ new.hand d
  locks : ∀ d ≠ c, old.abort = some (.locking d) → new.abort = some (.locking d)
  joins : ∀ d ∈ new.joins, d ∈ old.joins
  joined : ∀ d ∈ old.joins, d ∈ new.joins ∨ (s.conns d).writer = .ended
  closes : new.closes = old.closes
  awaits : ∀ d ∈ new.awaits, d ∈ old.awaits
  drains : ∀ d ∈ old.drains, d ∈ new.drains ∨ d = c ∧ q.draining = true

variable {c t : Nat} {task : Task} {call : Call}

/-- A connection goes on, and with it the thread that changes it. -/
theorem Inv.changes (inv : Inv l s) {q : Conn} {given : List Nat} {woken : Option Nat} (sound : q.Sound l)
    (step : (s.conns c).Step q given woken) (goes : Task.Goes s c q (s.tasks t) task)
    (given_ : ∀ k ∈ given, k ∈ task.hand c) (kept : ∀ k ∈ (s.tasks t).hand c, k ∈ task.hand c ∨ some k = woken)
    (lock : q.aborted = true → q.capacityWaiters ≠ [] → task.abort = some (.locking c) ∨
      (s.conns c).aborted = true ∧ (s.tasks t).abort ≠ some (.locking c)) : Inv l (s.changes c q t task) where
  sound := fun d => by
    by_cases is : d = c
    · subst is
      simpa [State.changes] using sound
    · simpa [State.changes, is] using inv.sound d
  owed := fun d k owes => by
    by_cases is : d = c
    · subst is
      simp only [State.changes, Function.update_self] at owes ⊢
      obtain here | mine | ⟨owed, not_, other⟩ := step.owed k owes
      · exact .inl here
      · exact .inr ⟨t, by simpa using given_ k mine⟩
      · obtain holds | ⟨t', has⟩ := inv.owed d k owed
        · exact absurd holds not_
        · refine .inr ⟨t', ?_⟩
          by_cases same : t' = t
          · subst same
            simpa using (kept k has).resolve_right other
          · simpa [same] using has
    · simp only [State.changes, Function.update_of_ne is] at owes ⊢
      obtain holds | ⟨t', has⟩ := inv.owed d k owes
      · exact .inl holds
      · refine .inr ⟨t', ?_⟩
        by_cases same : t' = t
        · subst same
          simpa using goes.hands d is k has
        · simpa [same] using has
  left := fun d aborted waits => by
    by_cases is : d = c
    · subst is
      simp only [State.changes, Function.update_self] at aborted waits ⊢
      obtain locks | ⟨was, not_⟩ := lock aborted waits
      · exact ⟨t, by simpa using locks⟩
      · obtain ⟨k, rest, some_⟩ := List.exists_cons_of_ne_nil waits
        have before := step.waits was k (by rw [some_]; exact List.mem_cons_self)
        obtain ⟨t', locks⟩ := inv.left d was (List.ne_nil_of_mem before)
        have other : t' ≠ t := fun same => not_ (same ▸ locks)
        exact ⟨t', by simpa [other] using locks⟩
    · simp only [State.changes, Function.update_of_ne is] at aborted waits ⊢
      obtain ⟨t', locks⟩ := inv.left d aborted waits
      refine ⟨t', ?_⟩
      by_cases same : t' = t
      · subst same
        simpa using goes.locks d is locks
      · simpa [same] using locks
  known := inv.known
  joins := fun t' d has => by
    have done : (s.conns d).done = true → (update s.conns c q d).done = true := by
      by_cases is : d = c
      · subst is
        simpa using step.done
      · simp [is]
    simp only [State.changes] at has ⊢
    by_cases same : t' = t
    · subst same
      simp only [Function.update_self] at has ⊢
      obtain ⟨lt, why⟩ := inv.joins t' d (goes.joins d has)
      exact ⟨lt, why.imp (fun closes => goes.closes.trans closes) done⟩
    · simp only [Function.update_of_ne same] at has ⊢
      obtain ⟨lt, why⟩ := inv.joins t' d has
      exact ⟨lt, why.imp_right done⟩
  awaits := fun t' d has => by
    have draining : (s.conns d).draining = true → (update s.conns c q d).draining = true := by
      by_cases is : d = c
      · subst is
        simpa using step.draining
      · simp [is]
    simp only [State.changes] at has ⊢
    by_cases same : t' = t
    · subst same
      simp only [Function.update_self] at has ⊢
      obtain ⟨lt, drains | already⟩ := inv.awaits t' d (goes.awaits d has)
      · obtain still | ⟨rfl, now⟩ := goes.drains d drains
        · exact ⟨lt, .inl still⟩
        · exact ⟨lt, .inr (by simpa using now)⟩
      · exact ⟨lt, .inr (draining already)⟩
    · simp only [Function.update_of_ne same] at has ⊢
      obtain ⟨lt, why⟩ := inv.awaits t' d has
      exact ⟨lt, why.imp_right draining⟩
  placed := fun d lt => by
    have ended : (s.conns d).writer = .ended → (update s.conns c q d).writer = .ended := by
      by_cases is : d = c
      · subst is
        simpa using step.ended
      · simp [is]
    simp only [State.changes]
    obtain registered | ⟨t', has⟩ | past := inv.placed d lt
    · exact .inl registered
    · by_cases same : t' = t
      · subst same
        obtain still | past := goes.joined d has
        · exact .inr (.inl ⟨t', by simpa using still⟩)
        · exact .inr (.inr (ended past))
      · exact .inr (.inl ⟨t', by simpa [same] using has⟩)
    · exact .inr (.inr (ended past))
  closer := fun t' closes => by
    simp only [State.changes] at closes ⊢
    by_cases same : t' = t
    · subst same
      rw [Function.update_self] at closes
      exact inv.closer t' (goes.closes.symm.trans closes)
    · rw [Function.update_of_ne same] at closes
      exact inv.closer t' closes
  shut := inv.shut
  after := fun closed => by
    obtain ⟨shut, done⟩ := inv.after closed
    refine ⟨shut, fun d lt => ?_⟩
    simp only [State.changes]
    by_cases is : d = c
    · subst is
      simpa using step.done (done d lt)
    · simpa [is] using done d lt

/-- A thread goes on and no connection changes. -/
theorem Inv.goes (inv : Inv l s) (hands : ∀ d, ∀ k ∈ (s.tasks t).hand d, k ∈ task.hand d)
    (locks : ∀ d, (s.tasks t).abort ≠ some (.locking d)) (joins : ∀ d ∈ task.joins, d ∈ (s.tasks t).joins)
    (joined : ∀ d ∈ (s.tasks t).joins, d ∈ task.joins ∨ (s.conns d).writer = .ended)
    (closes : task.closes = (s.tasks t).closes) (awaits : ∀ d ∈ task.awaits, d ∈ (s.tasks t).awaits)
    (drains : ∀ d ∈ (s.tasks t).drains, d ∈ task.drains) : Inv l (s.goes t task) := by
  have same : s.goes t task = s.changes 0 (s.conns 0) t task := by
    simp [State.goes, State.changes]
  rw [same]
  exact inv.changes (inv.sound 0) (.refl _)
    ⟨fun d _ => hands d, fun d _ is => absurd is (locks d), joins, joined, closes, awaits, fun d has => .inl (drains d has)⟩
    nofun (fun k has => .inl (hands 0 k has)) fun aborted _ => .inr ⟨aborted, locks 0⟩

/-- A writer goes on. -/
theorem Inv.write (inv : Inv l s) (c : Nat) (stalled : Bool) (sent : Sent) :
    Inv l { s with conns := update s.conns c ((s.conns c).write stalled sent) } := by
  have same : { s with conns := update s.conns c ((s.conns c).write stalled sent) } =
      s.changes c ((s.conns c).write stalled sent) 0 (s.tasks 0) := by
    simp [State.changes]
  rw [same]
  refine inv.changes ((inv.sound c).write stalled sent) (.write _ stalled sent)
    ⟨fun _ _ _ has => has, fun _ _ is => is, fun _ has => has, fun _ has => .inl has, rfl, fun _ has => has,
      fun _ has => .inl has⟩ nofun (fun _ has => .inl has) fun aborted waits => ?_
  by_cases locks : (s.tasks 0).abort = some (.locking c)
  · exact .inl locks
  · exact .inr ⟨(s.conns c).write_aborts stalled sent aborted waits, locks⟩

/-! ### The calls -/

section

variable (inv : Inv l s) (idle : s.tasks t = .idle)
include inv idle

/-- A thread that was idle begins a call that has nothing to join. -/
theorem Inv.begins (joins : task.joins = []) (closes : task.closes = false)
    (awaits : task.awaits = []) : Inv l (s.goes t task) := by
  refine inv.goes (fun d k has => ?_) (fun d => ?_) (by rw [joins]; exact nofun) (fun d has => ?_) ?_
    (by rw [awaits]; exact nofun) (fun d has => ?_)
  all_goals rw [idle] at *
  · cases has
  · exact nofun
  · cases has
  · exact closes
  · cases has

theorem Inv.add (who : Nat) (spawns : Bool) (missed : List Nat) :
    Inv l (s.add t who spawns missed) := by
  unfold State.add
  split
  · exact inv
  rename_i open_
  split
  · exact inv
  split
  swap
  · exact inv
  extract_lets finished
  have old {c : Nat} (lt : c < s.next) : update s.conns s.next .new c = s.conns c :=
    Function.update_of_ne (Nat.ne_of_lt lt) _ _
  have none_ : s.closes = 0 := by
    by_contra some_
    exact open_ (inv.after (Nat.pos_of_ne_zero some_)).1
  have reaped {c : Nat} (has : c ∈ (s.clients.filter finished).map (·.2)) :
      c < s.next ∧ (s.conns c).done = true := by
    obtain ⟨client, mem, rfl⟩ := List.mem_map.mp has
    obtain ⟨mem, is⟩ := List.mem_filter.mp mem
    refine ⟨inv.known client mem, ?_⟩
    simp only [finished, Bool.and_eq_true] at is
    exact is.1
  have others {t' : Nat} (ne : t' ≠ t) (task : Task) : update s.tasks t task t' = s.tasks t' :=
    Function.update_of_ne ne _ _
  constructor
  case sound =>
      intro c
      dsimp only
      by_cases is : c = s.next
      · subst is
        simpa using Conn.Sound.new
      · simpa [is] using inv.sound c
  case owed =>
      intro c k owes
      dsimp only at owes ⊢
      by_cases is : c = s.next
      · subst is
        simp [Conn.new] at owes
      · simp only [Function.update_of_ne is] at owes ⊢
        refine (inv.owed c k owes).imp_right ?_
        rintro ⟨t', has⟩
        by_cases same : t' = t
        · subst same
          simp [idle, Task.idle, Task.hand] at has
        · exact ⟨t', by simpa [same] using has⟩
  case left =>
      intro c aborted waits
      dsimp only at aborted waits ⊢
      by_cases is : c = s.next
      · subst is
        simp [Conn.new] at aborted
      · simp only [Function.update_of_ne is] at aborted waits
        obtain ⟨t', locks⟩ := inv.left c aborted waits
        by_cases same : t' = t
        · subst same
          simp [idle, Task.idle] at locks
        · exact ⟨t', by simpa [same] using locks⟩
  case known =>
      intro client mem
      dsimp only at mem ⊢
      obtain mem | mem := List.mem_append.mp mem
      · exact Nat.lt_succ_of_lt (inv.known client (List.mem_of_mem_filter mem))
      · rw [List.mem_singleton] at mem
        rw [mem]
        exact Nat.lt_succ_self _
  case joins =>
      intro t' c has
      dsimp only at has ⊢
      by_cases same : t' = t
      · subst same
        rw [Function.update_self] at has
        obtain ⟨lt, done⟩ := reaped has
        exact ⟨Nat.lt_succ_of_lt lt, .inr (by rw [old lt]; exact done)⟩
      · rw [others same] at has ⊢
        obtain ⟨lt, why⟩ := inv.joins t' c has
        exact ⟨Nat.lt_succ_of_lt lt, by rw [old lt]; exact why⟩
  case awaits =>
      intro t' c has
      dsimp only at has ⊢
      by_cases same : t' = t
      · subst same
        simp [Task.awaits] at has
      · rw [others same] at has ⊢
        obtain ⟨lt, why⟩ := inv.awaits t' c has
        exact ⟨Nat.lt_succ_of_lt lt, by rw [old lt]; exact why⟩
  case placed =>
      intro c lt
      dsimp only at lt ⊢
      by_cases is : c = s.next
      · exact .inl (by simp [is])
      have lt : c < s.next := by omega
      rw [old lt]
      obtain registered | ⟨t', has⟩ | past := inv.placed c lt
      · obtain ⟨client, mem, rfl⟩ := List.mem_map.mp registered
        -- a registered connection is kept or reaped
        by_cases reaps : finished client = true
        · refine .inr (.inl ⟨t, ?_⟩)
          rw [Function.update_self]
          exact List.mem_map.mpr ⟨client, List.mem_filter.mpr ⟨mem, reaps⟩, rfl⟩
        · refine .inl (List.mem_map.mpr ⟨client, List.mem_append_left _ (List.mem_filter.mpr ⟨mem, ?_⟩), rfl⟩)
          simpa using reaps
      · refine .inr (.inl ⟨t', ?_⟩)
        have same : t' ≠ t := by
          rintro rfl
          simp [idle, Task.idle, Task.joins] at has
        rwa [others same]
      · exact .inr (.inr past)
  case closer =>
      intro t' closes
      dsimp only at closes ⊢
      by_cases same : t' = t
      · subst same
        simp [Task.closes] at closes
      · rw [others same] at closes
        exact inv.closer t' closes
  case shut => exact fun closed => absurd closed open_
  case after =>
      intro closed
      dsimp only at closed
      rw [none_] at closed
      cases closed

theorem Inv.send (frame : Frame) (order : List Nat) :
    Inv l (s.send t frame order) := by
  unfold State.send
  split
  · exact inv
  · exact inv.begins idle rfl rfl rfl

theorem Inv.sendTo (who : Nat) (frame : Frame) :
    Inv l (s.sendTo t who frame) := by
  unfold State.sendTo
  split
  · exact inv
  split
  · exact inv.begins idle rfl rfl rfl
  · exact inv

theorem Inv.pollSendTo (who : Nat) (frame : Frame) (waker : Nat) :
    Inv l (s.pollSendTo t who frame waker) := by
  unfold State.pollSendTo
  split
  · exact inv
  split
  · exact inv.begins idle rfl rfl rfl
  · exact inv

theorem Inv.remove (who : Nat) : Inv l (s.remove t who) := by
  unfold State.remove
  split
  · exact inv.begins idle rfl rfl rfl
  · exact inv

theorem Inv.close (free : s.closing = none) {order : List Nat}
    (all : order.Perm (s.clients.map (·.2))) : Inv l (s.close t order) := by
  have others {t' : Nat} (ne : t' ≠ t) (task : Task) : update s.tasks t task t' = s.tasks t' :=
    Function.update_of_ne ne _ _
  have known {c : Nat} (has : c ∈ order) : c < s.next := by
    obtain ⟨client, mem, rfl⟩ := List.mem_map.mp (all.mem_iff.mp has)
    exact inv.known client mem
  unfold State.close
  constructor
  case sound => exact inv.sound
  case owed =>
      intro c k owes
      refine (inv.owed c k owes).imp_right ?_
      rintro ⟨t', has⟩
      have same : t' ≠ t := by
        rintro rfl
        simp [idle, Task.idle, Task.hand] at has
      exact ⟨t', by simpa [same] using has⟩
  case left =>
      intro c aborted waits
      obtain ⟨t', locks⟩ := inv.left c aborted waits
      have same : t' ≠ t := by
        rintro rfl
        simp [idle, Task.idle] at locks
      exact ⟨t', by simpa [same] using locks⟩
  case known => exact nofun
  case joins =>
      intro t' c has
      dsimp only at has ⊢
      by_cases same : t' = t
      · subst same
        rw [Function.update_self] at has ⊢
        exact ⟨known has, .inl rfl⟩
      · rw [others same] at has ⊢
        exact inv.joins t' c has
  case awaits =>
      intro t' c has
      dsimp only at has ⊢
      by_cases same : t' = t
      · subst same
        rw [Function.update_self] at has ⊢
        exact ⟨known has, .inl has⟩
      · rw [others same] at has ⊢
        exact inv.awaits t' c has
  case placed =>
      intro c lt
      dsimp only
      obtain registered | ⟨t', has⟩ | past := inv.placed c lt
      · refine .inr (.inl ⟨t, ?_⟩)
        rw [Function.update_self]
        exact all.mem_iff.mpr registered
      · refine .inr (.inl ⟨t', ?_⟩)
        have same : t' ≠ t := by
          rintro rfl
          simp [idle, Task.idle, Task.joins] at has
        rwa [others same]
      · exact .inr (.inr past)
  case closer =>
      intro t' closes
      dsimp only at closes ⊢
      by_cases same : t' = t
      · exact ⟨by rw [same], rfl⟩
      · rw [others same] at closes
        have held := (inv.closer t' closes).1
        rw [free] at held
        cases held
  case shut => exact fun _ => rfl
  case after => exact fun closed => ⟨rfl, (inv.after closed).2⟩

end

/-! ### The steps of the threads -/

/-- A thread is asleep on a connection only while it drains. -/
theorem Inv.sleeps (inv : Inv l s) (is : (s.tasks t).sleepsOn = some c) : (s.conns c).draining = true := by
  generalize task : s.tasks t = old at is
  unfold Task.sleepsOn at is
  split at is
  · rename_i awaits aborts joins
    cases is
    obtain ⟨-, drains | draining⟩ := inv.awaits t c (by rw [task]; exact List.mem_cons_self)
    · rw [task] at drains
      cases drains
    · exact draining
  · cases is

/-- A thread that is in no abort takes up one, or goes on, with the same joins. -/
theorem Task.Goes.same {q : Conn} {old new : Option Abort}
    (hands : ∀ d ≠ c, ∀ k ∈ Task.hand d ⟨old, call⟩, k ∈ Task.hand d ⟨new, call⟩)
    (locks : ∀ d ≠ c, old = some (.locking d) → new = some (.locking d)) :
    Task.Goes s c q ⟨old, call⟩ ⟨new, call⟩ := by
  refine ⟨hands, locks, fun d has => ?_, fun d has => .inl ?_, ?_, fun d has => ?_, fun d has => .inl ?_⟩
  all_goals cases call <;> first | exact has | rfl

section

variable (inv : Inv l s)
include inv

theorem Inv.aborts (is : s.tasks t = ⟨some (.locking c), call⟩) :
    Inv l (s.changes c (s.conns c).abort.1 t ⟨some (.shutting c (s.conns c).abort.2), call⟩) := by
  refine inv.changes (inv.sound c).abort (.abort _) ?_ (fun k has => ?_) (fun k has => ?_) fun _ waits => ?_
  · rw [is]
    refine .same nofun fun d ne same => ?_
    cases same
    exact absurd rfl ne
  · simpa [Task.hand] using has
  · rw [is] at has
    cases has
  · exact absurd rfl waits

theorem Inv.shuts {waiters : List Nat} (is : s.tasks t = ⟨some (.shutting c waiters), call⟩) :
    Inv l (s.changes c (s.conns c).shutdown t ⟨some (.waking c waiters), call⟩) := by
  refine inv.changes (inv.sound c).shutdown (.shutdown _) ?_ nofun (fun k has => .inl ?_) fun aborted _ => .inr ⟨aborted, ?_⟩
  · rw [is]
    exact .same (fun d _ k has => has) nofun
  · rw [is] at has
    exact has
  · rw [is]
    exact nofun

theorem Inv.wakes {waker : Nat} {waiters : List Nat}
    (is : s.tasks t = ⟨some (.waking c (waker :: waiters)), call⟩) :
    Inv l (s.changes c ((s.conns c).wake waker) t ⟨some (.waking c waiters), call⟩) := by
  refine inv.changes ((inv.sound c).wake waker) (.wake _ waker) ?_ nofun (fun k has => ?_)
    fun aborted _ => .inr ⟨aborted, ?_⟩
  · rw [is]
    refine .same (fun d ne k has => ?_) nofun
    rw [Task.hand, if_neg ne.symm] at has
    cases has
  · rw [is, Task.hand, if_pos rfl] at has
    rw [Task.hand, if_pos rfl]
    obtain rfl | has := List.mem_cons.mp has
    · exact .inr rfl
    · exact .inl has
  · rw [is]
    exact nofun

theorem Inv.enqueues {frame : Frame} {clients : List Nat} {stolen : Bool}
    (is : s.tasks t = ⟨none, .sending frame (c :: clients)⟩) (unstolen : stolen = true → (s.conns c).draining = true) :
    Inv l (s.changes c ((s.conns c).enqueue l frame stolen).1 t
      ⟨if ((s.conns c).enqueue l frame stolen).2 then some (.locking c) else none, .sending frame clients⟩) := by
  refine inv.changes ((inv.sound c).enqueue frame unstolen) (.enqueue _ frame stolen) ?_ nofun (fun k has => ?_)
    fun aborted waits => ?_
  · rw [is]
    exact ⟨nofun, nofun, nofun, nofun, rfl, nofun, nofun⟩
  · rw [is] at has
    cases has
  · by_cases was : (s.conns c).aborted = true
    · exact .inr ⟨was, by rw [is]; exact nofun⟩
    · -- the frame overflowed the queue just now
      refine .inl ?_
      unfold Conn.enqueue at aborted ⊢
      unfold Conn.accept at aborted
      grind

theorem Inv.polls {frame : Frame} {waker : Nat} {stolen : Bool}
    (is : s.tasks t = ⟨none, .polling c frame waker⟩) (unstolen : stolen = true → (s.conns c).draining = true) :
    Inv l (s.changes c ((s.conns c).pollEnqueue l frame waker stolen).1 t .idle) := by
  refine inv.changes ((inv.sound c).pollEnqueue frame waker unstolen) (.pollEnqueue _ frame waker stolen) ?_ nofun
    (fun k has => ?_) fun aborted waits => .inr ⟨?_, by rw [is]; exact nofun⟩
  · rw [is]
    exact ⟨nofun, nofun, nofun, nofun, rfl, nofun, nofun⟩
  · rw [is] at has
    cases has
  · unfold Conn.pollEnqueue Conn.accept at aborted
    grind

/-- A call of `close` goes on and no connection changes. -/
theorem Inv.closing {left left' : Closing} {abort : Option Abort}
    (is : s.tasks t = ⟨none, .closing left⟩) (joins : left'.joins = left.joins ∨
      ∃ c, left.joins = c :: left'.joins ∧ (s.conns c).writer = .ended) (awaits : ∀ d ∈ left'.awaits, d ∈ left.awaits)
    (drains : left'.drains = left.drains) : Inv l (s.goes t ⟨abort, .closing left'⟩) := by
  refine inv.goes (fun d k has => ?_) (fun d => ?_) (fun d has => ?_) (fun d has => ?_) ?_ (fun d has => ?_)
    fun d has => ?_
  all_goals rw [is] at *
  · cases has
  · exact nofun
  · obtain same | ⟨c, same, -⟩ := joins
    · exact show d ∈ left.joins from same ▸ has
    · show d ∈ left.joins
      rw [same]
      exact .tail _ has
  · obtain same | ⟨c, same, ended⟩ := joins
    · exact .inl (show d ∈ left'.joins from same ▸ has)
    · have has : d ∈ left.joins := has
      rw [same] at has
      obtain rfl | has := List.mem_cons.mp has
      · exact .inr ended
      · exact .inl has
  · rfl
  · exact awaits d has
  · exact show d ∈ left'.drains from drains ▸ has

/-- A call of `close` returns: whatever it took has ended, and what `add` reaped is done. -/
theorem Inv.returns {asleep : Bool} (is : s.tasks t = ⟨none, .closing ⟨[], [], asleep, [], []⟩⟩) :
    Inv l { s with closing := none, closes := s.closes + 1, tasks := update s.tasks t .idle } := by
  have others {t' : Nat} (ne : t' ≠ t) : update s.tasks t .idle t' = s.tasks t' := Function.update_of_ne ne _ _
  obtain ⟨held, closed⟩ := inv.closer t (by rw [is]; rfl)
  have alone {t' : Nat} (ne : t' ≠ t) : (s.tasks t').closes ≠ true := fun closes => by
    have same := (inv.closer t' closes).1
    rw [held] at same
    exact ne (Option.some.inj same).symm
  have nothing {P : Prop} {c : Nat} (has : c ∈ (s.tasks t).joins) : P := by
    rw [is] at has
    cases has
  have finished : ∀ c < s.next, (s.conns c).done = true := fun c lt => by
    obtain registered | ⟨t', has⟩ | past := inv.placed c lt
    · rw [inv.shut closed] at registered
      cases registered
    · by_cases same : t' = t
      · subst same
        exact nothing has
      · exact (inv.joins t' c has).2.resolve_left (alone same)
    · rw [(inv.sound c).past, past]
      rfl
  constructor
  case sound => exact inv.sound
  case owed =>
      intro c k owes
      refine (inv.owed c k owes).imp_right ?_
      rintro ⟨t', has⟩
      have ne : t' ≠ t := by
        rintro rfl
        rw [is] at has
        cases has
      exact ⟨t', by simpa only [others ne] using has⟩
  case left =>
      intro c aborted waits
      obtain ⟨t', locks⟩ := inv.left c aborted waits
      have ne : t' ≠ t := by
        rintro rfl
        rw [is] at locks
        cases locks
      exact ⟨t', by simpa only [others ne] using locks⟩
  case known => exact inv.known
  case joins =>
      intro t' c has
      by_cases ne : t' = t
      · subst ne
        simp [Task.idle, Task.joins] at has
      · simp only [others ne] at has ⊢
        exact inv.joins t' c has
  case awaits =>
      intro t' c has
      by_cases ne : t' = t
      · subst ne
        simp [Task.idle, Task.awaits] at has
      · simp only [others ne] at has ⊢
        exact inv.awaits t' c has
  case placed =>
      intro c lt
      refine (inv.placed c lt).imp_right (Or.imp_left ?_)
      rintro ⟨t', has⟩
      have ne : t' ≠ t := by
        rintro rfl
        exact nothing has
      exact ⟨t', by simpa only [others ne] using has⟩
  case closer =>
      intro t' closes
      by_cases ne : t' = t
      · subst ne
        simp [Task.idle, Task.closes] at closes
      · simp only [others ne] at closes
        exact absurd closes (alone ne)
  case shut => exact inv.shut
  case after => exact fun _ => ⟨closed, finished⟩

theorem Inv.drains {drains awaits aborts joins : List Nat} {asleep : Bool}
    (is : s.tasks t = ⟨none, .closing ⟨c :: drains, awaits, asleep, aborts, joins⟩⟩) :
    Inv l (s.changes c (s.conns c).drain t ⟨none, .closing ⟨drains, awaits, asleep, aborts, joins⟩⟩) := by
  refine inv.changes (inv.sound c).drain (.drain _) ?_ nofun (fun k has => ?_)
    fun aborted waits => .inr ⟨aborted, by rw [is]; exact nofun⟩
  · rw [is]
    refine ⟨nofun, nofun, fun d has => has, fun d has => .inl has, rfl, fun d has => has, fun d has => ?_⟩
    obtain rfl | has := List.mem_cons.mp has
    · exact .inr ⟨rfl, rfl⟩
    · exact .inl has
  · rw [is] at has
    cases has

theorem Inv.closeNext {left : Closing} (late : Bool) (is : s.tasks t = ⟨none, .closing left⟩)
    (joined : ∀ c, (s.tasks t).joinsNext = some c → (s.conns c).writer = .ended) :
    Inv l (s.closeNext t late left) := by
  unfold State.closeNext
  split
  · exact inv.drains is
  · exact inv.closing is (.inl rfl) (fun _ has => has) rfl
  · split
    · exact inv.closing is (.inl rfl) (fun _ has => .tail _ has) rfl
    · exact inv.closing is (.inl rfl) (fun _ has => has) rfl
  · exact inv.closing is (.inl rfl) (fun _ has => has) rfl
  · exact inv.closing is (.inr ⟨_, rfl, joined _ (by rw [is]; rfl)⟩) (fun _ has => has) rfl
  · exact inv.returns is

theorem Inv.run {t : Nat} {late stolen : Bool} (may : s.May (.run t late stolen)) :
    Inv l (s.run l t late stolen) := by
  obtain ⟨⟨-, joined⟩, steals⟩ := may
  have unstolen {c : Nat} (gives : (s.tasks t).givesNext = some c) (is : stolen = true) :
      (s.conns c).draining = true := by
    obtain ⟨t', sleeps⟩ := steals t late (is ▸ rfl) c gives
    exact inv.sleeps sleeps
  unfold State.run
  split
  case h_1 is => exact inv.aborts is
  case h_2 is => exact inv.shuts is
  case h_3 is => exact inv.wakes is
  case h_4 call is =>
      refine inv.goes (fun d k has => ?_) (fun d => ?_) ?_ ?_ ?_ ?_ fun d has => ?_
      all_goals rw [is] at *
      · simp [Task.hand] at has
      · exact nofun
      · cases call <;> exact fun _ has => has
      · cases call <;> exact fun _ has => .inl has
      · cases call <;> rfl
      · cases call <;> exact fun _ has => has
      · cases call <;> exact has
  case h_5 => exact inv
  case h_6 is =>
      refine inv.goes ?_ ?_ ?_ ?_ ?_ ?_ ?_
      all_goals simp [is, Task.idle, Task.hand, Task.joins, Task.closes, Task.awaits, Task.drains]
  case h_7 c clients is =>
      refine inv.goes ?_ ?_ (fun d has => ?_) (fun d has => ?_) ?_ nofun ?_
      all_goals first | rw [is] at has ⊢ | rw [is] at has | rw [is]
      · exact nofun
      · exact nofun
      · exact .tail _ has
      · obtain rfl | has := List.mem_cons.mp has
        · exact .inr (joined d (by rw [is]; rfl))
        · exact .inl has
      · rfl
      · exact nofun
  case h_8 is =>
      refine inv.goes ?_ ?_ ?_ ?_ ?_ ?_ ?_
      all_goals simp [is, Task.idle, Task.hand, Task.joins, Task.closes, Task.awaits, Task.drains]
  case h_9 is => exact inv.enqueues is (unstolen (by rw [is]; rfl))
  case h_10 is => exact inv.polls is (unstolen (by rw [is]; rfl))
  case h_11 is => exact inv.closeNext late is joined

theorem Inv.step {e : Event} (may : s.May e) : Inv l (s.step l e) := by
  cases e with
  | add t who spawns missed => exact inv.add may.1 who spawns missed
  | send t frame order => exact inv.send may.1.1 frame order
  | sendTo t who frame => exact inv.sendTo may.1 who frame
  | pollSendTo t who frame waker => exact inv.pollSendTo may.1 who frame waker
  | remove t who => exact inv.remove may.1 who
  | close t order => exact inv.close may.1.1 may.1.2.1 may.1.2.2
  | run t late stolen => exact inv.run may
  | write c stalled sent => exact inv.write c stalled sent

end

theorem Inv.runs (run : Runs (State.step l) State.May s s') (inv : Inv l s) : Inv l s' :=
  run.invariant (fun may inv => inv.step may) inv

end Khor.Fanout
