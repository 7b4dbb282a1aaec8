/-
Module: Khor.A2a.Once
Purpose: Delegated work runs at most once, and each turn gets the input that was accepted for it, where no
  answer is accepted under an id that its task's history bears already; with such an answer a turn can get
  what the agent said instead.
Trusted boundary: drawn ids are new
Main exports: Distinct, RunsOnce, delegated_once
-/
import Khor.A2a.Exclusive

namespace Khor.A2a

variable {P M : Type} {x : Externals P M} {home : DeviceId} {s s' : Ledger P M} {w w' : World P M}

/-- An answer that is new to the store, and that the store takes, has an id that its task's history does not bear. -/
def Distinct (x : Externals P M) (home : DeviceId) (w : World P M) : Request P M × Fate → Prop
  | (.accept newContext newTask caller to_ message parent, fate) =>
      (written x fate (w.accept x home newContext newTask caller to_ message parent)).isSome = true →
      w.ledger.messages (x.inputKey caller to_.agent message.messageId) = none →
        ∀ id ∈ message.taskId, ∀ e ∈ w.ledger.tasks id, ∀ m ∈ e.task.history,
          m.messageId ≠ message.messageId
  | _ => True

/-- Any number of requests from the start, none with an answer that repeats an id. -/
def CarefullyReached (x : Externals P M) (home : DeviceId) (w : World P M) : Prop :=
  Runs (act x home) (fun w r => Permitted w r ∧ Distinct x home w r) .init w

/-- The turn's input, as a caller sent it. -/
def Delivers (w : World P M) (h : Handed P M) : Prop :=
  ∃ a ∈ w.accepted, a.task = h.task ∧ a.message.messageId = h.message ∧ h.input = a.delivered

/-- What delegated work comes to in a state of the store, and from it on. -/
structure RunsOnce (x : Externals P M) (home : DeviceId) (w : World P M) : Prop where
  once : w.started.Nodup
  input : ∀ h ∈ w.handed, Delivers w h
  apart : (w.live.map (·.context)).Nodup
  stale : ∀ h ∈ w.handed, ∃ e, w.ledger.tasks h.task = some e ∧ (h.turn < e.turn ∨ e.state.isTerminal = true →
    ∀ fate, (∀ state message artifact,
        (act x home w (.update h.task h.turn state message artifact, fate)).ledger = w.ledger) ∧
      ∀ session, (act x home w (.bindSession h.task h.turn session, fate)).ledger = w.ledger)
  frozen : ∀ {id e}, w.ledger.tasks id = some e → e.state.isTerminal = true →
    ∀ {w'}, Runs (act x home) Permitted w w' → ∃ e', w'.ledger.tasks id = some e' ∧ e'.task = e.task
  revised : ∀ {id e}, w.ledger.tasks id = some e → ∀ r, Permitted w r →
    ∃ e', (act x home w r).ledger.tasks id = some e' ∧
      (e'.task.status ≠ e.task.status ∨ e'.cancellationRequested ≠ e.cancellationRequested ∨
        (act x home w r).ledger.contexts e.task.contextId ≠ w.ledger.contexts e.task.contextId →
          e.revision < e'.revision)

/-! ### Whose words a turn gets -/

/-- A task that waits for a turn finds in its history first what was accepted for it. -/
def Ready (accepted : List (Accepted P M)) (s : Ledger P M) : Prop :=
  ∀ id e, s.tasks id = some e → e.state = .submitted →
    ∃ a ∈ accepted, a.task = id ∧ a.message.messageId = e.pendingMessage ∧
      e.task.history.find? (fun m => m.messageId = e.pendingMessage) = some a.delivered

structure Faithful (w : World P M) : Prop where
  ready : Ready w.accepted w.ledger
  input : ∀ h ∈ w.handed, Delivers w h

theorem Ready.touched {accepted : List (Accepted P M)} (ready : Ready accepted s) (h : Touched s s') :
    Ready accepted s' := by
  intro id e' found waits
  cases there : s.tasks id with
  | none => rw [h.absent id there] at found; cases found
  | some e =>
      obtain ⟨e'', there', rfl | change⟩ := h.tasks there
      · rw [found] at there'
        cases there'
        exact ready _ _ there waits
      · rw [found] at there'
        cases there'
        obtain ⟨waited, pending, history⟩ := change.submitted waits
        rw [pending, history]
        exact ready _ _ there waited

theorem Ready.begun {accepted : List (Accepted P M)} (ready : Ready accepted s) (id : String)
    (e : Entry P M) : Ready accepted (s.put id (begun e)) := by
  intro other e₀ found waits
  obtain ⟨rfl, rfl⟩ | ⟨same, found⟩ := of_put found
  · cases waits
  · exact ready _ _ found waits

variable {leased : String → Bool} {newContext newTask id : String} {caller : DeviceId} {to_ : AgentTarget}
  {message : Message P M} {parent : Option TaskRef} {e : Entry P M}

/-- A message that was placed is what its task's next turn finds. -/
theorem Placed.found (h : Placed leased newContext newTask caller to_ message parent s s' id)
    (distinct : ∀ id ∈ message.taskId, ∀ e ∈ s.tasks id, ∀ m ∈ e.task.history,
      m.messageId ≠ message.messageId) (there : s'.tasks id = some e) :
    e.task.history.find? (fun m => m.messageId = e.pendingMessage) =
      some { message with taskId := some id, contextId := some e.task.contextId } := by
  cases h with
  | opens | starts =>
      simp only [Function.update_self, Option.some.injEq] at there
      subst there
      simp [opened]
  | @replies _ e₀ named found =>
      simp only [put_tasks, Function.update_self, Option.some.injEq] at there
      subst there
      have other : e₀.task.history.find? (fun m => m.messageId = message.messageId) = none := by
        rw [List.find?_eq_none]
        intro m mem
        simpa using distinct id named e₀ found m mem
      have history : (replied e₀ message).task.history =
          e₀.task.history ++ [{ message with contextId := some e₀.task.contextId }] := rfl
      have pending : (replied e₀ message).pendingMessage = message.messageId := rfl
      rw [history, pending, List.find?_append, other, ← named]
      simp [replied]

theorem Ready.placed {accepted : List (Accepted P M)} (ready : Ready accepted s) {mid : Ledger P M} {r : Record P M}
    (placed : Placed leased newContext newTask caller to_ message parent s mid id)
    (new : s.contexts newContext = none) (keyed : ∀ {id e}, s.tasks id = some e → e.task.id = id ∧ id ∈ s.ids)
    (context : ∀ {id e}, s.tasks id = some e →
      ∃ c, s.contexts e.task.contextId = some c ∧ c.target = e.target ∧ c.caller = e.caller)
    (distinct : ∀ id ∈ message.taskId, ∀ e ∈ s.tasks id, ∀ m ∈ e.task.history,
      m.messageId ≠ message.messageId) (tasks : s'.tasks = mid.tasks) (recorded : record s' id = .ok r) :
    Ready (accepted ++ [⟨caller, to_, message, parent, r.task.id, r.task.contextId⟩]) s' := by
  obtain ⟨e', there, sameId, _, _, _, _, pending, _⟩ := placed.entry keyed context
  obtain ⟨e'', there', sameTask, _, _⟩ := record_cases recorded
  rw [tasks, there] at there'
  cases there'
  intro other e found waits
  rw [tasks] at found
  by_cases same : other = id
  · subst same
    refine ⟨_, List.mem_append_right _ (List.mem_singleton_self _), ?_, ?_, ?_⟩
    · rw [sameTask, sameId]
    · rw [there] at found
      cases found
      exact pending.symm
    · rw [there] at found
      cases found
      rw [placed.found distinct there, Accepted.delivered, sameTask, sameId]
  · rw [placed.others new |>.2.2.1 other same] at found
    obtain ⟨a, mem, rest⟩ := ready _ _ found waits
    exact ⟨a, List.mem_append_left _ mem, rest⟩

theorem Delivers.later {h : Handed P M} (delivers : Delivers w h)
    (later : w.accepted ⊆ w'.accepted) : Delivers w' h := by
  obtain ⟨a, mem, rest⟩ := delivers
  exact ⟨a, later mem, rest⟩

theorem Faithful.transacted {α : Type} (faithful : Faithful w) (fate : Fate)
    {result : Except Error (Ledger P M × α)} (ready : ∀ {s' a}, result = .ok (s', a) → Ready w.accepted s') :
    Ready w.accepted (transact x fate w.ledger result).1 := by
  obtain same | ⟨s', a, ok, same⟩ := transact_ledger x fate w.ledger result
  · rw [same]
    exact faithful.ready
  · rw [same]
    exact ready ok

theorem Faithful.accept (faithful : Faithful w) (inv : Inv x home w) {fate : Fate}
    (permitted : Permitted w (.accept newContext newTask caller to_ message parent, fate))
    (distinct : Distinct x home w (.accept newContext newTask caller to_ message parent, fate)) :
    Faithful (act x home w (.accept newContext newTask caller to_ message parent, fate)) := by
  obtain ⟨context, _, _⟩ := permitted
  obtain ⟨unwritten, error, same⟩ | ⟨s', sub, result, _, written, told⟩ :=
    transact_cases x fate w.ledger (w.accept x home newContext newTask caller to_ message parent)
  · simpa only [act, unwritten, same] using faithful
  · obtain ⟨_, ⟨_, _, _, _, _, _, rfl, again, _⟩ | ⟨free, new, mid, id, placed, same, recorded⟩⟩ :=
      accept_cases result
    · obtain told | told := told
      · simp only [act, written, told, again, Bool.false_eq_true, if_false]
        exact ⟨faithful.ready, faithful.input⟩
      · simpa only [act, written, told, again, Bool.false_eq_true, if_false] using faithful
    · have tasks : s'.tasks = mid.tasks := by rw [same]
      have ready := faithful.ready.placed placed context inv.keyed inv.context (distinct (by rw [written]; rfl) free) tasks
        recorded
      have input : ∀ h ∈ w.handed, Delivers { w with
          ledger := s'
          accepted := w.accepted ++
            [⟨caller, to_, message, parent, sub.record.task.id, sub.record.task.contextId⟩] } h :=
        fun h mem => (faithful.input h mem).later (List.subset_append_left _ _)
      obtain told | told := told
      · simp only [act, written, told, new, if_true]
        exact ⟨ready, input⟩
      · simp only [act, written, told, new, if_true]
        exact ⟨ready, input⟩

theorem Faithful.claim (faithful : Faithful w) {message : String} {fate : Fate} :
    Faithful (act x home w (.claim id message, fate)) := by
  obtain ⟨unwritten, error, same⟩ | ⟨s', ⟨turn, r, input⟩, result, _, written, told⟩ :=
    transact_cases x fate w.ledger (Store.claim w.leased w.ledger id message)
  · simpa only [act, unwritten, same] using faithful
  · obtain ⟨e, there, waits, rfl, _, _, found, rfl, _⟩ := claim_cases result
    have ready := faithful.ready.begun id e
    obtain told | told := told
    · simp only [act, written, told]
      refine ⟨ready, fun h mem => ?_⟩
      obtain old | new := List.mem_append.mp mem
      · exact (faithful.input h old).later (List.Subset.refl _)
      · rw [List.mem_singleton] at new
        obtain ⟨a, accepted, task, pending, first⟩ := faithful.ready _ _ there waits
        rw [first] at found
        exact ⟨a, accepted, by rw [new, task], by rw [new, pending],
          by rw [new]; exact (Option.some.inj found).symm⟩
    · simp only [act, written, told]
      exact ⟨ready, faithful.input⟩

theorem Faithful.step {request : Request P M × Fate} (permitted : Permitted w request)
    (distinct : Distinct x home w request) (inv : Inv x home w) (faithful : Faithful w) :
    Faithful (act x home w request) := by
  obtain ⟨request, fate⟩ := request
  cases request with
  | accept => exact faithful.accept inv permitted distinct
  | cancelInput =>
      refine ⟨faithful.transacted fate fun ok => ?_, faithful.input⟩
      obtain ⟨_, _, rfl⟩ | ⟨_, _, _, ⟨_, _, rfl⟩ | ⟨_, _, _, _, _, _, _, _, ⟨rfl, _⟩ | ⟨_, canceled⟩⟩⟩ :=
        cancelInput_cases ok
      · exact faithful.ready
      · exact faithful.ready
      · exact faithful.ready
      · exact faithful.ready.touched (cancelEntry_touched canceled)
  | requestCancel =>
      exact ⟨faithful.transacted fate fun ok =>
        faithful.ready.touched (cancelEntry_touched (requestCancel_cases ok).2), faithful.input⟩
  | findOwnedMessage =>
      simp only [act]
      split
      · exact ⟨faithful.ready, faithful.input⟩
      · exact faithful
  | claim => exact faithful.claim
  | update =>
      refine ⟨faithful.transacted fate fun ok => ?_, faithful.input⟩
      obtain ⟨e, e', found, _, _, change, rfl⟩ := update_cases ok
      exact faithful.ready.touched (.put found (.inr change))
  | bindSession =>
      exact ⟨faithful.transacted fate fun ok => faithful.ready.touched (bindSession_touched ok).2,
        faithful.input⟩
  | drop => exact ⟨faithful.ready, faithful.input⟩
  | recover =>
      exact ⟨faithful.transacted fate fun ok => faithful.ready.touched (recover_touched ok), faithful.input⟩

/-! ### What ends and what is revised -/

theorem Evolves.frozen {e' : Entry P M} (h : Evolves leased e e') (closed : e.state.isTerminal = true) :
    e'.task = e.task := by
  cases h with
  | same => rfl
  | change change =>
      cases change with
      | cancel going =>
          rw [going] at closed
          cases closed
      | flag => rfl
      | update _ _ _ going =>
          rw [going] at closed
          cases closed
      | fail _ working =>
          rw [working] at closed
          cases closed
      | bind => rfl
  | reply _ waits =>
      revert waits closed
      cases e.state <;> simp [TaskState.suspended, TaskState.isTerminal]
  | begin waits =>
      rw [waits] at closed
      cases closed

theorem Evolves.revised {e' : Entry P M} (h : Evolves leased e e')
    (differs : e'.task.status ≠ e.task.status ∨ e'.cancellationRequested ≠ e.cancellationRequested) :
    e.revision < e'.revision := by
  cases h with
  | same => simp at differs
  | change change =>
      cases change with
      | cancel _ _ later => exact Nat.lt_succ_of_le later
      | flag | update | fail | bind => exact Nat.lt_succ_self _
  | reply | begin => exact Nat.lt_succ_self _

/-- A task that is over keeps what it holds. -/
theorem frozen_run (run : Runs (act x home) Permitted w w') (inv : Inv x home w) (there : w.ledger.tasks id = some e)
    (closed : e.state.isTerminal = true) : ∃ e', w'.ledger.tasks id = some e' ∧ e'.task = e.task := by
  refine (Runs.invariant (I := fun w => Inv x home w ∧
    ∃ e', w.ledger.tasks id = some e' ∧ e'.task = e.task) ?_ run ⟨inv, e, there, rfl⟩).2
  rintro w request permitted ⟨inv, e', there, same⟩
  obtain ⟨e'', there', evolves, _⟩ := act_evolves permitted inv there
  have closed' : e'.state.isTerminal = true := by
    rw [Entry.state, same]
    exact closed
  exact ⟨inv.step permitted, e'', there', (evolves.frozen closed').trans same⟩

/-- A claimant whose turn is past, or whose task is over, changes nothing. -/
theorem stale_of {turn : Nat} (there : w.ledger.tasks id = some e) (stale : turn < e.turn ∨ e.state.isTerminal = true)
    (fate : Fate) : (∀ state message artifact,
        (act x home w (.update id turn state message artifact, fate)).ledger = w.ledger) ∧
      ∀ session, (act x home w (.bindSession id turn session, fate)).ledger = w.ledger := by
  have impossible : ∀ {e' : Entry P M}, w.ledger.tasks id = some e' → e'.state.isTerminal = false →
      e'.turn = turn → False := by
    intro e' there' going current
    rw [there] at there'
    cases there'
    obtain past | closed := stale
    · exact Nat.ne_of_lt past current.symm
    · rw [going] at closed
      cases closed
  refine ⟨fun state message artifact => ?_, fun session => ?_⟩
  · obtain same | ⟨s', r, ok, _⟩ := transact_ledger x fate w.ledger
      (Store.executorUpdate x w.ledger id turn state message artifact)
    · exact same
    · obtain ⟨e', _, there', going, current, _⟩ := update_cases ok
      exact (impossible there' going current).elim
  · obtain same | ⟨s', r, ok, _⟩ := transact_ledger x fate w.ledger
      (Store.bindSession home w.ledger id turn session)
    · exact same
    · obtain ⟨⟨e', there', going, current⟩, _⟩ := bindSession_touched ok
      exact (impossible there' going current).elim

/-- Whatever requests come in whatever order, delegated work runs at most once, on the input it was given. -/
theorem delegated_once (reached : CarefullyReached x home w) : RunsOnce x home w := by
  have inv : Inv x home w := (reached.mono And.left).invariant Inv.step .init
  have faithful : Inv x home w ∧ Faithful w := by
    refine reached.invariant (I := fun w => Inv x home w ∧ Faithful w) ?_ ⟨.init, ?_, ?_⟩
    · rintro w request ⟨permitted, distinct⟩ ⟨inv, faithful⟩
      exact ⟨inv.step permitted, faithful.step permitted distinct inv⟩
    · intro id e found
      cases found
    · rintro _ ⟨⟩
  exact
    { once := inv.once
      input := faithful.2.input
      apart := inv.apart
      stale := by
        intro h mem
        obtain ⟨e, there, _⟩ := inv.handed h mem
        exact ⟨e, there, fun stale => stale_of there stale⟩
      frozen := fun {id e} there closed {w'} run => frozen_run run inv there closed
      revised := by
        intro id e there r permitted
        obtain ⟨e', there', evolves, session⟩ := act_evolves permitted inv there
        refine ⟨e', there', fun differs => ?_⟩
        obtain status | flag | rebound := differs
        · exact evolves.revised (.inl status)
        · exact evolves.revised (.inr flag)
        · exact session.resolve_left rebound }

/-! ### One home -/

/-- A task asks back under the id that its caller is to choose for the answer. -/
def askedBack (id : String) : List (Request String Unit × Fate) :=
  [(.accept "c1" "t1" oneCaller oneTarget (said "m1" none) none, .saved), (.claim "t1" "m1", .saved),
    (.update "t1" 1 .inputRequired (some ⟨id, .agent, none, none, ["which?"], ()⟩) none, .saved),
    (.drop 0, .saved), (.accept "c2" "t2" oneCaller oneTarget (said "m2" (some "t1")) none, .saved),
    (.claim "t1" "m2", .saved)]

instance decidableDistinct (x : Externals P M) (home : DeviceId) (w : World P M) : ∀ r, Decidable (Distinct x home w r)
  | (.accept _ _ _ _ _ _, _) => inferInstanceAs (Decidable (_ → _ → _))
  | (.cancelInput _ _ _ _, _) => isTrue trivial
  | (.requestCancel _ _ _, _) => isTrue trivial
  | (.findOwnedMessage _ _ _, _) => isTrue trivial
  | (.claim _ _, _) => isTrue trivial
  | (.update _ _ _ _ _, _) => isTrue trivial
  | (.bindSession _ _ _, _) => isTrue trivial
  | (.drop _, _) => isTrue trivial
  | (.recover _, _) => isTrue trivial

theorem answered_once :
    (((askedBack "q1").foldl (act oneExternals oneTarget.home) .init).handed.map (·.input.role) =
        [.user, .user]) ∧
      RunsOnce oneExternals oneTarget.home ((askedBack "q1").foldl (act oneExternals oneTarget.home) .init) :=
  ⟨by decide +kernel, delegated_once (Fits.runs (by decide +kernel))⟩

/-- Where the question has the id of the answer, the second turn is handed the question. -/
theorem a_turn_gets_the_question :
    Reached oneExternals oneTarget.home ((askedBack "m2").foldl (act oneExternals oneTarget.home) .init) ∧
      (((askedBack "m2").foldl (act oneExternals oneTarget.home) .init).handed.map (·.input.role) =
        [.user, .agent]) ∧
      ¬RunsOnce oneExternals oneTarget.home
        ((askedBack "m2").foldl (act oneExternals oneTarget.home) .init) := by
  have roles : ((askedBack "m2").foldl (act oneExternals oneTarget.home) .init).handed.map (·.input.role) =
      [.user, .agent] := by decide +kernel
  have users : ∀ a ∈ ((askedBack "m2").foldl (act oneExternals oneTarget.home) .init).accepted,
      a.message.role = .user := by decide +kernel
  refine ⟨Fits.runs (by decide +kernel), roles, fun once => ?_⟩
  have agent : Role.agent ∈
      ((askedBack "m2").foldl (act oneExternals oneTarget.home) .init).handed.map (·.input.role) := by
    rw [roles]
    exact .tail _ (List.mem_singleton_self _)
  obtain ⟨h, mem, role⟩ := List.mem_map.mp agent
  obtain ⟨a, accepted, _, _, input⟩ := once.input h mem
  rw [input] at role
  have user := users a accepted
  rw [Accepted.delivered] at role
  exact absurd (role.symm.trans user) (by decide)

end Khor.A2a
