/-
Module: Khor.A2a.Ownership
Purpose: What holds of the store in every run: every row of the index is an accepted input or a fence, every
  accepted input stands in the history of its task, a turn was begun for an input only once, and no two
  claimants alive share a context.
Trusted boundary: drawn ids are new
Main exports: Grown, Grows, Inv, Inv.step, Reached.inv
-/
import Khor.A2a.Delegation

namespace Khor.A2a

variable {P M : Type} {x : Externals P M} {home : DeviceId} {s s' : Ledger P M} {w : World P M}

/-! ### What stays of a task -/

/-- Whose task it is stays, and its history and its turns grow. -/
structure Grown (e e' : Entry P M) : Prop where
  id : e'.task.id = e.task.id
  context : e'.task.contextId = e.task.contextId
  target : e'.target = e.target
  caller : e'.caller = e.caller
  parent : e'.parent = e.parent
  turn : e.turn ≤ e'.turn
  history : e.task.history <+: e'.task.history

theorem Grown.refl (e : Entry P M) : Grown e e :=
  ⟨rfl, rfl, rfl, rfl, rfl, le_rfl, List.prefix_rfl⟩

variable {e e' : Entry P M} {id newContext newTask : String} {leased : String → Bool} {caller : DeviceId}
  {to_ : AgentTarget} {message : Message P M} {parent : Option TaskRef} {fate : Fate} {α : Type}

theorem Change.grown (h : Change e e') : Grown e e' := by
  cases h with
  | cancel => exact ⟨rfl, rfl, rfl, rfl, rfl, le_rfl, status_history _ _ _⟩
  | flag => exact ⟨rfl, rfl, rfl, rfl, rfl, le_rfl, List.prefix_rfl⟩
  | update artifacts state message =>
      exact ⟨rfl, rfl, rfl, rfl, rfl, le_rfl,
        status_history { e with task := { e.task with artifacts := artifacts } } state message⟩
  | fail => exact ⟨rfl, rfl, rfl, rfl, rfl, le_rfl, status_history _ _ _⟩
  | bind => exact ⟨rfl, rfl, rfl, rfl, rfl, le_rfl, List.prefix_rfl⟩

theorem Change.turn (h : Change e e') : e'.turn = e.turn := by
  cases h <;> rfl

theorem grown_replied (e : Entry P M) (message : Message P M) : Grown e (replied e message) :=
  ⟨rfl, rfl, rfl, rfl, rfl, le_rfl, List.prefix_append _ _⟩

theorem grown_begun (e : Entry P M) : Grown e (begun e) :=
  ⟨rfl, rfl, rfl, rfl, rfl, Nat.le_succ _, List.prefix_rfl⟩

/-- No change makes a task wait for a turn. -/
theorem Change.submitted (h : Change e e') (waits : e'.state = .submitted) :
    e.state = .submitted ∧ e'.pendingMessage = e.pendingMessage ∧ e'.task.history = e.task.history := by
  cases h with
  | cancel => cases waits
  | flag working => rw [Entry.state] at waits working; rw [working] at waits; cases waits
  | update artifacts state message going begun ends => exact absurd waits ends
  | fail => cases waits
  | bind => exact ⟨waits, rfl, rfl⟩

/-- Every task and every row stays. -/
structure Grows (s s' : Ledger P M) : Prop where
  tasks : ∀ {id e}, s.tasks id = some e → ∃ e', s'.tasks id = some e' ∧ Grown e e'
  rows : ∀ {key d}, s.messages key = some d → s'.messages key = some d

theorem Touched.grows (h : Touched s s') : Grows s s' where
  tasks there := by
    obtain ⟨e', there', rfl | change⟩ := h.tasks there
    · exact ⟨_, there', .refl _⟩
    · exact ⟨e', there', change.grown⟩
  rows row := by rw [h.messages, row]

theorem Grows.fence {key : String} (free : s.messages key = none) (d : Dedup) :
    Grows s { s with messages := Function.update s.messages key (some d) } where
  tasks there := ⟨_, there, .refl _⟩
  rows {key' d'} row := by
    have apart : key' ≠ key := by
      rintro rfl
      rw [free] at row
      cases row
    simpa [Function.update_of_ne apart] using row

theorem Grows.trans {s'' : Ledger P M} (h : Grows s s') (h' : Grows s' s'') : Grows s s'' where
  tasks there := by
    obtain ⟨e', there', grown⟩ := h.tasks there
    obtain ⟨e'', there'', grown'⟩ := h'.tasks there'
    exact ⟨e'', there'', grown'.id.trans grown.id, grown'.context.trans grown.context,
      grown'.target.trans grown.target, grown'.caller.trans grown.caller,
      grown'.parent.trans grown.parent, Nat.le_trans grown.turn grown'.turn, grown.history.trans grown'.history⟩
  rows row := h'.rows (h.rows row)

theorem Grows.put (there : s.tasks id = some e) (grown : Grown e e') : Grows s (s.put id e') where
  tasks {other e₀} found := by
    by_cases same : other = id
    · subst same
      rw [there] at found
      cases found
      exact ⟨e', by simp, grown⟩
    · exact ⟨e₀, by simpa [Function.update_of_ne same] using found, .refl _⟩
  rows row := row

theorem Grows.insert (free : s.tasks id = none) (ids contextIds : List String) (contexts : String → Option Context) :
    Grows s ⟨Function.update s.tasks id (some e), ids, contexts, contextIds, s.messages⟩ where
  tasks {other e₀} found := by
    have apart : other ≠ id := by
      rintro rfl
      rw [free] at found
      cases found
    exact ⟨e₀, by simpa [Function.update_of_ne apart] using found, .refl _⟩
  rows row := row

theorem Placed.grows (h : Placed leased newContext newTask caller to_ message parent s s' id)
    (new : s.tasks newTask = none) : Grows s s' := by
  cases h with
  | opens | starts => exact .insert new _ _ _
  | replies _ there => exact .put there (grown_replied _ _)

/-! ### The invariant -/

def Accepted.key (x : Externals P M) (a : Accepted P M) : String :=
  x.inputKey a.caller a.target.agent a.message.messageId

def Accepted.row (x : Externals P M) (a : Accepted P M) : Dedup :=
  ⟨some (x.digest a.target a.message a.parent), some a.task, none⟩

/-- The input is in the index, and its task holds it. -/
structure Took (x : Externals P M) (home : DeviceId) (s : Ledger P M) (a : Accepted P M) : Prop where
  row : s.messages (a.key x) = some (a.row x)
  fits : Store.acceptable x home a.target a.message a.parent = .ok ()
  id : opaqueId a.task = .ok ()
  entry : ∃ e, s.tasks a.task = some e ∧ e.caller = a.caller ∧ e.target = a.target ∧
    e.parent = a.parent ∧ e.task.contextId = a.context ∧ a.delivered ∈ e.task.history

theorem Took.grows {a : Accepted P M} (h : Took x home s a) (grows : Grows s s') : Took x home s' a where
  row := grows.rows h.row
  fits := h.fits
  id := h.id
  entry := by
    obtain ⟨e, there, caller, target, parent, context, mem⟩ := h.entry
    obtain ⟨e', there', grown⟩ := grows.tasks there
    exact ⟨e', there', grown.caller.trans caller, grown.target.trans target,
      grown.parent.trans parent, grown.context.trans context, grown.history.subset mem⟩

/-- What a row says of its input. -/
def Dedup.outcome (d : Dedup) : Outcome := if d.task.isSome then .accepted else .fenced

structure Inv (x : Externals P M) (home : DeviceId) (w : World P M) : Prop where
  keyed : ∀ {id e}, w.ledger.tasks id = some e → e.task.id = id ∧ id ∈ w.ledger.ids
  context : ∀ {id e}, w.ledger.tasks id = some e →
    ∃ c, w.ledger.contexts e.task.contextId = some c ∧ c.target = e.target ∧ c.caller = e.caller
  row : ∀ {key d}, w.ledger.messages key = some d →
    (∃ a ∈ w.accepted, key = a.key x ∧ d = a.row x) ∨ ∃ fence, d = ⟨none, none, some fence⟩
  took : ∀ a ∈ w.accepted, Took x home w.ledger a
  known : ∀ k ∈ w.started, ∃ a ∈ w.accepted, k = (a.caller, a.target.agent, a.message.messageId)
  once : w.started.Nodup
  waiting : ∀ {id e}, w.ledger.tasks id = some e → e.state = .submitted →
    (e.caller, e.target.agent, e.pendingMessage) ∉ w.started ∧
      ∃ a ∈ w.accepted, a.task = id ∧ a.message.messageId = e.pendingMessage
  handed : ∀ h ∈ w.handed, ∃ e, w.ledger.tasks h.task = some e ∧ h.turn ≤ e.turn
  apart : (w.live.map (·.context)).Nodup
  outcomes : ∀ o ∈ w.outcomes,
    ∃ d, w.ledger.messages (x.inputKey o.1.1 o.1.2.1.agent o.1.2.2) = some d ∧ d.outcome = o.2
  small : w.accepted = [] ∨ x.ledgerBytes w.ledger ≤ MAX_STORE_BYTES

theorem Inv.init : Inv x home (.init : World P M) where
  keyed found := by cases found
  context found := by cases found
  row found := by cases found
  took := by rintro _ ⟨⟩
  known := by rintro _ ⟨⟩
  once := List.nodup_nil
  waiting found := by cases found
  handed := by rintro _ ⟨⟩
  apart := List.nodup_nil
  outcomes := by rintro _ ⟨⟩
  small := .inl rfl

section

variable (inv : Inv x home w)
include inv

/-- Tasks are left as they are or changed. -/
theorem Inv.touched (h : Touched w.ledger s')
    (small : x.ledgerBytes s' ≤ MAX_STORE_BYTES) : Inv x home { w with ledger := s' } where
  keyed {id e'} found := by
    cases there : w.ledger.tasks id with
    | none => rw [h.absent id there] at found; cases found
    | some e =>
        obtain ⟨e'', there', change⟩ := h.grows.tasks there
        rw [found] at there'
        cases there'
        exact ⟨change.id.trans (inv.keyed there).1, h.ids ▸ (inv.keyed there).2⟩
  context {id e'} found := by
    cases there : w.ledger.tasks id with
    | none => rw [h.absent id there] at found; cases found
    | some e =>
        obtain ⟨e'', there', change⟩ := h.grows.tasks there
        rw [found] at there'
        cases there'
        obtain ⟨c, has, target, caller⟩ := inv.context there
        obtain ⟨c', has', target', caller'⟩ := h.contexts has
        exact ⟨c', by rw [change.context]; exact has', by rw [target', target, change.target],
          by rw [caller', caller, change.caller]⟩
  row found := inv.row (by rw [← h.messages]; exact found)
  took a mem := (inv.took a mem).grows h.grows
  known := inv.known
  once := inv.once
  waiting {id e'} found waits := by
    cases there : w.ledger.tasks id with
    | none => rw [h.absent id there] at found; cases found
    | some e =>
        obtain ⟨e'', there', rfl | change⟩ := h.tasks there
        · rw [found] at there'
          cases there'
          exact inv.waiting there waits
        · rw [found] at there'
          cases there'
          obtain ⟨waited, pending, _⟩ := change.submitted waits
          rw [change.grown.caller, change.grown.target, pending]
          exact inv.waiting there waited
  handed k mem := by
    obtain ⟨e, there, turn⟩ := inv.handed k mem
    obtain ⟨e', there', grown⟩ := h.grows.tasks there
    exact ⟨e', there', Nat.le_trans turn grown.turn⟩
  apart := inv.apart
  outcomes o mem := by
    obtain ⟨d, row, same⟩ := inv.outcomes o mem
    exact ⟨d, h.grows.rows row, same⟩
  small := .inr small

/-- An input is fenced. -/
theorem Inv.fence {key : String} (free : w.ledger.messages key = none) (fence : InputFence)
    (small : x.ledgerBytes { w.ledger with
      messages := Function.update w.ledger.messages key (some ⟨none, none, some fence⟩) } ≤
        MAX_STORE_BYTES) :
    Inv x home { w with
      ledger := { w.ledger with
        messages := Function.update w.ledger.messages key (some ⟨none, none, some fence⟩) } } where
  keyed := inv.keyed
  context := inv.context
  row {key' d} found := by
    by_cases same : key' = key
    · subst same
      simp only [Function.update_self, Option.some.injEq] at found
      exact .inr ⟨fence, found.symm⟩
    · simp only [Function.update_of_ne same] at found
      exact inv.row found
  took a mem := (inv.took a mem).grows (.fence free _)
  known := inv.known
  once := inv.once
  waiting := inv.waiting
  handed := inv.handed
  apart := inv.apart
  outcomes o mem := by
    obtain ⟨d, row, same⟩ := inv.outcomes o mem
    exact ⟨d, (Grows.fence free _).rows row, same⟩
  small := .inr small

/-- A caller is told what the row of its input says. -/
theorem Inv.told {k : DeviceId × AgentTarget × String} {d : Dedup} {o : Outcome}
    (row : w.ledger.messages (x.inputKey k.1 k.2.1.agent k.2.2) = some d) (same : d.outcome = o) :
    Inv x home { w with outcomes := w.outcomes ++ [(k, o)] } :=
  { inv with
    outcomes := by
      intro o' mem
      obtain old | new := List.mem_append.mp mem
      · exact inv.outcomes o' old
      · rw [List.mem_singleton] at new
        subst new
        exact ⟨d, row, same⟩ }

/-- One input has one task. -/
theorem Inv.same_task {a a' : Accepted P M} (mem : a ∈ w.accepted)
    (mem' : a' ∈ w.accepted) (same : a.key x = a'.key x) : a.task = a'.task := by
  have row := (inv.took a mem).row
  rw [same, (inv.took a' mem').row] at row
  simpa [Accepted.row] using (congrArg (fun d => d.map Dedup.task) row).symm

/-- The turn of an input is begun. -/
theorem Inv.claimed (there : w.ledger.tasks id = some e) (waits : e.state = .submitted)
    (small : x.ledgerBytes (w.ledger.put id (begun e)) ≤ MAX_STORE_BYTES) : Inv x home { w with
      ledger := w.ledger.put id (begun e)
      started := w.started ++ [(e.caller, e.target.agent, e.pendingMessage)] } where
  keyed {other e₀} found := by
    obtain ⟨rfl, rfl⟩ | ⟨same, found⟩ := of_put found
    · exact (inv.keyed there :)
    · exact inv.keyed found
  context {other e₀} found := by
    obtain ⟨rfl, rfl⟩ | ⟨same, found⟩ := of_put found
    · exact (inv.context there :)
    · exact inv.context found
  row := inv.row
  took a mem := (inv.took a mem).grows (.put there (grown_begun e))
  known := by
    intro k mem
    obtain old | new := List.mem_append.mp mem
    · exact inv.known k old
    · rw [List.mem_singleton] at new
      obtain ⟨_, a, accepted, task, pending⟩ := inv.waiting there waits
      obtain ⟨e', there', caller, target, _⟩ := (inv.took a accepted).entry
      rw [task, there] at there'
      cases there'
      exact ⟨a, accepted, by rw [new, caller, target, pending]⟩
  once := by
    rw [List.nodup_append]
    refine ⟨inv.once, by simp, fun k old k' new => ?_⟩
    rw [List.mem_singleton] at new
    rintro rfl
    exact (inv.waiting there waits).1 (new ▸ old)
  waiting {other e₀} found waits₀ := by
    obtain ⟨rfl, rfl⟩ | ⟨same, found⟩ := of_put found
    · cases waits₀
    · obtain ⟨unstarted, a₀, accepted₀, task₀, pending₀⟩ := inv.waiting found waits₀
      refine ⟨?_, a₀, accepted₀, task₀, pending₀⟩
      simp only [List.mem_append, List.mem_singleton, not_or]
      refine ⟨unstarted, fun alike => same ?_⟩
      -- Two tasks that wait for one input would share its row.
      obtain ⟨_, a, accepted, task, pending⟩ := inv.waiting there waits
      obtain ⟨e', there', caller, target, _⟩ := (inv.took a accepted).entry
      obtain ⟨e₀', there₀', caller₀, target₀, _⟩ := (inv.took a₀ accepted₀).entry
      rw [task, there] at there'
      rw [task₀, found] at there₀'
      cases there'
      cases there₀'
      obtain ⟨sameCaller, sameAgent, sameMessage⟩ :
          e₀.caller = e.caller ∧ e₀.target.agent = e.target.agent ∧
            e₀.pendingMessage = e.pendingMessage := by simpa using alike
      rw [← task₀, ← task]
      apply inv.same_task accepted₀ accepted
      rw [Accepted.key, Accepted.key, ← caller₀, ← caller, ← target₀, ← target, pending₀, pending,
        sameCaller, sameAgent, sameMessage]
  handed k mem := by
    obtain ⟨e', there', turn⟩ := inv.handed k mem
    obtain ⟨e'', there'', grown⟩ := (Grows.put there (grown_begun e)).tasks there'
    exact ⟨e'', there'', Nat.le_trans turn grown.turn⟩
  apart := inv.apart
  outcomes := inv.outcomes
  small := .inr small

/-- A begun turn is handed to a claimant. -/
theorem Inv.hand {h : Handed P M} (there : w.ledger.tasks h.task = some e)
    (turn : h.turn ≤ e.turn) (free : w.leased h.context = false) :
    Inv x home { w with live := w.live ++ [h], handed := w.handed ++ [h] } :=
  { inv with
    handed := by
      intro k mem
      obtain old | new := List.mem_append.mp mem
      · exact inv.handed k old
      · rw [List.mem_singleton] at new
        subst new
        exact ⟨e, there, turn⟩
    apart := by
      rw [List.map_append, List.nodup_append]
      refine ⟨inv.apart, by simp, fun c old c' new => ?_⟩
      rw [List.map_singleton, List.mem_singleton] at new
      rintro rfl
      obtain ⟨k, mem, rfl⟩ := List.mem_map.mp old
      rw [World.leased, List.any_eq_false] at free
      exact free k mem (by simpa using new) }

theorem Inv.drop (claimant : Nat) : Inv x home { w with live := w.live.eraseIdx claimant } :=
  { inv with
    apart := inv.apart.sublist ((List.eraseIdx_sublist w.live claimant).map _) }

end

/-- What is known of the task a message was placed in. -/
theorem Placed.entry (h : Placed leased newContext newTask caller to_ message parent s s' id)
    (keyed : ∀ {id e}, s.tasks id = some e → e.task.id = id ∧ id ∈ s.ids) (context : ∀ {id e}, s.tasks id = some e →
      ∃ c, s.contexts e.task.contextId = some c ∧ c.target = e.target ∧ c.caller = e.caller) :
    ∃ e', s'.tasks id = some e' ∧ e'.task.id = id ∧ id ∈ s'.ids ∧ e'.caller = caller ∧ e'.target = to_ ∧
      e'.parent = parent ∧ e'.pendingMessage = message.messageId ∧
      { message with taskId := some id, contextId := some e'.task.contextId } ∈ e'.task.history ∧
      ∃ c, s'.contexts e'.task.contextId = some c ∧ c.target = to_ ∧ c.caller = caller := by
  cases h with
  | opens _ there sameCaller sameTarget =>
      exact ⟨_, Function.update_self _ _ _, rfl, by simp, rfl, rfl, rfl, rfl, List.mem_singleton_self _,
        _, there, sameTarget, sameCaller⟩
  | starts =>
      exact ⟨_, Function.update_self _ _ _, rfl, by simp, rfl, rfl, rfl, rfl, List.mem_singleton_self _,
        _, Function.update_self _ _ _, rfl, rfl⟩
  | @replies _ e named there sameCaller sameTarget sameParent =>
      obtain ⟨c, has, target, owner⟩ := context there
      refine ⟨replied e message, Function.update_self _ _ _, (keyed there).1, (keyed there).2, sameCaller,
        sameTarget, sameParent, rfl, ?_, c, has, target.trans sameTarget, owner.trans sameCaller⟩
      apply List.mem_append_right
      rw [← named]
      exact List.mem_singleton_self _

/-- A placed message leaves the other tasks and the contexts there are as they were. -/
theorem Placed.others (h : Placed leased newContext newTask caller to_ message parent s s' id)
    (new : s.contexts newContext = none) :
    s'.messages = s.messages ∧ s.ids ⊆ s'.ids ∧ (∀ other, other ≠ id → s'.tasks other = s.tasks other) ∧
      ∀ {context c}, s.contexts context = some c → s'.contexts context = some c := by
  cases h with
  | opens =>
      exact ⟨rfl, List.subset_append_left _ _, fun _ apart => Function.update_of_ne apart _ _,
        fun there => there⟩
  | starts =>
      refine ⟨rfl, List.subset_append_left _ _, fun _ apart => Function.update_of_ne apart _ _, ?_⟩
      intro context c there
      have apart : context ≠ newContext := by
        rintro rfl
        rw [new] at there
        cases there
      simpa [Function.update_of_ne apart] using there
  | replies =>
      exact ⟨rfl, List.Subset.refl _, fun _ apart => Function.update_of_ne apart _ _, fun there => there⟩

/-- An input is placed, and its row is written. -/
theorem Inv.accepted_new (inv : Inv x home w) {mid : Ledger P M} {r : Record P M}
    (fits : Store.acceptable x home to_ message parent = .ok ())
    (free : w.ledger.messages (x.inputKey caller to_.agent message.messageId) = none)
    (placed : Placed w.leased newContext newTask caller to_ message parent w.ledger mid id)
    (context : w.ledger.contexts newContext = none) (task : w.ledger.tasks newTask = none)
    (named : opaqueId newTask = .ok ()) (same : s' = { mid with
      messages := Function.update mid.messages (x.inputKey caller to_.agent message.messageId)
        (some ⟨some (x.digest to_ message parent), some id, none⟩) }) (recorded : record s' id = .ok r)
    (small : x.ledgerBytes s' ≤ MAX_STORE_BYTES) : Inv x home { w with
      ledger := s'
      accepted := w.accepted ++ [⟨caller, to_, message, parent, r.task.id, r.task.contextId⟩] } := by
  obtain ⟨e', there, sameId, listed, sameCaller, sameTarget, sameParent, pending, mem, c, has, target,
    owner⟩ := placed.entry inv.keyed inv.context
  obtain ⟨messages, ids, others, contexts⟩ := placed.others context
  have grows : Grows w.ledger s' := by
    rw [same]
    exact (placed.grows task).trans (.fence (by rw [messages]; exact free) _)
  have tasks : s'.tasks = mid.tasks := by rw [same]
  have opaqueTask : opaqueId id = .ok () := by
    cases placed with
    | opens | starts => exact named
    | replies taskId =>
        unfold Store.acceptable at fits
        obtain ⟨_, _, fits⟩ := bind_ok fits
        obtain ⟨_, _, fits⟩ := bind_ok fits
        obtain ⟨_, both, _⟩ := bind_ok fits
        rw [taskId] at both
        obtain ⟨_, first, _⟩ := bind_ok both
        exact first
  obtain ⟨e'', there', sameTask, _, _⟩ := record_cases recorded
  rw [tasks, there] at there'
  cases there'
  rw [sameTask, sameId]
  have took : Took x home s' ⟨caller, to_, message, parent, id, e'.task.contextId⟩ :=
    { row := by rw [same]; exact Function.update_self _ _ _
      fits := fits
      id := opaqueTask
      entry := ⟨e', by rw [tasks, there], sameCaller, sameTarget, sameParent, rfl, mem⟩ }
  have known : ∀ {other e}, s'.tasks other = some e → other ≠ id → w.ledger.tasks other = some e := by
    intro other e found apart
    rw [← others other apart, ← tasks, found]
  refine
    { keyed := fun {other e} found => ?_
      context := fun {other e} found => ?_
      row := fun {key d} found => ?_
      took := fun a accepted => ?_
      known := fun k mem => ?_
      once := inv.once
      waiting := fun {other e} found waits => ?_
      handed := fun h mem => ?_
      apart := inv.apart
      outcomes := fun o mem => ?_
      small := .inr small }
  · by_cases at_ : other = id
    · subst at_
      rw [tasks, there] at found
      cases found
      exact ⟨sameId, by rw [same]; exact listed⟩
    · obtain ⟨key, mem⟩ := inv.keyed (known found at_)
      exact ⟨key, by rw [same]; exact ids mem⟩
  · by_cases at_ : other = id
    · subst at_
      rw [tasks, there] at found
      cases found
      exact ⟨c, by rw [same]; exact has, target.trans sameTarget.symm, owner.trans sameCaller.symm⟩
    · obtain ⟨c', has', rest⟩ := inv.context (known found at_)
      exact ⟨c', by rw [same]; exact contexts has', rest⟩
  · by_cases at_ : key = x.inputKey caller to_.agent message.messageId
    · subst at_
      refine .inl ⟨_, List.mem_append_right _ (List.mem_singleton_self _), rfl, ?_⟩
      exact Option.some.inj (found.symm.trans took.row)
    · simp only [same, Function.update_of_ne at_, messages] at found
      obtain ⟨a, accepted, rest⟩ | fence := inv.row found
      · exact .inl ⟨a, List.mem_append_left _ accepted, rest⟩
      · exact .inr fence
  · obtain old | new := List.mem_append.mp accepted
    · exact (inv.took a old).grows grows
    · rw [List.mem_singleton] at new
      exact new ▸ took
  · obtain ⟨a, accepted, rest⟩ := inv.known k mem
    exact ⟨a, List.mem_append_left _ accepted, rest⟩
  · by_cases at_ : other = id
    · subst at_
      rw [tasks, there] at found
      cases found
      refine ⟨fun started => ?_, _, List.mem_append_right _ (List.mem_singleton_self _), rfl, pending.symm⟩
      -- The input would be in the index already.
      obtain ⟨a, accepted, alike⟩ := inv.known _ started
      obtain ⟨sameA, sameAgent, sameMessage⟩ : e'.caller = a.caller ∧
          e'.target.agent = a.target.agent ∧ e'.pendingMessage = a.message.messageId := by
        simpa using alike
      have row := (inv.took a accepted).row
      rw [Accepted.key, ← sameA, ← sameAgent, ← sameMessage, sameCaller, sameTarget, pending, free] at row
      cases row
    · obtain ⟨unstarted, a, accepted, rest⟩ := inv.waiting (known found at_) waits
      exact ⟨unstarted, a, List.mem_append_left _ accepted, rest⟩
  · obtain ⟨e₀, found, turn⟩ := inv.handed h mem
    obtain ⟨e₁, found', grown⟩ := grows.tasks found
    exact ⟨e₁, found', Nat.le_trans turn grown.turn⟩
  · obtain ⟨d, row, told⟩ := inv.outcomes o mem
    exact ⟨d, grows.rows row, told⟩

/-! ### Every request -/

/-- What a caller is told of an input is what its row says. -/
theorem inputResolution_told {message : String} {resolution : InputResolution}
    (h : inputResolution x home s caller to_ message = .ok (some resolution)) :
    ∃ d, s.messages (x.inputKey caller to_.agent message) = some d ∧ d.outcome = resolution.outcome := by
  obtain ⟨d, row, _, ⟨none, rfl⟩ | ⟨task, _, some, accepted, _⟩⟩ := inputResolution_cases h
  · exact ⟨d, row, by rw [Dedup.outcome, none]; rfl⟩
  · exact ⟨d, row, by rw [Dedup.outcome, some, accepted]; rfl⟩

theorem Inv.accept (inv : Inv x home w)
    (permitted : Permitted w (.accept newContext newTask caller to_ message parent, fate)) :
    Inv x home (act x home w (.accept newContext newTask caller to_ message parent, fate)) := by
  obtain ⟨context, task, named⟩ := permitted
  obtain ⟨unwritten, error, same⟩ | ⟨s', sub, result, small, written, told⟩ :=
    transact_cases x fate w.ledger (w.accept x home newContext newTask caller to_ message parent)
  · simpa only [act, unwritten, same] using inv
  · obtain ⟨fits, ⟨d, task', row, valid, known, digest, rfl, again, _⟩ |
      ⟨free, new, mid, id, placed, same, recorded⟩⟩ := accept_cases result
    · have accepted : d.outcome = .accepted := by rw [Dedup.outcome, known]; rfl
      obtain told | told := told
      · simp only [act, written, told, again, Bool.false_eq_true, if_false]
        exact inv.told (k := (caller, to_, message.messageId)) row accepted
      · simpa only [act, written, told, again, Bool.false_eq_true, if_false] using inv
    · have inv' := inv.accepted_new fits free placed context task (eq_ok_of_toBool named) same recorded small
      obtain told | told := told
      · simp only [act, written, told, new, if_true]
        have row : s'.messages (x.inputKey caller to_.agent message.messageId) =
            some ⟨some (x.digest to_ message parent), some id, none⟩ := by
          rw [same]
          exact Function.update_self _ _ _
        exact inv'.told (k := (caller, to_, message.messageId)) row rfl
      · simpa only [act, written, told, new, if_true] using inv'

theorem Inv.cancelInput (inv : Inv x home w) {message : String} :
    Inv x home (act x home w (.cancelInput caller to_ message parent, fate)) := by
  obtain ⟨_, error, same⟩ | ⟨s', resolution, result, small, _, told⟩ :=
    transact_cases x fate w.ledger (Store.cancelInput x home w.ledger caller to_ message parent)
  · simpa only [act, same] using inv
  · have canceled : Inv x home { w with ledger := s' } ∧
        ∃ d, s'.messages (x.inputKey caller to_.agent message) = some d ∧
          d.outcome = resolution.outcome := by
      obtain ⟨free, rfl, rfl⟩ | ⟨d, row, _, ⟨none, rfl, rfl⟩ |
        ⟨id, e, task, accepted, there, _, _, _, ⟨rfl, _⟩ | ⟨_, canceled⟩⟩⟩ := cancelInput_cases result
      · exact ⟨inv.fence free _ small, _, Function.update_self _ _ _, rfl⟩
      · exact ⟨inv, d, row, by rw [Dedup.outcome, none]; rfl⟩
      · exact ⟨inv, d, row, by rw [Dedup.outcome, task, accepted]; rfl⟩
      · have touched := cancelEntry_touched canceled
        exact ⟨inv.touched touched small, d, by rw [touched.messages, row],
          by rw [Dedup.outcome, task, accepted]; rfl⟩
    obtain ⟨inv', d, row, outcome⟩ := canceled
    obtain told | told := told
    · simp only [act, told]
      exact inv'.told (k := (caller, to_, message)) row outcome
    · simpa only [act, told] using inv'

theorem Inv.claim (inv : Inv x home w) {message : String} : Inv x home (act x home w (.claim id message, fate)) := by
  obtain ⟨unwritten, error, same⟩ | ⟨s', ⟨turn, r, input⟩, result, small, written, told⟩ :=
    transact_cases x fate w.ledger (Store.claim w.leased w.ledger id message)
  · simpa only [act, unwritten, same] using inv
  · obtain ⟨e, there, waits, rfl, _, free, _, rfl, rfl, sameCaller, sameTarget, sameContext⟩ :=
      claim_cases result
    have inv' := inv.claimed there waits small
    rw [← sameCaller, ← sameTarget] at inv'
    obtain told | told := told
    · simp only [act, written, told]
      refine inv'.hand (e := A2a.begun e) ?_ le_rfl ?_
      · exact Function.update_self _ _ _
      · rw [sameContext]
        exact free
    · simpa only [act, written, told] using inv'

/-- A transaction that leaves the tasks as they are or changes them. -/
theorem Inv.transacted (inv : Inv x home w) (fate : Fate) {result : Except Error (Ledger P M × α)}
    (touched : ∀ {s' a}, result = .ok (s', a) → Touched w.ledger s') :
    Inv x home { w with ledger := (transact x fate w.ledger result).1 } := by
  obtain ⟨_, error, same⟩ | ⟨s', a, ok, small, _, same | same⟩ := transact_cases x fate w.ledger result
  · rw [same]
    exact inv
  · rw [same]
    exact inv.touched (touched ok) small
  · rw [same]
    exact inv.touched (touched ok) small

theorem Inv.step {request : Request P M × Fate} (permitted : Permitted w request)
    (inv : Inv x home w) : Inv x home (act x home w request) := by
  obtain ⟨request, fate⟩ := request
  cases request with
  | accept => exact inv.accept permitted
  | cancelInput => exact inv.cancelInput
  | requestCancel => exact inv.transacted fate fun ok => cancelEntry_touched (requestCancel_cases ok).2
  | findOwnedMessage caller to_ message =>
      simp only [act]
      split
      · next resolution found =>
        unfold Store.findOwnedMessage at found
        obtain ⟨_, _, found⟩ := bind_ok found
        obtain ⟨_, _, found⟩ := bind_ok found
        obtain ⟨d, row, same⟩ := inputResolution_told found
        exact inv.told (k := (caller, to_, message)) row same
      · exact inv
  | claim => exact inv.claim
  | update =>
      refine inv.transacted fate fun ok => ?_
      obtain ⟨e, e', there, _, _, change, rfl⟩ := update_cases ok
      exact .put there (.inr change)
  | bindSession => exact inv.transacted fate fun ok => (bindSession_touched ok).2
  | drop claimant => exact inv.drop claimant
  | recover => exact inv.transacted fate recover_touched

/-! ### What a request makes of a task -/

/-- What one request can make of a task. -/
inductive Evolves (leased : String → Bool) : Entry P M → Entry P M → Prop where
  | same (e : Entry P M) : Evolves leased e e
  | change {e e' : Entry P M} (change : Change e e') : Evolves leased e e'
  | reply {e : Entry P M} (message : Message P M) (waits : e.state.suspended = true)
      (flag : e.cancellationRequested = false) (free : leased e.task.contextId = false) :
      Evolves leased e (replied e message)
  | begin {e : Entry P M} (waits : e.state = .submitted) (flag : e.cancellationRequested = false) :
      Evolves leased e (begun e)

theorem Touched.evolves (touched : Touched s s') (leased : String → Bool) (there : s.tasks id = some e) :
    ∃ e', s'.tasks id = some e' ∧ Evolves leased e e' ∧
      (s'.contexts e.task.contextId = s.contexts e.task.contextId ∨ e.revision < e'.revision) := by
  obtain ⟨e', there', moved⟩ := touched.tasks there
  refine ⟨e', there', ?_, ?_⟩
  · obtain rfl | change := moved
    · exact .same _
    · exact .change change
  · obtain session | ⟨e'', there'', later⟩ := touched.sessions there
    · exact .inl session
    · rw [there'] at there''
      cases there''
      exact .inr later

/-- What is on disk after a transaction: the ledger from before, or the one it made. -/
theorem transact_ledger (x : Externals P M) (fate : Fate) (s : Ledger P M) (result : Except Error (Ledger P M × α)) :
    (transact x fate s result).1 = s ∨
      ∃ s' a, result = .ok (s', a) ∧ (transact x fate s result).1 = s' := by
  obtain ⟨_, error, same⟩ | ⟨s', a, ok, _, _, same | same⟩ := transact_cases x fate s result
  · exact .inl (by rw [same])
  · exact .inr ⟨s', a, ok, by rw [same]⟩
  · exact .inr ⟨s', a, ok, by rw [same]⟩

theorem act_accept_ledger : (act x home w (.accept newContext newTask caller to_ message parent, fate)).ledger =
      (transact x fate w.ledger (w.accept x home newContext newTask caller to_ message parent)).1 := by
  obtain ⟨unwritten, error, same⟩ | ⟨s', sub, result, _, written, told | told⟩ :=
    transact_cases x fate w.ledger (w.accept x home newContext newTask caller to_ message parent)
  · simp only [act, unwritten, same]
  · simp only [act, written, told]
  · simp only [act, written, told]

theorem act_cancelInput_ledger {message : String} :
    (act x home w (.cancelInput caller to_ message parent, fate)).ledger =
      (transact x fate w.ledger (Store.cancelInput x home w.ledger caller to_ message parent)).1 := rfl

theorem act_claim_ledger {message : String} : (act x home w (.claim id message, fate)).ledger =
      (transact x fate w.ledger (Store.claim w.leased w.ledger id message)).1 := by
  obtain ⟨unwritten, error, same⟩ | ⟨s', sub, result, _, written, told | told⟩ :=
    transact_cases x fate w.ledger (Store.claim w.leased w.ledger id message)
  · simp only [act, unwritten, same]
  · simp only [act, written, told]
  · simp only [act, written, told]

/-- What one request can make of the ledger. -/
inductive Wrote (x : Externals P M) (leased : String → Bool) (s : Ledger P M) : Ledger P M → Prop where
  | touched {s' : Ledger P M} (touched : Touched s s') : Wrote x leased s s'
  | fenced {key : String} (free : s.messages key = none) (fence : InputFence) :
      Wrote x leased s { s with
        messages := Function.update s.messages key (some ⟨none, none, some fence⟩) }
  | begun {id : String} {e : Entry P M} (there : s.tasks id = some e) (waits : e.state = .submitted)
      (flag : e.cancellationRequested = false) : Wrote x leased s (s.put id (begun e))
  | accepted {newContext newTask id key : String} {caller : DeviceId} {to_ : AgentTarget}
      {message : Message P M} {parent : Option TaskRef} {mid : Ledger P M} (d : Dedup)
      (context : s.contexts newContext = none) (task : s.tasks newTask = none)
      (placed : Placed leased newContext newTask caller to_ message parent s mid id) :
      Wrote x leased s { mid with messages := Function.update mid.messages key (some d) }

theorem Wrote.transacted (fate : Fate) {result : Except Error (Ledger P M × α)}
    (wrote : ∀ {s' a}, result = .ok (s', a) → Wrote x leased s s') :
    Wrote x leased s (transact x fate s result).1 := by
  obtain same | ⟨s', a, ok, same⟩ := transact_ledger x fate s result
  · rw [same]
    exact .touched (.refl s)
  · rw [same]
    exact wrote ok

theorem act_wrote (x : Externals P M) (home : DeviceId) {request : Request P M × Fate}
    (permitted : Permitted w request) : Wrote x w.leased w.ledger (act x home w request).ledger := by
  obtain ⟨request, fate⟩ := request
  cases request with
  | accept =>
      obtain ⟨context, task, _⟩ := permitted
      rw [act_accept_ledger]
      refine .transacted fate fun ok => ?_
      obtain ⟨_, ⟨_, _, _, _, _, _, rfl, _⟩ | ⟨_, _, mid, id, placed, rfl, _⟩⟩ := accept_cases ok
      · exact .touched (.refl _)
      · exact .accepted _ context task placed
  | cancelInput =>
      refine .transacted fate fun ok => ?_
      obtain ⟨free, _, rfl⟩ | ⟨_, _, _, ⟨_, _, rfl⟩ |
        ⟨_, _, _, _, _, _, _, _, ⟨rfl, _⟩ | ⟨_, canceled⟩⟩⟩ := cancelInput_cases ok
      · exact .fenced free _
      · exact .touched (.refl _)
      · exact .touched (.refl _)
      · exact .touched (cancelEntry_touched canceled)
  | requestCancel =>
      exact .transacted fate fun ok => .touched (cancelEntry_touched (requestCancel_cases ok).2)
  | findOwnedMessage caller to_ message =>
      have same : (act x home w (.findOwnedMessage caller to_ message, fate)).ledger = w.ledger := by
        simp only [act]
        split <;> rfl
      rw [same]
      exact .touched (.refl _)
  | claim =>
      rw [act_claim_ledger]
      refine .transacted fate fun ok => ?_
      obtain ⟨e, there, waits, _, flag, _, _, rfl, _⟩ := claim_cases ok
      exact .begun there waits flag
  | update =>
      refine .transacted fate fun ok => ?_
      obtain ⟨e, e', there, _, _, change, rfl⟩ := update_cases ok
      exact .touched (.put there (.inr change))
  | bindSession => exact .transacted fate fun ok => .touched (bindSession_touched ok).2
  | drop => exact .touched (.refl _)
  | recover => exact .transacted fate fun ok => .touched (recover_touched ok)

/-- Every task stays, as one request leaves it, and is bumped where the session of its context changes. -/
theorem act_evolves {request : Request P M × Fate} (permitted : Permitted w request) (inv : Inv x home w)
    (there : w.ledger.tasks id = some e) :
    ∃ e', (act x home w request).ledger.tasks id = some e' ∧ Evolves w.leased e e' ∧
      ((act x home w request).ledger.contexts e.task.contextId = w.ledger.contexts e.task.contextId ∨
        e.revision < e'.revision) := by
  have wrote := act_wrote x home permitted
  generalize (act x home w request).ledger = s' at wrote ⊢
  cases wrote with
  | touched touched => exact touched.evolves _ there
  | fenced => exact ⟨e, there, .same e, .inl rfl⟩
  | @begun at_ _ there' waits flag =>
      by_cases same : id = at_
      · subst same
        rw [there] at there'
        cases there'
        exact ⟨_, Function.update_self _ _ _, .begin waits flag, .inl rfl⟩
      · exact ⟨e, by rw [← there]; exact Function.update_of_ne same _ _, .same e, .inl rfl⟩
  | @accepted _ _ at_ _ _ _ message _ mid _ context task placed =>
      obtain ⟨_, _, others, contexts⟩ := placed.others context
      obtain ⟨c, has, _⟩ := inv.context there
      have session : mid.contexts e.task.contextId = w.ledger.contexts e.task.contextId := by
        rw [contexts has, has]
      by_cases same : id = at_
      · subst same
        cases placed with
        | opens | starts =>
            rw [task] at there
            cases there
        | replies _ there' _ _ _ waits flag free =>
            rw [there] at there'
            cases there'
            exact ⟨_, Function.update_self _ _ _, .reply message waits flag free, .inl session⟩
      · exact ⟨e, by rw [← there]; exact others id same, .same e, .inl session⟩

theorem Reached.inv (reached : Reached x home w) : Inv x home w :=
  Runs.invariant Inv.step reached .init

end Khor.A2a
