/-
Module: Khor.A2a.Limits
Purpose: Which cancellations, reconciliations and endings of turns a size limit stops: those for whose
  records the store has no room left, and those whose failure is too long for its task.
Trusted boundary: drawn ids are new; the file is as long as its entries and the rest of it
Main exports: Externals.Sized, Limits, limits_of_reached
-/
import Khor.A2a.Dispatch
import Khor.A2a.Once

namespace Khor.A2a

variable {P M : Type} {x : Externals P M} {home : DeviceId} {s s' : Ledger P M} {w : World P M}

/-- An entry of the file takes its own bytes, whatever it is replaced by. -/
structure Externals.Sized (x : Externals P M) : Prop where
  empty : x.ledgerBytes .empty ≤ MAX_STORE_BYTES
  put : ∀ {s : Ledger P M} {id e} (e'), s.ids.Nodup → id ∈ s.ids → s.tasks id = some e →
    x.ledgerBytes (s.put id e') + x.entryBytes e = x.ledgerBytes s + x.entryBytes e'

/-- A size limit is what the error is about. -/
def Error.size : Error → Bool
  | .invalid why => why = "Delegation store is full" || why = "Delegation task exceeds its size limit"
  | _ => false

def TooBig {α : Type} (r : Except Error α) : Prop := ∃ e, r = .error e ∧ e.size = true

/-- The store has room for the entry in place of the one it has. -/
def Room (x : Externals P M) (s : Ledger P M) (e e' : Entry P M) : Prop :=
  x.ledgerBytes s + x.entryBytes e' ≤ MAX_STORE_BYTES + x.entryBytes e

/-- The listed task works without a worker. -/
def orphan (leased : String → Bool) (s : Ledger P M) (id : String) : Option (Entry P M) :=
  (s.tasks id).filter fun e => e.state = .working && !leased e.task.contextId

/-- What the entries of the orphans take, and what they will take. -/
def orphanBytes (x : Externals P M) (leased : String → Bool) (change : String → Entry P M → Entry P M)
    (s : Ledger P M) (ids : List String) : Nat :=
  (ids.map fun id => ((orphan leased s id).map fun e => x.entryBytes (change id e)).getD 0).sum

/-- Which calls a size limit stops. -/
structure Limits (x : Externals P M) (home : DeviceId) (w : World P M) : Prop where
  cancel : ∀ (c : DeviceId) (t : AgentTarget) (id : String),
    TooBig (transact x .saved w.ledger (Store.requestCancel home w.ledger c t id)).2 ↔
      ∃ e, w.ledger.tasks id = some e ∧ target home t = .ok () ∧ e.caller = c ∧ e.target = t ∧
        e.state.isTerminal = false ∧ ¬Room x w.ledger e (stopped e)
  stop : ∀ a ∈ w.accepted, ∀ e, w.ledger.tasks a.task = some e → e.state.isTerminal = false →
    ∀ parent, TooBig (transact x .saved w.ledger
        (Store.cancelInput x home w.ledger a.caller a.target a.message.messageId parent)).2 ↔
      Store.stoppable home a.caller a.target a.message.messageId parent = .ok () ∧ e.parent = parent ∧
        e.pendingMessage = a.message.messageId ∧ ¬Room x w.ledger e (stopped e)
  recover : ∀ message : String → Message P M,
    TooBig (transact x .saved w.ledger (Store.recover w.leased message w.ledger)).2 ↔
      MAX_STORE_BYTES + orphanBytes x w.leased (fun _ e => e) w.ledger w.ledger.ids <
        x.ledgerBytes w.ledger +
          orphanBytes x w.leased (fun id e => status e .failed (some (message id))) w.ledger w.ledger.ids
  conclude : ∀ h ∈ w.live, ∃ e, w.ledger.tasks h.task = some e ∧
    ∀ (id : String) (rest : M) (unfinished : P) (result : Option P), opaqueId id = .ok () →
      ((∃ e', (conclude x home w.ledger h id rest unfinished result).1.tasks h.task = some e' ∧
          e'.state = .working) ↔ e.state = .working ∧
          ¬(x.entryBytes (failed e id rest (result.getD unfinished)) ≤ MAX_TASK_BYTES ∧
            Room x w.ledger e (failed e id rest (result.getD unfinished))))

/-! ### The list of tasks, and the length of the file -/

/-- Every task is listed once, and no other. -/
structure Listed (s : Ledger P M) : Prop where
  nodup : s.ids.Nodup
  there : ∀ id ∈ s.ids, ∃ e, s.tasks id = some e

variable {leased : String → Bool} {α : Type} {id : String} {e : Entry P M} {ids : List String}

theorem Listed.wrote (listed : Listed s) (wrote : Wrote x leased s s') : Listed s' := by
  cases wrote with
  | touched touched =>
      refine ⟨by rw [touched.ids]; exact listed.nodup, fun id mem => ?_⟩
      rw [touched.ids] at mem
      obtain ⟨e, there⟩ := listed.there id mem
      obtain ⟨e', there', _⟩ := touched.tasks there
      exact ⟨e', there'⟩
  | fenced => exact ⟨listed.nodup, listed.there⟩
  | @begun at_ e there =>
      refine ⟨listed.nodup, fun id mem => ?_⟩
      by_cases same : id = at_
      · exact ⟨begun e, by rw [same]; exact Function.update_self _ _ _⟩
      · obtain ⟨e', there'⟩ := listed.there id mem
        exact ⟨e', by rw [← there']; exact Function.update_of_ne same _ _⟩
  | @accepted _ newTask at_ _ _ _ _ _ mid _ context task placed =>
      have new : newTask ∉ s.ids := by
        intro mem
        obtain ⟨e, there⟩ := listed.there newTask mem
        rw [task] at there
        cases there
      have opens : ∀ {ids : List String} {tasks : String → Option (Entry P M)} {e : Entry P M},
          ids = s.ids ++ [newTask] → tasks = Function.update s.tasks newTask (some e) →
            ids.Nodup ∧ ∀ id ∈ ids, ∃ e, tasks id = some e := by
        rintro ids tasks e rfl rfl
        refine ⟨List.nodup_append.mpr ⟨listed.nodup, by simp, ?_⟩, fun id mem => ?_⟩
        · rintro id mem _ (_ | ⟨_, ⟨⟩⟩) rfl
          exact new mem
        · by_cases same : id = newTask
          · exact ⟨e, by rw [same]; exact Function.update_self _ _ _⟩
          · obtain old | last := List.mem_append.mp mem
            · obtain ⟨e', there⟩ := listed.there id old
              exact ⟨e', by rw [← there]; exact Function.update_of_ne same _ _⟩
            · exact absurd (List.mem_singleton.mp last) same
      cases placed with
      | opens | starts =>
          obtain ⟨nodup, there⟩ := opens rfl rfl
          exact ⟨nodup, there⟩
      | @replies _ e _ there =>
          refine ⟨listed.nodup, fun id mem => ?_⟩
          by_cases same : id = at_
          · exact ⟨replied e _, by rw [same]; exact Function.update_self _ _ _⟩
          · obtain ⟨e', there'⟩ := listed.there id mem
            exact ⟨e', by rw [← there']; exact Function.update_of_ne same _ _⟩

theorem Reached.listed (reached : Reached x home w) : Listed w.ledger := by
  refine Runs.invariant (I := fun w : World P M => Listed w.ledger) ?_ reached ⟨List.nodup_nil, ?_⟩
  · intro w request permitted listed
    exact listed.wrote (act_wrote x home permitted)
  · rintro _ ⟨⟩

theorem transact_small {fate : Fate} {result : Except Error (Ledger P M × α)}
    (small : x.ledgerBytes s ≤ MAX_STORE_BYTES) : x.ledgerBytes (transact x fate s result).1 ≤ MAX_STORE_BYTES := by
  obtain ⟨_, e, same⟩ | ⟨s', a, _, small', _, same | same⟩ := transact_cases x fate s result
  · rw [same]
    exact small
  · rw [same]
    exact small'
  · rw [same]
    exact small'

theorem act_small {request : Request P M × Fate} (small : x.ledgerBytes w.ledger ≤ MAX_STORE_BYTES) :
    x.ledgerBytes (act x home w request).ledger ≤ MAX_STORE_BYTES := by
  obtain ⟨request, fate⟩ := request
  cases request with
  | accept =>
      rw [act_accept_ledger]
      exact transact_small small
  | claim =>
      rw [act_claim_ledger]
      exact transact_small small
  | findOwnedMessage =>
      simp only [act]
      split <;> exact small
  | drop => exact small
  | cancelInput | requestCancel | update | bindSession | recover => exact transact_small small

theorem Reached.small (sized : x.Sized) (reached : Reached x home w) :
    x.ledgerBytes w.ledger ≤ MAX_STORE_BYTES :=
  Runs.invariant (I := fun w : World P M => x.ledgerBytes w.ledger ≤ MAX_STORE_BYTES)
    (fun _ => act_small) reached sized.empty

/-! ### Which errors are about a size -/

@[simp] theorem tooBig_ok (a : α) : ¬TooBig (.ok a : Except Error α) := by
  rintro ⟨e, ⟨⟩, _⟩

@[simp] theorem tooBig_error (e : Error) : TooBig (.error e : Except Error α) ↔ e.size = true :=
  ⟨fun ⟨_, same, size⟩ => by cases same; exact size, fun size => ⟨e, rfl, size⟩⟩

theorem tooBig_bind {β : Type} (r : Except Error α) (f : α → Except Error β) :
    TooBig (r >>= f) ↔ TooBig r ∨ ∃ a, r = .ok a ∧ TooBig (f a) := by
  cases r with
  | error | ok => simp [bind, Except.bind]

theorem tooBig_transact (result : Except Error (Ledger P M × α)) : TooBig (transact x .saved s result).2 ↔
      TooBig result ∨ ∃ s' a, result = .ok (s', a) ∧ MAX_STORE_BYTES < x.ledgerBytes s' := by
  cases result with
  | error e => simp [transact]
  | ok done =>
      obtain ⟨s', a⟩ := done
      by_cases full : MAX_STORE_BYTES < x.ledgerBytes s'
      · simp [transact, full, Error.size]
      · simp [transact, full]

theorem not_tooBig_opaqueId (value : String) : ¬TooBig (opaqueId value) := by
  unfold opaqueId
  split
  · simp [Error.size]
  · simp

theorem not_tooBig_target (home : DeviceId) (t : AgentTarget) : ¬TooBig (target home t) := by
  unfold target
  split
  · simp [Error.size]
  · exact not_tooBig_opaqueId _

theorem not_tooBig_callerEntry (c : DeviceId) (t : AgentTarget) (id : String) :
    ¬TooBig (callerEntry s c t id) := by
  unfold callerEntry
  split
  · split <;> simp [Error.size]
  · simp [Error.size]

theorem not_tooBig_record (id : String) : ¬TooBig (record s id) := by
  unfold record
  split
  · simp [Error.size]
  · split
    · split <;> simp [Error.size]
    · simp [Error.size]

theorem not_tooBig_cancelEntry (c : DeviceId) (t : AgentTarget) (id : String) :
    ¬TooBig (cancelEntry s c t id) := by
  unfold cancelEntry
  rw [tooBig_bind]
  rintro (big | ⟨e, _, big⟩)
  · exact not_tooBig_callerEntry _ _ _ big
  · split at big
    · simp at big
    · split at big <;> simp [Error.size] at big

/-! ### The calls -/

theorem Inv.record_put (inv : Inv x home w) {e' : Entry P M} (there : w.ledger.tasks id = some e) (grown : Grown e e') :
    ∃ r, record (w.ledger.put id e') id = .ok r := by
  obtain ⟨c, has, target, caller⟩ := inv.context there
  refine ⟨⟨e'.task, e'.target, e'.caller, e'.parent, c.session, e'.revision, e'.cancellationRequested⟩, ?_⟩
  simp only [record, put_tasks, Function.update_self, put_contexts, grown.context, has, grown.target,
    grown.caller, target, caller, and_self, if_true]

theorem grown_stopped (going : e.state.isTerminal = false) : Grown e (stopped e) := by
  obtain same | change := (stopped_cases going).1
  · rw [same]
    exact .refl e
  · exact change.grown

/-- What a size limit says of an entry that takes the place of another. -/
theorem full_put_iff (sized : x.Sized) (inv : Inv x home w) (listed : Listed w.ledger)
    (there : w.ledger.tasks id = some e) (e' : Entry P M) :
    MAX_STORE_BYTES < x.ledgerBytes (w.ledger.put id e') ↔ ¬Room x w.ledger e e' := by
  have same := sized.put e' listed.nodup (inv.keyed there).2 there
  unfold Room
  omega

theorem cancelEntry_going (there : s.tasks id = some e) (going : e.state.isTerminal = false) :
    cancelEntry s e.caller e.target id = .ok (s.put id (stopped e)) := by
  have entry : callerEntry s e.caller e.target id = .ok e := by
    simp only [callerEntry, there, and_self, if_true]
  have unended : ¬e.state = .canceled := by
    intro canceled
    rw [canceled] at going
    cases going
  simp only [cancelEntry, entry, bind, Except.bind, if_neg unended, going, Bool.false_eq_true, if_false]

theorem requestCancel_limit (sized : x.Sized) (inv : Inv x home w) (listed : Listed w.ledger)
    (small : x.ledgerBytes w.ledger ≤ MAX_STORE_BYTES) (c : DeviceId) (t : AgentTarget) (id : String) :
    TooBig (transact x .saved w.ledger (Store.requestCancel home w.ledger c t id)).2 ↔
      ∃ e, w.ledger.tasks id = some e ∧ target home t = .ok () ∧ e.caller = c ∧ e.target = t ∧
        e.state.isTerminal = false ∧ ¬Room x w.ledger e (stopped e) := by
  rw [tooBig_transact]
  constructor
  · rintro (big | ⟨s', r, ok, full⟩)
    · unfold Store.requestCancel at big
      rw [tooBig_bind] at big
      obtain big | ⟨_, _, big⟩ := big
      · exact (not_tooBig_target _ _ big).elim
      · rw [tooBig_bind] at big
        obtain big | ⟨_, _, big⟩ := big
        · exact (not_tooBig_cancelEntry _ _ _ big).elim
        · rw [tooBig_bind] at big
          obtain big | ⟨_, _, big⟩ := big
          · exact (not_tooBig_record _ big).elim
          · exact (tooBig_ok _ big).elim
    · obtain ⟨here, canceled⟩ := requestCancel_cases ok
      obtain ⟨e, there, caller, owner, ⟨_, rfl⟩ | ⟨going, rfl⟩⟩ := cancelEntry_cases canceled
      · exact absurd small (not_le.mpr full)
      · exact ⟨e, there, here, caller, owner, going, (full_put_iff sized inv listed there _).mp full⟩
  · rintro ⟨e, there, here, rfl, rfl, going, room⟩
    obtain ⟨r, recorded⟩ := inv.record_put there (grown_stopped going)
    refine .inr ⟨_, r, ?_, (full_put_iff sized inv listed there _).mpr room⟩
    have canceled := cancelEntry_going there going
    simp only [Store.requestCancel, here, canceled, recorded, bind, Except.bind]

/-- What is known of an input is answered. -/
theorem resolved_ok (home : DeviceId) (s : Ledger P M) {a : Accepted P M}
    (row : s.messages (a.key x) = some (a.row x))
    (valid : (a.row x).validate a.caller a.target a.message.messageId = .ok ())
    (entry : callerEntry s a.caller a.target a.task = .ok e) :
    ∃ r, Store.resolved x home s a.caller a.target a.message.messageId = .ok (s, r) := by
  rw [Accepted.key] at row
  by_cases pending : e.pendingMessage = a.message.messageId
  · refine ⟨.known ⟨home, a.task⟩ e.state e.revision e.cancellationRequested, ?_⟩
    simp only [Store.resolved, inputResolution, row, valid, bind, Except.bind]
    simp only [Accepted.row, entry, pending, ne_eq, not_true_eq_false, if_false]
  · refine ⟨.superseded ⟨home, a.task⟩, ?_⟩
    simp only [Store.resolved, inputResolution, row, valid, bind, Except.bind]
    simp only [Accepted.row, entry, pending, ne_eq, not_false_eq_true, if_true]

theorem not_tooBig_stoppable {c : DeviceId} {t : AgentTarget} {m : String} {parent : Option TaskRef} :
    ¬TooBig (Store.stoppable home c t m parent) := by
  unfold Store.stoppable
  rw [tooBig_bind]
  rintro (big | ⟨_, _, big⟩)
  · exact not_tooBig_target _ _ big
  · rw [tooBig_bind] at big
    obtain big | ⟨_, _, big⟩ := big
    · exact not_tooBig_opaqueId _ big
    · cases parent with
      | none => exact tooBig_ok _ big
      | some parent =>
          change TooBig ((opaqueId parent.id >>= fun _ => if parent.home ≠ c then
            .error (.invalid "Input parent belongs to another caller") else .ok ()) >>=
              fun _ => (.ok () : Except Error Unit)) at big
          rw [tooBig_bind, tooBig_bind] at big
          obtain (big | ⟨_, _, big⟩) | ⟨_, _, big⟩ := big
          · exact not_tooBig_opaqueId _ big
          · split at big
            · simp [Error.size] at big
            · exact tooBig_ok _ big
          · exact tooBig_ok _ big

theorem cancelInput_limit (law : x.Lawful) (sized : x.Sized) (inv : Inv x home w) (listed : Listed w.ledger)
    (small : x.ledgerBytes w.ledger ≤ MAX_STORE_BYTES) {a : Accepted P M} (mem : a ∈ w.accepted)
    (there : w.ledger.tasks a.task = some e) (going : e.state.isTerminal = false) (parent : Option TaskRef) :
    TooBig (transact x .saved w.ledger
        (Store.cancelInput x home w.ledger a.caller a.target a.message.messageId parent)).2 ↔
      Store.stoppable home a.caller a.target a.message.messageId parent = .ok () ∧ e.parent = parent ∧
        e.pendingMessage = a.message.messageId ∧ ¬Room x w.ledger e (stopped e) := by
  have took := inv.took a mem
  obtain ⟨e', there', caller, owner, _, _, _⟩ := took.entry
  rw [there] at there'
  cases there'
  have row := took.row
  have valid : (a.row x).validate a.caller a.target a.message.messageId = .ok () := by
    simp only [Accepted.row, Dedup.validate, law.fingerprint, if_true]
    exact took.id
  have entry : callerEntry w.ledger a.caller a.target a.task = .ok e := by
    simp only [callerEntry, there, caller, owner, and_self, if_true]
  have canceled := cancelEntry_going there going
  rw [caller, owner] at canceled
  have entry' : callerEntry (w.ledger.put a.task (stopped e)) a.caller a.target a.task =
      .ok (stopped e) := by
    have grown := grown_stopped going
    simp only [callerEntry, put_tasks, Function.update_self, grown.caller, grown.target, caller, owner,
      and_self, if_true]
  obtain ⟨r, resolved⟩ := resolved_ok home w.ledger row valid entry
  obtain ⟨r', resolved'⟩ := resolved_ok home (w.ledger.put a.task (stopped e)) row valid entry'
  have key := row
  rw [Accepted.key] at key
  rw [tooBig_transact]
  cases check : Store.stoppable home a.caller a.target a.message.messageId parent with
  | error error =>
      have stops : Store.cancelInput x home w.ledger a.caller a.target a.message.messageId parent =
          .error error := by
        simp only [Store.cancelInput, check, bind, Except.bind]
      rw [stops]
      constructor
      · rintro (big | ⟨_, _, ⟨⟩, _⟩)
        rw [tooBig_error] at big
        exact (not_tooBig_stoppable ⟨error, check, big⟩).elim
      · rintro ⟨⟨⟩, _⟩
  | ok =>
      have found : Store.cancelInput x home w.ledger a.caller a.target a.message.messageId parent =
          if e.parent ≠ parent then .error .conflict
          else (if e.pendingMessage = a.message.messageId ∧ !e.state.isTerminal then
              cancelEntry w.ledger a.caller a.target a.task else .ok w.ledger) >>= fun s =>
            Store.resolved x home s a.caller a.target a.message.messageId := by
        simp only [Store.cancelInput, check, key, valid, bind, Except.bind]
        simp only [Accepted.row, entry]
      rw [found]
      by_cases sameParent : e.parent = parent
      · rw [if_neg (not_not.mpr sameParent)]
        by_cases pending : e.pendingMessage = a.message.messageId
        · rw [if_pos ⟨pending, by simp [going]⟩, canceled]
          simp only [bind, Except.bind, resolved', tooBig_ok, false_or, Except.ok.injEq, Prod.mk.injEq]
          constructor
          · rintro ⟨_, _, ⟨rfl, _⟩, full⟩
            exact ⟨trivial, sameParent, pending, (full_put_iff sized inv listed there _).mp full⟩
          · rintro ⟨_, _, _, room⟩
            exact ⟨_, _, ⟨rfl, rfl⟩, (full_put_iff sized inv listed there _).mpr room⟩
        · rw [if_neg fun both => pending both.1]
          simp only [bind, Except.bind, resolved, tooBig_ok, false_or, Except.ok.injEq, Prod.mk.injEq]
          constructor
          · rintro ⟨_, _, ⟨rfl, _⟩, full⟩
            exact absurd small (not_le.mpr full)
          · rintro ⟨_, _, other, _⟩
            exact absurd other pending
      · rw [if_pos sameParent]
        constructor
        · rintro (big | ⟨_, _, ⟨⟩, _⟩)
          simp [Error.size] at big
        · rintro ⟨_, other, _⟩
          exact absurd other sameParent

/-! ### The reconciliation -/

theorem interrupt_orphan (leased : String → Bool) (message : String → Message P M) (s : Ledger P M)
    (id : String) : Store.interrupt leased message s id =
      match orphan leased s id with
      | some e => s.put id (status e .failed (some (message id)))
      | none => s := by
  unfold Store.interrupt orphan
  cases there : s.tasks id with
  | none => rfl
  | some e =>
      dsimp only
      by_cases gone : (e.state = .working && !leased e.task.contextId) = true
      · simp only [Option.filter, gone, if_true]
      · simp only [Option.filter, gone, Bool.false_eq_true, if_false]

theorem orphan_there (h : orphan leased s id = some e) : s.tasks id = some e :=
  (Option.filter_eq_some_iff.mp h).1

theorem orphanBytes_congr {change : String → Entry P M → Entry P M} (same : ∀ id ∈ ids, s'.tasks id = s.tasks id) :
    orphanBytes x leased change s' ids = orphanBytes x leased change s ids := by
  unfold orphanBytes
  rw [List.map_congr_left]
  intro id mem
  rw [orphan, orphan, same id mem]

/-- A reconciliation makes the file as much longer as its orphans' entries. -/
theorem interrupts_bytes (sized : x.Sized) (leased : String → Bool) (message : String → Message P M)
    (nodup : ids.Nodup) (listed : s.ids.Nodup) (mem : ∀ id ∈ ids, id ∈ s.ids) :
    x.ledgerBytes (ids.foldl (Store.interrupt leased message) s) +
        orphanBytes x leased (fun _ e => e) s ids =
      x.ledgerBytes s + orphanBytes x leased (fun id e => status e .failed (some (message id))) s ids := by
  induction ids generalizing s with
  | nil => rfl
  | cons i ids ih =>
      obtain ⟨new, nodup⟩ := List.nodup_cons.mp nodup
      rw [List.foldl_cons, interrupt_orphan]
      simp only [orphanBytes, List.map_cons, List.sum_cons]
      cases lone : orphan leased s i with
      | none =>
          have rest := ih nodup listed fun id mem' => mem id (.tail _ mem')
          simp only [orphanBytes] at rest
          simp only [Option.map_none, Option.getD_none]
          omega
      | some e =>
          have step := sized.put (status e .failed (some (message i))) listed (mem i (.head _))
            (orphan_there lone)
          have rest := @ih (s.put i (status e .failed (some (message i)))) nodup listed
            fun id mem' => mem id (.tail _ mem')
          have same : ∀ id ∈ ids, (s.put i (status e .failed (some (message i)))).tasks id = s.tasks id := by
            intro id mem'
            refine Function.update_of_ne ?_ _ _
            rintro rfl
            exact new mem'
          rw [orphanBytes_congr same, orphanBytes_congr same] at rest
          simp only [orphanBytes] at rest
          simp only [Option.map_some, Option.getD_some]
          omega

theorem mapM_ok {β : Type} {f : α → Except Error β} {as : List α} (h : ∀ a ∈ as, ∃ b, f a = .ok b) :
    ∃ bs, as.mapM f = .ok bs := by
  induction as with
  | nil => exact ⟨[], rfl⟩
  | cons a as ih =>
      obtain ⟨b, first⟩ := h a (.head _)
      obtain ⟨bs, rest⟩ := ih fun a' mem => h a' (.tail _ mem)
      exact ⟨b :: bs, by simp only [List.mapM_cons, first, rest, bind, Except.bind, pure, Except.pure]⟩

theorem recover_limit (sized : x.Sized) (inv : Inv x home w) (listed : Listed w.ledger)
    (message : String → Message P M) :
    TooBig (transact x .saved w.ledger (Store.recover w.leased message w.ledger)).2 ↔
      MAX_STORE_BYTES + orphanBytes x w.leased (fun _ e => e) w.ledger w.ledger.ids <
        x.ledgerBytes w.ledger +
          orphanBytes x w.leased (fun id e => status e .failed (some (message id))) w.ledger w.ledger.ids := by
  obtain ⟨_, _, contexts, tasks⟩ := @interrupts_cases _ _ w.leased message w.ledger.ids w.ledger
  have bytes := interrupts_bytes sized w.leased message listed.nodup listed.nodup fun _ mem => mem
  have records : ∃ rs, (w.ledger.ids.filter fun id => (w.ledger.tasks id).any fun e =>
      e.state = .working && !w.leased e.task.contextId).mapM
        (record (w.ledger.ids.foldl (Store.interrupt w.leased message) w.ledger)) = .ok rs := by
    refine mapM_ok fun id mem => ?_
    obtain ⟨e, there⟩ := listed.there id (List.mem_of_mem_filter mem)
    obtain ⟨c, has, target, caller⟩ := inv.context there
    obtain same | ⟨e', there', _, fails⟩ := tasks id
    · refine ⟨⟨e.task, e.target, e.caller, e.parent, c.session, e.revision, e.cancellationRequested⟩, ?_⟩
      simp only [record, same, there, contexts, has, target, caller, and_self, if_true]
    · rw [there] at there'
      cases there'
      refine ⟨⟨(status e .failed (some (message id))).task, e.target, e.caller, e.parent, c.session,
        e.revision + 1, e.cancellationRequested⟩, ?_⟩
      simp only [record, fails, contexts, status_context, has, status_target, status_caller, target, caller,
        and_self, if_true, status_parent, status_revision, status_flag]
  obtain ⟨rs, records⟩ := records
  have recovered : Store.recover w.leased message w.ledger =
      .ok (w.ledger.ids.foldl (Store.interrupt w.leased message) w.ledger, rs) := by
    simp only [Store.recover, records, bind, Except.bind]
  rw [tooBig_transact, recovered]
  simp only [tooBig_ok, false_or, Except.ok.injEq, Prod.mk.injEq]
  constructor
  · rintro ⟨_, _, ⟨rfl, _⟩, full⟩
    omega
  · intro more
    exact ⟨_, _, ⟨rfl, rfl⟩, by omega⟩

/-! ### The ending of a turn -/

theorem failure_some {unfinished part : P} {result : Option P} {state : TaskState}
    (h : failure unfinished result state = some part) : part = result.getD unfinished := by
  unfold failure at h
  split at h
  · cases h
    rfl
  · split at h
    · cases h
      rfl
    · cases h

theorem conclude_limit (sized : x.Sized) (inv : Inv x home w) (listed : Listed w.ledger) {h : Handed P M}
    (held : Held home w.ledger h) (there : w.ledger.tasks h.task = some e) (rest : M) (unfinished : P)
    (result : Option P) (named : opaqueId id = .ok ()) :
    (∃ e', (conclude x home w.ledger h id rest unfinished result).1.tasks h.task = some e' ∧
        e'.state = .working) ↔
      e.state = .working ∧
        ¬(x.entryBytes (failed e id rest (result.getD unfinished)) ≤ MAX_TASK_BYTES ∧
          Room x w.ledger e (failed e id rest (result.getD unfinished))) := by
  obtain ⟨r, got, same⟩ := inv.get held there
  have state : r.task.status.state = e.state := by rw [same]; rfl
  have unchanged : (∃ e', w.ledger.tasks h.task = some e' ∧ e'.state = .working) ↔ e.state = .working := by
    constructor
    · rintro ⟨e', there', working⟩
      rw [there] at there'
      cases there'
      exact working
    · exact fun working => ⟨e, there, working⟩
  simp only [conclude, got, state]
  by_cases closed : e.state.isTerminal = true
  · rw [if_pos closed, unchanged]
    have idle : ¬e.state = .working := by
      intro working
      rw [working] at closed
      cases closed
    exact ⟨fun working => absurd working idle, fun both => both.1⟩
  · rw [if_neg closed]
    cases text : failure unfinished result e.state with
    | none =>
        have idle : ¬e.state = .working := by
          intro working
          unfold failure at text
          split at text
          · cases text
          · rw [if_pos working] at text
            cases text
        exact unchanged.trans ⟨fun working => absurd working idle, fun both => both.1⟩
    | some part =>
        have said := failure_some text
        subst said
        obtain ⟨fits, r', ok⟩ | ⟨large, error⟩ := update_failed inv held there (by simpa using closed)
          rest (result.getD unfinished) named
        · have room := full_put_iff sized inv listed there (failed e id rest (result.getD unfinished))
          simp only [ok, transact]
          by_cases full : MAX_STORE_BYTES <
              x.ledgerBytes (w.ledger.put h.task (failed e id rest (result.getD unfinished)))
          · rw [if_pos full, unchanged]
            exact ⟨fun working => ⟨working, fun both => room.mp full both.2⟩, fun both => both.1⟩
          · rw [if_neg full]
            constructor
            · rintro ⟨e', there', working⟩
              simp only [put_tasks, Function.update_self, Option.some.injEq] at there'
              subst there'
              cases working
            · rintro ⟨_, crowded⟩
              exact absurd ⟨fits, not_not.mp fun none => full (room.mpr none)⟩ crowded
        · simp only [error, transact]
          rw [unchanged]
          exact ⟨fun working => ⟨working, fun both => absurd both.1 (not_le.mpr large)⟩, fun both => both.1⟩

/-- A size limit stops exactly the calls for whose records there is no room. -/
theorem limits_of_reached (law : x.Lawful) (sized : x.Sized) (reached : Reached x home w) :
    Limits x home w := by
  have inv := reached.inv
  have listed := reached.listed
  have small := reached.small sized
  refine
    { cancel := requestCancel_limit sized inv listed small
      stop := fun a mem e there going => cancelInput_limit law sized inv listed small mem there going
      recover := recover_limit sized inv listed
      conclude := fun h live => ?_ }
  have held := reached.held h live
  obtain ⟨e, there, _⟩ := held.entry
  exact ⟨e, there, fun id rest unfinished result named =>
    conclude_limit sized inv listed held there rest unfinished result named⟩

/-! ### One home -/

/-- No size limit stops a cancellation, a reconciliation or the ending of a turn. -/
structure Unstranded (x : Externals P M) (home : DeviceId) (w : World P M) : Prop where
  cancel : ∀ (c : DeviceId) (t : AgentTarget) (id : String),
    ¬TooBig (transact x .saved w.ledger (Store.requestCancel home w.ledger c t id)).2
  stop : ∀ a ∈ w.accepted, ∀ e, w.ledger.tasks a.task = some e → e.state.isTerminal = false →
    ∀ parent, ¬TooBig (transact x .saved w.ledger
      (Store.cancelInput x home w.ledger a.caller a.target a.message.messageId parent)).2
  recover : ∀ message : String → Message P M,
    ¬TooBig (transact x .saved w.ledger (Store.recover w.leased message w.ledger)).2
  conclude : ∀ h ∈ w.live, ∀ (id : String) (rest : M) (unfinished : P) (result : Option P),
    opaqueId id = .ok () →
      ¬∃ e', (conclude x home w.ledger h id rest unfinished result).1.tasks h.task = some e' ∧
        e'.state = .working

theorem sum_update (s : Ledger String Unit) {e : Entry String Unit} (e' : Entry String Unit)
    (there : s.tasks id = some e) (nodup : ids.Nodup) (mem : id ∈ ids) :
    (ids.map fun other => (((s.put id e').tasks other).map entryLetters).getD 0).sum + entryLetters e =
      (ids.map fun other => ((s.tasks other).map entryLetters).getD 0).sum + entryLetters e' := by
  induction ids with
  | nil => cases mem
  | cons i ids ih =>
      obtain ⟨new, nodup⟩ := List.nodup_cons.mp nodup
      simp only [List.map_cons, List.sum_cons, put_tasks]
      by_cases same : i = id
      · subst same
        have rest : ∀ other ∈ ids, Function.update s.tasks i (some e') other = s.tasks other := by
          intro other mem'
          refine Function.update_of_ne ?_ _ _
          rintro rfl
          exact new mem'
        rw [List.map_congr_left fun other mem' => by rw [rest other mem'], Function.update_self, there]
        simp only [Option.map_some, Option.getD_some]
        omega
      · have mem' : id ∈ ids := (List.mem_cons.mp mem).resolve_left fun at_ => same at_.symm
        have rest := ih nodup mem'
        simp only [put_tasks] at rest
        rw [Function.update_of_ne same]
        omega

theorem oneExternals_sized : oneExternals.Sized where
  empty := by decide
  put {s id e} e' nodup mem there := by
    have sum := sum_update s e' there nodup mem
    simp only [oneExternals, put_ids]
    omega

/-- One input is accepted and its turn is handed out. -/
def oneTurn : List (Request String Unit × Fate) := (askedBack "q1").take 2

theorem one_turn_limits : Limits oneExternals oneTarget.home
    (oneTurn.foldl (act oneExternals oneTarget.home) .init) :=
  limits_of_reached oneExternals_lawful oneExternals_sized (Fits.runs (by decide +kernel))

theorem exists_text (n : Nat) : ∃ text : String, text.length = n :=
  ⟨String.ofList (List.replicate n 'x'), by rw [String.length_ofList, List.length_replicate]⟩

theorem length_le_failed (e : Entry String Unit) (id text : String) :
    text.length ≤ entryLetters (failed e id () text) := by
  have said : (failed e id () text).task.history = e.task.history ++ [{ note id () text with
      taskId := some e.task.id, contextId := some e.task.contextId }] := rfl
  simp only [entryLetters, said, List.map_append, List.sum_append, List.map_cons, List.sum_cons, letters, note]
  omega

/-- An error of four million letters leaves its task working. -/
theorem a_long_error_strands :
    Reached oneExternals oneTarget.home (oneTurn.foldl (act oneExternals oneTarget.home) .init) ∧
      ¬Unstranded oneExternals oneTarget.home (oneTurn.foldl (act oneExternals oneTarget.home) .init) := by
  have working : ∃ h ∈ (oneTurn.foldl (act oneExternals oneTarget.home) .init).live,
      ((oneTurn.foldl (act oneExternals oneTarget.home) .init).ledger.tasks h.task).map Entry.state =
        some .working := by decide +kernel
  refine ⟨Fits.runs (by decide +kernel), fun unstranded => ?_⟩
  obtain ⟨h, live, state⟩ := working
  obtain ⟨e, there, ends⟩ := one_turn_limits.conclude h live
  rw [there] at state
  have named : opaqueId "f1" = .ok () := eq_ok_of_toBool (by decide)
  obtain ⟨text, long⟩ := exists_text (MAX_TASK_BYTES + 1)
  refine unstranded.conclude h live "f1" () "" (some text) named
    ((ends "f1" () "" (some text) named).mpr ⟨Option.some.inj state, fun fits => ?_⟩)
  have most : entryLetters (failed e "f1" () text) ≤ MAX_TASK_BYTES := fits.1
  have least := length_le_failed e "f1" text
  omega

end Khor.A2a
