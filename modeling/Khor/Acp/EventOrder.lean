/-
Module: Khor.Acp.EventOrder
Purpose: In every interleaving the receiver is handed the accepted events in their order, and a fence that
  returned waited for what was accepted before it.
Trusted boundary: what serde_json encodes it decodes
Main exports: Inv.receive, Inv.work, Inv.step, events_in_order
-/
import Khor.Acp.EventInvariant

namespace Khor.Acp.EventStore

section Receiver

variable {N Q : Type} {x : Externals N} {w w' : World N Q}

theorem closed_of {event : Event N Q} (closed : event.isClosed = true) : ∃ error, event = .closed error := by
  cases event with
  | closed error => exact ⟨error, rfl⟩
  | _ => cases closed

/-- The receiver took from the slot, or looked at it. -/
theorem Inv.looked (inv : Inv x w) {delivered : Nat} {output : Option (Output N Q)} {readRequested : Bool}
    {handed : List (Event N Q)} {receiver : Receiver}
    (slot : w.state.done = true ∨ (delivered = w.state.delivered ∧ output = w.state.output) ∨
      (w.state.output.isSome ∧ output = none ∧ delivered = w.state.delivered + 1))
    (small : delivered ≤ w.state.written)
    (held : output = none ∨ (delivered = w.state.delivered ∧ output = w.state.output))
    (receiving : (receiver = .polling ∨ receiver = .ended) ∧ handed = w.log.take delivered ∧
        delivered ≤ w.log.length ∨
      receiver = .ended ∧ ∃ k error, k ≤ w.log.length ∧ handed = w.log.take k ++ [.closed error] ∧
        (w.state.failed = none → k = w.log.length ∧ w.state.end.isSome)) :
    Inv x { w with
      state := { w.state with
        delivered := delivered, output := output, readRequested := readRequested }
      handed := handed
      receiver := receiver } := by
  have aside : Aside w { w with
      state := { w.state with
        delivered := delivered, output := output, readRequested := readRequested }
      handed := handed
      receiver := receiver } :=
    ⟨rfl, rfl, rfl, rfl, rfl, List.prefix_rfl, fun _ => rfl, fun _ at_ => at_, fun _ at_ _ => at_,
      fun some_ => some_, .inl rfl, slot⟩
  refine inv.aside aside inv.ends inv.accepted inv.plain inv.session inv.queue small ?_ ?_ ?_ ?_
    inv.cancelled inv.failedAt (aside.seen inv.progress)
    (aside.tasks inv) (aside.watches inv)
  · intro o at_
    rcases held with empty | ⟨same, kept⟩
    · rw [empty] at at_
      cases at_
    · exact aside.outputOk same (inv.output o (kept ▸ at_))
  · rcases receiving with ⟨_, same, le⟩ | ⟨past, closed⟩
    · exact .inl ⟨same, le⟩
    · exact .inr ⟨.inl past, closed⟩
  · intro still
    rcases receiving with ⟨_, same, le⟩ | ⟨past, _⟩
    · exact ⟨same, le⟩
    · rw [past] at still
      cases still
  · intro e failing
    rcases receiving with ⟨past | past, _⟩ | ⟨past, _⟩ <;> rw [past] at failing <;> cases failing

/-- One poll of the receiver. -/
theorem Inv.receive (inv : Inv x w) (polling : w.receiver = .polling) : Inv x w.receive := by
  obtain ⟨same, le⟩ := inv.polling polling
  unfold World.receive
  split
  · next output at_ =>
    have ok := inv.output output at_
    have some_ : w.state.output.isSome := by rw [at_]; rfl
    obtain ⟨sequence, event⟩ := output
    cases sequence with
    | some s =>
        obtain ⟨rfl, placed | ⟨closed, done, terminal, written⟩⟩ := ok
        · obtain ⟨pos, written, there⟩ := placed
          have open_ : event.isClosed = false := inv.plain event (List.mem_of_getElem? there)
          simp only [if_pos, open_]
          rw [Nat.add_sub_cancel] at there
          have next_ : w.handed ++ [event] = w.log.take (w.state.delivered + 1) := by
            rw [List.take_add_one, there, same]
            rfl
          exact inv.looked (.inr (.inr ⟨some_, rfl, rfl⟩)) written (.inl rfl)
            (.inl ⟨.inl rfl, next_, (List.getElem?_eq_some_iff.1 there).1⟩)
        · simp only [if_pos, closed]
          obtain ⟨error, rfl⟩ := closed_of closed
          obtain ⟨e, is_, number⟩ := Option.bind_eq_some_iff.1 terminal
          have last := (inv.ends e is_).2 _ number
          have all : w.state.delivered = w.log.length := by omega
          exact inv.looked (.inl done) written (.inl rfl)
            (.inr ⟨rfl, w.log.length, error, Nat.le_refl _, by rw [same, all],
              fun _ => ⟨rfl, by rw [is_]; rfl⟩⟩)
    | none =>
        obtain ⟨closed, done, failed⟩ := ok
        simp only [closed, if_pos]
        obtain ⟨error, rfl⟩ := closed_of closed
        exact inv.looked (.inl done) inv.delivered (.inl rfl)
          (.inr ⟨rfl, w.state.delivered, error, le, by rw [same], fun none_ => by
            rw [none_] at failed
            cases failed⟩)
  · next empty =>
    split
    · next error failed =>
      exact inv.looked (.inr (.inl ⟨rfl, rfl⟩)) inv.delivered (.inr ⟨rfl, rfl⟩)
        (.inr ⟨rfl, w.state.delivered, some error, le, by rw [same], fun none_ => by
          rw [none_] at failed
          cases failed⟩)
    · split
      · exact inv.looked (.inr (.inl ⟨rfl, rfl⟩)) inv.delivered (.inr ⟨rfl, rfl⟩)
          (.inl ⟨.inr rfl, same, le⟩)
      · exact inv.looked (.inr (.inl ⟨rfl, rfl⟩)) inv.delivered (.inr ⟨rfl, rfl⟩)
          (.inl ⟨.inl polling, same, le⟩)

/-- The receiver goes away, and a thread of its own cancels the store. -/
theorem Inv.dropReceiver (inv : Inv x w) : Inv x w.dropReceiver := by
  have aside : Aside w w.dropReceiver :=
    ⟨rfl, rfl, rfl, rfl, rfl, List.prefix_rfl, fun _ => rfl, fun _ at_ => at_, fun _ at_ _ => at_,
      fun some_ => some_, .inl rfl, .inr (.inl ⟨rfl, rfl⟩)⟩
  refine inv.quiet aside rfl rfl rfl (fun _ at_ => at_) rfl rfl rfl rfl (.inr rfl) inv.cancelled
    inv.failedAt (aside.seen inv.progress) (fun thread mem task mem' => ?_)
    (aside.watches inv)
  rcases List.mem_append.1 mem with old | new
  · exact aside.taskOk (inv.threads thread old task mem')
  · obtain rfl := List.mem_singleton.1 new
    obtain rfl := List.mem_singleton.1 mem'
    trivial

end Receiver

section Worker

variable {N Q : Type} {x : Externals N} {w w' : World N Q}

/-- What a step of the worker leaves of the world. -/
structure Inside (w w' : World N Q) : Prop where
  log : w'.log = w.log
  «end» : w'.state.end = w.state.end
  accepted : w'.state.accepted = w.state.accepted
  session : w'.state.session = w.state.session
  delivered : w'.state.delivered = w.state.delivered
  handed : w'.handed = w.handed
  receiver : w'.receiver = w.receiver
  threads : w'.threads = w.threads
  passed : w'.passed = w.passed
  records : w.spool.records.length ≤ w'.spool.records.length
  written : w.state.written ≤ w'.state.written
  failed : w.state.failed.isSome → w'.state.failed.isSome
  failedAt : FailedSince w w'

theorem Inside.terminal (inside : Inside w w') : w'.state.terminal = w.state.terminal := by
  simp only [State.terminal, inside.end]

theorem Inside.seen (inside : Inside w w') {progress : Progress} (h : Seen w progress) : Seen w' progress :=
  h.later inside.written inside.failedAt

theorem Inside.placed (inside : Inside w w') {s : Nat} {event : Event N Q} (h : Placed w s event) :
    Placed w' s event :=
  ⟨h.1, Nat.le_trans h.2.1 inside.written, by rw [inside.log]; exact h.2.2⟩

variable {output : Output N Q} {poisoned : Bool} {end_ : WorkerEnd} {interactions : List (Nat × Event N Q)}

theorem Inside.outputOk (inside : Inside w w') (done : w.state.done = true → w'.state.done = true)
    (h : OutputOk w output) : OutputOk w' output := by
  unfold OutputOk at h ⊢
  rw [inside.delivered, inside.terminal]
  split at h
  · obtain ⟨number, placed | ⟨closed, was, terminal, le⟩⟩ := h
    · exact ⟨number, .inl (inside.placed placed)⟩
    · exact ⟨number, .inr ⟨closed, done was, terminal, Nat.le_trans le inside.written⟩⟩
  · exact ⟨h.1, done h.2.1, inside.failed h.2.2⟩

/-- A step of the worker keeps the invariant, where it keeps what it changes. -/
theorem Inv.inside (inv : Inv x w) (inside : Inside w w')
    (spool : ∀ i record, w'.spool.records[i]? = some record →
      record.sequence = i + 1 ∧ Genuine x w'.log record) (read : w'.spool.read ≤ w'.spool.records.length)
    (queue : ∀ item ∈ w'.state.queue, item ∈ w.state.queue)
    (interactions : ∀ k event, (k, event) ∈ w'.interactions → 0 < k ∧ w'.log[k - 1]? = some event)
    (written : w'.state.written ≤ w'.spool.records.length ∨
      (w'.log.length ≤ w'.spool.records.length ∧ w'.state.terminal = some w'.state.written))
    (output : ∀ output, w'.state.output = some output → OutputOk w' output)
    (cancelled : w'.cancelled = true → w'.state.failed.isSome)
    (failedAt : w'.failedAt.isSome = w'.state.failed.isSome)
    (done : w'.state.done = true → w'.worker.past = true) (worker : WorkerOk x w' w'.worker)
    (progress : Seen w' w'.progress) : Inv x w' where
  ends := by
    rw [inside.end, inside.log]
    exact inv.ends
  accepted := by
    rw [inside.accepted, inside.terminal, inside.log]
    exact inv.accepted
  plain := inside.log ▸ inv.plain
  session := by
    rw [inside.log, inside.session]
    exact inv.session
  spool := spool
  read := read
  queue item mem := inside.log ▸ inv.queue item (queue item mem)
  interactions := interactions
  written := written
  delivered := inside.delivered ▸ Nat.le_trans inv.delivered inside.written
  output := output
  handed := by
    unfold HandedOk
    rw [inside.handed, inside.log, inside.delivered, inside.receiver, inside.end]
    rcases inv.handed with open_ | ⟨past, k, error, small, same, all⟩
    · exact .inl open_
    · refine .inr ⟨past, k, error, small, same, fun none_ => all ?_⟩
      cases failed : w.state.failed with
      | none => rfl
      | some e =>
          have := inside.failed (by rw [failed]; rfl)
          rw [none_] at this
          cases this
  polling := by
    rw [inside.handed, inside.log, inside.delivered, inside.receiver]
    exact inv.polling
  unfailing := inside.receiver ▸ inv.unfailing
  cancelled := cancelled
  failedAt := failedAt
  failedAt_le k at_ := by
    rcases inside.failedAt with same | ⟨_, now⟩
    · exact Nat.le_trans (inv.failedAt_le k (same ▸ at_)) inside.written
    · rw [now] at at_
      cases at_
      exact inside.written
  done := done
  worker := worker
  progress := progress
  threads thread mem task mem' := by
    have ok := inv.threads thread (inside.threads ▸ mem) task mem'
    cases task with
    | merge progress => exact inside.seen ok
    | watch through before => exact ⟨ok.1, inside.log ▸ ok.2⟩
    | enqueue event => exact ok
    | _ => trivial
  passed p mem := by
    obtain ⟨before, records, through, failed⟩ := inv.passed p (inside.passed ▸ mem)
    refine ⟨before, Nat.le_trans records inside.records, Nat.le_trans through inside.written, fun k at_ => ?_⟩
    rcases inside.failedAt with same | ⟨_, now⟩
    · exact failed k (same ▸ at_)
    · rw [now] at at_
      cases at_
      exact through

/-- A worker that has not reported leaves the store open. -/
theorem Inv.live (inv : Inv x w) (going : w.worker.past = false) : w.state.done = false := by
  cases done : w.state.done with
  | false => rfl
  | true =>
      rw [inv.done done] at going
      cases going

/-- Only what the invariant does not read, and where the worker is, changed. -/
theorem Inv.move (inv : Inv x w) (live : w.state.done = false) (queue : List (Queued N Q)) {readRequested : Bool}
    {worker : Worker N Q} (fewer : ∀ item ∈ queue, item ∈ w.state.queue) (ok : WorkerOk x { w with
      state := { w.state with queue := queue, readRequested := readRequested }
      spool := { w.spool with poisoned := poisoned }
      worker := worker } worker) : Inv x { w with
      state := { w.state with queue := queue, readRequested := readRequested }
      spool := { w.spool with poisoned := poisoned }
      worker := worker } := by
  have inside : Inside w { w with
      state := { w.state with queue := queue, readRequested := readRequested }
      spool := { w.spool with poisoned := poisoned }
      worker := worker } :=
    ⟨rfl, rfl, rfl, rfl, rfl, rfl, rfl, rfl, rfl, Nat.le_refl _, Nat.le_refl _, fun some_ => some_, .inl rfl⟩
  refine inv.inside inside inv.spool inv.read fewer inv.interactions inv.written ?_ inv.cancelled
    inv.failedAt ?_ ok (inside.seen inv.progress)
  · exact fun o at_ => inside.outputOk (fun done => done) (inv.output o at_)
  · intro done
    rw [live] at done
    cases done

/-- A worker that stops, and why. -/
theorem Inv.stop (inv : Inv x w) (live : w.state.done = false) (why : EndOk w end_) : Inv x { w with
      worker := .completing end_, spool := { w.spool with poisoned := poisoned } } :=
  inv.move live w.state.queue (fun _ mem => mem) why

theorem Inv.fail (inv : Inv x w) (live : w.state.done = false) (error : String) :
    Inv x { w.fail error with spool := { w.spool with poisoned := poisoned } } := by
  unfold World.fail
  split
  · next cancelled => exact inv.stop live (inv.cancelled cancelled)
  · exact inv.stop live trivial

/-- What the end of the source asks for, and when. -/
theorem endWork_cases {state : State N Q} {e : SourceEnd} {work : Work N Q}
    (asked : endWork state e = some work) :
    e.confirmed = true ∧ e.dataThrough ≤ state.written ∧
      ((∃ s, e.eventSequence = some s ∧ state.written < s ∧ work = .terminalWritten s) ∨
        ((∀ s, e.eventSequence = some s → s ≤ state.written) ∧ e.dataThrough ≤ state.delivered ∧
          state.output = none ∧ work = .finish e)) := by
  unfold endWork at asked
  split at asked
  · next ready =>
    simp only [Bool.and_eq_true, decide_eq_true_eq] at ready
    refine ⟨ready.1.1, ready.2, ?_⟩
    split at asked
    · next s number =>
      split at asked
      · next before => exact .inl ⟨s, number, before, (Option.some.inj asked).symm⟩
      · next after =>
        split at asked
        · next last =>
          simp only [Bool.and_eq_true, decide_eq_true_eq, Option.isNone_iff_eq_none] at last
          refine .inr ⟨fun s' at_ => ?_, last.1, last.2, (Option.some.inj asked).symm⟩
          rw [number] at at_
          cases at_
          omega
        · cases asked
    · next number =>
      split at asked
      · next last =>
        simp only [Bool.and_eq_true, decide_eq_true_eq, Option.isNone_iff_eq_none] at last
        refine .inr ⟨fun s' at_ => ?_, last.1, last.2, (Option.some.inj asked).symm⟩
        rw [number] at at_
        cases at_
      · cases asked
  · cases asked

/-- What the worker does next, and what it takes for it. -/
theorem nextWork_cases {preferRead : Bool} {work : Work N Q} {state : State N Q}
    (asked : nextWork w preferRead = some (work, state)) :
    (work = .cancel ∧ state = w.state ∧ w.cancelled = true) ∨
    (∃ e, w.state.end = some e ∧ endWork w.state e = some work ∧ state = w.state) ∨
    (work = .read ∧ state = { w.state with readRequested := false } ∧ w.state.output = none) ∨
    (∃ item rest, w.state.queue = item :: rest ∧ work = .write item ∧
      state = { w.state with queue := rest }) := by
  unfold nextWork at asked
  split at asked
  · next cancelled =>
    cases asked
    exact .inl ⟨rfl, rfl, cancelled⟩
  · split at asked
    · next found =>
      cases asked
      obtain ⟨e, is_, asks⟩ := Option.bind_eq_some_iff.1 found
      exact .inr (.inl ⟨e, is_, asks, rfl⟩)
    · split at asked
      · next readable =>
        cases asked
        simp only [State.readable, Bool.and_eq_true, Option.isNone_iff_eq_none] at readable
        exact .inr (.inr (.inl ⟨rfl, rfl, readable.1.1.2⟩))
      · split at asked
        · next item rest queue =>
          cases asked
          exact .inr (.inr (.inr ⟨item, rest, queue, rfl, rfl⟩))
        · cases asked

/-- The worker that looks for work. -/
theorem Inv.next (inv : Inv x w) {preferRead preferRead' : Bool} (here : w.worker = .next preferRead)
    {work : Work N Q} {state : State N Q} (asked : nextWork w preferRead = some (work, state)) :
    Inv x { w with state := state, worker := work.worker preferRead' } := by
  have live := inv.live (by rw [here]; rfl)
  have ok := inv.worker
  rw [here] at ok
  obtain ⟨synced, read⟩ := ok
  rcases nextWork_cases asked with ⟨rfl, rfl, cancelled⟩ | ⟨e, is_, asks, rfl⟩ | ⟨rfl, rfl, empty⟩ |
    ⟨item, rest, queue, rfl, rfl⟩
  · exact inv.move live w.state.queue (fun _ mem => mem) (inv.cancelled cancelled)
  · obtain ⟨confirmed, data, ⟨s, number, before, rfl⟩ | ⟨number, last, empty, rfl⟩⟩ := endWork_cases asks
    · obtain ⟨through, next_⟩ := inv.ends e is_
      have all : w.log.length ≤ w.spool.records.length := by
        rcases inv.written with le | ⟨all, _⟩
        · omega
        · exact all
      exact inv.move live w.state.queue (fun _ mem => mem)
        ⟨synced, read, by simp only [State.terminal, is_]; exact number, all, Nat.le_of_lt before⟩
    · have whole : w.state.delivered = w.log.length := by
        have small := Nat.le_trans inv.read inv.spool_le
        unfold ReadOk at read
        rw [read, empty] at small
        rw [(inv.ends e is_).1] at last
        exact Nat.le_antisymm small last
      exact inv.move live w.state.queue (fun _ mem => mem) ⟨is_, confirmed, number, whole, empty⟩
  · exact inv.move live w.state.queue (fun _ mem => mem) ⟨synced, read, empty⟩
  · exact inv.move live rest (fun i mem => by rw [queue]; exact List.mem_cons_of_mem _ mem)
      ⟨synced, read, inv.queue item (by rw [queue]; exact List.mem_cons_self ..)⟩

/-- A record that was appended. -/
theorem Inv.append (inv : Inv x w) {item : Queued N Q} (here : w.worker = .writing item)
    {spool : Spool} {io : Option String} (done : w.spool.append item.record io = .ok spool) :
    Inv x { w with spool := spool, worker := .appended item } := by
  have live := inv.live (by rw [here]; rfl)
  have ok := inv.worker
  rw [here] at ok
  obtain ⟨synced, read, genuine⟩ := ok
  unfold Spool.append at done
  split at done
  · cases done
  · split at done
    · cases done
    · next number =>
      split at done
      · cases done
      · cases done
        have number : w.spool.records.length + 1 = item.record.sequence := Decidable.not_not.1 number
        have small : item.record.sequence ≤ w.log.length := by
          obtain ⟨event, pos, at_, _⟩ := genuine
          have := (List.getElem?_eq_some_iff.1 at_).1
          omega
        have inside : Inside w { w with
            spool := { w.spool with records := w.spool.records ++ [item.record] }
            worker := .appended item } :=
          ⟨rfl, rfl, rfl, rfl, rfl, rfl, rfl, rfl, rfl, by simp, Nat.le_refl _, fun some_ => some_, .inl rfl⟩
        refine inv.inside inside (fun i record at_ => ?_) ?_ (fun _ mem => mem) inv.interactions ?_
          (fun o at_ => inside.outputOk (fun done => done) (inv.output o at_)) inv.cancelled inv.failedAt
          (fun done => by rw [live] at done; cases done) ⟨?_, genuine, ?_, read⟩
          (inside.seen inv.progress)
        · by_cases old : i < w.spool.records.length
          · rw [List.getElem?_append_left old] at at_
            exact inv.spool i record at_
          · have last : i = w.spool.records.length := by
              have := (List.getElem?_eq_some_iff.1 at_).1
              simp only [List.length_append, List.length_singleton] at this
              omega
            subst last
            simp only [List.getElem?_concat_length, Option.some.injEq] at at_
            subst at_
            exact ⟨number.symm, genuine.record⟩
        · simp only [List.length_append, List.length_singleton]
          have := inv.read
          omega
        · simp only [List.length_append, List.length_singleton]
          rcases inv.written with le | ⟨all, _⟩
          · exact .inl (by omega)
          · omega
        · simp only [List.length_append, List.length_singleton]
          omega
        · rcases inv.written with le | ⟨all, _⟩
          · simp only
            omega
          · omega

/-- The question of an item is the event under its number. -/
theorem GenuineItem.question {log : List (Event N Q)} {item : Queued N Q} {event : Event N Q}
    (h : GenuineItem x log item) (asks : item.interaction = some event) :
    0 < item.record.sequence ∧ log[item.record.sequence - 1]? = some event := by
  obtain ⟨accepted, pos, there, same⟩ := h
  have asks : (queuedOf x item.record.sequence accepted).interaction = some event := same ▸ asks
  cases accepted with
  | question q =>
      cases asks
      exact ⟨pos, there⟩
  | _ => cases asks

/-- How far the writing is, published. -/
theorem Inv.publish (inv : Inv x w) (live : w.state.done = false) {sequence : Nat} {preferRead : Bool}
    (held : ∀ k event, (k, event) ∈ interactions → 0 < k ∧ w.log[k - 1]? = some event)
    (more : w.state.written ≤ sequence) (synced : w.spool.records.length ≤ sequence)
    (written : sequence ≤ w.spool.records.length ∨
      (w.log.length ≤ w.spool.records.length ∧ w.state.terminal = some sequence)) (read : ReadOk w) : Inv x { w with
      interactions := interactions
      state := { w.state with written := sequence }
      worker := .merging ⟨sequence, w.state.failed⟩ (.next preferRead) } := by
  have inside : Inside w { w with
      interactions := interactions
      state := { w.state with written := sequence }
      worker := .merging ⟨sequence, w.state.failed⟩ (.next preferRead) } :=
    ⟨rfl, rfl, rfl, rfl, rfl, rfl, rfl, rfl, rfl, Nat.le_refl _, more, fun some_ => some_, .inl rfl⟩
  refine inv.inside inside inv.spool inv.read (fun _ mem => mem) held written
    (fun o at_ => inside.outputOk (fun done => done) (inv.output o at_)) inv.cancelled inv.failedAt
    (fun done => by rw [live] at done; cases done) ⟨⟨Nat.le_refl _, fun none_ k at_ => ?_⟩, synced, read⟩
    (inside.seen inv.progress)
  have none_ : w.state.failed = none := none_
  have := inv.failedAt
  rw [none_, show w.failedAt = some k from at_] at this
  cases this

/-- A record that was read. -/
theorem Inv.pull (inv : Inv x w) (here : w.worker = .reading) {spool : Spool} {record : Record}
    {io : Option String} (done : w.spool.next io = .ok (some (record, spool))) :
    Inv x { w with spool := spool, worker := .decoding record } := by
  have live := inv.live (by rw [here]; rfl)
  have ok := inv.worker
  rw [here] at ok
  obtain ⟨synced, read, empty⟩ := ok
  have read : w.spool.read = w.state.delivered := by
    unfold ReadOk at read
    rw [empty] at read
    exact read
  unfold Spool.next at done
  split at done
  · cases done
  · split at done
    · cases done
    · next there =>
      split at done
      · cases done
      · cases done
        have small := (List.getElem?_eq_some_iff.1 there).1
        obtain ⟨number, genuine⟩ := inv.spool _ _ there
        have inside : Inside w { w with
            spool := { w.spool with read := w.spool.read + 1 }, worker := .decoding record } :=
          ⟨rfl, rfl, rfl, rfl, rfl, rfl, rfl, rfl, rfl, Nat.le_refl _, Nat.le_refl _, fun some_ => some_,
            .inl rfl⟩
        refine inv.inside inside inv.spool small (fun _ mem => mem) inv.interactions inv.written
          (fun o at_ => inside.outputOk (fun done => done) (inv.output o at_)) inv.cancelled inv.failedAt
          (fun done => by rw [live] at done; cases done)
          ⟨synced, genuine, ?_, by rw [number, read], by rw [← read], empty⟩ (inside.seen inv.progress)
        unfold Synced at synced
        simp only
        omega

/-- What is decoded is the accepted event. -/
theorem Inv.decode (inv : Inv x w) (lawful : x.Lawful) {record : Record} (genuine : Genuine x w.log record)
    (done : readEvent x w record = .ok (output, interactions)) :
    output.sequence = some record.sequence ∧ 0 < record.sequence ∧
      w.log[record.sequence - 1]? = some output.event ∧
      ∀ entry ∈ interactions, entry ∈ w.interactions := by
  obtain ⟨event, pos, there, same⟩ := genuine
  rw [same] at done
  cases event with
  | note n =>
      simp only [readEvent, recordOf, lawful.note, bind, Except.bind] at done
      split at done
      · cases done
      · split at done <;> cases done
        exact ⟨rfl, pos, there, fun _ mem => mem⟩
  | ready session =>
      simp only [readEvent, recordOf, inv.session session (List.mem_of_getElem? there)] at done
      cases done
      exact ⟨rfl, pos, there, fun _ mem => mem⟩
  | elicitDone id =>
      simp only [readEvent, recordOf, lawful.id, bind, Except.bind] at done
      cases done
      exact ⟨rfl, pos, there, fun _ mem => mem⟩
  | question q =>
      simp only [readEvent, recordOf] at done
      split at done
      · cases done
      · next number event found =>
        cases done
        have number : number = record.sequence := by
          have same := List.find?_some found
          exact of_decide_eq_true same
        subst number
        exact ⟨rfl, pos, (inv.interactions _ _ (List.mem_of_find?_eq_some found)).2,
          fun entry mem => (List.mem_filter.1 mem).1⟩
  | closed error => cases inv.plain _ (List.mem_of_getElem? there)

/-- A decoded event is no longer among the questions. -/
theorem Inv.decoded (inv : Inv x w) (live : w.state.done = false)
    (fewer : ∀ entry ∈ interactions, entry ∈ w.interactions) (ok : WorkerOk x w (.placing output)) :
    Inv x { w with interactions := interactions, worker := .placing output } := by
  have inside : Inside w { w with interactions := interactions, worker := .placing output } :=
    ⟨rfl, rfl, rfl, rfl, rfl, rfl, rfl, rfl, rfl, Nat.le_refl _, Nat.le_refl _, fun some_ => some_, .inl rfl⟩
  exact inv.inside inside inv.spool inv.read (fun _ mem => mem)
    (fun k event mem => inv.interactions k event (fewer _ mem)) inv.written
    (fun o at_ => inside.outputOk (fun done => done) (inv.output o at_)) inv.cancelled inv.failedAt
    (fun done => by rw [live] at done; cases done) ok (inside.seen inv.progress)

/-- The slot takes what was decoded. -/
theorem Inv.place (inv : Inv x w) (here : w.worker = .placing output) : Inv x { w with
      state := { w.state with output := some output }, worker := .next false } := by
  have live := inv.live (by rw [here]; rfl)
  have ok := inv.worker
  rw [here] at ok
  obtain ⟨synced, s, number, placed, next_, read, empty⟩ := ok
  have inside : Inside w { w with
      state := { w.state with output := some output }, worker := .next false } :=
    ⟨rfl, rfl, rfl, rfl, rfl, rfl, rfl, rfl, rfl, Nat.le_refl _, Nat.le_refl _, fun some_ => some_, .inl rfl⟩
  refine inv.inside inside inv.spool inv.read (fun _ mem => mem) inv.interactions inv.written
    (fun o at_ => ?_) inv.cancelled inv.failedAt (fun done => by rw [live] at done; cases done)
    ⟨synced, by simpa [ReadOk] using read⟩ (inside.seen inv.progress)
  cases at_
  unfold OutputOk
  rw [number]
  exact ⟨next_, .inl (inside.placed placed)⟩

/-- Where the worker is does not depend on itself. -/
theorem WorkerOk.of_state {worker : Worker N Q} (h : WorkerOk x w worker) (state : w'.state = w.state)
    (spool : w'.spool = w.spool) (log : w'.log = w.log) (failedAt : w'.failedAt = w.failedAt) :
    WorkerOk x w' worker := by
  have endOk : ∀ {end_ : WorkerEnd}, EndOk w end_ → EndOk w' end_ := fun {end_} ok => by
    cases end_ with
    | source e =>
        simp only [EndOk, state, log]
        exact ok
    | cancelled =>
        simp only [EndOk, state]
        exact ok
    | failed => trivial
  induction worker with
  | merging progress after ih =>
      refine ⟨?_, ih h.2⟩
      unfold Seen
      rw [state, failedAt]
      exact h.1
  | completing | emptying | cleaning => exact endOk h
  | reporting => exact ⟨endOk h.1, h.2⟩
  | ended => trivial
  | _ =>
      simp only [WorkerOk, Synced, ReadOk, Placed, State.terminal, state, spool, log] at h ⊢
      exact h

/-- The worker stores its progress in the channel. -/
theorem Inv.merge (inv : Inv x w) {progress : Progress} {after : Worker N Q}
    (here : w.worker = .merging progress after) :
    Inv x { w with progress := w.progress.merge progress, worker := after } := by
  have ok := inv.worker
  rw [here] at ok
  have inside : Inside w { w with progress := w.progress.merge progress, worker := after } :=
    ⟨rfl, rfl, rfl, rfl, rfl, rfl, rfl, rfl, rfl, Nat.le_refl _, Nat.le_refl _, fun some_ => some_, .inl rfl⟩
  refine inv.inside inside inv.spool inv.read (fun _ mem => mem) inv.interactions inv.written
    (fun o at_ => inside.outputOk (fun done => done) (inv.output o at_)) inv.cancelled inv.failedAt
    (fun done => ?_) (ok.2.of_state rfl rfl rfl rfl) (inside.seen (inv.progress.merge ok.1))
  have past := inv.done done
  rw [here] at past
  exact past

/-- The worker that cancels the store of its own. -/
theorem Inv.giveUp (inv : Inv x w) (live : w.state.done = false) (reason : String) (end_ : WorkerEnd)
    (why : (EventStore.cancel w reason).1.state.failed.isSome → EndOk (EventStore.cancel w reason).1 end_) :
    Inv x (match EventStore.cancel w reason with
      | (w, none) => { w with worker := .emptying end_ }
      | (w, some progress) => { w with worker := .merging progress (.emptying end_) }) := by
  obtain ⟨kept, aside, _, seen, failed⟩ := inv.cancel reason
  have why := why (failed live)
  have live : (EventStore.cancel w reason).1.state.done = false := aside.done.trans live
  generalize EventStore.cancel w reason = next_ at kept seen why live
  obtain ⟨u, _ | progress⟩ := next_
  · exact kept.move live u.state.queue (fun _ mem => mem) why
  · exact kept.move live u.state.queue (fun _ mem => mem) ⟨seen progress rfl, why⟩

/-- Nothing is queued any more. -/
theorem Inv.empty (inv : Inv x w) (here : w.worker = .emptying end_) {output : Option (Output N Q)}
    (kept : output = w.state.output ∨ output = none) : Inv x { w with
      state := { w.state with queue := [], output := output }
      interactions := []
      worker := .cleaning end_ } := by
  have live := inv.live (by rw [here]; rfl)
  have ok := inv.worker
  rw [here] at ok
  have inside : Inside w { w with
      state := { w.state with queue := [], output := output }
      interactions := []
      worker := .cleaning end_ } :=
    ⟨rfl, rfl, rfl, rfl, rfl, rfl, rfl, rfl, rfl, Nat.le_refl _, Nat.le_refl _, fun some_ => some_, .inl rfl⟩
  refine inv.inside inside inv.spool inv.read nofun nofun inv.written (fun o at_ => ?_) inv.cancelled
    inv.failedAt (fun done => by rw [live] at done; cases done) ?_ (inside.seen inv.progress)
  · rcases kept with same | none_
    · exact inside.outputOk (fun done => done) (inv.output o (same ▸ at_))
    · rw [none_] at at_
      cases at_
  · cases end_ with
    | source e =>
        obtain ⟨is_, confirmed, number, whole, empty⟩ := ok
        refine ⟨is_, confirmed, number, whole, ?_⟩
        rcases kept with same | none_
        · exact same.trans empty
        · exact none_
    | cancelled => exact ok
    | failed => trivial

/-- What stands in the slot of a store that ended. -/
theorem report_output {resource : Except String Unit} {o : Output N Q}
    (at_ : (report w end_ resource).1.state.output = some o) :
    (∃ e, resource = .error e ∧ o = ⟨none, .closed (some e)⟩) ∨
      (resource = .ok () ∧ (closing end_).2 = some o) ∨ w.state.output = some o := by
  simp only [report] at at_
  split at at_
  · cases resource with
    | error e => exact .inl ⟨e, rfl, (Option.some.inj at_).symm⟩
    | ok u => exact .inr (.inl ⟨rfl, at_⟩)
  · exact .inr (.inr at_)

/-- The last event of a store that ended. -/
theorem Inv.last_of (inv : Inv x w) {o : Output N Q} (why : EndOk w end_)
    (fine : (closing (N := N) (Q := Q) end_).1 = .ok ()) (last : (closing end_).2 = some o) : match o.sequence with
    | some s => o.event.isClosed = true ∧ s = w.state.delivered + 1 ∧ w.state.terminal = some s ∧
        s ≤ w.state.written
    | none => o.event.isClosed = true ∧ w.state.failed.isSome := by
  cases end_ with
  | source e =>
      obtain ⟨is_, confirmed, number, whole, empty⟩ := why
      cases e with
      | eof through => cases last
      | closing through sequence => cases fine
      | closed through sequence error =>
          cases last
          have next_ := (inv.ends _ is_).2 sequence rfl
          exact ⟨rfl, by rw [whole]; exact next_, by simp only [State.terminal, is_]; rfl, number sequence rfl⟩
  | cancelled =>
      cases last
      exact ⟨rfl, why⟩
  | failed e => cases fine

/-- The worker reports how the store ended. -/
theorem Inv.report (inv : Inv x w) {resource : Except String Unit} (here : w.worker = .reporting end_ resource) :
    Inv x { (report w end_ resource).1 with
      worker := .merging (report w end_ resource).2 .ended } := by
  have live := inv.live (by rw [here]; rfl)
  have ok := inv.worker
  rw [here] at ok
  obtain ⟨why, fine⟩ := ok
  have inside : Inside w { (EventStore.report w end_ resource).1 with
      worker := .merging (EventStore.report w end_ resource).2 .ended } := by
    refine ⟨rfl, rfl, rfl, rfl, rfl, rfl, rfl, rfl, rfl, Nat.le_refl _, Nat.le_refl _, ?_, ?_⟩
    · intro some_
      cases resource with
      | error e => rfl
      | ok u => exact some_
    · cases at_ : w.failedAt with
      | some k => exact .inl (by simp [EventStore.report, at_])
      | none =>
          have none_ : w.state.failed = none := by simpa [at_] using inv.failedAt.symm
          cases resource with
          | error e => exact .inr ⟨at_, by simp [EventStore.report, at_]⟩
          | ok u => exact .inl (by simp [EventStore.report, at_, none_])
  have recorded : (w.failedAt.or ((EventStore.report w end_ resource).1.state.failed.map
      fun _ => w.state.written)).isSome = (EventStore.report w end_ resource).1.state.failed.isSome := by
    have same := inv.failedAt
    cases at_ : w.failedAt with
    | none => simp
    | some k =>
        rw [at_] at same
        have := inside.failed same.symm
        simpa using this.symm
  refine inv.inside inside inv.spool inv.read (fun _ mem => mem) inv.interactions inv.written
    (fun o at_ => ?_) (fun cancelled => inside.failed (inv.cancelled cancelled)) recorded
    (fun _ => rfl) ⟨⟨Nat.le_refl _, fun none_ k at_ => ?_⟩, trivial⟩ (inside.seen inv.progress)
  · rcases report_output at_ with ⟨e, failing, rfl⟩ | ⟨fits, last⟩ | old
    · refine ⟨rfl, rfl, ?_⟩
      rw [failing]
      rfl
    · have ok := inv.last_of why (fine fits) last
      obtain ⟨_ | s, event⟩ := o
      · exact ⟨ok.1, rfl, inside.failed ok.2⟩
      · exact ⟨ok.2.1, .inr ⟨ok.1, rfl, ok.2.2⟩⟩
    · exact inside.outputOk (fun _ => rfl) (inv.output o old)
  · have none_ : (EventStore.report w end_ resource).1.state.failed = none := none_
    rw [none_] at recorded
    have at_ : w.failedAt.or ((EventStore.report w end_ resource).1.state.failed.map
      fun _ => w.state.written) = some k := at_
    rw [none_] at at_
    rw [at_] at recorded
    cases recorded

/-- A step of the worker keeps the invariant. -/
theorem Inv.work (inv : Inv x w) (lawful : x.Lawful) {io : Option String}
    (works : workerStep x io w = some w') : Inv x w' := by
  have live := fun (going : w.worker.past = false) => inv.live going
  have ok := inv.worker
  unfold workerStep at works
  split at works
  · next here =>
    rw [here] at live ok
    split at works
    · next cancelled =>
      cases works
      exact inv.move (live rfl) w.state.queue (fun _ mem => mem) (inv.cancelled cancelled)
    · split at works <;> cases works
      · exact inv.move (live rfl) w.state.queue (fun _ mem => mem) trivial
      · exact inv.move (live rfl) w.state.queue (fun _ mem => mem) ok
  · next preferRead here =>
    obtain ⟨⟨work, state⟩, asked, rfl⟩ := Option.map_eq_some_iff.1 works
    exact inv.next here asked
  · next item here =>
    rw [here] at live
    split at works
    · next cancelled =>
      cases works
      exact inv.stop (live rfl) (inv.cancelled cancelled)
    · split at works <;> cases works
      · exact inv.fail (live rfl) _
      · next done => exact inv.append here done
  · next item here =>
    rw [here] at live ok
    obtain ⟨number, genuine, before, read⟩ := ok
    have synced : w.spool.records.length ≤ item.record.sequence := Nat.le_of_eq number.symm
    simp only at works
    split at works
    · next event asks =>
      split at works <;> cases works
      · exact inv.move (live rfl) w.state.queue (fun _ mem => mem) trivial
      · refine inv.publish (live rfl) (fun k e mem => ?_) (Nat.le_of_lt before) synced
          (.inl (Nat.le_of_eq number)) read
        rcases List.mem_cons.1 mem with new | old
        · obtain ⟨rfl, rfl⟩ := Prod.mk.inj new
          exact genuine.question asks
        · exact inv.interactions k e old
    · cases works
      exact inv.publish (live rfl) inv.interactions (Nat.le_of_lt before) synced
        (.inl (Nat.le_of_eq number)) read
  · next sequence preferRead here =>
    rw [here] at live ok
    obtain ⟨synced, read, terminal, all, le⟩ := ok
    cases works
    exact inv.publish (live rfl) inv.interactions le (Nat.le_trans synced le) (.inr ⟨all, terminal⟩) read
  · next here =>
    rw [here] at live
    split at works
    · next cancelled =>
      cases works
      exact inv.move (live rfl) w.state.queue (fun _ mem => mem) (inv.cancelled cancelled)
    · split at works <;> cases works
      · exact inv.fail (live rfl) _
      · exact inv.move (live rfl) w.state.queue (fun _ mem => mem) trivial
      · next done => exact inv.pull here done
  · next record here =>
    rw [here] at live ok
    obtain ⟨synced, genuine, written, next_, read, empty⟩ := ok
    split at works
    · cases works
      exact inv.fail (live rfl) _
    · split at works <;> cases works
      · exact inv.fail (live rfl) _
      · next output interactions done =>
        obtain ⟨number, pos, there, fewer⟩ := inv.decode lawful genuine done
        exact inv.decoded (live rfl) fewer
          ⟨synced, record.sequence, number, ⟨pos, written, there⟩, next_, read, empty⟩
  · next output here =>
    rw [here] at live
    split at works
    · next cancelled =>
      cases works
      exact inv.move (live rfl) w.state.queue (fun _ mem => mem) (inv.cancelled cancelled)
    · split at works <;> cases works
      · exact inv.move (live rfl) w.state.queue (fun _ mem => mem) trivial
      · exact inv.place here
  · next here =>
    rw [here] at live
    have stopped := inv.giveUp (live rfl) "ACP event I/O worker was cancelled before starting"
      .cancelled fun failed => failed
    split at works <;> cases works <;> next same => rw [same] at stopped; exact stopped
  · next progress after here =>
    cases works
    exact inv.merge here
  · next error here =>
    rw [here] at live
    have stopped := inv.giveUp (live rfl) error (.failed error) fun _ => trivial
    split at works <;> cases works <;> next same => rw [same] at stopped; exact stopped
  · next end_ _ here =>
    rw [here] at live ok
    cases works
    exact inv.move (live rfl) w.state.queue (fun _ mem => mem) ok
  · next end_ here =>
    cases works
    refine inv.empty here ?_
    cases end_ with
    | source => exact .inl rfl
    | cancelled | failed => exact .inr rfl
  · next end_ here =>
    rw [here] at live ok
    split at works <;> cases works
    · exact inv.move (live rfl) w.state.queue (fun _ mem => mem) ⟨ok, nofun⟩
    · exact inv.move (live rfl) w.state.queue (fun _ mem => mem) ⟨ok, fun fine => fine⟩
  · next end_ resource here =>
    cases works
    exact inv.report here
  · cases works

end Worker

section Runs

variable {N Q : Type} {x : Externals N} {w w' : World N Q}

/-- A call starts a thread. -/
theorem Inv.call (inv : Inv x w) (call : Call N Q) : Inv x { w with threads := w.threads ++ [call.tasks] } := by
  refine inv.of_state rfl rfl rfl rfl rfl rfl rfl rfl rfl inv.progress (fun thread mem task mem' => ?_)
    inv.passed
  rcases List.mem_append.1 mem with old | new
  · exact (Aside.of_state rfl rfl rfl rfl rfl rfl).taskOk (inv.threads thread old task mem')
  · obtain rfl := List.mem_singleton.1 new
    cases call <;> simp only [Call.tasks, List.mem_cons, List.not_mem_nil, or_false] at mem'
    case closed => rcases mem' with rfl | rfl <;> trivial
    case elicitationDone | interaction =>
      subst mem'
      exact ⟨rfl, nofun⟩
    all_goals
      subst mem'
      trivial

/-- A thread goes on. -/
theorem Inv.task (inv : Inv x w) {before after : List (List (Task N Q))} {task : Task N Q}
    {rest new : List (Task N Q)} (thread : w.threads = before ++ (task :: rest) :: after)
    (ran : task.run x w = some (w', new)) : Inv x { w' with threads := before ++ (new ++ rest) :: after } := by
  have here : task :: rest ∈ w.threads := by simp [thread]
  obtain ⟨⟨kept, aside, same⟩, next_⟩ := inv.run (inv.threads _ here task (List.mem_cons_self ..)) ran
  have ok : ∀ t ∈ w.threads, ∀ task ∈ t, TaskOk w' task := fun t mem task mem' =>
    kept.threads t (same ▸ mem) task mem'
  refine kept.of_state rfl rfl rfl rfl rfl rfl rfl rfl rfl kept.progress (fun t mem u mem' => ?_)
    kept.passed
  refine (Aside.of_state rfl rfl rfl rfl rfl rfl).taskOk (w := w') ?_
  rcases List.mem_append.1 mem with old | there
  · exact ok t (by simp [thread, old]) u mem'
  · rcases List.mem_cons.1 there with rfl | old
    · rcases List.mem_append.1 mem' with first | later
      · exact next_ u first
      · exact ok _ here u (.tail _ later)
    · exact ok t (by simp [thread, old]) u mem'

theorem Inv.step (inv : Inv x w) (lawful : x.Lawful) (step : World.Step x w w') : Inv x w' := by
  cases step with
  | call call => exact inv.call call
  | task thread ran => exact inv.task thread ran
  | work io works => exact inv.work lawful works
  | abandon starting =>
      have ok := inv.worker
      rw [starting] at ok
      exact inv.move (inv.live (by rw [starting]; rfl)) w.state.queue (fun _ mem => mem) ok
  | receive polling => exact inv.receive polling
  | refuse failing => exact absurd failing (inv.unfailing _)
  | dropReceiver alive => exact inv.dropReceiver

theorem Inv.of_reachable (lawful : x.Lawful) (reached : World.Reachable x w) : Inv x w := by
  induction reached with
  | refl => exact .init
  | tail _ step ih => exact ih.step lawful step

/-- What the store promises its receiver and its fences. -/
structure InOrder (x : Externals N) (w : World N Q) : Prop where
  /-- The accepted events up to one of them, and at most one closing, after which nothing is handed. -/
  handed : ∃ k ≤ w.log.length, w.handed = w.log.take k ∨
    (∃ error, w.handed = w.log.take k ++ [.closed error]) ∧ w.receiver ≠ .polling ∧
      (w.state.failed = none → k = w.log.length)
  plain : ∀ event ∈ w.log, event.isClosed = false
  delivered : w.state.delivered ≤ w.state.written
  written : w.state.written ≤ w.state.accepted
  /-- The events accepted before a fence are written, and no failure came before that. -/
  passed : ∀ p ∈ w.passed, p.before ≤ p.through ∧ p.through ≤ w.state.written ∧
    (∀ i event, i < p.before → w.log[i]? = some event → w.spool.records[i]? = some (recordOf x (i + 1) event)) ∧
    ∀ written, w.failedAt = some written → p.through ≤ written

theorem events_in_order (lawful : x.Lawful) (reached : World.Reachable x w) : InOrder x w := by
  have inv := Inv.of_reachable lawful reached
  refine ⟨?_, inv.plain, inv.counts.1, inv.counts.2, fun p mem => ?_⟩
  · rcases inv.handed with ⟨same, le⟩ | ⟨past, k, error, le, same, all⟩
    · exact ⟨_, le, .inl same⟩
    · refine ⟨k, le, .inr ⟨⟨error, same⟩, ?_, fun none_ => (all none_).1⟩⟩
      rcases past with ended | dropped
      · rw [ended]
        nofun
      · rw [dropped]
        nofun
  · obtain ⟨before, records, through, failed⟩ := inv.passed p mem
    refine ⟨before, through, fun i event small at_ => ?_, failed⟩
    have there : w.spool.records[i]? = some w.spool.records[i] := List.getElem?_eq_getElem (by omega)
    obtain ⟨number, accepted, _, at', same⟩ := inv.spool i _ there
    rw [number, Nat.add_sub_cancel, at_] at at'
    cases at'
    rw [there, same, number]

/-! ### One session -/

/-- Which part goes on. -/
inductive Turn (N Q : Type) where
  | call (call : Call N Q)
  | task (thread : Nat)
  | work
  | receive

def World.turn (x : Externals N) (w : World N Q) : Turn N Q → Option (World N Q)
  | .call call => some { w with threads := w.threads ++ [call.tasks] }
  | .task i =>
      match w.threads[i]? with
      | some (task :: rest) => (task.run x w).map fun (w', new) =>
          { w' with threads := w.threads.take i ++ (new ++ rest) :: w.threads.drop (i + 1) }
      | _ => none
  | .work => workerStep x none w
  | .receive => if w.receiver = .polling then some w.receive else none

def World.play (x : Externals N) (w : World N Q) : List (Turn N Q) → Option (World N Q)
  | [] => some w
  | turn :: rest => (w.turn x turn).bind (World.play x · rest)

theorem World.turn_step {turn : Turn N Q} (goes : w.turn x turn = some w') : World.Step x w w' := by
  cases turn with
  | call call =>
      cases goes
      exact .call call
  | task i =>
      simp only [turn] at goes
      split at goes
      · next task rest there =>
        obtain ⟨⟨u, new⟩, ran, rfl⟩ := Option.map_eq_some_iff.1 goes
        refine .task ?_ ran
        obtain ⟨small, is_⟩ := List.getElem?_eq_some_iff.1 there
        rw [← is_, ← List.drop_eq_getElem_cons small, List.take_append_drop]
      · cases goes
  | work => exact .work none goes
  | receive =>
      simp only [turn] at goes
      split at goes
      · next polling =>
        cases goes
        exact .receive polling
      · cases goes

theorem World.play_reaches {turns : List (Turn N Q)} (played : w.play x turns = some w')
    (reached : World.Reachable x w) : World.Reachable x w' := by
  induction turns generalizing w with
  | nil =>
      cases played
      exact reached
  | cons turn rest ih =>
      obtain ⟨u, goes, played⟩ := Option.bind_eq_some_iff.1 played
      exact ih played (reached.tail (turn_step goes))

def noteJson : Bytes := "\x7b\"sessionId\":\"s\"\x7d".toUTF8.data.toList

/-- One notification, and ids between quotes. -/
def oneNote : Externals Unit where
  session _ := "s"
  toVec _ := noteJson
  fromReader bytes := if bytes = noteJson then .ok () else .error "expected value"
  idToVec id := 34 :: (id.toUTF8.data.toList ++ [34])
  idFromReader
    | 34 :: rest =>
        match String.fromUTF8? ⟨rest.dropLast.toArray⟩ with
        | some id => .ok id
        | none => .error "invalid unicode code point"
    | _ => .error "expected value"

theorem oneNote_lawful : oneNote.Lawful where
  note _ := by simp [oneNote]
  id id := by
    have valid : (⟨id.toByteArray.data⟩ : ByteArray).IsValidUTF8 := id.isValidUTF8
    simp [oneNote, String.fromUTF8?, valid]
    rfl

/-- An opening, a notification, a fence, and the end of the source. -/
def session : Option (World Unit Unit) :=
  World.init.play oneNote
    ([.call (.ready "s"), .task 0, .call (.note ()), .task 1, .task 1, .call .wait, .task 2] ++
      .replicate 9 .work ++ [.task 2, .receive, .work, .work, .work, .work, .receive, .receive] ++
      [.work, .work, .work, .work] ++ [.receive, .call (.closed none), .task 3, .task 3, .task 3, .task 3] ++
      .replicate 9 .work ++ [.receive])

theorem session_in_order : ∃ w, session = some w ∧
    w.handed = [.ready "s", .note (), .closed none] ∧ w.passed.map (fun p => (p.through, p.before)) = [(2, 2)] ∧ InOrder oneNote w := by
  have runs : session.isSome = true := by decide +kernel
  obtain ⟨w, is_⟩ := Option.isSome_iff_exists.1 runs
  have handed : session.map World.handed = some [.ready "s", .note (), .closed none] := by decide +kernel
  have passed : session.map (fun w => w.passed.map fun p => (p.through, p.before)) = some [(2, 2)] := by
    decide +kernel
  rw [is_] at handed passed
  refine ⟨w, is_, Option.some.inj handed, ?_, events_in_order oneNote_lawful (World.play_reaches is_ .refl)⟩
  exact Option.some.inj passed

end Runs

end Khor.Acp.EventStore
