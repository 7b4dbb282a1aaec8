/-
Module: Khor.Gui.CommandRuns
Purpose: Every accepted command is answered, over whole runs: an accepted command comes closer to its answer with each
  step of the thread that has it, and a caller that asks is told.
Trusted boundary: that of Khor.Gui.CommandQueue; each thread that is there goes on at some time
Main exports: Thread, rank, turn, answered_at_last, commands_in_order_once_answered
-/
import Khor.Gui.CommandAnswers

namespace Khor.Gui

variable {V : Type} {s s' : State V}

/-- Who takes steps: a worker, a call of `close`, and a caller that was woken. -/
inductive Thread where
  | worker (w : Nat)
  | closing (c : Nat)
  | caller (job : Nat)

def Event.takes : Event V → Thread → Prop
  | .work w _, .worker v => w = v
  | .answer c, .closing d => c = d
  | .ask job _, .caller j => job = j
  | _, _ => False

def State.There (s : State V) : Thread → Prop
  | .worker w => (s.workers w).Live
  | .closing c => s.closings c ≠ none
  | .caller job => ∃ sync, s.asker job = .asked sync true

/-- How far a worker is from its next command. -/
def Worker.phase : Worker V → Nat
  | .took _ => 4
  | .working _ => 3
  | .worked _ _ => 2
  | .stored _ _ => 1
  | _ => 0

open Classical in
/-- The worker thread, where there is one. -/
noncomputable def State.worker (s : State V) : Nat := if h : ∃ w, (s.workers w).Live then h.choose else 0

variable {w job : Nat} {e : Event V} {t : Thread}

theorem Threads.worker_eq (h : Threads s) (live : (s.workers w).Live) : s.worker = w := by
  have some_ : ∃ w, (s.workers w).Live := ⟨w, live⟩
  unfold State.worker
  rw [dif_pos some_]
  exact h.lone _ _ some_.choose_spec live

/-- How many steps of its thread a command is from its answer. -/
noncomputable def rank (job : Nat) (s : State V) : Nat :=
  match s.place job with
  | .queued => 5 * s.jobs.idxOf job + 5 + (s.workers s.worker).phase
  | .worker w => (s.workers w).phase - 1
  | .closing c =>
      match s.closings c with
      | some ⟨left, ringing⟩ => 2 * left.idxOf job + 1 + (if ringing.isSome then 1 else 0)
      | none => 0
  | _ => 0

/-- The thread that a command waits for. -/
noncomputable def turn (job : Nat) (s : State V) : Thread :=
  match s.place job with
  | .queued => .worker s.worker
  | .worker w => .worker w
  | .closing c => .closing c
  | _ => .caller job

theorem turn_there (h : Inv s) (accepted : job ∈ s.accepted) (not_ : s.place job ≠ .answered) :
    s.There (turn job s) := by
  unfold turn
  cases place : s.place job with
  | absent => exact absurd accepted ((h.places.absent job).mp place)
  | queued =>
      have some_ : s.jobs ≠ [] := List.ne_nil_of_mem ((h.places.queued job).mp place)
      have running : s.running = true := by
        cases off : s.running with
        | true => rfl
        | false => exact absurd (h.threads.idle off) some_
      obtain ⟨w, live⟩ := h.threads.live running
      show (s.workers s.worker).Live
      rw [h.threads.worker_eq live]
      exact live
  | worker w =>
      have carries := (h.places.worker job w).mp place
      show (s.workers w).Live
      cases is : s.workers w with
      | absent | gone | seeking | stored =>
          rw [is] at carries
          cases carries
      | took | working | worked => trivial
  | closing c =>
      obtain ⟨closing, is, -⟩ := (h.places.closing job c).mp place
      show s.closings c ≠ none
      rw [is]
      exact nofun
  | answered => exact absurd place not_

/-- What an event that is not its turn leaves of a command's way. -/
theorem rank_same (place : s'.place job = s.place job)
    (queued : s.place job = .queued → s'.jobs.idxOf job = s.jobs.idxOf job ∧ s'.workers = s.workers)
    (worker : ∀ w, s.place job = .worker w → s'.workers w = s.workers w)
    (closing : ∀ c, s.place job = .closing c → s'.closings c = s.closings c) :
    rank job s' = rank job s ∧ turn job s' = turn job s := by
  unfold rank turn
  rw [place]
  cases is : s.place job with
  | absent | answered => exact ⟨rfl, rfl⟩
  | queued =>
      obtain ⟨index, workers⟩ := queued is
      have same : s'.worker = s.worker := by
        unfold State.worker
        rw [workers]
      dsimp only
      rw [index, workers, same]
      exact ⟨rfl, rfl⟩
  | worker w =>
      dsimp only
      rw [worker w is]
      exact ⟨rfl, rfl⟩
  | closing c =>
      dsimp only
      rw [closing c is]
      exact ⟨rfl, rfl⟩

/-- A command is no further from its answer after an event, and nearer after one of its thread's. -/
def Nearer (job : Nat) (s : State V) (e : Event V) : Prop :=
  (s.step e).place job = .answered ∨ rank job (s.step e) < rank job s ∨
    rank job (s.step e) = rank job s ∧ turn job (s.step e) = turn job s ∧ ¬e.takes (turn job s)

theorem Nearer.same (same : rank job (s.step e) = rank job s ∧ turn job (s.step e) = turn job s)
    (not_ : ¬e.takes (turn job s)) : Nearer job s e :=
  .inr (.inr ⟨same.1, same.2, not_⟩)

theorem nearer_submit (h : Inv s) (accepted : job ∈ s.accepted) (spawns : Bool) : Nearer job s (.submit spawns) := by
  refine .same ?_ (by cases turn job s <;> exact id)
  have old : job ≠ s.next := Nat.ne_of_lt (h.places.fresh job accepted)
  have front (is : s.place job = .queued) : (s.jobs ++ [s.next]).idxOf job = s.jobs.idxOf job :=
    List.idxOf_append.trans (if_pos ((h.places.queued job).mp is))
  show rank job (s.submit spawns) = _ ∧ turn job (s.submit spawns) = _
  unfold State.submit
  split
  · exact ⟨rfl, rfl⟩
  split
  · exact ⟨rfl, rfl⟩
  dsimp only
  split
  · exact rank_same (if_neg old) (fun is => ⟨front is, rfl⟩) (fun _ _ => rfl) fun _ _ => rfl
  · rename_i off
    have none_ := h.threads.idle (Bool.eq_false_iff.mpr off)
    have unqueued (is : s.place job = .queued) : False := by
      have := (h.places.queued job).mp is
      rw [none_] at this
      cases this
    split
    · refine rank_same (if_neg old) (fun is => (unqueued is).elim) (fun w is => if_neg ?_) fun _ _ => rfl
      rintro rfl
      have carries := (h.places.worker job _).mp is
      rw [h.threads.fresh _ (Nat.le_refl _)] at carries
      cases carries
    · exact rank_same rfl (fun is => (unqueued is).elim) (fun _ _ => rfl) fun _ _ => rfl

theorem nearer_close (h : Inv s) : Nearer job s .close := by
  by_cases is : s.place job = .queued
  · refine .inr (.inl ?_)
    have now : s.close.place job = .closing s.closers := if_pos is
    have there : s.close.closings s.closers = some ⟨s.jobs, none⟩ := if_pos rfl
    show rank job s.close < _
    unfold rank
    rw [now, is]
    dsimp only
    rw [there]
    dsimp only [Option.isSome_none]
    rw [if_neg (by decide)]
    omega
  · refine .same (rank_same (if_neg is) (fun queued => absurd queued is) (fun _ _ => rfl) fun c there => if_neg ?_)
      (by cases turn job s <;> exact id)
    rintro rfl
    obtain ⟨closing, some_, -⟩ := (h.places.closing job _).mp there
    rw [h.places.closers _ (Nat.le_refl _)] at some_
    cases some_

/-- While a worker is between two commands a queued command comes nearer with its step. -/
theorem rank_queued (place : s.place job = .queued) (is : s.worker = w) :
    rank job s = 5 * s.jobs.idxOf job + 5 + (s.workers w).phase ∧ turn job s = .worker w := by
  unfold rank turn
  rw [place, is]
  exact ⟨rfl, rfl⟩

/-- The command a worker has run is with it. -/
theorem ne_of_worked (h : Inv s) {first : Nat} {result : Ran V} (is : s.workers w = .worked first result)
    (place : s.place job ≠ .worker w) : job ≠ first := by
  rintro rfl
  exact place ((h.places.worker job w).mpr (by rw [is]; rfl))

/-- Every step of the worker brings a queued command nearer to it. -/
theorem queued_work (h : Inv s) {ran : Ran V} (place : s.place job = .queued) (live : (s.workers w).Live) :
    rank job (s.work w ran) < rank job s := by
  have threads' := h.threads.step (e := .work w ran) live
  have only := h.threads.worker_eq live
  have member := (h.places.queued job).mp place
  rw [(rank_queued place only).1]
  -- the worker goes on to a live phase, or takes the command at the front
  have goes (p : Worker V) (lives : p.Live) (lower : p.phase < (s.workers w).phase)
      (place' : (s.work w ran).place job = .queued) (jobs' : (s.work w ran).jobs = s.jobs)
      (workers' : (s.work w ran).workers w = p) :
      rank job (s.work w ran) < 5 * s.jobs.idxOf job + 5 + (s.workers w).phase := by
    have only' := threads'.worker_eq (w := w) (by
      show ((s.work w ran).workers w).Live
      rw [workers']
      exact lives)
    rw [(rank_queued place' only').1, jobs', workers']
    omega
  cases is : s.workers w with
  | absent | gone =>
      rw [is] at live
      exact live.elim
  | seeking =>
      cases jobs : s.jobs with
      | nil =>
          rw [jobs] at member
          cases member
      | cons first rest =>
          have step : s.work w ran = { s with
              jobs := rest, workers := put s.workers w (.took first), place := put s.place first (.worker w) } := by
            simp only [State.work, is, jobs]
          by_cases here : first = job
          · subst here
            have now : (s.work w ran).place first = .worker w := by
              rw [step]
              exact if_pos rfl
            have took : (s.work w ran).workers w = .took first := by
              rw [step]
              exact if_pos rfl
            unfold rank
            rw [now]
            dsimp only
            rw [took]
            show 4 - 1 < _
            omega
          · have now : (s.work w ran).place job = .queued := by
              rw [step]
              exact (if_neg (Ne.symm here)).trans place
            have took : (s.work w ran).workers w = .took first := by
              rw [step]
              exact if_pos rfl
            have only' := threads'.worker_eq (w := w) (by
              show ((s.work w ran).workers w).Live
              rw [took]
              trivial)
            have index : (first :: rest).idxOf job = rest.idxOf job + 1 := by
              rw [List.idxOf_cons, beq_false_of_ne here]
              rfl
            rw [(rank_queued now only').1, took, index, step]
            show 5 * rest.idxOf job + 5 + 4 < 5 * (rest.idxOf job + 1) + 5 + 0
            omega
  | took first =>
      rw [← is]
      refine goes (.working first) trivial (by rw [is]; exact Nat.lt_succ_self _) ?_ ?_ ?_
      all_goals simp only [State.work, is]
      · exact place
      · exact if_pos rfl
  | working first =>
      rw [← is]
      refine goes (.worked first ran) trivial (by rw [is]; exact Nat.lt_succ_self _) ?_ ?_ ?_
      all_goals simp only [State.work, is]
      · exact place
      · exact if_pos rfl
  | worked first result =>
      have other := ne_of_worked h is (by rw [place]; intro same; cases same)
      rw [← is]
      refine goes (.stored first (s.waker first)) trivial (by rw [is]; exact Nat.lt_succ_self _) ?_ ?_ ?_
      all_goals simp only [State.work, is]
      · exact (if_neg other).trans place
      · rfl
      · exact if_pos rfl
  | stored first wake =>
      rw [← is]
      refine goes .seeking trivial (by rw [is]; exact Nat.lt_succ_self _) ?_ ?_ ?_
      all_goals simp only [State.work, is]
      · exact place
      · rfl
      · exact if_pos rfl

/-- The command that the worker has goes on with it. -/
theorem taken_work (h : Inv s) {v : Nat} {ran : Ran V} (place : s.place job = .worker v) (live : (s.workers w).Live) :
    Nearer job s (.work w ran) := by
  have carries := (h.places.worker job v).mp place
  have same : v = w := by
    refine h.threads.lone v w ?_ live
    cases is : s.workers v with
    | absent | gone | seeking | stored =>
        rw [is] at carries
        cases carries
    | took | working | worked => trivial
  subst same
  have lower (p : Worker V) (less : p.phase - 1 < (s.workers v).phase - 1)
      (place' : (s.work v ran).place job = .worker v) (workers' : (s.work v ran).workers v = p) :
      rank job (s.work v ran) < rank job s := by
    unfold rank
    rw [place, place']
    dsimp only
    rw [workers']
    exact less
  cases is : s.workers v with
  | absent | gone | seeking | stored =>
      rw [is] at carries
      cases carries
  | took first =>
      refine .inr (.inl (lower (.working first) (by rw [is]; exact Nat.lt_succ_self _) ?_ ?_))
      all_goals simp only [State.work, is]
      · exact place
      · exact if_pos rfl
  | working first =>
      refine .inr (.inl (lower (.worked first ran) (by rw [is]; exact Nat.lt_succ_self _) ?_ ?_))
      all_goals simp only [State.work, is]
      · exact place
      · exact if_pos rfl
  | worked first result =>
      rw [is] at carries
      cases carries
      refine .inl ?_
      show (s.work v ran).place job = .answered
      simp only [State.work, is]
      exact if_pos rfl

/-- A command that a call of `close` has waits for that call. -/
theorem closing_work (h : Inv s) {c : Nat} {ran : Ran V} (place : s.place job = .closing c)
    (live : (s.workers w).Live) : Nearer job s (.work w ran) := by
  have turn_ : turn job s = .closing c := by
    unfold turn
    rw [place]
  refine .same ?_ (by rw [turn_]; exact id)
  have keeps (place' : (s.work w ran).place job = s.place job)
      (closings : (s.work w ran).closings = s.closings) :
      rank job (s.work w ran) = rank job s ∧ turn job (s.work w ran) = turn job s := by
    refine rank_same place' (fun queued => ?_) (fun v worker => ?_) fun d _ => by rw [closings]
    · rw [place] at queued
      cases queued
    · rw [place] at worker
      cases worker
  show rank job (s.work w ran) = _ ∧ turn job (s.work w ran) = _
  cases is : s.workers w with
  | absent | gone =>
      rw [is] at live
      exact live.elim
  | seeking =>
      cases jobs : s.jobs with
      | nil =>
          refine keeps ?_ ?_
          all_goals simp only [State.work, is, jobs]
      | cons first rest =>
          have other : job ≠ first := by
            rintro rfl
            have := (h.places.queued job).mpr (jobs ▸ List.mem_cons_self)
            rw [place] at this
            cases this
          refine keeps ?_ ?_
          all_goals simp only [State.work, is, jobs]
          exact if_neg other
  | worked first result =>
      have other := ne_of_worked h is (by rw [place]; intro same; cases same)
      refine keeps ?_ ?_
      all_goals simp only [State.work, is]
      · exact if_neg other
      · rfl
  | took | working | stored =>
      refine keeps ?_ ?_
      all_goals simp only [State.work, is]
      all_goals rfl

theorem nearer_work (h : Inv s) {ran : Ran V} (accepted : job ∈ s.accepted) (not_ : s.place job ≠ .answered)
    (live : (s.workers w).Live) : Nearer job s (.work w ran) := by
  cases place : s.place job with
  | absent => exact absurd accepted ((h.places.absent job).mp place)
  | answered => exact absurd place not_
  | queued => exact .inr (.inl (queued_work h place live))
  | worker v => exact taken_work h place live
  | closing c => exact closing_work h place live

theorem nearer_answer (h : Inv s) {c : Nat} (not_ : s.place job ≠ .answered) (may : s.closings c ≠ none) :
    Nearer job s (.answer c) := by
  by_cases place : s.place job = .closing c
  · obtain ⟨closing, is, member⟩ := (h.places.closing job c).mp place
    have rank_ (left : List Nat) (ringing : Option (Nat × Bool)) {t : State V} (place : t.place job = .closing c)
        (is : t.closings c = some ⟨left, ringing⟩) :
        rank job t = 2 * left.idxOf job + 1 + (if ringing.isSome then 1 else 0) := by
      unfold rank
      rw [place]
      dsimp only
      rw [is]
    obtain ⟨left, ringing⟩ := closing
    cases ringing with
    | some rung =>
        obtain ⟨first, wake⟩ := rung
        refine .inr (.inl ?_)
        have step : (s.answer c).place job = .closing c ∧ (s.answer c).closings c = some ⟨left, none⟩ := by
          simp only [State.answer, is]
          exact ⟨place, if_pos rfl⟩
        show rank job (s.answer c) < _
        rw [rank_ left none step.1 step.2, rank_ left _ place is]
        exact Nat.lt_succ_self _
    | none =>
        cases left with
        | nil => cases member
        | cons first left =>
            by_cases here : first = job
            · subst here
              refine .inl ?_
              show (s.answer c).place first = .answered
              simp only [State.answer, is]
              exact if_pos rfl
            · refine .inr (.inl ?_)
              have step : (s.answer c).place job = .closing c ∧
                  (s.answer c).closings c = some ⟨left, some (first, s.waker first)⟩ := by
                simp only [State.answer, is]
                exact ⟨(if_neg (Ne.symm here)).trans place, if_pos rfl⟩
              have index : (first :: left).idxOf job = left.idxOf job + 1 := by
                rw [List.idxOf_cons, beq_false_of_ne here]
                rfl
              show rank job (s.answer c) < _
              rw [rank_ left _ step.1 step.2, rank_ _ none place is, index]
              show 2 * left.idxOf job + 1 + 1 < 2 * (left.idxOf job + 1) + 1 + 0
              omega
  · have untaken : ¬(Event.answer c : Event V).takes (turn job s) := by
      unfold turn
      cases there : s.place job with
      | closing d =>
          rintro rfl
          exact place there
      | _ => exact id
    refine .same ?_ untaken
    have keeps (place' : (s.answer c).place job = s.place job) (jobs : (s.answer c).jobs = s.jobs)
        (workers : (s.answer c).workers = s.workers)
        (closings : ∀ d, d ≠ c → (s.answer c).closings d = s.closings d) :
        rank job (s.answer c) = rank job s ∧ turn job (s.answer c) = turn job s := by
      refine rank_same place' (fun _ => ⟨by rw [jobs], workers⟩) (fun _ _ => by rw [workers]) fun d there => ?_
      refine closings d ?_
      rintro rfl
      exact place there
    show rank job (s.answer c) = _ ∧ turn job (s.answer c) = _
    cases is : s.closings c with
    | none => exact absurd is may
    | some closing =>
        obtain ⟨left, ringing⟩ := closing
        cases ringing with
        | some rung =>
            refine keeps ?_ ?_ ?_ fun d other => ?_
            all_goals simp only [State.answer, is]
            any_goals rfl
            exact if_neg other
        | none =>
            cases left with
            | nil =>
                refine keeps ?_ ?_ ?_ fun d other => ?_
                all_goals simp only [State.answer, is]
                exact if_neg other
            | cons first left =>
                have other_ : job ≠ first := by
                  rintro rfl
                  exact place ((h.places.closing job c).mpr ⟨_, is, .head _⟩)
                refine keeps ?_ ?_ ?_ fun d other => ?_
                all_goals simp only [State.answer, is]
                · exact if_neg other_
                · rfl
                · rfl
                · exact if_neg other

theorem nearer (h : Inv s) (may : s.May e) (accepted : job ∈ s.accepted) (not_ : s.place job ≠ .answered) :
    Nearer job s e := by
  have turn_ : ∀ j, turn job s ≠ .caller j := by
    intro j is
    unfold turn at is
    cases place : s.place job with
    | absent => exact (h.places.absent job).mp place accepted
    | answered => exact not_ place
    | _ =>
        rw [place] at is
        cases is
  cases e with
  | submit spawns => exact nearer_submit h accepted spawns
  | close => exact nearer_close h
  | work w ran => exact nearer_work h accepted not_ may
  | answer c => exact nearer_answer h not_ may
  | ask j sync =>
      refine .same ?_ ?_
      · show rank job (s.ask j sync) = _ ∧ turn job (s.ask j sync) = _
        unfold State.ask
        split
        · exact ⟨rfl, rfl⟩
        · exact ⟨rfl, rfl⟩
      · cases whose : turn job s with
        | caller i => exact absurd whose (turn_ i)
        | _ => exact id
  | drop j => exact .same ⟨rfl, rfl⟩ (by cases turn job s <;> exact id)

/-- What was accepted stays so. -/
theorem accepted_stays (e : Event V) (accepted : job ∈ s.accepted) : job ∈ (s.step e).accepted := by
  cases e with
  | submit spawns =>
      show job ∈ (s.submit spawns).accepted
      unfold State.submit
      split
      · exact accepted
      split
      · exact accepted
      dsimp only
      split
      · exact List.mem_append_left _ accepted
      · split
        · exact List.mem_append_left _ accepted
        · exact accepted
  | close => exact accepted
  | work w ran =>
      show job ∈ (s.work w ran).accepted
      unfold State.work
      split
      · split
        · exact accepted
        · exact accepted
      all_goals exact accepted
  | answer c =>
      show job ∈ (s.answer c).accepted
      unfold State.answer
      split
      all_goals exact accepted
  | ask j sync =>
      show job ∈ (s.ask j sync).accepted
      unfold State.ask
      split
      all_goals exact accepted
  | drop j => exact accepted

/-- In a run in which every thread goes on an accepted command is answered at last. -/
theorem answered_at_last {run : Endless (State.step : State V → Event V → State V) State.May}
    (fair : run.Fair Event.takes State.There) {n : Nat} (inv : Inv (run.state n))
    (accepted : job ∈ (run.state n).accepted) : ∃ m, n ≤ m ∧ (run.state m).place job = .answered := by
  refine Endless.eventually (I := fun s => Inv s ∧ job ∈ s.accepted) (G := fun s => s.place job = .answered) fair
    (rank job) (turn job) (fun h not_ => turn_there h.1 h.2 not_) (fun {s e} may h not_ => ?_) ⟨inv, accepted⟩
  have still := And.intro (h.1.step may) (accepted_stays e h.2)
  obtain reached | lower | same := nearer h.1 may h.2 not_
  · exact .inl reached
  · exact .inr ⟨still, .inl lower⟩
  · exact .inr ⟨still, .inr same⟩

/-! ### Callers -/

/-- What an event makes of a caller that has a `Pending`: nothing, it is rung for, or it asks or drops. -/
theorem asker_step (old : job ≠ s.next) :
    (s.step e).asker job = s.asker job ∨ (∃ wake, (s.step e).asker job = (s.asker job).rung wake) ∨
      (∃ sync, e = .ask job sync) ∨ e = .drop job := by
  have ring (t : Nat → Asker V) (first : Nat) (wake : Bool) (is : t = put s.asker first ((s.asker first).rung wake)) :
      t job = s.asker job ∨ ∃ wake, t job = (s.asker job).rung wake := by
    rw [is, put_apply]
    split
    · rename_i here
      exact .inr ⟨wake, here ▸ rfl⟩
    · exact .inl rfl
  cases e with
  | submit spawns =>
      refine .inl ?_
      show (s.submit spawns).asker job = _
      unfold State.submit
      split
      · rfl
      split
      · rfl
      dsimp only
      split
      · exact if_neg old
      · split
        · exact if_neg old
        · rfl
  | close => exact .inl rfl
  | work w ran =>
      show (s.work w ran).asker job = _ ∨ (∃ wake, (s.work w ran).asker job = _) ∨ _
      unfold State.work
      split
      · split
        · exact .inl rfl
        · exact .inl rfl
      · exact .inl rfl
      · exact .inl rfl
      · exact .inl rfl
      · rename_i first wake is
        obtain same | rung := ring _ first wake rfl
        · exact .inl same
        · exact .inr (.inl rung)
      · exact .inl rfl
      · exact .inl rfl
  | answer c =>
      show (s.answer c).asker job = _ ∨ (∃ wake, (s.answer c).asker job = _) ∨ _
      unfold State.answer
      split
      · rename_i left first wake is
        obtain same | rung := ring _ first wake rfl
        · exact .inl same
        · exact .inr (.inl rung)
      · exact .inl rfl
      · exact .inl rfl
      · exact .inl rfl
  | ask j sync =>
      by_cases here : j = job
      · exact .inr (.inr (.inl ⟨sync, here ▸ rfl⟩))
      · refine .inl ?_
        show (s.ask j sync).asker job = _
        unfold State.ask
        split
        · exact if_neg (Ne.symm here)
        · exact if_neg (Ne.symm here)
  | drop j =>
      by_cases here : j = job
      · exact .inr (.inr (.inr (here ▸ rfl)))
      · exact .inl (if_neg (Ne.symm here))

/-- A thread is about to ring for a command. -/
def RingsBy (s : State V) (job : Nat) (task : Bool) : Thread → Prop
  | .worker w => ∃ wake, s.workers w = .stored job wake ∧ (task = true → wake = true)
  | .closing c => ∃ left wake, s.closings c = some ⟨left, some (job, wake)⟩ ∧ (task = true → wake = true)
  | .caller _ => False

theorem RingsBy.there {task : Bool} (h : RingsBy s job task t) : s.There t := by
  cases t with
  | worker w =>
      obtain ⟨wake, is, -⟩ := h
      show (s.workers w).Live
      rw [is]
      trivial
  | closing c =>
      obtain ⟨left, wake, is, -⟩ := h
      show s.closings c ≠ none
      rw [is]
      exact nofun
  | caller j => exact h.elim

/-- It stays so until the thread takes its step. -/
theorem RingsBy.stays {task : Bool} (inv : Inv s) (h : RingsBy s job task t) (not_ : ¬e.takes t) :
    RingsBy (s.step e) job task t := by
  cases t with
  | caller j => exact h.elim
  | worker w =>
      obtain ⟨wake, is, task⟩ := h
      refine ⟨wake, ?_, task⟩
      cases e with
      | submit spawns =>
          have fresh := inv.threads.fresh s.spawned (Nat.le_refl _)
          show (s.submit spawns).workers w = _
          unfold State.submit
          split
          · exact is
          split
          · exact is
          dsimp only
          split
          · exact is
          · split
            · refine (if_neg ?_).trans is
              rintro rfl
              rw [fresh] at is
              cases is
            · exact is
      | close => exact is
      | work v ran =>
          have other : w ≠ v := fun same => not_ same.symm
          show (s.work v ran).workers w = _
          unfold State.work
          split
          · split
            · exact (if_neg other).trans is
            · exact (if_neg other).trans is
          any_goals exact (if_neg other).trans is
          all_goals exact is
      | answer c =>
          show (s.answer c).workers w = _
          unfold State.answer
          split
          all_goals exact is
      | ask j sync =>
          show (s.ask j sync).workers w = _
          unfold State.ask
          split
          all_goals exact is
      | drop j => exact is
  | closing c =>
      obtain ⟨left, wake, is, task⟩ := h
      refine ⟨left, wake, ?_, task⟩
      cases e with
      | submit spawns =>
          show (s.submit spawns).closings c = _
          unfold State.submit
          split
          · exact is
          split
          · exact is
          dsimp only
          split
          · exact is
          · split
            all_goals exact is
      | close =>
          refine (if_neg ?_).trans is
          rintro rfl
          rw [inv.places.closers _ (Nat.le_refl _)] at is
          cases is
      | work v ran =>
          show (s.work v ran).closings c = _
          unfold State.work
          split
          · split
            all_goals exact is
          all_goals exact is
      | answer d =>
          have other : c ≠ d := fun same => not_ same.symm
          show (s.answer d).closings c = _
          unfold State.answer
          split
          · exact (if_neg other).trans is
          · exact (if_neg other).trans is
          · exact (if_neg other).trans is
          · exact is
      | ask j sync =>
          show (s.ask j sync).closings c = _
          unfold State.ask
          split
          all_goals exact is
      | drop j => exact is

/-- With that step the sleeper is awake. -/
theorem RingsBy.wakes {sync : Bool} (h : RingsBy s job (!sync) t) (asleep : s.asker job = .asked sync false)
    (takes : e.takes t) : (s.step e).asker job = .asked sync true := by
  have rung (wake : Bool) (task : (!sync) = true → wake = true) :
      put s.asker job ((s.asker job).rung wake) job = .asked sync true := by
    rw [put_apply, if_pos rfl, asleep]
    cases sync with
    | true => rfl
    | false =>
        rw [task rfl]
        rfl
  cases t with
  | caller j => exact h.elim
  | worker w =>
      obtain ⟨wake, is, task⟩ := h
      cases e with
      | work v ran =>
          obtain rfl : v = w := takes
          show (s.work v ran).asker job = _
          simp only [State.work, is]
          exact rung wake task
      | _ => exact takes.elim
  | closing c =>
      obtain ⟨left, wake, is, task⟩ := h
      cases e with
      | answer d =>
          obtain rfl : d = c := takes
          show (s.answer d).asker job = _
          simp only [State.answer, is]
          exact rung wake task
      | _ => exact takes.elim

/-- What stays of an answered command: its answers, and whether it was started. -/
def Settled (job : Nat) (s s' : State V) : Prop :=
  s'.place job = .answered ∧ s'.answers job = s.answers job ∧ (job ∈ s'.started ↔ job ∈ s.started)

theorem settled_step (h : Inv s) (answered : s.place job = .answered) (e : Event V) : Settled job s (s.step e) := by
  have kept : Settled job s s := ⟨answered, rfl, .rfl⟩
  have accepted : job ∈ s.accepted := by
    by_contra not_
    rw [(h.places.absent job).mpr not_] at answered
    cases answered
  have stored {k : Nat} (other : s.place k ≠ .answered) : job ≠ k := by
    rintro rfl
    exact other answered
  cases e with
  | submit spawns =>
      have old : job ≠ s.next := Nat.ne_of_lt (h.places.fresh job accepted)
      show Settled job s (s.submit spawns)
      unfold State.submit
      split
      · exact kept
      split
      · exact kept
      dsimp only
      split
      · exact ⟨(if_neg old).trans answered, rfl, .rfl⟩
      · split
        · exact ⟨(if_neg old).trans answered, rfl, .rfl⟩
        · exact kept
  | close =>
      refine ⟨(if_neg ?_).trans answered, rfl, .rfl⟩
      rw [answered]
      exact nofun
  | work w ran =>
      have carries {p : Worker V} (is : s.workers w = p) {first : Nat} (has : p.carries = some first) : job ≠ first :=
        stored (by
          rw [(h.places.worker first w).mpr (is ▸ has)]
          exact nofun)
      show Settled job s (s.work w ran)
      unfold State.work
      split
      · split
        · exact kept
        · rename_i first rest jobs
          refine ⟨(if_neg (stored ?_)).trans answered, rfl, .rfl⟩
          rw [(h.places.queued first).mpr (jobs ▸ List.mem_cons_self)]
          exact nofun
      · rename_i first is
        refine ⟨answered, rfl, ?_⟩
        show job ∈ s.started ++ [first] ↔ _
        rw [List.mem_append, List.mem_singleton, or_iff_left (carries is rfl)]
      · exact kept
      · rename_i first r is
        have other := carries is rfl
        exact ⟨(if_neg other).trans answered, if_neg other, .rfl⟩
      · exact kept
      · exact kept
      · exact kept
  | answer c =>
      show Settled job s (s.answer c)
      unfold State.answer
      split
      · exact kept
      · rename_i first left is
        have other := stored (k := first) (by
          rw [(h.places.closing first c).mpr ⟨_, is, List.mem_cons_self⟩]
          exact nofun)
        exact ⟨(if_neg other).trans answered, if_neg other, .rfl⟩
      · exact kept
      · exact kept
  | ask j sync =>
      show Settled job s (s.ask j sync)
      unfold State.ask
      split
      · exact kept
      · exact kept
  | drop j => exact kept

/-- The caller was told, or does not want to be. -/
def Told (job : Nat) (s : State V) : Prop := (∃ r, s.asker job = .resolved r) ∨ s.asker job = .dropped

/-- A caller of an answered command that is awake, or that a thread is about to ring for. -/
def Asks (job : Nat) (t : Thread) (s : State V) : Prop :=
  Inv s ∧ s.place job = .answered ∧
    ∃ sync awake, s.asker job = .asked sync awake ∧ (awake = false → RingsBy s job (!sync) t)

def askRank (job : Nat) (s : State V) : Nat :=
  match s.asker job with
  | .asked _ false => 1
  | _ => 0

def askTurn (job : Nat) (t : Thread) (s : State V) : Thread :=
  match s.asker job with
  | .asked _ false => t
  | _ => .caller job

theorem ask_there (h : Asks job t s) : s.There (askTurn job t s) := by
  obtain ⟨-, -, sync, awake, is, rings⟩ := h
  unfold askTurn
  rw [is]
  cases awake with
  | false => exact (rings rfl).there
  | true => exact ⟨sync, is⟩

theorem asks_step (h : Asks job t s) (may : s.May e) :
    Told job (s.step e) ∨ Asks job t (s.step e) ∧ (askRank job (s.step e) < askRank job s ∨
      askRank job (s.step e) = askRank job s ∧ askTurn job t (s.step e) = askTurn job t s ∧
        ¬e.takes (askTurn job t s)) := by
  obtain ⟨inv, answered, sync, awake, is, rings⟩ := h
  obtain ⟨r, -, -, there⟩ := inv.cells.answered job answered
  have result : s.result job = some r := by
    obtain ⟨some_, -⟩ | ⟨-, resolved⟩ := there
    · exact some_
    · rw [is] at resolved
      cases resolved
  have accepted : job ∈ s.accepted := by
    by_contra not_
    rw [(inv.places.absent job).mpr not_] at answered
    cases answered
  have old : job ≠ s.next := Nat.ne_of_lt (inv.places.fresh job accepted)
  have inv' := inv.step may
  have answered' := (settled_step inv answered e).1
  -- awake it stays awake; asleep it is woken, or the same thread is still about to
  have next (awake' : Bool) (is' : (s.step e).asker job = .asked sync awake') (grows : awake = true → awake' = true)
      (not_ : awake = true → ¬e.takes (.caller job)) :
      Asks job t (s.step e) ∧ (askRank job (s.step e) < askRank job s ∨ askRank job (s.step e) = askRank job s ∧
        askTurn job t (s.step e) = askTurn job t s ∧ ¬e.takes (askTurn job t s)) := by
    cases awake with
    | true =>
        obtain rfl := grows rfl
        refine ⟨⟨inv', answered', sync, true, is', nofun⟩, .inr ?_⟩
        unfold askRank askTurn
        rw [is, is']
        exact ⟨rfl, rfl, not_ rfl⟩
    | false =>
        cases awake' with
        | true =>
            refine ⟨⟨inv', answered', sync, true, is', nofun⟩, .inl ?_⟩
            unfold askRank
            rw [is, is']
            exact Nat.zero_lt_one
        | false =>
            have untaken : ¬e.takes t := fun takes => by
              rw [(rings rfl).wakes is takes] at is'
              cases is'
            refine ⟨⟨inv', answered', sync, false, is', fun _ => (rings rfl).stays inv untaken⟩, .inr ?_⟩
            unfold askRank askTurn
            rw [is, is']
            exact ⟨rfl, rfl, untaken⟩
  have asks : (∃ sync, e = .ask job sync) → Told job (s.step e) := by
    rintro ⟨sync', rfl⟩
    refine .inl ⟨r, ?_⟩
    show (s.ask job sync').asker job = _
    unfold State.ask
    rw [result]
    exact if_pos rfl
  by_cases asked : ∃ sync, e = .ask job sync
  · exact .inl (asks asked)
  have not_ : ¬e.takes (.caller job) := by
    cases e with
    | ask j sync' =>
        rintro rfl
        exact asked ⟨sync', rfl⟩
    | _ => exact id
  obtain same | ⟨wake, rung⟩ | asked' | rfl := asker_step (e := e) old
  · exact .inr (next awake (same.trans is) id fun _ => not_)
  · refine .inr (next (awake || sync || wake) (rung.trans (by rw [is]; rfl)) (fun on => ?_) fun _ => not_)
    rw [on]
    rfl
  · exact absurd asked' asked
  · exact .inl (.inr (if_pos rfl))

/-- A caller that has a `Pending` keeps it, or was told, or dropped it. -/
theorem asking_stays (inv : Inv s) (asks : Told job s ∨ ∃ sync awake, s.asker job = .asked sync awake) (may : s.May e) :
    Told job (s.step e) ∨ ∃ sync awake, (s.step e).asker job = .asked sync awake := by
  have there : s.asker job ≠ .absent := by
    obtain (⟨r, is⟩ | is) | ⟨sync, awake, is⟩ := asks
    all_goals
      rw [is]
      exact nofun
  have accepted : job ∈ s.accepted := by
    by_contra not_
    exact there ((inv.cells.asker job).mpr ((inv.places.absent job).mpr not_))
  have old : job ≠ s.next := Nat.ne_of_lt (inv.places.fresh job accepted)
  obtain same | ⟨wake, rung⟩ | ⟨sync, rfl⟩ | rfl := asker_step (e := e) old
  · unfold Told
    rw [same]
    exact asks
  · unfold Told
    rw [rung]
    obtain (⟨r, is⟩ | is) | ⟨sync, awake, is⟩ := asks
    all_goals rw [is]
    · exact .inl (.inl ⟨r, rfl⟩)
    · exact .inl (.inr rfl)
    · exact .inr ⟨sync, _, rfl⟩
  · unfold Told
    show ((∃ r, (s.ask job sync).asker job = .resolved r) ∨ (s.ask job sync).asker job = .dropped) ∨
      ∃ sync' awake, (s.ask job sync).asker job = .asked sync' awake
    unfold State.ask
    split
    · exact .inl (.inl ⟨_, if_pos rfl⟩)
    · exact .inr ⟨sync, false, if_pos rfl⟩
  · exact .inl (.inr (if_pos rfl))

/-- In a run in which every thread goes on a caller that asked is told at last, unless it drops its `Pending`. -/
theorem resolved_at_last {run : Endless (State.step : State V → Event V → State V) State.May}
    (fair : run.Fair Event.takes State.There) {n : Nat} (inv : Inv (run.state n)) {sync awake : Bool}
    (is : (run.state n).asker job = .asked sync awake) : ∃ m, n ≤ m ∧ Told job (run.state m) := by
  have accepted : job ∈ (run.state n).accepted := by
    by_contra not_
    rw [(inv.cells.asker job).mpr ((inv.places.absent job).mpr not_)] at is
    cases is
  obtain ⟨k, from_, answered⟩ := answered_at_last fair inv accepted
  have both : Inv (run.state k) ∧
      (Told job (run.state k) ∨ ∃ sync awake, (run.state k).asker job = .asked sync awake) :=
    Endless.always (I := fun s => Inv s ∧ (Told job s ∨ ∃ sync awake, s.asker job = .asked sync awake))
      (fun may h => ⟨h.1.step may, asking_stays h.1 h.2 may⟩) ⟨inv, .inr ⟨sync, awake, is⟩⟩ from_
  obtain ⟨inv', told | ⟨sync', awake', is'⟩⟩ := both
  · exact ⟨k, from_, told⟩
  · have thread : ∃ t, awake' = false → RingsBy (run.state k) job (!sync') t := by
      cases awake' with
      | true => exact ⟨.caller job, nofun⟩
      | false =>
          obtain ⟨r, -, -, ⟨some_, -⟩ | ⟨-, resolved⟩⟩ := inv'.cells.answered job answered
          · obtain ⟨none_, -⟩ | ⟨w, rings⟩ | ⟨c, rings⟩ := inv'.wakes job sync' is'
            · rw [some_] at none_
              cases none_
            · exact ⟨.worker w, fun _ => rings⟩
            · exact ⟨.closing c, fun _ => rings⟩
          · rw [is'] at resolved
            cases resolved
    obtain ⟨t, rings⟩ := thread
    obtain ⟨m, later, told⟩ := Endless.eventually (I := Asks job t) (G := Told job) fair (askRank job) (askTurn job t)
      (fun h _ => ask_there h) (fun may h _ => asks_step h may) ⟨inv', answered, sync', awake', is', rings⟩
    exact ⟨m, Nat.le_trans from_ later, told⟩

/-! ### What callers can rely on -/

/-- In every state: commands start in the order they were accepted and one runs at a time; a command has at most one
answer, the right one, and that is what its caller is told; waiting commands have one worker. -/
structure Orderly (s : State V) : Prop where
  order : s.started.Sublist s.accepted
  once : s.accepted.Nodup
  alone : ∀ w w' j j', s.workers w = .working j → s.workers w' = .working j' → w = w'
  answers : ∀ j, s.answers j = [] ∨ ∃ r, s.answers j = [r] ∧ Right s j r
  resolved : ∀ j r, s.asker j = .resolved r → s.answers j = [r]
  worker : s.jobs ≠ [] → ∃ w, (s.workers w).Live ∧ ∀ w', (s.workers w').Live → w' = w

/-- From one state to a later one: after a close only the command already taken starts, an answer stays the only one, a
command that was answered without having run never runs, and a caller is told once. -/
structure Later (s s' : State V) : Prop where
  starts : s.closed = true → ∀ j ∈ s'.started, j ∈ s.started ∨ ∃ w, s.workers w = .took j
  settled : ∀ j, s.answers j ≠ [] → s'.answers j = s.answers j ∧ (j ∈ s'.started ↔ j ∈ s.started)
  resolved : ∀ j r, s.asker j = .resolved r → s'.asker j = .resolved r

theorem Inv.answered_iff (h : Inv s) (job : Nat) : s.answers job ≠ [] ↔ s.place job = .answered := by
  constructor
  · intro some_
    by_contra not_
    exact some_ (h.cells.waiting job not_).1
  · intro place
    obtain ⟨r, is, -⟩ := h.cells.answered job place
    rw [is]
    exact List.cons_ne_nil r []

theorem Inv.orderly (h : Inv s) : Orderly s where
  order := by
    obtain ⟨past, same, sub⟩ := h.order.order
    rw [same]
    exact sub.trans (List.sublist_append_left _ _)
  once := h.places.accepted
  alone := fun w w' j j' is is' => h.threads.lone w w' (by rw [is]; trivial) (by rw [is']; trivial)
  answers := fun j => by
    by_cases place : s.place j = .answered
    · obtain ⟨r, is, right, -⟩ := h.cells.answered j place
      exact .inr ⟨r, is, right⟩
    · exact .inl (h.cells.waiting j place).1
  resolved := fun j r is => by
    by_cases place : s.place j = .answered
    · obtain ⟨r', only, -, ⟨-, unresolved⟩ | ⟨-, resolved⟩⟩ := h.cells.answered j place
      · exact absurd is (unresolved r)
      · rw [is] at resolved
        cases resolved
        exact only
    · exact absurd is ((h.cells.waiting j place).2.2 r)
  worker := fun some_ => by
    have running : s.running = true := by
      cases off : s.running with
      | true => rfl
      | false => exact absurd (h.threads.idle off) some_
    obtain ⟨w, live⟩ := h.threads.live running
    exact ⟨w, live, fun w' live' => h.threads.lone w' w live' live⟩

/-- On a closed queue no worker takes a command. -/
theorem closed_step (h : Inv s) (closed : s.closed = true) (e : Event V) :
    (s.step e).closed = true ∧ (∀ w j, (s.step e).workers w = .took j → s.workers w = .took j) ∧
      ∀ j ∈ (s.step e).started, j ∈ s.started ∨ ∃ w, s.workers w = .took j := by
  have none_ := h.places.closed closed
  have kept : s.closed = true ∧ (∀ w j, s.workers w = .took j → s.workers w = .took j) ∧
      ∀ j ∈ s.started, j ∈ s.started ∨ ∃ w, s.workers w = .took j :=
    ⟨closed, fun _ _ => id, fun _ => .inl⟩
  cases e with
  | submit spawns =>
      show (s.submit spawns).closed = true ∧ _
      have same : s.submit spawns = s := if_pos closed
      show (s.submit spawns).closed = true ∧ (∀ w j, (s.submit spawns).workers w = .took j → _) ∧
        ∀ j ∈ (s.submit spawns).started, _
      rw [same]
      exact kept
  | close => exact ⟨rfl, fun _ _ => id, fun _ => .inl⟩
  | work w ran =>
      show (s.work w ran).closed = true ∧ (∀ v j, (s.work w ran).workers v = .took j → _) ∧
        ∀ j ∈ (s.work w ran).started, _
      have moved (p : Worker V) (not_ : ∀ j, p ≠ .took j) (v j : Nat) (is : put s.workers w p v = .took j) :
          s.workers v = .took j := by
        rw [put_apply] at is
        split at is
        · exact absurd is (not_ j)
        · exact is
      cases is : s.workers w with
      | seeking =>
          simp only [State.work, is, none_]
          exact ⟨closed, moved _ (by simp), fun _ => .inl⟩
      | took first =>
          simp only [State.work, is]
          refine ⟨closed, moved _ (by simp), fun j hj => ?_⟩
          obtain before | here := List.mem_append.mp hj
          · exact .inl before
          · rw [List.mem_singleton] at here
            exact .inr ⟨w, here ▸ is⟩
      | absent | gone =>
          simp only [State.work, is]
          exact kept
      | working | worked | stored =>
          simp only [State.work, is]
          exact ⟨closed, moved _ (by simp), fun _ => .inl⟩
  | answer c =>
      show (s.answer c).closed = true ∧ (∀ v j, (s.answer c).workers v = .took j → _) ∧
        ∀ j ∈ (s.answer c).started, _
      unfold State.answer
      split
      all_goals exact kept
  | ask j sync =>
      show (s.ask j sync).closed = true ∧ (∀ v i, (s.ask j sync).workers v = .took i → _) ∧
        ∀ i ∈ (s.ask j sync).started, _
      unfold State.ask
      split
      all_goals exact kept
  | drop j => exact kept

theorem resolved_step (h : Inv s) {r : Except String V} (is : s.asker job = .resolved r) (may : s.May e) :
    (s.step e).asker job = .resolved r := by
  have accepted : job ∈ s.accepted := by
    by_contra not_
    rw [(h.cells.asker job).mpr ((h.places.absent job).mpr not_)] at is
    cases is
  obtain same | ⟨wake, rung⟩ | ⟨sync, rfl⟩ | rfl := asker_step (e := e) (Nat.ne_of_lt (h.places.fresh job accepted))
  · exact same.trans is
  · rw [rung, is]
    rfl
  · obtain held | ⟨before, awake, asked, -⟩ := may
    · rw [is] at held
      cases held
    · rw [is] at asked
      cases asked
  · obtain held | ⟨awake, asked⟩ := may
    · rw [is] at held
      cases held
    · rw [is] at asked
      cases asked

theorem Inv.later (h : Inv s) (run : Runs State.step State.May s s') : Later s s' where
  starts := fun closed => by
    have all := run.invariant (I := fun t => Inv t ∧ t.closed = true ∧
      (∀ w j, t.workers w = .took j → ∃ v, s.workers v = .took j) ∧
        ∀ j ∈ t.started, j ∈ s.started ∨ ∃ w, s.workers w = .took j)
      (fun {t e} may before => by
        obtain ⟨inv, closed, took, started⟩ := before
        obtain ⟨closed', took', started'⟩ := closed_step inv closed e
        refine ⟨inv.step may, closed', fun w j is => took w j (took' w j is), fun j hj => ?_⟩
        obtain was | ⟨w, is⟩ := started' j hj
        · exact started j was
        · exact .inr (took w j is))
      ⟨h, closed, fun w _ is => ⟨w, is⟩, fun _ => .inl⟩
    exact all.2.2.2
  settled := fun j some_ => by
    have all := run.invariant (I := fun t => Inv t ∧ Settled j s t)
      (fun {t e} may before => by
        obtain ⟨inv, answered, same, started⟩ := before
        obtain ⟨answered', same', started'⟩ := settled_step inv answered e
        exact ⟨inv.step may, answered', same'.trans same, started'.trans started⟩)
      ⟨h, (h.answered_iff j).mp some_, rfl, .rfl⟩
    exact all.2.2
  resolved := fun j r is =>
    (run.invariant (I := fun t => Inv t ∧ t.asker j = .resolved r)
      (fun may before => ⟨before.1.step may, resolved_step before.1 before.2 may⟩) ⟨h, is⟩).2

/-- Commands run in the order they were accepted, one at a time, and each is answered once, with what it came to or
with the error of a closed queue and then without having run; nothing starts after a close but the command already
taken; waiting commands have one worker. Where every thread goes on every accepted command is answered, and every
caller that asks and does not drop its `Pending` is told. -/
theorem commands_in_order_once_answered :
    (∀ s : State V, Runs State.step State.May .start s →
      Orderly s ∧ ∀ s', Runs State.step State.May s s' → Later s s') ∧
    ∀ run : Endless (State.step : State V → Event V → State V) State.May, run.state 0 = .start →
      run.Fair Event.takes State.There → ∀ n job,
        (job ∈ (run.state n).accepted → ∃ m, n ≤ m ∧ (run.state m).answers job ≠ []) ∧
        ∀ sync awake, (run.state n).asker job = .asked sync awake → ∃ m, n ≤ m ∧ Told job (run.state m) := by
  refine ⟨fun s run => ⟨(Inv.runs run).orderly, fun s' later => (Inv.runs run).later later⟩, ?_⟩
  intro run start fair n job
  have inv (m : Nat) : Inv (run.state m) :=
    Endless.always (I := Inv) (fun may h => h.step may) (start ▸ Inv.start) (Nat.zero_le m)
  refine ⟨fun accepted => ?_, fun sync awake is => resolved_at_last fair (inv n) is⟩
  obtain ⟨m, le, answered⟩ := answered_at_last fair (inv n) accepted
  exact ⟨m, le, ((inv m).answered_iff job).mpr answered⟩

/-- Three commands are accepted: the first is run and answered with seven, the second taken before a close and run after
it, where it panics, and the third left to the close. -/
def threeCommands : Nat → Event Nat
  | 0 | 1 | 2 => .submit true
  | 5 => .work 0 (.returned (.ok 7))
  | 9 => .close
  | 10 | 12 | 15 => .answer 0
  | 3 | 4 | 6 | 7 | 8 | 11 | 13 | 14 | 16 | 17 => .work 0 .panicked
  | _ => .submit false

/-- The states that a list of events leads through. -/
def through (events : Nat → Event V) : Nat → State V
  | 0 => .start
  | n + 1 => (through events n).step (events n)

/-- After the close nothing changes. -/
theorem threeCommands_stays (n : Nat) : through threeCommands (n + 18) = through threeCommands 18 := by
  induction n with
  | zero => rfl
  | succ n ih =>
      have next : through threeCommands (n + 1 + 18) = (through threeCommands (n + 18)).step (.submit false) := by
        show (through threeCommands (n + 18)).step (threeCommands (n + 18)) = _
        rfl
      have closed : (through threeCommands 18).closed = true := by decide +kernel
      rw [next, ih]
      show (through threeCommands 18).submit false = _
      unfold State.submit
      rw [if_pos closed]

def threeCommandsRun : Endless (State.step : State Nat → Event Nat → State Nat) State.May where
  state := through threeCommands
  event := threeCommands
  may := fun n => match n with
    | 0 | 1 | 2 | 9 => trivial
    | 3 | 4 | 5 | 6 | 7 | 8 | 11 | 13 | 14 | 16 | 17 => trivial
    | 10 | 12 | 15 => by
        intro none_
        cases none_
    | _ + 18 => trivial
  next := fun _ => rfl

theorem threeCommands_fair : threeCommandsRun.Fair Event.takes State.There := by
  intro t n _
  refine ⟨n + 18, Nat.le_add_right n 18, .inr ?_⟩
  show ¬(through threeCommands (n + 18)).There t
  rw [threeCommands_stays]
  cases t with
  | worker w =>
      show ¬((through threeCommands 18).workers w).Live
      cases w with
      | zero | succ => exact id
  | closing c =>
      show ¬(through threeCommands 18).closings c ≠ none
      cases c with
      | zero | succ => exact fun some_ => some_ rfl
  | caller job =>
      rintro ⟨sync, is⟩
      rcases job with _ | _ | _ | job
      all_goals cases is

/-- All three are answered, and the third never starts. -/
theorem commands_in_order_once_answered_three :
    (∀ job ∈ [0, 1, 2], ∃ m, (threeCommandsRun.state m).answers job ≠ []) ∧
      (threeCommandsRun.state 18).started = [0, 1] ∧ Orderly (threeCommandsRun.state 18) := by
  obtain ⟨orderly, answered⟩ := @commands_in_order_once_answered Nat
  refine ⟨fun job mem => ?_, rfl, (orderly _ ?_).1⟩
  · obtain ⟨m, -, some_⟩ := (answered threeCommandsRun rfl threeCommands_fair 3 job).1 mem
    exact ⟨m, some_⟩
  · exact Endless.always (I := Runs State.step State.May .start) (fun may run => run.tail ⟨_, may, rfl⟩) (.refl _)
      (Nat.zero_le 18)

end Khor.Gui
