/-
Module: Khor.Gui.CommandAnswers
Purpose: What the callers of a command queue can rely on: commands start in the order they were accepted, each is
  answered once and with what it came to, and whoever sleeps on an answer is about to be woken when it is there.
Trusted boundary: that of Khor.Gui.CommandQueue
Main exports: Order, Cells, Wakes, Inv, Inv.step
-/
import Khor.Gui.CommandQueue

namespace Khor.Gui

variable {V : Type} {s s' : State V}

/-! ### The order -/

/-- What was started is a part of what was accepted before the queue, in order; and so with the command that was taken
and is about to start. -/
structure Order (s : State V) : Prop where
  order : ∃ past, s.accepted = past ++ s.jobs ∧ s.started.Sublist past
  taken : ∀ w job, s.workers w = .took job →
    ∃ past mid, s.accepted = past ++ job :: mid ++ s.jobs ∧ s.started.Sublist past

theorem Order.keeps (h : Order s) (accepted : s'.accepted = s.accepted) (jobs : s'.jobs = s.jobs)
    (started : s'.started = s.started) (taken : ∀ w job, s'.workers w = .took job → s.workers w = .took job) :
    Order s' where
  order := by
    rw [accepted, jobs, started]
    exact h.order
  taken := fun w job is => by
    rw [accepted, jobs, started]
    exact h.taken w job (taken w job is)

theorem Order.accepts (h : Order s) {j : Nat} (accepted : s'.accepted = s.accepted ++ [j])
    (jobs : s'.jobs = s.jobs ++ [j]) (started : s'.started = s.started)
    (taken : ∀ w job, s'.workers w = .took job → s.workers w = .took job) : Order s' where
  order := by
    obtain ⟨past, same, sub⟩ := h.order
    refine ⟨past, ?_, started ▸ sub⟩
    rw [accepted, jobs, same, List.append_assoc]
  taken := fun w job is => by
    obtain ⟨past, mid, same, sub⟩ := h.taken w job (taken w job is)
    refine ⟨past, mid, ?_, started ▸ sub⟩
    rw [accepted, jobs, same]
    simp

theorem Order.closes (h : Order s) : Order s.close where
  order := by
    obtain ⟨past, same, sub⟩ := h.order
    refine ⟨past ++ s.jobs, ?_, sub.trans (List.sublist_append_left _ _)⟩
    show s.accepted = _ ++ []
    rw [List.append_nil, same]
  taken := fun w job is => by
    obtain ⟨past, mid, same, sub⟩ := h.taken w job is
    refine ⟨past, mid ++ s.jobs, ?_, sub⟩
    show s.accepted = _ ++ []
    rw [same]
    simp

variable {w job : Nat}

theorem Order.pops (h : Order s) {jobs : List Nat} (front : s.jobs = job :: jobs)
    (only : ∀ v, (s.workers v).Live → v = w) {place : Nat → Place} :
    Order { s with jobs, workers := put s.workers w (.took job), place } := by
  obtain ⟨past, same, sub⟩ := h.order
  rw [front] at same
  refine ⟨⟨past ++ [job], ?_, sub.trans (List.sublist_append_left _ _)⟩, fun v taken is => ?_⟩
  · show s.accepted = past ++ [job] ++ jobs
    rw [same, List.append_assoc, List.singleton_append]
  · have here : v = w ∧ taken = job := by grind
    refine ⟨past, [], ?_, sub⟩
    rw [here.2, same]
    simp

theorem Order.starts (h : Order s) (took : s.workers w = .took job) (only : ∀ v, (s.workers v).Live → v = w) :
    Order { s with workers := put s.workers w (.working job), started := s.started ++ [job] } := by
  obtain ⟨past, mid, same, sub⟩ := h.taken w job took
  refine ⟨⟨past ++ job :: mid, same, ?_⟩, fun v taken is => ?_⟩
  · exact sub.append (List.singleton_sublist.mpr (.head _))
  · have here : False := by grind
    exact here.elim

theorem Order.step (h : Order s) (threads : Threads s) {e : Event V} (may : s.May e) : Order (s.step e) := by
  cases e with
  | submit spawns =>
      show Order (s.submit spawns)
      unfold State.submit
      split
      · exact h
      split
      · exact h
      split
      · exact h.accepts rfl rfl rfl fun _ _ is => is
      · rename_i off
        split
        · exact h.accepts rfl rfl rfl (by grind)
        · exact h.keeps rfl (threads.idle (Bool.eq_false_iff.mpr off)).symm rfl fun _ _ is => is
  | close => exact h.closes
  | work w ran =>
      have there : (s.workers w).Live := may
      have only (v : Nat) (live : (s.workers v).Live) : v = w := threads.lone v w live there
      show Order (s.work w ran)
      cases is : s.workers w with
      | absent | gone =>
          rw [is] at there
          exact there.elim
      | seeking =>
          cases jobs : s.jobs with
          | nil =>
              simp only [State.work, is, jobs]
              exact h.keeps rfl jobs.symm rfl (by grind)
          | cons job jobs' =>
              simp only [State.work, is, jobs]
              exact h.pops jobs only
      | took job =>
          simp only [State.work, is]
          exact h.starts is only
      | working | worked | stored =>
          simp only [State.work, is]
          exact h.keeps rfl rfl rfl (by grind)
  | answer c =>
      show Order (s.answer c)
      unfold State.answer
      split
      · exact h.keeps rfl rfl rfl fun _ _ is => is
      · exact h.keeps rfl rfl rfl fun _ _ is => is
      · exact h.keeps rfl rfl rfl fun _ _ is => is
      · exact h
  | ask job sync =>
      show Order (s.ask job sync)
      unfold State.ask
      split
      · exact h.keeps rfl rfl rfl fun _ _ is => is
      · exact h.keeps rfl rfl rfl fun _ _ is => is
  | drop job => exact h.keeps rfl rfl rfl fun _ _ is => is

/-! ### The completions -/

/-- A result is what the command itself came to, or the error of a closed queue, and then the command never ran. -/
def Right (s : State V) (job : Nat) (result : Except String V) : Prop :=
  (∃ ran, s.own job = some ran ∧ result = ran.caught ∧ job ∈ s.started) ∨
    (result = .error CLOSED ∧ s.own job = none ∧ job ∉ s.started)

structure Cells (s : State V) : Prop where
  waiting : ∀ j, s.place j ≠ .answered → s.answers j = [] ∧ s.result j = none ∧ ∀ r, s.asker j ≠ .resolved r
  answered : ∀ j, s.place j = .answered → ∃ r, s.answers j = [r] ∧ Right s j r ∧
    (s.result j = some r ∧ (∀ r', s.asker j ≠ .resolved r') ∨ s.result j = none ∧ s.asker j = .resolved r)
  unstarted : ∀ j, (s.place j = .absent ∨ s.place j = .queued ∨ ∃ c, s.place j = .closing c) →
    s.own j = none ∧ j ∉ s.started
  took : ∀ w j, s.workers w = .took j → s.own j = none ∧ j ∉ s.started
  working : ∀ w j, s.workers w = .working j → s.own j = none ∧ j ∈ s.started
  worked : ∀ w j ran, s.workers w = .worked j ran → s.own j = some ran ∧ j ∈ s.started
  asker : ∀ j, s.asker j = .absent ↔ s.place j = .absent

/-- Nothing of a command's answer changes. -/
theorem Cells.keeps (h : Cells s) (place : s'.place = s.place) (answers : s'.answers = s.answers)
    (result : s'.result = s.result) (own : s'.own = s.own) (started : s'.started = s.started)
    (resolved : ∀ j r, s'.asker j = .resolved r ↔ s.asker j = .resolved r)
    (absent : ∀ j, s'.asker j = .absent ↔ s.asker j = .absent)
    (workers : ∀ w j, (s'.workers w = .took j → s.workers w = .took j) ∧
      (s'.workers w = .working j → s.workers w = .working j) ∧
      ∀ ran, s'.workers w = .worked j ran → s.workers w = .worked j ran) : Cells s' where
  waiting := by simp only [place, answers, result, ne_eq, resolved]; exact h.waiting
  answered := by simp only [place, answers, result, ne_eq, resolved, Right, own, started]; exact h.answered
  unstarted := by rw [place, own, started]; exact h.unstarted
  took := fun w j is => by rw [own, started]; exact h.took w j ((workers w j).1 is)
  working := fun w j is => by rw [own, started]; exact h.working w j ((workers w j).2.1 is)
  worked := fun w j ran is => by rw [own, started]; exact h.worked w j ran ((workers w j).2.2 ran is)
  asker := by simp only [place, absent]; exact h.asker

@[grind =] theorem rung_resolved (wake : Bool) (asker : Asker V) (r : Except String V) :
    asker.rung wake = .resolved r ↔ asker = .resolved r := by
  cases asker <;> simp [Asker.rung]

@[grind =] theorem rung_absent (wake : Bool) (asker : Asker V) : asker.rung wake = .absent ↔ asker = .absent := by
  cases asker <;> simp [Asker.rung]

section

variable (h : Cells s)
include h

theorem Cells.accepts (places : Places s) {running : Bool} {workers : Nat → Worker V} {spawned : Nat}
    (same : workers = s.workers ∨ workers = put s.workers s.spawned .seeking) :
    Cells { s with
      jobs := s.jobs ++ [s.next]
      running
      workers
      spawned
      next := s.next + 1
      asker := put s.asker s.next .held
      accepted := s.accepted ++ [s.next]
      place := put s.place s.next .queued } := by
  have new : s.next ∉ s.accepted := fun is => Nat.lt_irrefl _ (places.fresh _ is)
  have nowhere := (places.absent s.next).mpr new
  obtain ⟨waiting, answered, unstarted, took, working, worked, asker⟩ := h
  unfold Right at answered
  rcases same with rfl | rfl
  all_goals
    constructor
    case answered => unfold Right; grind
    all_goals grind

theorem Cells.closes : Cells s.close := by
  obtain ⟨waiting, answered, unstarted, took, working, worked, asker⟩ := h
  unfold Right at answered
  unfold State.close
  constructor
  case answered => unfold Right; grind
  all_goals grind

theorem Cells.pops (places : Places s) {jobs : List Nat} (front : s.jobs = job :: jobs) :
    Cells { s with jobs, workers := put s.workers w (.took job), place := put s.place job (.worker w) } := by
  have here := (places.queued job).mpr (front ▸ List.mem_cons_self)
  obtain ⟨waiting, answered, unstarted, took, working, worked, asker⟩ := h
  unfold Right at answered
  constructor
  case answered => unfold Right; grind
  all_goals grind

theorem Cells.starts (places : Places s) (is : s.workers w = .took job) :
    Cells { s with workers := put s.workers w (.working job), started := s.started ++ [job] } := by
  have took_ (v j : Nat) (is : s.workers v = .took j) : s.place j = .worker v :=
    (places.worker j v).mpr (by rw [is]; rfl)
  obtain ⟨waiting, answered, unstarted, took, working, worked, asker⟩ := h
  unfold Right at answered
  constructor
  case answered => unfold Right; grind
  all_goals grind

theorem Cells.runs (places : Places s) {w job : Nat} (is : s.workers w = .working job) (ran : Ran V) :
    Cells { s with workers := put s.workers w (.worked job ran), own := put s.own job (some ran) } := by
  have carries (v j : Nat) (is : (s.workers v).carries = some j) : s.place j = .worker v := (places.worker j v).mpr is
  have working_ (v j : Nat) (is : s.workers v = .working j) := carries v j (by rw [is]; rfl)
  obtain ⟨waiting, answered, unstarted, took, working, worked, asker⟩ := h
  unfold Right at answered
  constructor
  case answered => unfold Right; grind
  all_goals grind

/-- A result is stored that is right. -/
theorem Cells.stores {result : Except String V} (right : Right s job result) (here : s.place job ≠ .answered)
    (there : s.place job ≠ .absent) {workers : Nat → Worker V} {closings : Nat → Option Closing}
    (same : ∀ w j, (workers w = .took j → s.workers w = .took j) ∧ (workers w = .working j → s.workers w = .working j) ∧
      ∀ ran, workers w = .worked j ran → s.workers w = .worked j ran) :
    Cells { s.store job result with workers, closings } := by
  obtain ⟨waiting, answered, unstarted, took, working, worked, asker⟩ := h
  obtain ⟨none_, -, unresolved⟩ := waiting job here
  unfold State.store
  constructor
  case answered =>
    intro j is
    by_cases same : j = job
    · subst same
      refine ⟨result, ?_, right, .inl ⟨if_pos rfl, unresolved⟩⟩
      show put s.answers j (s.answers j ++ [result]) j = [result]
      rw [put_apply, if_pos rfl, none_, List.nil_append]
    · obtain ⟨r, only, right, where_⟩ := answered j (by grind)
      refine ⟨r, (if_neg same).trans only, right, ?_⟩
      grind
  all_goals grind

theorem Cells.takes {result : Except String V} (is : s.result job = some result)
    (there : s.asker job ≠ .absent) :
    Cells { s with result := put s.result job none, asker := put s.asker job (.resolved result) } := by
  obtain ⟨waiting, answered, unstarted, took, working, worked, asker⟩ := h
  unfold Right at answered
  constructor
  case answered => unfold Right; grind
  all_goals grind

theorem Cells.step (places : Places s) (threads : Threads s) {e : Event V} (may : s.May e) :
    Cells (s.step e) := by
  cases e with
  | submit spawns =>
      show Cells (s.submit spawns)
      unfold State.submit
      split
      · exact h
      split
      · exact h
      split
      · exact h.accepts places (.inl rfl)
      · split
        · exact h.accepts places (.inr rfl)
        · exact h.keeps rfl rfl rfl rfl rfl (fun _ _ => .rfl) (fun _ => .rfl) fun _ _ => ⟨id, id, fun _ => id⟩
  | close => exact h.closes
  | work w ran =>
      have there : (s.workers w).Live := may
      show Cells (s.work w ran)
      cases is : s.workers w with
      | absent | gone =>
          rw [is] at there
          exact there.elim
      | seeking =>
          cases jobs : s.jobs with
          | nil =>
              simp only [State.work, is, jobs]
              exact h.keeps rfl rfl rfl rfl rfl (fun _ _ => .rfl) (fun _ => .rfl) (by grind)
          | cons job jobs' =>
              simp only [State.work, is, jobs]
              exact h.pops places jobs
      | took job =>
          simp only [State.work, is]
          exact h.starts places is
      | working job =>
          simp only [State.work, is]
          exact h.runs places is ran
      | worked job ran =>
          have here := (places.worker job w).mpr (by rw [is]; rfl)
          obtain ⟨own, started⟩ := h.worked w job ran is
          simp only [State.work, is]
          refine h.stores (.inl ⟨ran, own, rfl, started⟩) ?_ ?_ (by grind)
          · rw [here]
            simp
          · rw [here]
            simp
      | stored job wake =>
          simp only [State.work, is]
          exact h.keeps rfl rfl rfl rfl rfl (by unfold State.ring; grind) (by unfold State.ring; grind) (by grind)
  | answer c =>
      show Cells (s.answer c)
      unfold State.answer
      split
      · exact h.keeps rfl rfl rfl rfl rfl (by unfold State.ring; grind) (by unfold State.ring; grind)
          fun _ _ => ⟨id, id, fun _ => id⟩
      · rename_i job left is
        have here := (places.closing job c).mpr ⟨_, is, .head _⟩
        obtain ⟨own, started⟩ := h.unstarted job (.inr (.inr ⟨c, here⟩))
        refine h.stores (.inr ⟨rfl, own, started⟩) ?_ ?_ fun _ _ => ⟨id, id, fun _ => id⟩
        · rw [here]
          simp
        · rw [here]
          simp
      · exact h.keeps rfl rfl rfl rfl rfl (fun _ _ => .rfl) (fun _ => .rfl) fun _ _ => ⟨id, id, fun _ => id⟩
      · exact h
  | ask job sync =>
      have asks : s.asker job ≠ .absent ∧ ∀ r, s.asker job ≠ .resolved r := by
        obtain is | ⟨before, awake, is, -⟩ := may
        · rw [is]
          exact ⟨by simp, by simp⟩
        · rw [is]
          exact ⟨by simp, by simp⟩
      show Cells (s.ask job sync)
      unfold State.ask
      split
      · rename_i result is
        exact h.takes is asks.1
      · exact h.keeps rfl rfl rfl rfl rfl (by grind) (by grind) fun _ _ => ⟨id, id, fun _ => id⟩
  | drop job =>
      have asks : s.asker job ≠ .absent ∧ ∀ r, s.asker job ≠ .resolved r := by
        obtain is | ⟨awake, is⟩ := may
        · rw [is]
          exact ⟨by simp, by simp⟩
        · rw [is]
          exact ⟨by simp, by simp⟩
      refine h.keeps rfl rfl rfl rfl rfl (fun j r => ?_) (fun j => ?_) fun _ _ => ⟨id, id, fun _ => id⟩
      · show put s.asker job .dropped j = _ ↔ _
        grind
      · show put s.asker job .dropped j = _ ↔ _
        grind

end

/-! ### No sleeper is forgotten -/

/-- Some thread is about to ring for a command, and for its task too where that is asked. -/
def Rings (s : State V) (job : Nat) (task : Bool) : Prop :=
  (∃ w wake, s.workers w = .stored job wake ∧ (task = true → wake = true)) ∨
    ∃ c left wake, s.closings c = some ⟨left, some (job, wake)⟩ ∧ (task = true → wake = true)

/-- Whoever sleeps is in the completion, or is about to be woken. -/
def Wakes (s : State V) : Prop :=
  ∀ j sync, s.asker j = .asked sync false →
    (s.result j = none ∧ (sync = false → s.waker j = true)) ∨ Rings s j (!sync)

theorem Rings.keeps {task : Bool} (h : Rings s job task)
    (workers : ∀ w wake, s.workers w = .stored job wake → s'.workers w = .stored job wake)
    (closings : ∀ c left wake, s.closings c = some ⟨left, some (job, wake)⟩ →
      s'.closings c = some ⟨left, some (job, wake)⟩) : Rings s' job task := by
  obtain ⟨w, wake, is, task⟩ | ⟨c, left, wake, is, task⟩ := h
  · exact .inl ⟨w, wake, workers w wake is, task⟩
  · exact .inr ⟨c, left, wake, closings c left wake is, task⟩

/-- The threads that are about to ring stay, and the sleepers and their completions. -/
theorem Wakes.keeps (h : Wakes s)
    (asleep : ∀ j sync, s'.asker j = .asked sync false → s.asker j = .asked sync false ∧
      (s.result j = none → s'.result j = none) ∧ (s.waker j = true → s'.waker j = true))
    (workers : ∀ w j wake, s.workers w = .stored j wake → s'.workers w = .stored j wake)
    (closings : ∀ c left j wake, s.closings c = some ⟨left, some (j, wake)⟩ →
      s'.closings c = some ⟨left, some (j, wake)⟩) : Wakes s' := by
  intro j sync is
  obtain ⟨was, result, waker⟩ := asleep j sync is
  obtain ⟨none_, registered⟩ | rings := h j sync was
  · exact .inl ⟨result none_, fun polled => waker (registered polled)⟩
  · exact .inr (rings.keeps (fun w => workers w j) fun c left => closings c left j)

/-- The thread that stores a result rings for it next. -/
theorem Wakes.stores (h : Wakes s) (job : Nat) (asker : s'.asker = s.asker)
    (same : ∀ j, j ≠ job → s'.result j = s.result j ∧ s'.waker j = s.waker j)
    (rings : ∀ j task, Rings s j task → Rings s' j task)
    (next : ∀ task, (task = true → s.waker job = true) → Rings s' job task) : Wakes s' := by
  intro j sync is
  rw [asker] at is
  obtain ⟨none_, registered⟩ | before := h j sync is
  · by_cases here : j = job
    · subst here
      exact .inr (next (!sync) fun polled => registered (by simpa using polled))
    · refine .inl ⟨(same j here).1.trans none_, fun polled => ?_⟩
      rw [(same j here).2]
      exact registered polled
  · exact .inr (rings j (!sync) before)

/-- After a ring its command's sleeper is awake. -/
theorem rung_awake {wake sync : Bool} {asker : Asker V} (is : asker.rung wake = .asked sync false) :
    asker = .asked sync false ∧ sync = false ∧ wake = false := by
  cases asker with
  | asked before awake =>
      simp only [Asker.rung, Asker.asked.injEq] at is
      grind
  | _ => simp [Asker.rung] at is

/-- A thread has rung, and the others that are about to stay. -/
theorem Wakes.rings (h : Wakes s) (job : Nat) {wake : Bool} (asker : s'.asker = put s.asker job ((s.asker job).rung wake))
    (result : s'.result = s.result) (waker : s'.waker = s.waker)
    (rings : ∀ j task, Rings s j task → (j = job ∧ (task = true → wake = true)) ∨ Rings s' j task) : Wakes s' := by
  intro j sync is
  have was : s.asker j = .asked sync false ∧ (j = job → sync = false ∧ wake = false) := by
    rw [asker, put_apply] at is
    split at is
    · rename_i here
      obtain ⟨was, sync, wake⟩ := rung_awake is
      exact ⟨here ▸ was, fun _ => ⟨sync, wake⟩⟩
    · rename_i other
      exact ⟨is, fun here => absurd here other⟩
  rw [result, waker]
  obtain none_ | before := h j sync was.1
  · exact .inl none_
  · obtain ⟨here, woken⟩ | after := rings j (!sync) before
    · obtain ⟨sync_, wake_⟩ := was.2 here
      rw [woken (by rw [sync_]; rfl)] at wake_
      cases wake_
    · exact .inr after

theorem Wakes.step (h : Wakes s) (threads : Threads s) (places : Places s) {e : Event V} (may : s.May e) :
    Wakes (s.step e) := by
  cases e with
  | submit spawns =>
      have fresh := threads.fresh s.spawned (Nat.le_refl _)
      show Wakes (s.submit spawns)
      unfold State.submit
      split
      · exact h
      split
      · exact h
      split
      · exact h.keeps (by grind) (fun _ _ _ => id) fun _ _ _ _ => id
      · split
        · exact h.keeps (by grind) (by grind) fun _ _ _ _ => id
        · exact h.keeps (by grind) (fun _ _ _ => id) fun _ _ _ _ => id
  | close =>
      have fresh := places.closers s.closers (Nat.le_refl _)
      show Wakes s.close
      unfold State.close
      exact h.keeps (by grind) (fun _ _ _ => id) (by grind)
  | work w ran =>
      have there : (s.workers w).Live := may
      show Wakes (s.work w ran)
      cases is : s.workers w with
      | absent | gone =>
          rw [is] at there
          exact there.elim
      | seeking =>
          cases jobs : s.jobs with
          | nil | cons =>
              simp only [State.work, is, jobs]
              exact h.keeps (by grind) (by grind) fun _ _ _ _ => id
      | took | working =>
          simp only [State.work, is]
          exact h.keeps (by grind) (by grind) fun _ _ _ _ => id
      | worked job ran =>
          simp only [State.work, is]
          refine h.stores job rfl (fun j other => ⟨if_neg other, if_neg other⟩) (fun j task rings => ?_)
            fun task registered => .inl ⟨w, s.waker job, if_pos rfl, registered⟩
          exact rings.keeps (by grind) fun _ _ _ => id
      | stored job wake =>
          simp only [State.work, is]
          refine h.rings job rfl rfl rfl fun j task rings => ?_
          obtain ⟨v, wake', rung, woken⟩ | ⟨c, left, wake', rung, woken⟩ := rings
          · by_cases same : v = w
            · refine .inl ?_
              rw [same, is, Worker.stored.injEq] at rung
              exact ⟨rung.1.symm, rung.2 ▸ woken⟩
            · exact .inr (.inl ⟨v, wake', (if_neg same).trans rung, woken⟩)
          · exact .inr (.inr ⟨c, left, wake', rung, woken⟩)
  | answer c =>
      show Wakes (s.answer c)
      unfold State.answer
      split
      · rename_i left job wake is
        refine h.rings job rfl rfl rfl fun j task rings => ?_
        obtain ⟨v, wake', rung, woken⟩ | ⟨d, left', wake', rung, woken⟩ := rings
        · exact .inr (.inl ⟨v, wake', rung, woken⟩)
        · by_cases same : d = c
          · refine .inl ?_
            rw [same, is] at rung
            cases rung
            exact ⟨rfl, woken⟩
          · exact .inr (.inr ⟨d, left', wake', (if_neg same).trans rung, woken⟩)
      · rename_i job left is
        refine h.stores job rfl (fun j other => ⟨if_neg other, if_neg other⟩) (fun j task rings => ?_)
          fun task registered => .inr ⟨c, left, s.waker job, if_pos rfl, registered⟩
        exact rings.keeps (fun _ _ => id) (by grind)
      · exact h.keeps (by grind) (fun _ _ _ => id) (by grind)
      · exact h
  | ask job sync =>
      show Wakes (s.ask job sync)
      unfold State.ask
      split
      · exact h.keeps (by grind) (fun _ _ _ => id) fun _ _ _ _ => id
      · rename_i none_
        intro j sync' asleep
        by_cases same : j = job
        · refine .inl ⟨same ▸ none_, fun polled => ?_⟩
          show (if sync then s.waker else put s.waker job true) j = true
          grind
        · have asleep : put s.asker job (.asked sync false) j = .asked sync' false := asleep
          obtain ⟨none_, registered⟩ | rings := h j sync' (by grind)
          · refine .inl ⟨none_, fun polled => ?_⟩
            show (if sync then s.waker else put s.waker job true) j = true
            grind
          · exact .inr (rings.keeps (fun _ _ => id) fun _ _ _ => id)
  | drop job =>
      refine h.keeps (fun j sync is => ?_) (fun _ _ _ => id) fun _ _ _ _ => id
      have is : put s.asker job .dropped j = .asked sync false := is
      exact ⟨by grind, id, id⟩

/-! ### All together -/

structure Inv (s : State V) : Prop where
  threads : Threads s
  places : Places s
  order : Order s
  cells : Cells s
  wakes : Wakes s

theorem Inv.start : Inv (State.start : State V) where
  threads := ⟨nofun, nofun, nofun, fun _ => rfl, fun _ _ => rfl⟩
  places := ⟨by simp [State.start], by simp [State.start, Worker.carries], by simp [State.start], by simp [State.start],
    .nil, nofun, .nil, nofun, fun _ _ => rfl, fun _ => rfl⟩
  order := ⟨⟨[], rfl, .slnil⟩, nofun⟩
  cells := ⟨fun _ _ => ⟨rfl, rfl, nofun⟩, nofun, fun _ _ => ⟨rfl, nofun⟩, nofun, nofun, nofun, by simp [State.start]⟩
  wakes := nofun

theorem Inv.step (h : Inv s) {e : Event V} (may : s.May e) : Inv (s.step e) where
  threads := h.threads.step may
  places := h.places.step h.threads may
  order := h.order.step h.threads may
  cells := h.cells.step h.places h.threads may
  wakes := h.wakes.step h.threads h.places may

theorem Inv.runs (run : Runs State.step State.May State.start s) : Inv s :=
  run.invariant (fun may h => h.step may) .start

end Khor.Gui
