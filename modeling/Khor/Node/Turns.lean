/-
Module: Khor.Node.Turns
Purpose: What a journal says of the turns it accepted, in every run.
Trusted boundary: a record is written on one line
Main exports: World.CarefulStep, accepted_turns_answered, finished_turn_named
-/
import Khor.Node.Bases

namespace Khor.Node.Journal

open Script

section Runs

variable {N : Type} {x : Externals N} {identity : Identity} {careful : Prop} {w w' : World N}
  {s t : Machine N}

/-- Only the end of a writer takes the journal from memory. -/
theorem mayDo_forgets {c : Call N} {r : Except Fault (Reply c)} (does : s.MayDo x c r t)
    (was : s.journal.isSome) (gone : t.journal = none) : t = { s with journal := none } := by
  have same : t.journal = s.journal → t = { s with journal := none } := fun same => by
    rw [← same, gone] at was
    cases was
  rcases does with does | ⟨_, rfl, _⟩
  · cases c
    case forget => exact does.2
    case set j => rw [does.2] at gone; cases gone
    case putActive a => exact same (by rw [does.2])
    case putManifest l m =>
      simp only [Machine.Does] at does
      cases there : s.dirs l <;> rw [there] at does
      · exact same (by rw [does.1])
      · exact same (by rw [does.2]; rfl)
    case removeFile l f =>
      simp only [Machine.Does] at does
      cases there : s.dirs l <;> rw [there] at does
      · exact same (by rw [does.1])
      · dsimp only at does
        split at does
        · exact same (by rw [does.2]; rfl)
        · exact same (by rw [does.1])
    case removeDir l =>
      simp only [Machine.Does] at does
      cases there : s.dirs l <;> rw [there] at does
      · exact same (by rw [does.1])
      · dsimp only at does
        split at does
        · exact same (by rw [does.2]; rfl)
        · exact same (by rw [does.1])
    case createDir l =>
      simp only [Machine.Does] at does
      cases there : s.dirs l <;> rw [there] at does
      · exact same (by rw [does.2]; rfl)
      · exact same (by rw [does.1])
    case rename l =>
      simp only [Machine.Does] at does
      split at does
      · exact same (by rw [does.2]; rfl)
      · exact same (by rw [does.1])
    case createRecords l =>
      simp only [Machine.Does] at does
      cases there : s.dirs l <;> rw [there] at does
      · exact same (by rw [does.1])
      · dsimp only at does
        split at does
        · exact same (by rw [does.1])
        · exact same (by rw [does.2]; rfl)
    case endLine i => exact same (by rw [does.2]; rfl)
    case write i record =>
      obtain ⟨_, n, _, rfl⟩ := does
      exact same rfl
    case flush i =>
      simp only [Machine.Does] at does
      split at does
      · exact same (by rw [does.2]; rfl)
      · exact same (by rw [does.2])
    all_goals exact same (by rw [does.1])
  · exact same rfl

/-- A step that does not lose a writer between the record that ends a turn and the manifest. -/
def World.CarefulStep (x : Externals N) (identity : Identity) (w w' : World N) : Prop :=
  World.Step x identity w w' ∧
    (w.machine.journal.isSome → w'.machine.journal = none → ¬ Between x w.machine)

/-- In a run that loses no writer between, a journal without a writer is not between. -/
theorem CarefulStep.good (lawful : x.Lawful) (step : World.CarefulStep x identity w w')
    (ready : w.machine.journal = none → ¬ Between x w.machine) (good : Good x identity True w) :
    Good x identity True w' ∧ (w'.machine.journal = none → ¬ Between x w'.machine) := by
  obtain ⟨step, kept⟩ := step
  obtain ⟨good', own⟩ := good.step lawful (fun _ => ready) step
  refine ⟨good', fun gone => ?_⟩
  cases was : w.machine.journal with
  | none => exact own.calm was (ready was)
  | some j =>
      have still := kept (by rw [was]; rfl) gone
      cases step with
      | start | finish | kill => exact still
      | call running does =>
          dsimp only at gone ⊢
          rw [mayDo_forgets does (by rw [was]; rfl) gone]
          exact still

/-- What the journal says of the turns it accepted. Once an opening has returned, every turn whose
acceptance had returned and whose completion had not is in a record file: as interrupted, in a gap that
this opening wrote or that an earlier one wrote before it was stopped, or with the record of its end. And
where no writer is lost between the record that ends a turn and the manifest, no gap names as interrupted
a turn whose end precedes it with no prompt of that turn since. -/
theorem accepted_turns_answered (lawful : x.Lawful) :
    (∀ w, World.Reaches x identity .init w → ∀ opening fresh,
      w.running = some (.openAs opening fresh, .ended (.ok ())) → ∀ turn ∈ w.owed, w.machine.Recorded x turn) ∧
    ∀ w, Relation.ReflTransGen (World.CarefulStep x identity) .init w →
      ∀ i, ¬ Stale (present x (w.machine.log i)) := by
  constructor
  · intro w reached opening fresh running turn mem
    exact ((Good.reaches lawful reached).holds running).2.2 turn mem
  · intro w reached
    have both : Good x identity True w ∧ (w.machine.journal = none → ¬ Between x w.machine) := by
      induction reached with
      | refl =>
          refine ⟨Good.init, fun _ ⟨l, m, i, turn, _, manifest, _⟩ => ?_⟩
          simp [World.init, Machine.init, Machine.manifestAt] at manifest
      | tail _ step ih => exact CarefulStep.good lawful step ih.2 ih.1
    exact both.1.rest.fair trivial

end Runs

/-! ### One turn, and where it can be lost -/

/-- A base, and a turn that was accepted in it. -/
def someTurn : List (Request Unit × Option Nat) :=
  [(.openAs .new "", none), (.prepareBase, none), (.publishBase, none), (.accept "t" "hi" [] [] none, none)]

/-- The writer is killed, and the opening that follows answers for the turn. -/
theorem killed_turn_answered : ∃ w : World Unit, World.Reaches someExternals someIdentity .init w ∧
    w.owed = ["t"] ∧ w.machine.Recorded someExternals "t" := by
  have runs : (World.init.play someExternals someIdentity
      (someTurn ++ [(.note (), some 4)])).isSome = true := by decide +kernel
  obtain ⟨w, is_⟩ := Option.isSome_iff_exists.1 runs
  have facts : ((World.init.play someExternals someIdentity (someTurn ++ [(.note (), some 4)])).map
      fun w => decide (w.owed = ["t"]) && w.running.isNone && w.machine.journal.isNone &&
        returned (exec someExternals 100 (openJournal someExternals someIdentity .resume "")
          w.machine).1) = some true := by decide +kernel
  rw [is_] at facts
  simp only [Option.map_some, Option.some.injEq, Bool.and_eq_true, decide_eq_true_eq,
    Option.isNone_iff_eq_none] at facts
  obtain ⟨⟨⟨owed, idle⟩, free⟩, ends⟩ := facts
  have reached := (World.play_reaches rfl is_).tail
    (World.Step.start (.openAs .resume "") idle free)
  have ran := reached.trans (World.exec_reaches someExternals someIdentity 100 rfl)
  refine ⟨_, ran, owed, (accepted_turns_answered someExternals_lawful).1 _ ran .resume "" ?_ "t" ?_⟩
  · exact congrArg (fun p => some (Request.openAs .resume "", p)) (returned_eq ends)
  · dsimp only
    rw [owed]
    exact List.mem_singleton_self _

/-- Two writers that are killed. The first had written that a turn ended, but not yet the manifest: the
gap names the turn as interrupted after its end. The second, an opening, had written the gap and the
manifest, but had not returned: the opening after it names no turn. -/
theorem finished_turn_named :
    (∃ w : World Unit, World.Reaches someExternals someIdentity .init w ∧
      present someExternals (w.machine.log 0) =
        [.prompt "t" "hi" [] [], .turn "t" .ended none, .gap .resume (some "t") false]) ∧
    ∃ w w' : World Unit, World.Reaches someExternals someIdentity .init w ∧ w.owed = ["t"] ∧
      present someExternals (w.machine.log 0) = [.prompt "t" "hi" [] [], .gap .resume (some "t") false] ∧
      w.play someExternals someIdentity [(.openAs .resume "", none)] = some w' ∧ w'.owed = [] ∧
      present someExternals (w'.machine.log 0) =
        [.prompt "t" "hi" [] [], .gap .resume (some "t") false, .gap .resume none false] := by
  constructor
  · have facts : ((World.init.play someExternals someIdentity (someTurn ++
        [(.finish "t" .ended none, some 10), (.openAs .resume "", none)])).map
        fun w => present someExternals (w.machine.log 0)) =
        some [.prompt "t" "hi" [] [], .turn "t" .ended none, .gap .resume (some "t") false] := by
      decide +kernel
    obtain ⟨w, is_, stands⟩ := Option.map_eq_some_iff.1 facts
    exact ⟨w, World.play_reaches rfl is_, stands⟩
  · have facts : ((World.init.play someExternals someIdentity (someTurn ++
        [(.drop, none), (.openAs .resume "", some 100)])).map fun w =>
          decide (w.owed = ["t"]) && decide (present someExternals (w.machine.log 0) =
            [.prompt "t" "hi" [] [], .gap .resume (some "t") false]) &&
          (w.play someExternals someIdentity [(.openAs .resume "", none)]).any fun w' =>
            decide (w'.owed = []) && decide (present someExternals (w'.machine.log 0) =
              [.prompt "t" "hi" [] [], .gap .resume (some "t") false, .gap .resume none false])) =
        some true := by
      decide +kernel
    obtain ⟨w, is_, now⟩ := Option.map_eq_some_iff.1 facts
    simp only [Bool.and_eq_true, decide_eq_true_eq, Option.any_eq_true_iff_get] at now
    obtain ⟨⟨owed, stands⟩, there, owed', stands'⟩ := now
    exact ⟨w, _, World.play_reaches rfl is_, owed, stands, (Option.some_get there).symm, owed', stands'⟩

end Khor.Node.Journal
