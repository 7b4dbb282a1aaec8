/-
Module: Khor.Lib.Runs
Purpose: Runs of a system given by what each event makes of a state and by which events are permitted
  where. An invariant of permitted events is an invariant of permitted runs, and a list of events that
  is permitted as it is worked off gives a run.
Trusted boundary: none
Main exports: Advances, Runs, Runs.invariant, Fits, Fits.runs
-/
import Mathlib

namespace Khor

section Runs

variable {State Event : Type} (step : State → Event → State) (permit : State → Event → Prop)

/-- One permitted event. -/
def Advances (s s' : State) : Prop := ∃ e, permit s e ∧ s' = step s e

/-- Any number of permitted events. -/
def Runs (s s' : State) : Prop := Relation.ReflTransGen (Advances step permit) s s'

/-- The listed events are permitted, each where the ones before it lead. -/
def Fits : State → List Event → Prop
  | _, [] => True
  | s, e :: es => permit s e ∧ Fits (step s e) es

instance decidableFits [∀ s e, Decidable (permit s e)] :
    ∀ (s : State) (es : List Event), Decidable (Fits step permit s es)
  | _, [] => inferInstanceAs (Decidable True)
  | s, e :: es =>
      haveI := decidableFits (step s e) es
      inferInstanceAs (Decidable (_ ∧ _))

variable {step permit}

theorem Runs.refl (s : State) : Runs step permit s s :=
  Relation.ReflTransGen.refl

theorem Runs.trans {s s' s'' : State} (h : Runs step permit s s') (h' : Runs step permit s' s'') :
    Runs step permit s s'' :=
  Relation.ReflTransGen.trans h h'

/-- What every permitted event preserves, every run preserves. -/
theorem Runs.invariant {I : State → Prop} (preserves : ∀ {s e}, permit s e → I s → I (step s e)) {s s' : State}
    (run : Runs step permit s s') (h : I s) : I s' := by
  induction run with
  | refl => exact h
  | tail _ move ih =>
      obtain ⟨e, permitted, rfl⟩ := move
      exact preserves permitted ih

/-- Fewer events are permitted, fewer runs there are. -/
theorem Runs.mono {permit' : State → Event → Prop} (weaker : ∀ {s e}, permit s e → permit' s e)
    {s s' : State} (run : Runs step permit s s') : Runs step permit' s s' := by
  induction run with
  | refl => exact .refl s
  | tail _ move ih =>
      obtain ⟨e, permitted, same⟩ := move
      exact Relation.ReflTransGen.tail ih ⟨e, weaker permitted, same⟩

/-- Working off a list of permitted events is a run. -/
theorem Fits.runs {s : State} {es : List Event} (h : Fits step permit s es) :
    Runs step permit s (es.foldl step s) := by
  induction es generalizing s with
  | nil => exact .refl s
  | cons e es ih =>
      obtain ⟨permitted, rest⟩ := h
      exact Relation.ReflTransGen.head ⟨e, permitted, rfl⟩ (ih rest)

end Runs

end Khor
