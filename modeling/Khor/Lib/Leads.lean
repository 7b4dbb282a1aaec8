/-
Module: Khor.Lib.Leads
Purpose: A system left to itself: every way it can go on comes to a goal, and until then it can go on. With
  the rules that follow it step by step, along a rank, and from one system to another that it drives.
Trusted boundary: none
Main exports: Leads, Leads.by_rank, Leads.lift, Leads.reached
-/
import Mathlib

namespace Khor

variable {σ τ : Type} {step : σ → σ → Prop} {goal goal' : σ → Prop} {s : σ}

/-- The goal holds now, or there is a next step and every next step leads to the goal. -/
inductive Leads (step : σ → σ → Prop) (goal : σ → Prop) : σ → Prop
  | now {s : σ} (reached : goal s) : Leads step goal s
  | later {s : σ} (some_ : ∃ t, step s t) (all : ∀ t, step s t → Leads step goal t) : Leads step goal s

namespace Leads

/-- What every step preserves leads to a goal along a rank that every step from outside the goal lowers. -/
theorem by_rank {ρ : Type} {lt : ρ → ρ → Prop} (wf : WellFounded lt) (rank : σ → ρ) {I : σ → Prop}
    (next : ∀ s, I s → goal s ∨ (∃ t, step s t) ∧ ∀ t, step s t → goal t ∨ I t ∧ lt (rank t) (rank s)) :
    ∀ {s}, I s → Leads step goal s := by
  intro s h
  generalize is : rank s = r
  induction r using wf.induction generalizing s with
  | _ r ih =>
      obtain reached | ⟨some_, all⟩ := next s h
      · exact .now reached
      · refine .later some_ fun t move => ?_
        obtain reached | ⟨still, lower⟩ := all t move
        · exact .now reached
        · exact ih (rank t) (is ▸ lower) still rfl

/-- A system that goes exactly as another does. -/
theorem lift {step' : τ → τ → Prop} (f : σ → τ) (forth : ∀ {s t}, step s t → step' (f s) (f t))
    (back : ∀ {s u}, step' (f s) u → ∃ t, step s t ∧ u = f t) {goal' : τ → Prop} (goals : ∀ s, goal s → goal' (f s))
    (h : Leads step goal s) : Leads step' goal' (f s) := by
  induction h with
  | now reached => exact .now (goals _ reached)
  | later some_ _ ih =>
      obtain ⟨t, move⟩ := some_
      refine .later ⟨f t, forth move⟩ fun u move' => ?_
      obtain ⟨t, move, rfl⟩ := back move'
      exact ih t move

/-- Some way leads to a state in the goal. -/
theorem reached (h : Leads step goal s) : ∃ t, Relation.ReflTransGen step s t ∧ goal t := by
  induction h with
  | now reached => exact ⟨_, .refl, reached⟩
  | later some_ _ ih =>
      obtain ⟨t, move⟩ := some_
      obtain ⟨u, run, goal⟩ := ih t move
      exact ⟨u, .head move run, goal⟩

end Leads

end Khor
