/-
Module: Khor.Lib.Fair
Purpose: Endless runs of a system of threads in which no thread is kept waiting for ever, and the rule that brings
  such a run to a goal: a rank that no event raises and that the thread whose turn it is lowers.
Trusted boundary: none
Main exports: Endless, Endless.Fair, Endless.always, Endless.eventually
-/
import Mathlib

namespace Khor

variable {State Event Thread : Type}

/-- A run that goes on for ever. -/
structure Endless (step : State → Event → State) (permit : State → Event → Prop) where
  state : Nat → State
  event : Nat → Event
  may : ∀ n, permit (state n) (event n)
  next : ∀ n, state (n + 1) = step (state n) (event n)

namespace Endless

variable {step : State → Event → State} {permit : State → Event → Prop}

/-- A thread that is there takes a step at some time, or is there no more. -/
def Fair (run : Endless step permit) (takes : Event → Thread → Prop) (there : State → Thread → Prop) : Prop :=
  ∀ t n, there (run.state n) t → ∃ m, n ≤ m ∧ (takes (run.event m) t ∨ ¬there (run.state m) t)

variable {run : Endless step permit}

/-- What every permitted event preserves holds from some time on. -/
theorem always {I : State → Prop} (preserves : ∀ {s e}, permit s e → I s → I (step s e)) {n : Nat}
    (h : I (run.state n)) : ∀ {m}, n ≤ m → I (run.state m) := by
  intro m le
  induction le with
  | refl => exact h
  | step _ ih =>
      rw [run.next]
      exact preserves (run.may _) ih

/-- A goal is reached where no event raises the rank, and the step of the thread whose turn it is lowers it. -/
theorem eventually {takes : Event → Thread → Prop} {there : State → Thread → Prop} (fair : run.Fair takes there)
    {I G : State → Prop} (rank : State → Nat) (turn : State → Thread)
    (there_ : ∀ {s}, I s → ¬G s → there s (turn s))
    (goes : ∀ {s e}, permit s e → I s → ¬G s → G (step s e) ∨ I (step s e) ∧ (rank (step s e) < rank s ∨
      rank (step s e) = rank s ∧ turn (step s e) = turn s ∧ ¬takes e (turn s)))
    {n : Nat} (h : I (run.state n)) : ∃ m, n ≤ m ∧ G (run.state m) := by
  generalize is : rank (run.state n) = r
  induction r using Nat.strongRecOn generalizing n with
  | ind r ih =>
      by_cases now : G (run.state n)
      · exact ⟨n, Nat.le_refl n, now⟩
      obtain ⟨m, le, taken⟩ := fair (turn (run.state n)) n (there_ h now)
      -- up to that step the goal is reached, the rank is lower, or nothing has changed for the thread
      have upTo : ∀ {k}, n ≤ k → (∃ l, n ≤ l ∧ (G (run.state l) ∨ I (run.state l) ∧ rank (run.state l) < r)) ∨
          I (run.state k) ∧ ¬G (run.state k) ∧ rank (run.state k) = r ∧ turn (run.state k) = turn (run.state n) := by
        intro k from_
        induction from_ with
        | refl => exact .inr ⟨h, now, is, rfl⟩
        | @step k from_ before =>
            obtain found | ⟨here, not_, same, whose⟩ := before
            · exact .inl found
            · obtain reached | ⟨still, lower | ⟨equal, whose', -⟩⟩ := goes (run.may k) here not_
              · exact .inl ⟨k + 1, Nat.le_succ_of_le from_, .inl (by rw [run.next]; exact reached)⟩
              · exact .inl ⟨k + 1, Nat.le_succ_of_le from_, .inr (by rw [run.next]; exact ⟨still, same ▸ lower⟩)⟩
              · by_cases reached : G (run.state (k + 1))
                · exact .inl ⟨k + 1, Nat.le_succ_of_le from_, .inl reached⟩
                · refine .inr ⟨?_, reached, ?_, ?_⟩
                  · rw [run.next]
                    exact still
                  · rw [run.next, equal, same]
                  · rw [run.next, whose', whose]
      have found : ∃ l, n ≤ l ∧ (G (run.state l) ∨ I (run.state l) ∧ rank (run.state l) < r) := by
        obtain found | ⟨here, not_, same, whose⟩ := upTo le
        · exact found
        · rw [← whose] at taken
          have taken := taken.resolve_right fun gone => gone (there_ here not_)
          obtain reached | ⟨still, lower | ⟨-, -, not'⟩⟩ := goes (run.may m) here not_
          · exact ⟨m + 1, Nat.le_succ_of_le le, .inl (by rw [run.next]; exact reached)⟩
          · exact ⟨m + 1, Nat.le_succ_of_le le, .inr (by rw [run.next]; exact ⟨still, same ▸ lower⟩)⟩
          · exact absurd taken not'
      obtain ⟨l, from_, reached | ⟨still, lower⟩⟩ := found
      · exact ⟨l, from_, reached⟩
      · obtain ⟨m, later, reached⟩ := ih (rank (run.state l)) lower still rfl
        exact ⟨m, Nat.le_trans from_ later, reached⟩

end Endless

end Khor
