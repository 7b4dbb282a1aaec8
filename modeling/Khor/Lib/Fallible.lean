/-
Module: Khor.Lib.Fallible
Purpose: Computations that may fail: a sequence that succeeds is its steps succeeding.
Trusted boundary: none
Main exports: bind_ok, bind_of_ok
-/
namespace Khor

variable {ε α β : Type}

theorem bind_ok {m : Except ε α} {f : α → Except ε β} {b : β} :
    (m >>= f) = .ok b ↔ ∃ a, m = .ok a ∧ f a = .ok b := by
  constructor
  · intro h
    cases m with
    | error e => cases h
    | ok a => exact ⟨a, rfl, h⟩
  · rintro ⟨a, rfl, h⟩
    exact h

theorem bind_of_ok {m : Except ε α} {a : α} (f : α → Except ε β) (is : m = .ok a) : (m >>= f) = f a := by
  rw [is]
  rfl

end Khor
