/-
Module: Khor.Lib.Work
Purpose: Work on a state that may fail and leaves a state either way: how a sequence ends, and what every piece of work
  does to the state, however it ends.
Trusted boundary: none
Main exports: Work, Work.bind_ok, Work.bind_error, Work.Moves, Work.Never
-/
namespace Khor

/-- Work on a state: it ends with a value or a failure, and with the state it leaves. -/
def Work (ε σ α : Type) : Type := σ → Except ε α × σ

namespace Work

variable {ε σ α β : Type}

instance : Monad (Work ε σ) where
  pure a s := (.ok a, s)
  bind x f s :=
    match x s with
    | (.ok a, s') => f a s'
    | (.error e, s') => (.error e, s')

/-- Work that fails and changes nothing. -/
def fail (e : ε) : Work ε σ α := fun s => (.error e, s)

/-- What does not look at the state. -/
def lift (x : Except ε α) : Work ε σ α := fun s => (x, s)

variable {x : Work ε σ α} {s s' : σ}

/-- Work that went well is followed by the next. -/
theorem bind_run {a : α} (is : x s = (.ok a, s')) (f : α → Work ε σ β) : (x >>= f) s = f a s' := by
  change (match x s with | (.ok a, s') => f a s' | (.error e, s') => (.error e, s')) = f a s'
  rw [is]

/-- Two pieces of work went well just where each did. -/
theorem bind_ok {f : α → Work ε σ β} {b : β} :
    (x >>= f) s = (.ok b, s') ↔ ∃ a s₁, x s = (.ok a, s₁) ∧ f a s₁ = (.ok b, s') := by
  constructor
  · intro is
    change (match x s with | (.ok a, s') => f a s' | (.error e, s') => (.error e, s')) = _ at is
    match first : x s with
    | (.ok a, s₁) =>
        rw [first] at is
        exact ⟨a, s₁, rfl, is⟩
    | (.error e, s₁) =>
        rw [first] at is
        cases is
  · rintro ⟨a, s₁, first, is⟩
    rw [bind_run first, is]

/-- And failed where the first or the second did. -/
theorem bind_error {f : α → Work ε σ β} {e : ε} : (x >>= f) s = (.error e, s') ↔
      x s = (.error e, s') ∨ ∃ a s₁, x s = (.ok a, s₁) ∧ f a s₁ = (.error e, s') := by
  change (match x s with | (.ok a, s') => f a s' | (.error e, s') => (.error e, s')) = _ ↔ _
  match x s with
  | (.ok a, s₁) =>
      constructor
      · exact fun is => .inr ⟨a, s₁, rfl, is⟩
      · rintro (is | ⟨_, _, is, rest⟩)
        · cases is
        · cases is
          exact rest
  | (.error e', s₁) =>
      constructor
      · intro is
        cases is
        exact .inl rfl
      · rintro (is | ⟨_, _, is, _⟩)
        · cases is
          rfl
        · cases is

theorem lift_ok {x : Except ε α} {a : α} : (lift x : Work ε σ α) s = (.ok a, s') ↔ x = .ok a ∧ s' = s := by
  constructor
  · intro is
    cases is
    exact ⟨rfl, rfl⟩
  · rintro ⟨rfl, rfl⟩
    rfl

/-- However work ends, its state is then so related to the one it began with. -/
def Moves (R : σ → σ → Prop) (x : Work ε σ α) : Prop := ∀ s, R s (x s).2

namespace Moves

variable {R : σ → σ → Prop} {x : Work ε σ α} {f : α → Work ε σ β}

theorem pure (refl : ∀ s, R s s) (a : α) : Moves R (Pure.pure a : Work ε σ α) := refl

theorem fail (refl : ∀ s, R s s) (e : ε) : Moves R (Work.fail e : Work ε σ α) := refl

theorem lift (refl : ∀ s, R s s) (x : Except ε α) : Moves R (Work.lift x : Work ε σ α) := refl

/-- Work that may stop after its first part is related so, then, by that part alone. -/
theorem seq {R₁ R₂ : σ → σ → Prop} (stop : ∀ {a b}, R₁ a b → R a b) (trans : ∀ {a b c}, R₁ a b → R₂ b c → R a c)
    (first : Moves R₁ x) (rest : ∀ a, Moves R₂ (f a)) : Moves R (x >>= f) := by
  intro s
  have moved := first s
  change R s (match x s with | (.ok a, s') => f a s' | (.error e, s') => (.error e, s')).2
  match ran : x s with
  | (.ok a, s₁) =>
      rw [ran] at moved
      exact trans moved (rest a s₁)
  | (.error e, s₁) =>
      rw [ran] at moved
      exact stop moved

/-- One piece of work after another moves by both. -/
theorem bind (trans : ∀ {a b c}, R a b → R b c → R a c) (first : Moves R x) (rest : ∀ a, Moves R (f a)) :
    Moves R (x >>= f) :=
  seq id trans first rest

theorem mono {R' : σ → σ → Prop} (moves : Moves R x) (more : ∀ {a b}, R a b → R' a b) : Moves R' x :=
  fun s => more (moves s)

/-- What a run says of the state before and after it. -/
theorem of_run {r : Except ε α} (moves : Moves R x) (ran : x s = (r, s')) : R s s' := by
  have := moves s
  rwa [ran] at this

end Moves

/-- Work that does not fail so. -/
def Never (e : ε) (x : Work ε σ α) : Prop := ∀ s s', x s ≠ (.error e, s')

namespace Never

variable {e : ε} {x : Work ε σ α} {f : α → Work ε σ β}

theorem pure (a : α) : Never e (Pure.pure a : Work ε σ α) := fun _ _ is => nomatch is

theorem fail {e' : ε} (other : e' ≠ e) : Never e (Work.fail e' : Work ε σ α) := by
  intro s s' is
  cases is
  exact other rfl

theorem lift {x : Except ε α} (fine : x ≠ .error e) : Never e (Work.lift x : Work ε σ α) := by
  intro s s' is
  exact fine (congrArg Prod.fst is)

/-- An error that no part gives is not given. -/
theorem bind (first : Never e x) (rest : ∀ a, Never e (f a)) : Never e (x >>= f) := by
  intro s s' is
  rcases bind_error.mp is with is | ⟨a, s₁, -, is⟩
  · exact first s s' is
  · exact rest a s₁ s' is

end Never

end Work

end Khor
