/-
Module: Khor.Lib.Script
Purpose: Programs that work by calls to a shared system, each call answered or refused, and that can be
  stopped between any two calls while others work on the same system. What holds after them, what holds
  wherever they are stopped, and what each of their calls may change.
Trusted boundary: none
Main exports: Script, Terms, Holds.foldlM, Script.Ends, Holds.ends
-/
import Mathlib

namespace Khor

/-- A program has ended with a result, or it makes a call and goes on with the answer. -/
inductive Script (Call : Type) (Reply : Call → Type) (ε α : Type) where
  | ended (result : Except ε α)
  | call (c : Call) (next : Except ε (Reply c) → Script Call Reply ε α)

namespace Script

variable {Call : Type} {Reply : Call → Type} {ε ε' α β γ : Type}

/-- Run a program to its end and go on with its result, also when it failed. -/
def attempt : Script Call Reply ε α → (Except ε α → Script Call Reply ε β) → Script Call Reply ε β
  | .ended result, f => f result
  | .call c next, f => .call c fun answer => (next answer).attempt f

/-- Go on with the value a program returns; a failure ends the whole. -/
def andThen (p : Script Call Reply ε α) (f : α → Script Call Reply ε β) : Script Call Reply ε β :=
  p.attempt fun
    | .ok a => f a
    | .error e => .ended (.error e)

instance : Monad (Script Call Reply ε) where
  pure a := .ended (.ok a)
  bind := andThen

/-- One call. -/
def sys (c : Call) : Script Call Reply ε (Reply c) :=
  .call c .ended

def fail (e : ε) : Script Call Reply ε α :=
  .ended (.error e)

/-- Go on only where a condition holds. -/
def require (condition : Bool) (e : ε) : Script Call Reply ε Unit :=
  if condition then .ended (.ok ()) else fail e

/-- Every call the program can come to make, whatever it is answered, is of one kind. -/
def Calls (kind : Call → Prop) : Script Call Reply ε α → Prop
  | .ended _ => True
  | .call c next => kind c ∧ ∀ answer, (next answer).Calls kind

section Calls

variable {kind kind' : Call → Prop}

@[simp] theorem calls_sys (c : Call) : (sys c : Script Call Reply ε _).Calls kind ↔ kind c :=
  ⟨fun h => h.1, fun h => ⟨h, fun _ => trivial⟩⟩

@[simp] theorem calls_require (b : Bool) (e : ε) : (require b e : Script Call Reply ε Unit).Calls kind := by
  cases b <;> trivial

theorem Calls.mono {p : Script Call Reply ε α} (h : p.Calls kind)
    (weaker : ∀ c, kind c → kind' c) : p.Calls kind' := by
  induction p with
  | ended r => trivial
  | call c next ih => exact ⟨weaker c h.1, fun answer => ih answer (h.2 answer)⟩

theorem Calls.attempt {p : Script Call Reply ε α} {f : Except ε α → Script Call Reply ε β}
    (h : p.Calls kind) (after : ∀ r, (f r).Calls kind) : (p.attempt f).Calls kind := by
  induction p with
  | ended r => exact after r
  | call c next ih => exact ⟨h.1, fun answer => ih answer (h.2 answer)⟩

theorem Calls.bind {p : Script Call Reply ε α} {f : α → Script Call Reply ε β}
    (h : p.Calls kind) (after : ∀ a, (f a).Calls kind) : (p >>= f).Calls kind := by
  refine h.attempt fun r => ?_
  cases r with
  | ok a => exact after a
  | error e => trivial

theorem Calls.forM {f : γ → Script Call Reply ε PUnit} {l : List γ}
    (each : ∀ x ∈ l, (f x).Calls kind) : (l.forM f).Calls kind := by
  induction l with
  | nil => trivial
  | cons x l ih =>
      change (f x >>= fun _ => l.forM f).Calls kind
      exact (each x (.head _)).bind
        fun _ => ih fun y mem => each y (.tail x mem)

end Calls

end Script

/-- The terms on which programs share a system: what a call makes of the system, what others may do to
it between two calls, what a call of the program may do to it, and what holds whenever the program is
stopped. -/
structure Terms (Call : Type) (Reply : Call → Type) (ε σ : Type) where
  does : (c : Call) → σ → Except ε (Reply c) → σ → Prop
  others : σ → σ → Prop
  own : σ → σ → Prop
  rest : σ → Prop
  refl : ∀ s, others s s
  trans : ∀ {s t u}, others s t → others t u → others s u
  keeps : ∀ {s t}, others s t → rest s → rest t

namespace Script

variable {Call : Type} {Reply : Call → Type} {ε α β γ σ : Type}

/-- From a state a program keeps to the terms, and it ends only where `post` holds of its result and of
the state. -/
def Holds (τ : Terms Call Reply ε σ) :
    Script Call Reply ε α → (Except ε α → σ → Prop) → σ → Prop
  | .ended result, post, s => τ.rest s ∧ post result s
  | .call c next, post, s =>
      τ.rest s ∧ ∀ s' answer t, τ.others s s' → τ.does c s' answer t →
        τ.own s' t ∧ (next answer).Holds τ post t

variable {τ : Terms Call Reply ε σ} {p : Script Call Reply ε α}
  {post post' : Except ε α → σ → Prop} {s : σ}

variable {r : Except ε α}

@[simp] theorem holds_ended : (ended r : Script Call Reply ε α).Holds τ post s ↔ τ.rest s ∧ post r s :=
  Iff.rfl

@[simp] theorem holds_fail {e : ε} :
    (fail e : Script Call Reply ε α).Holds τ post s ↔ τ.rest s ∧ post (.error e) s :=
  Iff.rfl

theorem holds_sys {c : Call} {post : Except ε (Reply c) → σ → Prop} :
    (sys c).Holds τ post s ↔
      τ.rest s ∧ ∀ s' answer t, τ.others s s' → τ.does c s' answer t →
        τ.own s' t ∧ τ.rest t ∧ post answer t :=
  Iff.rfl

/-- Wherever the program is stopped, also before it starts. -/
theorem Holds.rest (h : p.Holds τ post s) : τ.rest s := by
  cases p with
  | ended | call => exact h.1

theorem Holds.mono (h : p.Holds τ post s) (weaker : ∀ r t, τ.rest t → post r t → post' r t) :
    p.Holds τ post' s := by
  induction p generalizing s with
  | ended r => exact ⟨h.1, weaker r s h.1 h.2⟩
  | call c next ih =>
      refine ⟨h.1, fun s' answer t other does => ?_⟩
      obtain ⟨own, after⟩ := h.2 s' answer t other does
      exact ⟨own, ih answer after⟩

theorem Holds.and (h : p.Holds τ post s) (h' : p.Holds τ post' s) :
    p.Holds τ (fun r t => post r t ∧ post' r t) s := by
  induction p generalizing s with
  | ended r => exact ⟨h.1, h.2, h'.2⟩
  | call c next ih =>
      refine ⟨h.1, fun s' answer t other does => ?_⟩
      obtain ⟨own, after⟩ := h.2 s' answer t other does
      exact ⟨own, ih answer after (h'.2 s' answer t other does).2⟩

/-- What others do before the next call changes nothing, where what is asked of the end is theirs to
keep. -/
theorem Holds.others (h : p.Holds τ post s) (stable : ∀ r {t u}, τ.others t u → post r t → post r u) {s' : σ}
    (other : τ.others s s') : p.Holds τ post s' := by
  cases p with
  | ended r => exact ⟨τ.keeps other h.1, stable r other h.2⟩
  | call c next =>
      exact ⟨τ.keeps other h.1, fun u answer t more does =>
        h.2 u answer t (τ.trans other more) does⟩

theorem Holds.attempt {f : Except ε α → Script Call Reply ε β} {post : Except ε β → σ → Prop}
    (h : p.Holds τ (fun r t => (f r).Holds τ post t) s) : (p.attempt f).Holds τ post s := by
  induction p generalizing s with
  | ended r => exact h.2
  | call c next ih =>
      refine ⟨h.1, fun s' answer t other does => ?_⟩
      obtain ⟨own, after⟩ := h.2 s' answer t other does
      exact ⟨own, ih answer after⟩

theorem Holds.bind {Q : Except ε α → σ → Prop} {f : α → Script Call Reply ε β} {post : Except ε β → σ → Prop}
    (h : p.Holds τ Q s) (ok : ∀ a t, τ.rest t → Q (.ok a) t → (f a).Holds τ post t)
    (error : ∀ e t, τ.rest t → Q (.error e) t → post (.error e) t) : (p >>= f).Holds τ post s := by
  refine Holds.attempt (h.mono fun r t rest now => ?_)
  cases r with
  | ok a => exact ok a t rest now
  | error e => exact ⟨rest, error e t rest now⟩

/-- Go on after a program that cannot fail. -/
theorem Holds.proceed {Q : α → σ → Prop} {f : α → Script Call Reply ε β}
    {post : Except ε β → σ → Prop} (h : p.Holds τ (fun r t => ∃ a, r = .ok a ∧ Q a t) s)
    (next : ∀ a t, τ.rest t → Q a t → (f a).Holds τ post t) : (p >>= f).Holds τ post s := by
  refine Holds.bind h (fun a t rest now => ?_) fun e t _ now => ?_
  · obtain ⟨b, same, now⟩ := now
    cases same
    exact next a t rest now
  · obtain ⟨b, same, _⟩ := now
    cases same

theorem holds_require {b : Bool} {e : ε} {post : Except ε Unit → σ → Prop} :
    (require b e).Holds τ post s ↔
      τ.rest s ∧ (b = true → post (.ok ()) s) ∧ (b = false → post (.error e) s) := by
  cases b <;> simp [require]

/-- A program all of whose calls keep an invariant keeps it. -/
theorem Holds.of_calls {kind : Call → Prop} {I : σ → Prop}
    (within : ∀ {s}, I s → τ.rest s) (stable : ∀ {s t}, τ.others s t → I s → I t)
    (safe : ∀ {c s answer t}, kind c → I s → τ.does c s answer t → τ.own s t ∧ I t)
    (calls : p.Calls kind) (h : I s) : p.Holds τ (fun _ t => I t) s := by
  induction p generalizing s with
  | ended r => exact ⟨within h, h⟩
  | call c next ih =>
      refine ⟨within h, fun s' answer t other does => ?_⟩
      obtain ⟨own, still⟩ := safe calls.1 (stable other h) does
      exact ⟨own, ih answer (calls.2 answer) still⟩

/-- A loop: what holds of the elements still to come is carried from one turn to the next. -/
theorem Holds.foldlM {f : β → γ → Script Call Reply ε β} {I : List γ → β → σ → Prop}
    {post : Except ε β → σ → Prop} (turn : ∀ x l b s, τ.rest s → I (x :: l) b s →
      (f b x).Holds τ (fun r t => match r with
        | .ok b' => I l b' t
        | .error e => post (.error e) t) s) (done : ∀ b s, τ.rest s → I [] b s → post (.ok b) s) :
    ∀ {l : List γ} {b : β} {s : σ}, τ.rest s → I l b s → (l.foldlM f b).Holds τ post s := by
  intro l
  induction l with
  | nil => exact fun rest h => ⟨rest, done _ _ rest h⟩
  | cons x l ih =>
      intro b s rest h
      rw [List.foldlM_cons]
      exact (turn x l b s rest h).bind (fun a t rest' now => ih rest' now)
        (fun e t _ now => now)

theorem Holds.forM {f : γ → Script Call Reply ε PUnit} {I : List γ → σ → Prop}
    {post : Except ε PUnit → σ → Prop} (turn : ∀ x l s, τ.rest s → I (x :: l) s →
      (f x).Holds τ (fun r t => match r with
        | .ok _ => I l t
        | .error e => post (.error e) t) s) (done : ∀ s, τ.rest s → I [] s → post (.ok ⟨⟩) s) :
    ∀ {l : List γ} {s : σ}, τ.rest s → I l s → (l.forM f).Holds τ post s := by
  intro l
  induction l with
  | nil => exact fun rest h => ⟨rest, done _ rest h⟩
  | cons x l ih =>
      intro s rest h
      change (f x >>= fun _ => l.forM f).Holds τ post s
      exact (turn x l s rest h).bind (fun _ t rest' now => ih rest' now) (fun e t _ now => now)

/-- The program is left to run to its end. -/
inductive Ends (does : (c : Call) → σ → Except ε (Reply c) → σ → Prop) (others : σ → σ → Prop) :
    Script Call Reply ε α → σ → Except ε α → σ → Prop where
  | ended (r : Except ε α) (s : σ) : Ends does others (.ended r) s r s
  | call {c : Call} {next : Except ε (Reply c) → Script Call Reply ε α} {s s' t u : σ}
      {answer : Except ε (Reply c)} {r : Except ε α} (other : others s s')
      (now : does c s' answer t) (after : Ends does others (next answer) t r u) :
      Ends does others (.call c next) s r u

theorem Holds.ends {t : σ} (run : p.Ends τ.does τ.others s r t) (h : p.Holds τ post s) : post r t := by
  induction run with
  | ended r s => exact h.2
  | call other now _ ih => exact ih (h.2 _ _ _ other now).2

/-- Along a run of a program that keeps to the terms, they hold before and after each call. -/
theorem Holds.ends_within {does : (c : Call) → σ → Except ε (Reply c) → σ → Prop} {t : σ}
    (sub : ∀ {c s a t}, does c s a t → τ.does c s a t) (run : p.Ends does τ.others s r t) (h : p.Holds τ post s) :
    p.Ends (fun c s a t => does c s a t ∧ τ.rest s ∧ τ.rest t) τ.others s r t := by
  induction run with
  | ended r s => exact .ended r s
  | call other now _ ih =>
      have after := (h.2 _ _ _ other (sub now)).2
      exact .call other ⟨now, τ.keeps other h.1, after.rest⟩ (ih after)

end Script

end Khor
