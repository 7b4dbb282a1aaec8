/-
Module: Khor.Lib.Keeping
Purpose: Programs that share a system and have something of their own besides, which they still have after
  they have failed. What holds when they end, of what they return, of what they keep and of the system.
Trusted boundary: none
Main exports: Keeping, Keeping.reads, Keeping.sys, Keeping.attempt, Keeping.Holds
-/
import Khor.Lib.Script

namespace Khor

/-- A program that starts with something of its own, and ends with a result and with what it then has. -/
def Keeping (κ Call : Type) (Reply : Call → Type) (ε α : Type) :=
  κ → Script Call Reply ε (Except ε α × κ)

namespace Keeping

variable {κ Call : Type} {Reply : Call → Type} {ε α β : Type}

/-- Look at what is its own. -/
def reads (f : κ → Except ε α) : Keeping κ Call Reply ε α :=
  fun k => .ended (.ok (f k, k))

def fail (e : ε) : Keeping κ Call Reply ε α :=
  reads fun _ => .error e

/-- Have something else from now on. -/
def keep (k : κ) : Keeping κ Call Reply ε Unit :=
  fun _ => .ended (.ok (.ok (), k))

def sys (c : Call) : Keeping κ Call Reply ε (Reply c) :=
  fun k => .call c fun answer => .ended (.ok (answer, k))

/-- Run a program to its end and go on with its result, also when it failed. -/
def attempt (p : Keeping κ Call Reply ε α) (f : Except ε α → Keeping κ Call Reply ε β) :
    Keeping κ Call Reply ε β :=
  fun k => (p k).attempt fun
    | .ok (r, k') => f r k'
    | .error e => .ended (.error e)

def andThen (p : Keeping κ Call Reply ε α) (f : α → Keeping κ Call Reply ε β) :
    Keeping κ Call Reply ε β :=
  p.attempt fun
    | .ok a => f a
    | .error e => fail e

instance : Monad (Keeping κ Call Reply ε) where
  pure a := reads fun _ => .ok a
  bind := andThen

variable {f : κ → Except ε α} {g : α → Keeping κ Call Reply ε β} {k : κ}

theorem bind_reads_ok {a : α} (h : f k = .ok a) : (reads f >>= g) k = g a k := by
  change (andThen (reads f) g) k = g a k
  simp only [andThen, attempt, reads, Script.attempt, h]

theorem bind_reads_error {e : ε} (h : f k = .error e) : (reads f >>= g) k = .ended (.ok (.error e, k)) := by
  change (andThen (reads f) g) k = _
  simp only [andThen, attempt, reads, fail, Script.attempt, h]

theorem map_ended {p : Keeping κ Call Reply ε α} {f : α → β} {r : Except ε α} {k' : κ}
    (h : p k = .ended (.ok (r, k'))) : (f <$> p) k = .ended (.ok (r.map f, k')) := by
  change (andThen p (pure ∘ f)) k = _
  simp only [andThen, attempt, h, Script.attempt]
  cases r <;> rfl

section Holds

variable {σ : Type}

/-- From what it has and a state, a program keeps to the terms, and it ends only where `post` holds of
its result, of what it has and of the state. -/
def Holds (τ : Terms Call Reply ε σ) (p : Keeping κ Call Reply ε α)
    (post : Except ε α → κ → σ → Prop) (k : κ) (s : σ) : Prop :=
  (p k).Holds τ (fun r t => ∃ a k', r = .ok (a, k') ∧ post a k' t) s

variable {τ : Terms Call Reply ε σ} {p : Keeping κ Call Reply ε α}
  {post post' : Except ε α → κ → σ → Prop} {s : σ}

theorem Holds.mono (h : p.Holds τ post k s) (weaker : ∀ r k' t, τ.rest t → post r k' t → post' r k' t) :
    p.Holds τ post' k s := by
  refine Script.Holds.mono h fun r t rest now => ?_
  obtain ⟨a, k', same, now⟩ := now
  exact ⟨a, k', same, weaker a k' t rest now⟩

theorem holds_reads : (reads f : Keeping κ Call Reply ε α).Holds τ post k s ↔
    τ.rest s ∧ post (f k) k s := by
  constructor
  · rintro ⟨rest, a, k', same, now⟩
    cases same
    exact ⟨rest, now⟩
  · rintro ⟨rest, now⟩
    exact ⟨rest, f k, k, rfl, now⟩

theorem holds_pure {a : α} : (pure a : Keeping κ Call Reply ε α).Holds τ post k s ↔
    τ.rest s ∧ post (.ok a) k s :=
  holds_reads

theorem holds_fail {e : ε} : (fail e : Keeping κ Call Reply ε α).Holds τ post k s ↔
    τ.rest s ∧ post (.error e) k s :=
  holds_reads

theorem holds_sys {c : Call} {post : Except ε (Reply c) → κ → σ → Prop} :
    (sys c : Keeping κ Call Reply ε (Reply c)).Holds τ post k s ↔
      τ.rest s ∧ ∀ s' answer t, τ.others s s' → τ.does c s' answer t →
        τ.own s' t ∧ τ.rest t ∧ post answer k t := by
  constructor
  · rintro ⟨rest, each⟩
    refine ⟨rest, fun s' answer t other does => ?_⟩
    obtain ⟨own, now, a, k', same, post⟩ := each s' answer t other does
    cases same
    exact ⟨own, now, post⟩
  · rintro ⟨rest, each⟩
    refine ⟨rest, fun s' answer t other does => ?_⟩
    obtain ⟨own, now, post⟩ := each s' answer t other does
    exact ⟨own, now, answer, k, rfl, post⟩

theorem Holds.attempt {next : Except ε α → Keeping κ Call Reply ε β} {post : Except ε β → κ → σ → Prop}
    (h : p.Holds τ (fun r k' t => (next r).Holds τ post k' t) k s) : (p.attempt next).Holds τ post k s := by
  refine Script.Holds.attempt (Script.Holds.mono h fun r t rest now => ?_)
  obtain ⟨a, k', same, now⟩ := now
  cases same
  exact now

theorem Holds.bind {Q : Except ε α → κ → σ → Prop} {post : Except ε β → κ → σ → Prop} (h : p.Holds τ Q k s)
    (ok : ∀ a k' t, τ.rest t → Q (.ok a) k' t → (g a).Holds τ post k' t)
    (error : ∀ e k' t, τ.rest t → Q (.error e) k' t → post (.error e) k' t) : (p >>= g).Holds τ post k s := by
  refine Holds.attempt (h.mono fun r k' t rest now => ?_)
  cases r with
  | ok a => exact ok a k' t rest now
  | error e => exact holds_fail.mpr ⟨rest, error e k' t rest now⟩

theorem Holds.map {f : α → β} {post : Except ε β → κ → σ → Prop}
    (h : p.Holds τ (fun r k' t => post (r.map f) k' t) k s) : (f <$> p).Holds τ post k s :=
  Holds.bind (g := pure ∘ f) h (fun _ _ _ rest now => holds_pure.mpr ⟨rest, now⟩) fun _ _ _ _ now => now

/-- Going on from a look at what it has. -/
theorem Holds.reads {post : Except ε β → κ → σ → Prop} (rest : τ.rest s)
    (ok : ∀ a, f k = .ok a → (g a).Holds τ post k s) (error : ∀ e, f k = .error e → post (.error e) k s) :
    (Keeping.reads f >>= g).Holds τ post k s := by
  cases looked : f k with
  | ok a =>
      have from_ := ok a looked
      simp only [Holds, bind_reads_ok looked] at from_ ⊢
      exact from_
  | error e =>
      simp only [Holds, bind_reads_error looked]
      exact ⟨rest, .error e, k, rfl, error e looked⟩

/-- Going on from a call. -/
theorem Holds.calls {c : Call} {g : Reply c → Keeping κ Call Reply ε β} {post : Except ε β → κ → σ → Prop}
    (rest : τ.rest s) (each : ∀ s' answer t, τ.others s s' → τ.does c s' answer t → τ.own s' t ∧ τ.rest t ∧
      match answer with
      | .ok a => (g a).Holds τ post k t
      | .error e => post (.error e) k t) : (sys c >>= g).Holds τ post k s := by
  refine Holds.bind (Q := fun r k' t => match r with
    | .ok a => (g a).Holds τ post k' t
    | .error e => post (.error e) k' t) (holds_sys.mpr ⟨rest, fun s' answer t other does => ?_⟩)
    (fun _ _ _ _ now => now) fun _ _ _ _ now => now
  exact each s' answer t other does

end Holds

end Keeping

end Khor
