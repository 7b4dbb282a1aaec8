/-
Module: Khor.Live.Moves
Purpose: What one stored document may make of the one before it, and what every further document keeps of
  an attempt while it is the latest and of the high-water mark.
Trusted boundary: none
Main exports: Phase.rank, Latest.Advances, Follows, Moves, Moves.follows
-/
import Khor.Live.Operations

namespace Khor.Live

open Khor.Node.Journal (Identity)

/-- A bind succeeds just where both steps do. -/
theorem bind_ok {α β : Type} {m : Except String α} {f : α → Except String β} {b : β} :
    (m >>= f) = .ok b ↔ ∃ a, m = .ok a ∧ f a = .ok b := by
  constructor
  · intro h
    cases m with
    | error e => cases h
    | ok a => exact ⟨a, rfl, h⟩
  · rintro ⟨a, rfl, h⟩
    exact h

@[simp] theorem failWhen_ok {bad : Prop} [Decidable bad] {why : String} {u : Unit} :
    failWhen bad why = .ok u ↔ ¬bad := by
  unfold failWhen
  split <;> simp [*]

/-- A check that is passed leaves the rest. -/
theorem bind_failWhen {α : Type} {bad : Prop} [Decidable bad] {why : String} {f : Unit → Except String α}
    {a : α} : (failWhen bad why >>= f) = .ok a ↔ ¬bad ∧ f () = .ok a := by
  rw [bind_ok]
  constructor
  · rintro ⟨⟨⟩, ok, h⟩
    exact ⟨failWhen_ok.mp ok, h⟩
  · rintro ⟨ok, h⟩
    exact ⟨(), failWhen_ok.mpr ok, h⟩

/-! ### Documents that may be stored -/

section Valid

variable {x : Externals} {d : Document} {v : Latest}

section

variable (valid : d.validate x = .ok ())
include valid

/-- What `validate` asks of the action and of the attempt. -/
theorem validate_parts : whenSome d.action (d.checkAction x) = .ok () ∧ d.checkLatest x = .ok () := by
  obtain ⟨_, _, valid⟩ := bind_ok.mp valid
  obtain ⟨_, valid⟩ := bind_failWhen.mp valid
  obtain ⟨_, action, latest⟩ := bind_ok.mp valid
  exact ⟨action, latest⟩

/-- The last action has the highest epoch. -/
theorem action_high {action : LatestAction} (is : d.action = some action) :
    d.highWater = action.token.epoch ∧
      ∀ v, d.latest = some v → v.token.epoch < action.token.epoch := by
  obtain ⟨parts, _⟩ := validate_parts valid
  rw [is] at parts
  obtain ⟨_, _, parts⟩ := bind_ok.mp parts
  obtain ⟨high, _⟩ := bind_failWhen.mp parts
  push Not at high
  exact ⟨high.1, fun v there => UInt64.not_le.mp (high.2 v there).1⟩

/-- A valid document's attempt is valid, and the last token where there is no action. -/
theorem latest_checks (is : d.latest = some v) :
    (d.action = none → d.highWater = v.token.epoch) ∧ v.validate x = .ok () := by
  obtain ⟨_, parts⟩ := validate_parts valid
  rw [Document.checkLatest, is] at parts
  obtain ⟨_, parts⟩ := bind_failWhen.mp parts
  obtain ⟨high, parts⟩ := bind_failWhen.mp parts
  exact ⟨fun none => by_contra fun other => high ⟨none, other⟩, parts⟩

/-- The mark stands at the latest of what was accepted. -/
theorem latest_le_high (is : d.latest = some v) : v.token.epoch ≤ d.highWater := by
  cases action : d.action with
  | none =>
      rw [(latest_checks valid is).1 action]
      exact UInt64.le_refl _
  | some a =>
      obtain ⟨high, below⟩ := action_high valid action
      rw [high]
      exact UInt64.le_of_lt (below v is)

/-- Beside an action an attempt is settled. -/
theorem latest_settled (is : d.latest = some v) : v.settled = true := by
  have parts := (latest_checks valid is).2
  obtain ⟨_, _, parts⟩ := bind_ok.mp parts
  obtain ⟨_, _, parts⟩ := bind_ok.mp parts
  obtain ⟨_, _, parts⟩ := bind_ok.mp parts
  obtain ⟨_, _, parts⟩ := bind_ok.mp parts
  simpa using parts

/-- Only what is published or refused has a result. -/
theorem result_none (is : d.latest = some v)
    (published : v.phase ≠ .runPublished) (refused : v.phase ≠ .refused) : v.result = none := by
  have settled := latest_settled valid is
  cases result : v.result with
  | none => rfl
  | some r =>
      rw [Latest.settled, result] at settled
      cases phase : v.phase <;> simp [phase] at settled published refused

end

end Valid

/-! ### What further documents keep -/

/-- How far an attempt has come. -/
def Phase.rank : Phase → Nat
  | .reserved => 0
  | .starting => 1
  | .publishingBase => 2
  | .basePublished => 3
  | .publishingRun => 4
  | .runPublished => 5
  | .refused => 6

theorem Phase.rank_le (p : Phase) : p.rank ≤ Phase.refused.rank := by
  cases p <;> decide

/-- The same attempt, no less far, with the result it had. -/
structure Latest.Advances (v v' : Latest) : Prop where
  key : v'.key = v.key
  rank : v.phase.rank ≤ v'.phase.rank
  result : ∀ r, v.result = some r → v'.result = some r

theorem Latest.Advances.refl (v : Latest) : v.Advances v := ⟨rfl, Nat.le_refl _, fun _ h => h⟩

theorem Latest.Advances.trans {v v' v'' : Latest} (h : v.Advances v') (h' : v'.Advances v'') : v.Advances v'' :=
  ⟨h'.key.trans h.key, Nat.le_trans h.rank h'.rank, fun r is => h'.result r (h.result r is)⟩

theorem key_token {v v' : Latest} (h : v'.key = v.key) : v'.token = v.token :=
  congrArg AttemptKey.token h

/-- The highest epoch that a document, if there is one, gave out. -/
def highWaterOf (d : Option Document) : UInt64 := (d.map (·.highWater)).getD 0

def latestOf (d : Option Document) : Option Latest := d.bind (·.latest)

def actionOf (d : Option Document) : Option LatestAction := d.bind (·.action)

/-- The action waits for what comes of it. -/
def ActionResult.pending : ActionResult → Bool
  | .joinPending | .shellPending => true
  | _ => false

/-- A later document: the mark is no lower; the attempt has advanced or another was accepted above the
mark; what has come of an action stays until another is accepted. -/
structure Follows (d d' : Option Document) : Prop where
  high : highWaterOf d ≤ highWaterOf d'
  latest : ∀ v, latestOf d = some v →
    ∃ v', latestOf d' = some v' ∧ (v.Advances v' ∨ highWaterOf d < v'.token.epoch)
  action : ∀ a, actionOf d = some a → a.result.pending = false →
    actionOf d' = some a ∨ highWaterOf d < highWaterOf d'

theorem Follows.refl (d : Option Document) : Follows d d :=
  ⟨UInt64.le_refl _, fun v is => ⟨v, is, .inl (.refl v)⟩, fun _ is _ => .inl is⟩

/-- Documents that follow on each other. -/
theorem Follows.trans {d d' d'' : Option Document} (h : Follows d d') (h' : Follows d' d'') :
    Follows d d'' := by
  refine ⟨UInt64.le_trans h.high h'.high, fun v is => ?_, fun a is closed => ?_⟩
  · obtain ⟨v', is', first⟩ := h.latest v is
    obtain ⟨v'', is'', second⟩ := h'.latest v' is'
    refine ⟨v'', is'', ?_⟩
    rcases first, second with ⟨same | above, same' | above'⟩
    · exact .inl (same.trans same')
    · exact .inr (UInt64.lt_of_le_of_lt h.high above')
    · refine .inr ?_
      rw [key_token same'.key]
      exact above
    · exact .inr (UInt64.lt_of_le_of_lt h.high above')
  · rcases h.action a is closed with stays | above
    · rcases h'.action a stays closed with stays | above
      · exact .inl stays
      · exact .inr (UInt64.lt_of_le_of_lt h.high above)
    · exact .inr (UInt64.lt_of_lt_of_le above h'.high)

/-- The attempt of a key has come at least so far, or another is accepted above it. -/
def Past (d : Option Document) (rank : Nat) (key : AttemptKey) : Prop :=
  ∃ v, latestOf d = some v ∧ key.token.epoch ≤ v.token.epoch ∧
    (key.token.epoch = v.token.epoch → key = v.key ∧ rank ≤ v.phase.rank)

/-- What an attempt is past stays past. -/
theorem Past.follows {x : Externals} {d d' : Option Document} {rank : Nat} {key : AttemptKey}
    (past : Past d rank key) (valid : ∀ e, d = some e → e.validate x = .ok ()) (h : Follows d d') :
    Past d' rank key := by
  obtain ⟨v, is, le, same⟩ := past
  obtain ⟨v', is', advances | above⟩ := h.latest v is
  · refine ⟨v', is', ?_, ?_⟩
    · rw [key_token advances.key]
      exact le
    · intro epoch
      rw [key_token advances.key] at epoch
      obtain ⟨key, rank⟩ := same epoch
      exact ⟨key.trans advances.key.symm, Nat.le_trans rank advances.rank⟩
  · have below : v.token.epoch ≤ highWaterOf d := by
      obtain ⟨e, there, is⟩ := Option.bind_eq_some_iff.mp is
      rw [there]
      exact latest_le_high (valid e there) is
    have lt : key.token.epoch < v'.token.epoch :=
      UInt64.lt_of_le_of_lt (UInt64.le_trans le below) above
    exact ⟨v', is', UInt64.le_of_lt lt, fun epoch => absurd epoch (UInt64.ne_of_lt lt)⟩

/-! ### What one store may do -/

theorem checkedSucc_lt {n m : UInt64} (h : checkedSucc n = some m) : n < m := by
  unfold checkedSucc at h
  split at h
  · cases h
    rw [UInt64.lt_iff_toNat_lt, UInt64.toNat_add]
    simp only [UInt64.reduceToNat]
    omega
  · cases h

/-- A join is of the conversation of the attempt. -/
def ActionArguments.Joins (arguments : ActionArguments) (d : Option Document) : Prop :=
  ∀ joined v, arguments = .native joined → latestOf d = some v →
    v.arguments.native = joined.native

/-- The action is of the conversation of the attempt. -/
def Aligned (d : Option Document) : Prop := ∀ a, actionOf d = some a → a.arguments.Joins d

/-- What a holder may store in the place of what it has loaded. -/
inductive Moves : Option Document → Document → Prop where
  | seeded {d : Document} (first : d.highWater = 1) (alone : d.action = none) : Moves none d
  | accepted {loaded : Option Document} {token : Token} {arguments : ActionArguments}
      {result : ActionResult} (next : checkedSucc (highWaterOf loaded) = some token.epoch)
      (joins : arguments.Joins loaded) :
      Moves loaded (Held.accepted ⟨loaded, false⟩ token arguments result)
  | answered {d : Document} {action : LatestAction} (result : ActionResult) (is : d.action = some action)
      (waits : action.result.pending = true) :
      Moves (some d) { d with action := some { action with result := result } }
  | quarantined {loaded : Option Document} (native : Identity) :
      Moves loaded { loaded.getD .empty with cleanupBarrier := some native }
  | reserved {loaded : Option Document} {token : Token} {arguments : Arguments} {runId : String}
      (next : checkedSucc (highWaterOf loaded) = some token.epoch) :
      Moves loaded (reservedDocument token arguments runId)
  | changed {d : Document} {v v' : Latest} (is : d.latest = some v) (advances : v.Advances v') :
      Moves (some d) { d with latest := some v' }

theorem highWaterOf_empty (loaded : Option Document) : (loaded.getD .empty).highWater = highWaterOf loaded := by
  cases loaded <;> rfl

theorem latestOf_empty (loaded : Option Document) : (loaded.getD .empty).latest = latestOf loaded := by
  cases loaded <;> rfl

theorem actionOf_empty (loaded : Option Document) : (loaded.getD .empty).action = actionOf loaded := by
  cases loaded <;> rfl

/-- A write follows on what was loaded. -/
theorem Moves.follows {loaded : Option Document} {d : Document} (moves : Moves loaded d) :
    Follows loaded (some d) := by
  cases moves with
  | seeded first alone =>
      refine ⟨?_, fun v is => ?_, fun a is => ?_⟩
      · change 0 ≤ d.highWater
        rw [first]
        decide
      · cases is
      · cases is
  | accepted next joins =>
      refine ⟨UInt64.le_of_lt (checkedSucc_lt next), fun v is => ⟨v, ?_, .inl (.refl v)⟩, fun _ _ _ => .inr ?_⟩
      · exact (latestOf_empty loaded).trans is
      · exact checkedSucc_lt next
  | answered result is waits =>
      refine ⟨UInt64.le_refl _, fun v is => ⟨v, is, .inl (.refl v)⟩, fun a is' closed => ?_⟩
      obtain rfl : _ = a := Option.some.inj (is.symm.trans is')
      rw [waits] at closed
      cases closed
  | quarantined native =>
      refine ⟨?_, fun v is => ⟨v, (latestOf_empty loaded).trans is, .inl (.refl v)⟩, fun _ is _ => .inl ?_⟩
      · change _ ≤ (loaded.getD .empty).highWater
        rw [highWaterOf_empty]
        exact UInt64.le_refl _
      · exact (actionOf_empty loaded).trans is
  | reserved next =>
      refine ⟨UInt64.le_of_lt (checkedSucc_lt next), fun v is => ⟨_, rfl, .inr ?_⟩, fun _ _ _ => .inr ?_⟩
      · exact checkedSucc_lt next
      · exact checkedSucc_lt next
  | changed is advances =>
      refine ⟨UInt64.le_refl _, fun v is' => ?_, fun _ is _ => .inl is⟩
      obtain rfl : _ = v := Option.some.inj (is.symm.trans is')
      exact ⟨_, rfl, .inl advances⟩

/-- And keeps the row aligned. -/
theorem Moves.aligned {loaded : Option Document} {d : Document} (moves : Moves loaded d)
    (aligned : Aligned loaded) : Aligned (some d) := by
  intro a is
  cases moves with
  | seeded first alone =>
      rw [show actionOf (some d) = d.action from rfl, alone] at is
      cases is
  | accepted next joins =>
      cases is
      exact fun joined v same latest => joins joined v same ((latestOf_empty loaded).symm.trans latest)
  | @answered e action result there waits =>
      cases is
      have joins := aligned action there
      exact joins
  | quarantined native =>
      intro joined v same latest
      exact aligned a ((actionOf_empty loaded).symm.trans is) joined v same
        ((latestOf_empty loaded).symm.trans latest)
  | reserved next => cases is
  | @changed e v v' there advances =>
      intro joined u same latest
      cases latest
      have arguments : v'.arguments = v.arguments := congrArg AttemptKey.arguments advances.key
      rw [arguments]
      exact aligned a is joined v same there

end Khor.Live
