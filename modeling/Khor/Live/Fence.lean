/-
Module: Khor.Live.Fence
Purpose: Every operation of a holder of the row's gate stores only what may follow what is stored, wherever
  it is stopped, and enters a publishing callback of a key only once.
Trusted boundary: a written document is stored whole or not at all
Main exports: Row, Row.Sound, Does, terms, Held.Faithful
-/
import Khor.Live.Moves

namespace Khor.Live

open Khor.Node.Journal (Identity)
open Keeping (reads)

/-- The stored document, and the keys whose publishing callbacks have been entered. -/
structure Row where
  stored : Option Document
  bases : List AttemptKey
  runs : List AttemptKey

/-- What a call makes of the row, whatever else it does. A write that fails may have been stored. -/
def Does : (c : Call) → Row → Except String (Reply c) → Row → Prop
  | .write d, r, answer, r' =>
      r' = { r with stored := some d } ∨ (r' = r ∧ answer.toBool = false)
  | .publishBase key, r, _, r' => r' = { r with bases := r.bases ++ [key] }
  | .publishRun key, r, _, r' => r' = { r with runs := r.runs ++ [key] }
  | _, r, _, r' => r' = r

/-- The document is admissible, and a callback that has been entered is behind its attempt. -/
structure Row.Sound (x : Externals) (r : Row) : Prop where
  valid : ∀ d, r.stored = some d → d.validate x = .ok ()
  aligned : Aligned r.stored
  bases : r.bases.Nodup
  based : ∀ key ∈ r.bases, Past r.stored Phase.publishingBase.rank key
  runs : r.runs.Nodup
  ran : ∀ key ∈ r.runs, Past r.stored Phase.publishingRun.rank key

/-- The gate's holder is alone, and each of its calls leaves what may follow. -/
def terms (x : Externals) : Terms Call Reply String Row where
  does := Does
  others := Eq
  own := fun r r' => Follows r.stored r'.stored
  rest := Row.Sound x
  refl := fun _ => rfl
  trans := Eq.trans
  keeps := fun same sound => same ▸ sound

/-- What the holder has loaded is what is stored, unless a store has failed. -/
def Held.Faithful (h : Held) (r : Row) : Prop := h.failed = false → h.document = r.stored

variable {x : Encoding} {h : Held} {r : Row} {key : AttemptKey}

variable {d : Document} {u : Unit} {update : Latest → Except String Latest} {α : Type}
  {post : Except String α → Held → Row → Prop} {pid : UInt32} {v : Latest} {actualPid : Option UInt32}
  {receipt : Option ProcessExit} {phase : Phase} {arguments : Arguments} {token : Token} {result : ActionResult}
  {legacy : Legacy}

theorem Row.Sound.stored (sound : r.Sound x.toExternals) (valid : d.validate x.toExternals = .ok ())
    (moves : Moves r.stored d) : Row.Sound x.toExternals { r with stored := some d } where
  valid := fun _ is => Option.some.inj is ▸ valid
  aligned := moves.aligned sound.aligned
  bases := sound.bases
  based := fun key mem => (sound.based key mem).follows sound.valid moves.follows
  runs := sound.runs
  ran := fun key mem => (sound.ran key mem).follows sound.valid moves.follows

/-! ### Looking -/

theorem ensure_ok : h.ensure = .ok u ↔ h.failed = false := by
  rw [Held.ensure, failWhen_ok, Bool.not_eq_true]

theorem current_ok {v : Latest} (is : h.current key = .ok v) :
    h.failed = false ∧ v.key = key ∧ ∃ d, h.document = some d ∧ d.latest = some v := by
  obtain ⟨_, ok, is⟩ := bind_ok.mp is
  refine ⟨ensure_ok.mp ok, ?_⟩
  cases loaded : h.document with
  | none =>
      rw [loaded] at is
      cases is
  | some d =>
      simp only [loaded] at is
      cases latest : d.latest with
      | none =>
          rw [latest] at is
          cases is
      | some v' =>
          simp only [latest] at is
          split at is
          · cases is
            exact ⟨‹_›, d, rfl, latest⟩
          · cases is

theorem changed_ok (is : h.changed key update = .ok d) :
    h.failed = false ∧ ∃ e v v', h.document = some e ∧ e.latest = some v ∧ v.key = key ∧
      update v = .ok v' ∧ d = { e with latest := some v' } := by
  obtain ⟨_, ok, is⟩ := bind_ok.mp is
  cases now : h.current key with
  | error e =>
      rw [now] at ok
      cases ok
  | ok v =>
      obtain ⟨fine, same, e, loaded, latest⟩ := current_ok now
      simp only [loaded, latest] at is
      cases made : update v with
      | error e =>
          rw [made] at is
          cases is
      | ok v' =>
          rw [made] at is
          cases is
          exact ⟨fine, e, v, v', loaded, latest, same, made, rfl⟩

/-! ### Storing -/

/-- A store has been tried. -/
structure Stored (r : Row) (d : Document) (result : Except String Unit) (h' : Held) (t : Row) :
    Prop where
  faithful : h'.Faithful t
  bases : t.bases = r.bases
  runs : t.runs = r.runs
  done : result = .ok () → h' = ⟨some d, false⟩ ∧ t.stored = some d

theorem Stored.untouched {e : String} (faithful : h.Faithful r) : Stored r d (.error e) h r :=
  ⟨faithful, rfl, rfl, nofun⟩

theorem store_holds (sound : r.Sound x.toExternals) (faithful : h.Faithful r)
    (moves : h.failed = false → Moves h.document d) : (store x d).Holds (terms x.toExternals) (Stored r d) h r := by
  refine Keeping.Holds.reads sound (fun _ ok => ?_) fun e _ => .untouched faithful
  refine Keeping.Holds.reads sound (fun _ valid => ?_) fun e _ => .untouched faithful
  refine Keeping.Holds.reads sound (fun _ _ => ?_) fun e _ => .untouched faithful
  have fine := ensure_ok.mp ok
  have moves : Moves r.stored d := faithful fine ▸ moves fine
  have follows := moves.follows
  have next := sound.stored valid moves
  refine ⟨sound, ?_⟩
  rintro _ answer t rfl does
  rcases does with rfl | ⟨rfl, failed⟩
  · cases answer with
    | ok _ =>
        refine ⟨follows, next, .ok (), _, rfl, fun _ => rfl, rfl, rfl, fun _ => ⟨?_, rfl⟩⟩
        rw [← fine]
    | error e => exact ⟨follows, next, .error e, _, rfl, nofun, rfl, rfl, nofun⟩
  · cases answer with
    | ok _ => cases failed
    | error e => exact ⟨.refl _, sound, .error e, _, rfl, nofun, rfl, rfl, nofun⟩

/-- A change of the attempt has been tried. -/
structure Changed (r : Row) (key : AttemptKey) (update : Latest → Except String Latest)
    (result : Except String Unit) (h' : Held) (t : Row) : Prop where
  faithful : h'.Faithful t
  bases : t.bases = r.bases
  runs : t.runs = r.runs
  done : result = .ok () → ∃ e v v', r.stored = some e ∧ e.latest = some v ∧ v.key = key ∧
    update v = .ok v' ∧ h' = ⟨some { e with latest := some v' }, false⟩ ∧
    t.stored = some { e with latest := some v' }

theorem change_holds (sound : r.Sound x.toExternals) (faithful : h.Faithful r)
    (advances : ∀ d v v', r.stored = some d → d.latest = some v → v.key = key → update v = .ok v' →
      v.Advances v') : (change x key update).Holds (terms x.toExternals) (Changed r key update) h r := by
  refine Keeping.Holds.reads sound (fun d is => ?_) fun e _ => ⟨faithful, rfl, rfl, nofun⟩
  obtain ⟨fine, e, v, v', loaded, latest, same, made, rfl⟩ := changed_ok is
  have stored : r.stored = some e := (faithful fine).symm.trans loaded
  refine (store_holds sound faithful fun _ => ?_).mono fun result h' t _ now => ?_
  · rw [loaded]
    exact .changed latest (advances e v v' stored latest same made)
  · refine ⟨now.faithful, now.bases, now.runs, fun ok => ?_⟩
    obtain ⟨held, there⟩ := now.done ok
    exact ⟨e, v, v', stored, latest, same, made, held, there⟩

/-- The common end of every operation: the holder still knows what is stored. -/
abbrev Leaves {α : Type} (_ : Except String α) (h' : Held) (t : Row) : Prop := h'.Faithful t

theorem store_leaves (sound : r.Sound x.toExternals) (faithful : h.Faithful r)
    (moves : h.failed = false → Moves h.document d) : (store x d).Holds (terms x.toExternals) Leaves h r :=
  (store_holds sound faithful moves).mono fun _ _ _ _ now => now.faithful

theorem change_leaves (sound : r.Sound x.toExternals) (faithful : h.Faithful r)
    (advances : ∀ v v', update v = .ok v' → v.Advances v') :
    (change x key update).Holds (terms x.toExternals) Leaves h r :=
  (change_holds sound faithful fun _ v v' _ _ _ made => advances v v' made).mono
    fun _ _ _ _ now => now.faithful

/-- A call that stores nothing and enters no callback. -/
theorem ask_bind {c : Call} {g : Reply c → HeldM α} (sound : r.Sound x.toExternals)
    (quiet : ∀ answer t, Does c r answer t → t = r) (ok : ∀ a, (g a).Holds (terms x.toExternals) post h r)
    (error : ∀ e, post (.error e) h r) : (ask c >>= g).Holds (terms x.toExternals) post h r := by
  refine Keeping.Holds.calls sound ?_
  rintro _ answer t rfl does
  obtain rfl := quiet answer t does
  refine ⟨.refl _, sound, ?_⟩
  cases answer with
  | ok a => exact ok a
  | error e => exact error e

/-! ### The provider -/

theorem Latest.Advances.provider (v : Latest) (p : Provider) : v.Advances { v with provider := p } :=
  ⟨rfl, Nat.le_refl _, fun _ h => h⟩

theorem confirmExit_advances {receipt : ProcessExit} {v' : Latest} (made : v.confirmExit pid receipt = .ok v') :
    v.Advances v' := by
  unfold Latest.confirmExit at made
  repeat' split at made
  all_goals cases made
  all_goals exact .provider v _

theorem loseProvider_advances {v' : Latest} (made : v.loseProvider = .ok v') : v.Advances v' := by
  unfold Latest.loseProvider at made
  split at made <;> cases made <;> exact .provider v _

section

variable (sound : r.Sound x.toExternals) (faithful : h.Faithful r)
include sound faithful

theorem refuse_leaves {reason : Reason} : (refuse x key reason).Holds (terms x.toExternals) Leaves h r := by
  refine change_leaves sound faithful fun v v' made => ?_
  obtain ⟨open_, made⟩ := bind_failWhen.mp made
  cases made
  refine ⟨rfl, v.phase.rank_le, fun result is => ?_⟩
  rw [is] at open_
  exact absurd (.inl rfl) open_

theorem recordExit_leaves : (recordExit x key actualPid receipt).Holds (terms x.toExternals) Leaves h r := by
  unfold recordExit
  split
  · refine Keeping.Holds.reads sound (fun _ _ => ?_) fun _ _ => faithful
    exact change_leaves sound faithful fun _ _ => confirmExit_advances
  · exact change_leaves sound faithful fun _ _ => loseProvider_advances

theorem settleProvider_leaves :
    (settleProvider x key actualPid receipt).Holds (terms x.toExternals) Leaves h r := by
  refine (recordExit_leaves sound faithful).bind (fun _ h' t sound faithful => ?_) fun _ _ _ _ now => now
  refine Keeping.Holds.reads sound (fun latest _ => ?_) fun _ _ => faithful
  split
  · exact refuse_leaves sound faithful
  · exact Keeping.holds_pure.mpr ⟨sound, faithful⟩

theorem settle_leaves : (settle x key actualPid receipt pid).Holds (terms x.toExternals) Leaves h r := by
  refine Keeping.Holds.attempt ((settleProvider_leaves sound faithful).mono fun _ h' t sound faithful => ?_)
  refine Keeping.Holds.attempt (Keeping.holds_sys.mpr ⟨sound, ?_⟩)
  rintro _ answer u rfl rfl
  exact ⟨.refl _, sound, Keeping.holds_reads.mpr ⟨sound, faithful⟩⟩

theorem foregroundAbsent_leaves {registered : RegisteredForeground} {proof : ProcessStamp}
    {hostAbsent : Option ProcessStamp} :
    (foregroundAbsent x registered proof hostAbsent).Holds (terms x.toExternals) Leaves h r := by
  refine Keeping.Holds.reads sound (fun latest _ => ?_) fun _ _ => faithful
  refine Keeping.Holds.reads sound (fun _ _ => ?_) fun _ _ => faithful
  have slot : (slotEnded latest).Holds (terms x.toExternals)
      (fun _ h' t => h' = h ∧ t = r) h r :=
    ask_bind sound (fun _ _ same => same) (fun _ => Keeping.holds_pure.mpr ⟨sound, rfl, rfl⟩) fun _ => ⟨rfl, rfl⟩
  refine slot.bind ?_ ?_
  · rintro ended _ _ _ ⟨rfl, rfl⟩
    refine Keeping.Holds.reads sound (fun _ _ => ?_) fun _ _ => faithful
    refine Keeping.Holds.reads sound (fun _ _ => ?_) fun _ _ => faithful
    refine change_leaves sound faithful fun v v' made => ?_
    obtain ⟨_, made⟩ := bind_failWhen.mp made
    cases made
    exact .provider v _
  · rintro _ _ _ _ ⟨rfl, rfl⟩
    exact faithful

end

/-! ### Publishing -/

theorem checkLive_ok (is : h.checkLive key phase = .ok u) : ∃ v, h.current key = .ok v ∧ v.phase = phase := by
  obtain ⟨v, now, is⟩ := bind_ok.mp is
  obtain ⟨_, is⟩ := bind_failWhen.mp is
  exact ⟨v, now, by_contra fun other => failWhen_ok.mp is (.inr (.inl other))⟩

theorem checkInitial_ok {authority : InitialNewAuthority} {journal : OpenJournal} {control : Control}
    (is : h.checkInitial authority journal control pid phase = .ok u) :
    ∃ v, h.current authority.key = .ok v ∧ v.phase = phase := by
  obtain ⟨v, now, is⟩ := bind_ok.mp is
  obtain ⟨_, is⟩ := bind_failWhen.mp is
  exact ⟨v, now, by_contra fun other => failWhen_ok.mp is (.inl other)⟩

/-- What is stored is of the key, in the phase. -/
def Row.At (r : Row) (key : AttemptKey) (phase : Phase) : Prop :=
  ∃ d v, r.stored = some d ∧ d.latest = some v ∧ v.key = key ∧ v.phase = phase

theorem at_of_current (faithful : h.Faithful r) (now : h.current key = .ok v) (is : v.phase = phase) :
    r.At key phase := by
  obtain ⟨fine, same, d, loaded, latest⟩ := current_ok now
  exact ⟨d, v, (faithful fine).symm.trans loaded, latest, same, is⟩

theorem Row.At.past (there : r.At key phase) : Past r.stored phase.rank key := by
  obtain ⟨d, v, stored, latest, rfl, rfl⟩ := there
  refine ⟨v, ?_, UInt64.le_refl _, fun _ => ⟨rfl, Nat.le_refl _⟩⟩
  rw [stored]
  exact latest

/-- An attempt that has not come so far is not past it. -/
theorem Row.At.not_past {rank : Nat} (there : r.At key phase) (lt : phase.rank < rank) : ¬Past r.stored rank key := by
  obtain ⟨d, v, stored, latest, rfl, rfl⟩ := there
  rintro ⟨v', is, _, same⟩
  rw [stored] at is
  obtain rfl : v = v' := Option.some.inj (latest.symm.trans is)
  exact absurd (same rfl).2 (Nat.not_le.mpr lt)

section

variable (sound : r.Sound x.toExternals) (faithful : h.Faithful r)
include sound faithful

/-- The stored attempt is of one phase, and a change leaves it at another. -/
theorem change_at {p q : Phase} (there : r.At key p) (rank : p.rank ≤ q.rank)
    (made : ∀ d v v', r.stored = some d → d.latest = some v → v.phase = p → update v = .ok v' →
      v'.key = v.key ∧ v'.phase = q ∧ ∀ result, v.result = some result → v'.result = some result) :
    (change x key update).Holds (terms x.toExternals)
      (fun result h' t => h'.Faithful t ∧ t.bases = r.bases ∧ t.runs = r.runs ∧
        (result = .ok () → t.At key q)) h r := by
  obtain ⟨d, v, stored, latest, same, phase⟩ := there
  have only : ∀ d' v', r.stored = some d' → d'.latest = some v' → v'.phase = p := by
    rintro d' v' stored' latest'
    obtain rfl : d = d' := Option.some.inj (stored.symm.trans stored')
    obtain rfl : v = v' := Option.some.inj (latest.symm.trans latest')
    exact phase
  refine (change_holds sound faithful fun d' v v' stored' latest' _ up => ?_).mono
    fun result h' t _ now => ⟨now.faithful, now.bases, now.runs, fun ok => ?_⟩
  · obtain ⟨key, is, result⟩ := made d' v v' stored' latest' (only d' v stored' latest') up
    refine ⟨key, ?_, result⟩
    rw [only d' v stored' latest', is]
    exact rank
  · obtain ⟨e, v, v', stored', latest', same, up, _, next⟩ := now.done ok
    obtain ⟨key, is, _⟩ := made e v v' stored' latest' (only e v stored' latest') up
    exact ⟨_, v', next, rfl, key.trans same, is⟩

theorem baseStep_leaves {generation : Option String} (there : r.At key .starting) :
    (baseStep x key generation).Holds (terms x.toExternals) Leaves h r := by
  refine Keeping.Holds.reads sound (fun _ _ => ?_) fun _ _ => faithful
  refine (change_at sound faithful there (q := .publishingBase) (by decide)
    fun d v v' _ _ _ up => ?_).bind (fun _ h' t sound' now => ?_) fun _ _ _ _ now => now.1
  · cases up
    exact ⟨rfl, rfl, fun _ is => is⟩
  · obtain ⟨faithful', bases, runs, entered⟩ := now
    have entered := entered rfl
    have new : key ∉ t.bases := by
      rw [bases]
      exact fun mem => there.not_past (by decide) (sound.based key mem)
    refine Keeping.Holds.calls sound' ?_
    rintro _ answer u rfl rfl
    have next : Row.Sound x.toExternals { t with bases := t.bases ++ [key] } :=
      { valid := sound'.valid
        aligned := sound'.aligned
        bases := List.nodup_append.mpr ⟨sound'.bases, by simp, by rintro a mem _ (_ | ⟨_, ⟨⟩⟩) rfl; exact new mem⟩
        based := fun k mem => (List.mem_append.mp mem).elim (sound'.based k)
          fun last => List.mem_singleton.mp last ▸ entered.past
        runs := sound'.runs
        ran := sound'.ran }
    refine ⟨.refl _, next, ?_⟩
    cases answer with
    | error e => exact faithful'
    | ok _ =>
        refine (change_at next faithful' entered (q := .basePublished) (by decide)
          fun d v v' _ _ _ up => ?_).mono fun _ _ _ _ now => now.1
        cases up
        exact ⟨rfl, rfl, fun _ is => is⟩

theorem runStep_leaves (there : r.At key .basePublished) :
    (runStep x key).Holds (terms x.toExternals) Leaves h r := by
  refine (change_at sound faithful there (q := .publishingRun) (by decide)
    fun d v v' _ _ _ up => ?_).bind (fun _ h' t sound' now => ?_) fun _ _ _ _ now => now.1
  · cases up
    exact ⟨rfl, rfl, fun _ is => is⟩
  · obtain ⟨faithful', bases, runs, entered⟩ := now
    have entered := entered rfl
    have new : key ∉ t.runs := by
      rw [runs]
      exact fun mem => there.not_past (by decide) (sound.ran key mem)
    refine Keeping.Holds.calls sound' ?_
    rintro _ answer u rfl rfl
    have next : Row.Sound x.toExternals { t with runs := t.runs ++ [key] } :=
      { valid := sound'.valid
        aligned := sound'.aligned
        bases := sound'.bases
        based := sound'.based
        runs := List.nodup_append.mpr ⟨sound'.runs, by simp, by rintro a mem _ (_ | ⟨_, ⟨⟩⟩) rfl; exact new mem⟩
        ran := fun k mem => (List.mem_append.mp mem).elim (sound'.ran k)
          fun last => List.mem_singleton.mp last ▸ entered.past }
    refine ⟨.refl _, next, ?_⟩
    cases answer with
    | error e => exact faithful'
    | ok _ =>
        -- An attempt whose run is being published has no result to lose.
        refine (change_at next faithful' entered (q := .runPublished) (by decide)
          fun d v v' stored latest phase up => ?_).mono fun _ _ _ _ now => now.1
        cases up
        have none := result_none (next.valid d stored) latest (by rw [phase]; decide) (by rw [phase]; decide)
        refine ⟨rfl, rfl, fun _ is => ?_⟩
        rw [none] at is
        cases is

end

/-! ### Accepting -/

theorem joins_of_here (here : h.elsewhere arguments = false) :
    (ActionArguments.native arguments).Joins h.document := by
  rintro joined v ⟨⟩ latest
  obtain ⟨d, loaded, latest⟩ := Option.bind_eq_some_iff.mp latest
  simp only [Held.elsewhere, loaded, Option.any_some, latest] at here
  simp at here
  exact here.2

theorem replay_none (is : h.replay x.toExternals arguments token = .ok none) :
    h.failed = false ∧ h.hasCleanupBarrier = false ∧ checkedSucc h.highWater = some token.epoch ∧
      (ActionArguments.native arguments).Joins h.document := by
  obtain ⟨_, ok, is⟩ := bind_ok.mp is
  obtain ⟨_, _, is⟩ := bind_ok.mp is
  obtain ⟨_, _, is⟩ := bind_ok.mp is
  refine ⟨ensure_ok.mp ok, ?_⟩
  split at is
  · cases is
  · obtain ⟨_, is⟩ := bind_failWhen.mp is
    obtain ⟨here, is⟩ := bind_failWhen.mp is
    split at is
    · cases is
    · split at is
      · cases recorded : h.recorded arguments token <;> rw [recorded] at is <;> cases is
      · obtain ⟨next, _⟩ := bind_failWhen.mp is
        exact ⟨Bool.not_eq_true _ ▸ ‹_›, not_not.mp next, joins_of_here (Bool.not_eq_true _ ▸ here)⟩

theorem recorded_ne_start {reservation : Reservation} (is : h.recorded arguments token = .ok reservation) :
    reservation ≠ .start key := by
  rintro rfl
  unfold Held.recorded at is
  repeat' split at is
  all_goals cases is

/-- What is replayed is never the permission to start. -/
theorem replay_ne_start {previous : Reservation} (is : h.replay x.toExternals arguments token = .ok (some previous)) :
    previous ≠ .start key := by
  obtain ⟨_, _, is⟩ := bind_ok.mp is
  obtain ⟨_, _, is⟩ := bind_ok.mp is
  obtain ⟨_, _, is⟩ := bind_ok.mp is
  split at is
  · cases is
    simp
  · obtain ⟨_, is⟩ := bind_failWhen.mp is
    obtain ⟨_, is⟩ := bind_failWhen.mp is
    split at is
    · cases is
      simp
    · split at is
      · cases recorded : h.recorded arguments token with
        | error e =>
            rw [recorded] at is
            cases is
        | ok reservation =>
            rw [recorded] at is
            cases is
            exact recorded_ne_start recorded
      · obtain ⟨_, is⟩ := bind_failWhen.mp is
        cases is

theorem actionReplay_none {arguments : ActionArguments} (is : h.actionReplay x.toExternals arguments token = .ok none) :
    h.failed = false ∧ checkedSucc h.highWater = some token.epoch := by
  obtain ⟨_, ok, is⟩ := bind_ok.mp is
  obtain ⟨_, _, is⟩ := bind_ok.mp is
  obtain ⟨_, _, is⟩ := bind_ok.mp is
  obtain ⟨_, is⟩ := bind_failWhen.mp is
  refine ⟨ensure_ok.mp ok, ?_⟩
  split at is
  · cases is
  · split at is
    · cases action : h.action with
      | none =>
          rw [action] at is
          cases is
      | some a =>
          simp only [action] at is
          split at is <;> cases is
    · obtain ⟨next, _⟩ := bind_failWhen.mp is
      exact not_not.mp next

/-- A pending action may be stored in the place of what is loaded. -/
theorem accepted_moves {arguments : ActionArguments} (next : checkedSucc h.highWater = some token.epoch)
    (joins : arguments.Joins h.document) : Moves h.document (h.accepted token arguments result) :=
  @Moves.accepted h.document _ _ _ next joins

theorem checkNative_bind {id : SessionId} {found : Option Meta} {native : Identity} {g : Unit → HeldM α}
    (sound : r.Sound x.toExternals) (ok : ∀ u, (g u).Holds (terms x.toExternals) post h r)
    (error : ∀ e, post (.error e) h r) :
    (checkNative id found native legacy >>= g).Holds (terms x.toExternals) post h r := by
  have check : (checkNative id found native legacy).Holds (terms x.toExternals)
      (fun _ h' t => h' = h ∧ t = r) h r :=
    ask_bind sound (fun _ _ same => same) (fun _ => Keeping.holds_reads.mpr ⟨sound, rfl, rfl⟩)
      fun _ => ⟨rfl, rfl⟩
  refine check.bind ?_ ?_
  · rintro u _ _ _ ⟨rfl, rfl⟩
    exact ok u
  · rintro e _ _ _ ⟨rfl, rfl⟩
    exact error e

theorem joinMeta_bind {g : Unit → HeldM α} (sound : r.Sound x.toExternals)
    (ok : ∀ u, (g u).Holds (terms x.toExternals) post h r) (error : ∀ e, post (.error e) h r) :
    (joinMeta arguments legacy >>= g).Holds (terms x.toExternals) post h r := by
  have check : (joinMeta arguments legacy).Holds (terms x.toExternals)
      (fun _ h' t => h' = h ∧ t = r) h r := by
    refine ask_bind sound (fun _ _ same => same) (fun found => ?_) fun _ => ⟨rfl, rfl⟩
    refine Keeping.Holds.reads sound (fun _ _ => ?_) fun _ _ => ⟨rfl, rfl⟩
    exact checkNative_bind sound (fun _ => Keeping.holds_reads.mpr ⟨sound, rfl, rfl⟩) fun _ => ⟨rfl, rfl⟩
  refine check.bind ?_ ?_
  · rintro u _ _ _ ⟨rfl, rfl⟩
    exact ok u
  · rintro e _ _ _ ⟨rfl, rfl⟩
    exact error e

/-- A store, and then an answer. -/
theorem store_answer {a : α} (sound : r.Sound x.toExternals) (faithful : h.Faithful r)
    (moves : h.failed = false → Moves h.document d) :
    (store x d >>= fun _ => (pure a : HeldM α)).Holds (terms x.toExternals) Leaves h r :=
  (store_leaves sound faithful moves).bind
    (fun _ _ _ sound faithful => Keeping.holds_pure.mpr ⟨sound, faithful⟩) fun _ _ _ _ now => now

theorem beginJoin_leaves (sound : r.Sound x.toExternals) (faithful : h.Faithful r) :
    (beginJoin x arguments token legacy).Holds (terms x.toExternals) Leaves h r := by
  refine Keeping.Holds.reads sound (fun previous is => ?_) fun _ _ => faithful
  cases previous with
  | some previous => exact Keeping.holds_pure.mpr ⟨sound, faithful⟩
  | none =>
      refine joinMeta_bind sound (fun _ => ?_) fun _ => faithful
      refine Keeping.Holds.reads sound (fun next same => ?_) fun _ _ => faithful
      cases same
      exact store_answer sound faithful fun _ => accepted_moves (replay_none is).2.2.1 (replay_none is).2.2.2

theorem answered_moves {missing : String} (waits : ∀ a, h.action = some a → a.result.pending = true)
    (is : h.answered result missing = .ok d) : Moves h.document d := by
  unfold Held.answered at is
  split at is
  · cases is
  · rename_i e loaded
    split at is
    · cases is
    · rename_i action there
      cases is
      have waits := waits action (by rw [Held.action, loaded]; exact there)
      rw [loaded]
      exact .answered result there waits

/-- Only a pending action is finished. -/
theorem pending_of_checkPending {arguments : ActionArguments} {pending : ActionResult} {why : String}
    (waits : pending.pending = true) (is : h.checkPending x arguments token pending why = .ok u) :
    ∀ a, h.action = some a → a.result.pending = true := by
  intro a there
  obtain ⟨replayed, is, same⟩ := bind_ok.mp is
  have same := not_not.mp (failWhen_ok.mp same)
  obtain ⟨_, _, is⟩ := bind_ok.mp is
  obtain ⟨_, _, is⟩ := bind_ok.mp is
  obtain ⟨_, _, is⟩ := bind_ok.mp is
  obtain ⟨_, is⟩ := bind_failWhen.mp is
  rw [same, there] at is
  split at is
  · cases is
  · split at is
    · simp only at is
      split at is
      · obtain rfl := ActionReplay.recorded.inj (Option.some.inj (Except.ok.inj is))
        exact waits
      · cases is
    · obtain ⟨_, is⟩ := bind_failWhen.mp is
      obtain ⟨_, is⟩ := bind_failWhen.mp is
      cases is

section

variable (sound : r.Sound x.toExternals) (faithful : h.Faithful r)
include sound faithful

theorem finishJoin_holds {ticket : JoinCheck} :
    (finishJoin x ticket legacy).Holds (terms x.toExternals)
      (fun a h' t => h'.Faithful t ∧ ∀ key, a ≠ .ok (.start key)) h r := by
  refine Keeping.Holds.reads sound (fun _ ok => ?_) fun _ _ => ⟨faithful, nofun⟩
  refine ask_bind sound (fun _ _ same => same) (fun _ => ?_) fun _ => ⟨faithful, nofun⟩
  refine joinMeta_bind sound (fun _ => ?_) fun _ => ⟨faithful, nofun⟩
  refine Keeping.Holds.reads sound (fun next is => ?_) fun _ _ => ⟨faithful, nofun⟩
  have waits := pending_of_checkPending rfl ok
  refine (store_leaves sound faithful fun _ => answered_moves waits is).bind
    (fun _ _ _ sound faithful => Keeping.holds_pure.mpr ⟨sound, faithful, nofun⟩) fun _ _ _ _ now => ⟨now, nofun⟩

theorem reserveShell_leaves {arguments : ActionArguments} :
    (reserveShell x arguments token).Holds (terms x.toExternals) Leaves h r := by
  refine Keeping.Holds.reads sound (fun _ shell => ?_) fun _ _ => faithful
  refine Keeping.Holds.reads sound (fun previous is => ?_) fun _ _ => faithful
  cases previous with
  | some previous => exact Keeping.holds_pure.mpr ⟨sound, faithful⟩
  | none =>
      refine Keeping.Holds.reads sound (fun _ _ => ?_) fun _ _ => faithful
      refine ask_bind sound (fun _ _ same => same) (fun _ => ?_) fun _ => faithful
      refine Keeping.Holds.reads sound (fun next same => ?_) fun _ _ => faithful
      cases same
      refine store_answer sound faithful fun _ => accepted_moves (actionReplay_none is).2 ?_
      rintro joined v rfl
      exact absurd rfl (failWhen_ok.mp shell)

theorem finishShell_leaves {arguments : ActionArguments} :
    (finishShell x arguments token result).Holds (terms x.toExternals) Leaves h r := by
  refine Keeping.Holds.reads sound (fun _ ok => ?_) fun _ _ => faithful
  refine Keeping.Holds.reads sound (fun _ _ => ?_) fun _ _ => faithful
  refine Keeping.Holds.reads sound (fun next is => ?_) fun _ _ => faithful
  exact store_leaves sound faithful fun _ => answered_moves (pending_of_checkPending rfl ok) is

theorem quarantineNewAt_leaves {id : SessionId} {reservation : JournalReservation} :
    (quarantineNewAt x id reservation).Holds (terms x.toExternals) Leaves h r := by
  refine Keeping.Holds.reads sound (fun _ _ => ?_) fun _ _ => faithful
  refine Keeping.Holds.reads sound (fun _ _ => ?_) fun _ _ => faithful
  refine ask_bind sound (fun _ _ same => same) (fun found => ?_) fun _ => faithful
  refine ask_bind sound (fun _ _ same => same) (fun bound => ?_) fun _ => faithful
  refine Keeping.Holds.reads sound (fun _ _ => ?_) fun _ _ => faithful
  refine Keeping.Holds.reads sound (fun _ _ => ?_) fun _ _ => faithful
  refine ask_bind sound (fun _ _ same => same) (fun _ => ?_) fun _ => faithful
  refine Keeping.Holds.reads sound (fun next same => ?_) fun _ _ => faithful
  cases same
  exact store_leaves sound faithful fun _ => .quarantined reservation.identity

theorem seedInitialNew_leaves {invocation : NewInvocation} :
    (seedInitialNew x arguments invocation pid).Holds (terms x.toExternals) Leaves h r := by
  refine Keeping.Holds.reads sound (fun _ _ => ?_) fun _ _ => faithful
  refine Keeping.Holds.reads sound (fun _ _ => ?_) fun _ _ => faithful
  refine Keeping.Holds.reads sound (fun _ first => ?_) fun _ _ => faithful
  have none : h.document = none := by
    have vacant := failWhen_ok.mp first
    push Not at vacant
    exact Option.not_isSome_iff_eq_none.mp vacant.2.2
  refine ask_bind sound (fun _ _ same => same) (fun found => ?_) fun _ => faithful
  refine Keeping.Holds.reads sound (fun _ _ => ?_) fun _ _ => faithful
  refine Keeping.Holds.reads sound (fun _ _ => ?_) fun _ _ => faithful
  refine ask_bind sound (fun _ _ same => same) (fun published => ?_) fun _ => faithful
  refine Keeping.Holds.reads sound (fun _ _ => ?_) fun _ _ => faithful
  refine ask_bind sound (fun _ _ same => same) (fun _ => ?_) fun _ => faithful
  refine Keeping.Holds.reads sound (fun _ _ => ?_) fun _ _ => faithful
  refine Keeping.Holds.reads sound (fun provider _ => ?_) fun _ _ => faithful
  refine ask_bind sound (fun _ _ same => same) (fun nonce => ?_) fun _ => faithful
  refine Keeping.Holds.reads sound (fun _ _ => ?_) fun _ _ => faithful
  refine ask_bind sound (fun _ _ same => same) (fun runId => ?_) fun _ => faithful
  refine store_answer sound faithful fun _ => ?_
  rw [none]
  exact .seeded rfl rfl

end

/-! ### Starting -/

/-- The attempt before has no execution that could still be running, and no cleanup is in doubt. -/
def Startable (before : Option Document) : Prop :=
  ∀ d, before = some d → d.cleanupBarrier = none ∧ ∃ v, d.latest = some v ∧
    ((∃ pid code, v.provider = .exited pid code) ∨ (∃ process, v.provider = .foregroundAbsent process) ∨
      (v.phase = .refused ∧ v.provider = .notStarted))

/-- A start was given for a key, between two documents. -/
structure Started (before after : Option Document) (key : AttemptKey) : Prop where
  startable : Startable before
  next : checkedSucc (highWaterOf before) = some key.token.epoch
  latest : ∃ v, latestOf after = some v ∧ v.key = key

theorem startable_of_resolved (resolved : h.unresolved = false) (clean : h.hasCleanupBarrier = false) :
    Startable h.document := by
  intro d loaded
  rw [Held.unresolved, loaded] at resolved
  rw [Held.hasCleanupBarrier, loaded] at clean
  refine ⟨Option.not_isSome_iff_eq_none.mp (by simpa using clean), ?_⟩
  cases latest : d.latest with
  | none => simp [latest] at resolved
  | some v =>
      refine ⟨v, rfl, ?_⟩
      simp only [Option.any_some, latest] at resolved
      cases provider : v.provider <;> simp_all [Provider.replacementConfirmed]

theorem reserveNext_holds (sound : r.Sound x.toExternals) (faithful : h.Faithful r) (fine : h.failed = false)
    (clean : h.hasCleanupBarrier = false) (next : checkedSucc h.highWater = some token.epoch) :
    (reserveNext x arguments token legacy).Holds (terms x.toExternals)
      (fun a h' t => h'.Faithful t ∧ ∀ key, a = .ok (.start key) → Started r.stored t.stored key) h r := by
  have quiet : ∀ {a : Except String Reservation}, (∀ key, a ≠ .ok (.start key)) →
      h.Faithful r ∧ ∀ key, a = .ok (.start key) → Started r.stored r.stored key :=
    fun other => ⟨faithful, fun key is => absurd is (other key)⟩
  refine Keeping.Holds.reads sound (fun unresolved is => ?_) fun _ _ => quiet (by simp)
  cases is
  split
  · exact Keeping.holds_pure.mpr ⟨sound, quiet (by simp)⟩
  refine ask_bind sound (fun _ _ same => same) (fun found => ?_) fun _ => quiet (by simp)
  refine checkNative_bind sound (fun _ => ?_) fun _ => quiet (by simp)
  refine Keeping.Holds.reads sound (fun _ _ => ?_) fun _ _ => quiet (by simp)
  refine Keeping.Holds.reads sound (fun unaccounted _ => ?_) fun _ _ => quiet (by simp)
  split
  · exact Keeping.holds_pure.mpr ⟨sound, quiet (by simp)⟩
  refine ask_bind sound (fun _ _ same => same) (fun runId => ?_) fun _ => quiet (by simp)
  refine (store_holds sound faithful fun _ => .reserved next).bind (fun _ h' t sound now => ?_)
    fun e h' t _ now => ⟨now.faithful, (by simp)⟩
  refine Keeping.holds_pure.mpr ⟨sound, now.faithful, fun key is => ?_⟩
  obtain rfl := Reservation.start.inj (Except.ok.inj is)
  have startable := startable_of_resolved (Bool.not_eq_true _ ▸ ‹¬h.unresolved = true›) clean
  have same : r.stored = h.document := (faithful fine).symm
  rw [same]
  refine ⟨startable, next, ?_⟩
  rw [(now.done rfl).2]
  exact ⟨_, rfl, rfl⟩

theorem reserve_holds (sound : r.Sound x.toExternals) (faithful : h.Faithful r) :
    (reserve x arguments token legacy).Holds (terms x.toExternals)
      (fun a h' t => h'.Faithful t ∧ ∀ key, a = .ok (.start key) → Started r.stored t.stored key) h r := by
  refine Keeping.Holds.reads sound (fun previous is => ?_) fun _ _ => ⟨faithful, nofun⟩
  cases previous with
  | some previous =>
      refine Keeping.holds_pure.mpr ⟨sound, faithful, fun key same => ?_⟩
      exact absurd (Except.ok.inj same) (replay_ne_start is)
  | none =>
      obtain ⟨fine, clean, next, _⟩ := replay_none is
      exact reserveNext_holds sound faithful fine clean next

/-! ### Every operation -/

section

variable (sound : r.Sound x.toExternals) (faithful : h.Faithful r)
include sound faithful

theorem claimHost_leaves {host : ProcessStamp} :
    (claimHost x key host).Holds (terms x.toExternals) Leaves h r := by
  refine Keeping.Holds.reads sound (fun _ _ => ?_) fun _ _ => faithful
  refine change_leaves sound faithful fun v v' made => ?_
  obtain ⟨reserved, made⟩ := bind_failWhen.mp made
  cases made
  refine ⟨rfl, ?_, fun _ is => is⟩
  rw [not_not.mp reserved]
  exact Nat.zero_le _

theorem startingProvider_leaves : (startingProvider x key).Holds (terms x.toExternals) Leaves h r := by
  refine change_leaves sound faithful fun v v' made => ?_
  obtain ⟨_, made⟩ := bind_failWhen.mp made
  cases made
  exact .provider v _

theorem ownedProvider_leaves {provider : ProcessStamp} :
    (ownedProvider x key provider).Holds (terms x.toExternals) Leaves h r := by
  refine Keeping.Holds.reads sound (fun _ _ => ?_) fun _ _ => faithful
  refine change_leaves sound faithful fun v v' made => ?_
  obtain ⟨_, made⟩ := bind_failWhen.mp made
  cases made
  exact .provider v _

theorem recordSupport_leaves {support : InitializedSupport} :
    (recordSupport x key support).Holds (terms x.toExternals) Leaves h r := by
  refine change_leaves sound faithful fun v v' made => ?_
  obtain ⟨_, made⟩ := bind_failWhen.mp made
  obtain ⟨_, made⟩ := bind_failWhen.mp made
  cases made
  exact ⟨rfl, Nat.le_refl _, fun _ is => is⟩

end

theorem program_holds (op : Op) (sound : r.Sound x.toExternals) (faithful : h.Faithful r) :
    (program x op).Holds (terms x.toExternals)
      (fun a h' t => h'.Faithful t ∧
        ∀ key, a = .ok (.reservation (.start key)) → Started r.stored t.stored key) h r := by
  have done : ∀ {p : HeldM Unit}, p.Holds (terms x.toExternals) Leaves h r →
      ((fun _ => Answer.done) <$> p).Holds (terms x.toExternals)
        (fun a h' t => h'.Faithful t ∧
          ∀ key, a = .ok (.reservation (.start key)) → Started r.stored t.stored key) h r := by
    intro p leaves
    refine Keeping.Holds.map (leaves.mono fun a _ _ _ now => ⟨now, fun key is => ?_⟩)
    cases a <;> cases is
  cases op with
  | seedInitialNew arguments invocation pid =>
      refine Keeping.Holds.map ((seedInitialNew_leaves sound faithful).mono
        fun a _ _ _ now => ⟨now, fun key is => ?_⟩)
      cases a <;> cases is
  | publishInitialBase authority journal control pid =>
      refine done (Keeping.Holds.reads sound (fun _ is => ?_) fun _ _ => faithful)
      obtain ⟨v, now, phase⟩ := checkInitial_ok is
      exact baseStep_leaves sound faithful (at_of_current faithful now phase)
  | publishInitialRun authority journal control pid =>
      refine done (Keeping.Holds.reads sound (fun _ is => ?_) fun _ _ => faithful)
      obtain ⟨v, now, phase⟩ := checkInitial_ok is
      exact runStep_leaves sound faithful (at_of_current faithful now phase)
  | settleInitial authority control receipt pid =>
      refine done (Keeping.Holds.reads sound (fun _ _ => ?_) fun _ _ => faithful)
      refine Keeping.Holds.reads sound (fun _ _ => ?_) fun _ _ => faithful
      exact settle_leaves sound faithful
  | quarantineNewAt id reservation => exact done (quarantineNewAt_leaves sound faithful)
  | beginJoin arguments token legacy =>
      refine Keeping.Holds.map ((beginJoin_leaves sound faithful).mono
        fun a _ _ _ now => ⟨now, fun key is => ?_⟩)
      cases a <;> cases is
  | finishJoin ticket legacy =>
      refine Keeping.Holds.map ((finishJoin_holds sound faithful).mono
        fun a _ _ _ now => ⟨now.1, fun key is => absurd ?_ (now.2 key)⟩)
      cases a with
      | error e => cases is
      | ok reservation => exact congrArg Except.ok (Answer.reservation.inj (Except.ok.inj is))
  | reserveShell arguments token =>
      refine Keeping.Holds.map ((reserveShell_leaves sound faithful).mono
        fun a _ _ _ now => ⟨now, fun key is => ?_⟩)
      cases a <;> cases is
  | finishShell arguments token result => exact done (finishShell_leaves sound faithful)
  | reserve arguments token legacy =>
      refine Keeping.Holds.map ((reserve_holds sound faithful).mono
        fun a _ _ _ now => ⟨now.1, fun key is => now.2 key ?_⟩)
      cases a with
      | error e => cases is
      | ok reservation => exact congrArg Except.ok (Answer.reservation.inj (Except.ok.inj is))
  | spawnFailed key =>
      refine done (Keeping.Holds.reads sound (fun _ _ => ?_) fun _ _ => faithful)
      refine Keeping.Holds.reads sound (fun _ _ => ?_) fun _ _ => faithful
      exact refuse_leaves sound faithful
  | claimHost key host => exact done (claimHost_leaves sound faithful)
  | startingProvider key => exact done (startingProvider_leaves sound faithful)
  | ownedProvider key provider => exact done (ownedProvider_leaves sound faithful)
  | recordSupport key support => exact done (recordSupport_leaves sound faithful)
  | publishBase key generation =>
      refine done (Keeping.Holds.reads sound (fun _ is => ?_) fun _ _ => faithful)
      obtain ⟨v, now, phase⟩ := checkLive_ok is
      exact baseStep_leaves sound faithful (at_of_current faithful now phase)
  | publishRun key =>
      refine done (Keeping.Holds.reads sound (fun _ is => ?_) fun _ _ => faithful)
      obtain ⟨v, now, phase⟩ := checkLive_ok is
      exact runStep_leaves sound faithful (at_of_current faithful now phase)
  | settleRecovery key host actualPid receipt pid =>
      refine done (Keeping.Holds.reads sound (fun _ _ => ?_) fun _ _ => faithful)
      refine Keeping.Holds.reads sound (fun _ _ => ?_) fun _ _ => faithful
      exact settle_leaves sound faithful
  | foregroundAbsent registered proof hostAbsent => exact done (foregroundAbsent_leaves sound faithful)

end Khor.Live
