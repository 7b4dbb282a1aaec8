/-
Module: Khor.Live.Asking
Purpose: What a later call for a token is answered after its outcome has been recorded, in any state that
  the row can come to before a newer token is accepted.
Trusted boundary: the later call can read what it looks at
Main exports: Readable, Arrives, AskedAgain, outcomes_asked_again, a_new_title_hides_the_outcome
-/
import Khor.Live.Authority
import Khor.Live.Recover

namespace Khor.Live

open Khor.Node.Journal (Identity)

variable {x : Encoding} {c : Codec} {m : Machine} {a : Ask} {v : RowView}

/-! ### What is recorded stays -/

/-- No newer token has been accepted. -/
def Newest (w w' : World) : Prop := highWaterOf w'.row.stored = highWaterOf w.row.stored

variable {w : World} {l : Latest} {b : LatestAction} {arguments : Arguments} {d : Option Document}
  {launch : NativeLaunch} {token : Token}

/-- An outcome stays recorded until a newer token is accepted. -/
theorem attempt_stays {w' : World} (inv : Inv x w) (run : Runs x w w') (newest : Newest w w') {r : Recorded}
    (last : actionOf w.row.stored = none) (is : latestOf w.row.stored = some l) (result : l.result = some r) :
    actionOf w'.row.stored = none ∧ ∃ l', latestOf w'.row.stored = some l' ∧ l'.key = l.key ∧
      l'.result = some r ∧ l'.token.epoch = highWaterOf w'.row.stored := by
  obtain ⟨inv', follows⟩ := inv.runs run
  have high : highWaterOf w.row.stored = l.token.epoch := by
    obtain ⟨d, there, is⟩ := Option.bind_eq_some_iff.mp is
    rw [there] at last ⊢
    exact (latest_checks (inv.sound.valid d there) is).1 last
  obtain ⟨l', is', advances | above⟩ := follows.latest l is
  · have epoch : l'.token.epoch = highWaterOf w'.row.stored := by
      rw [key_token advances.key, ← high]
      exact newest.symm
    refine ⟨?_, l', is', advances.key, advances.result r result, epoch⟩
    obtain ⟨d', there', latest'⟩ := Option.bind_eq_some_iff.mp is'
    rw [there'] at epoch ⊢
    cases action : d'.action with
    | none => exact action
    | some b =>
        obtain ⟨same, below⟩ := action_high (inv'.sound.valid d' there') action
        have lt := below l' latest'
        rw [epoch] at lt
        rw [show highWaterOf (some d') = b.token.epoch from same] at lt
        exact absurd lt (UInt64.lt_irrefl _)
  · have le := inv'.sound.latest_le is'
    rw [newest] at le
    exact absurd le (UInt64.not_le.mpr above)

theorem action_stays {w' : World} (inv : Inv x w) (run : Runs x w w') (newest : Newest w w')
    (is : actionOf w.row.stored = some b) (closed : b.result.pending = false) :
    actionOf w'.row.stored = some b ∧ highWaterOf w'.row.stored = b.token.epoch := by
  obtain ⟨inv', follows⟩ := inv.runs run
  rcases follows.action b is closed with stays | above
  · refine ⟨stays, ?_⟩
    obtain ⟨d, there, action⟩ := Option.bind_eq_some_iff.mp stays
    rw [there]
    exact (action_high (inv'.sound.valid d there) action).1
  · rw [newest] at above
    exact absurd above (UInt64.lt_irrefl _)

/-- The mark has not moved at a state between two of one mark. -/
theorem Newest.between {w₁ w₂ : World} (inv : Inv x w) (first : Runs x w w₁) (second : Runs x w₁ w₂)
    (newest : Newest w w₂) : Newest w w₁ := by
  obtain ⟨inv₁, follows₁⟩ := inv.runs first
  have back := (inv₁.runs second).2.high
  rw [newest] at back
  exact UInt64.le_antisymm back follows₁.high

/-! ### Looking it up -/

theorem failWhen_of_not {bad : Prop} [Decidable bad] {why : String} (h : ¬bad) :
    failWhen bad why = .ok () := if_neg h

theorem checkedAt {id : SessionId} {native : Identity} {expected : Option String} {launch : List UInt8}
    (is : nativeAt x.toExternals id native expected launch = .ok arguments) :
    arguments.validate x.toExternals = .ok () ∧
      arguments = ⟨native.home, id, expected, .recoverNative, native, x.digest launch⟩ := by
  obtain ⟨u, valid, is⟩ := bind_ok.mp is
  cases is
  exact ⟨valid, rfl⟩

theorem no_barrier (clean : (d.bind (·.cleanupBarrier)) = none) : (⟨d, false⟩ : Held).hasCleanupBarrier = false := by
  rw [Held.hasCleanupBarrier]
  exact Option.isSome_eq_false_iff.mpr (Option.isNone_iff_eq_none.mpr clean)

/-- A document answers the last token that it gave out with what is recorded under it. -/
theorem replay_last {t : Token} {answer : Except String Reservation} (epoch : highWaterOf d = t.epoch)
    (clean : (d.bind (·.cleanupBarrier)) = none) (valid : arguments.validate x.toExternals = .ok ())
    (token : t.validate = .ok ()) (operation : arguments.operation = .recoverNative)
    (elsewhere : (⟨d, false⟩ : Held).elsewhere arguments = false)
    (recorded : (⟨d, false⟩ : Held).recorded arguments t = answer) :
    (⟨d, false⟩ : Held).replay x.toExternals arguments t = answer.map some := by
  have high : (⟨d, false⟩ : Held).highWater = t.epoch := epoch
  have ensure : (⟨d, false⟩ : Held).ensure = .ok () := ensure_ok.mpr rfl
  unfold Held.replay
  rw [ensure, valid, token, no_barrier clean, operation, elsewhere, high, recorded]
  rw [failWhen_of_not (by simp), failWhen_of_not (by simp)]
  change (if t.epoch < t.epoch then _ else if t.epoch = t.epoch then _ else _) = _
  rw [if_neg (UInt64.lt_irrefl _), if_pos rfl]

/-- The answer of a document with a recorded attempt to its token. -/
theorem replay_recorded {r : Recorded} (action : actionOf d = none) (is : latestOf d = some l)
    (result : l.result = some r) (epoch : l.token.epoch = highWaterOf d) (clean : (d.bind (·.cleanupBarrier)) = none)
    (valid : arguments.validate x.toExternals = .ok ()) (token : l.token.validate = .ok ())
    (operation : arguments.operation = .recoverNative) (home : arguments.home = l.arguments.home)
    (id : arguments.id = l.arguments.id) (native : arguments.native = l.arguments.native) :
    (⟨d, false⟩ : Held).replay x.toExternals arguments l.token =
      if arguments = l.arguments then .ok (some (.recorded r))
      else .error "recovery token was reused with different arguments" := by
  obtain ⟨e, rfl, latest⟩ := Option.bind_eq_some_iff.mp is
  have elsewhere : (⟨some e, false⟩ : Held).elsewhere arguments = false := by
    simp [Held.elsewhere, latest, home, id, native]
  have recorded : (⟨some e, false⟩ : Held).recorded arguments l.token =
      if arguments = l.arguments then .ok (.recorded r)
      else .error "recovery token was reused with different arguments" := by
    have none : (⟨some e, false⟩ : Held).action = none := action
    simp only [Held.recorded, none, latest, result, true_and]
  rw [replay_last epoch.symm clean valid token operation elsewhere recorded]
  split <;> rfl

/-- The answer of a document with a finished join to its token. -/
theorem replay_joined {run : Option String} (is : actionOf d = some b) (of_ : b.arguments = .native arguments)
    (result : b.result = .join run) (epoch : highWaterOf d = b.token.epoch)
    (clean : (d.bind (·.cleanupBarrier)) = none) (valid : arguments.validate x.toExternals = .ok ())
    (token : b.token.validate = .ok ()) (operation : arguments.operation = .recoverNative)
    (scope : ∀ l, latestOf d = some l → l.arguments.home = arguments.home ∧
      l.arguments.id = arguments.id ∧ l.arguments.native = arguments.native) :
    (⟨d, false⟩ : Held).replay x.toExternals arguments b.token = .ok (some (.joined run)) := by
  obtain ⟨e, rfl, action⟩ := Option.bind_eq_some_iff.mp is
  have elsewhere : (⟨some e, false⟩ : Held).elsewhere arguments = false := by
    cases latest : e.latest with
    | none => simp [Held.elsewhere, latest, action, of_, ActionArguments.scope]
    | some l =>
        obtain ⟨home, id, native⟩ := scope l latest
        simp [Held.elsewhere, latest, home, id, native]
  have recorded : (⟨some e, false⟩ : Held).recorded arguments b.token = .ok (.joined run) := by
    have some_ : (⟨some e, false⟩ : Held).action = some b := action
    simp only [Held.recorded, some_, of_, result, and_self, if_true]
  exact replay_last epoch clean valid token operation elsewhere recorded

/-- The answer of a document with a finished action to its token. -/
theorem actionReplay_recorded {arguments : ActionArguments} (is : actionOf d = some b)
    (epoch : highWaterOf d = b.token.epoch) (clean : (d.bind (·.cleanupBarrier)) = none)
    (valid : arguments.validate x.toExternals = .ok ()) (token : b.token.validate = .ok ()) :
    (⟨d, false⟩ : Held).actionReplay x.toExternals arguments b.token =
      if arguments = b.arguments then .ok (some (.recorded b.result))
      else .error "recovery token was reused with different arguments" := by
  have some_ : (⟨d, false⟩ : Held).action = some b := is
  have high : (⟨d, false⟩ : Held).highWater = b.token.epoch := epoch
  have ensure : (⟨d, false⟩ : Held).ensure = .ok () := ensure_ok.mpr rfl
  unfold Held.actionReplay
  rw [ensure, valid, token, no_barrier clean, high, some_]
  rw [failWhen_of_not (by simp)]
  change (if b.token.epoch < b.token.epoch then _ else if b.token.epoch = b.token.epoch then _ else _) = _
  rw [if_neg (UInt64.lt_irrefl _), if_pos rfl]
  simp only [true_and, eq_comm]

/-! ### Later calls -/

/-- Digests are 64 hexadecimal characters. -/
def Hexed (x : Encoding) : Prop := ∀ bytes, hex (x.digest bytes) 64 = .ok ()

/-- A gate of the row where the call can read, and where the row is of the conversation. -/
structure Readable (a : Ask) (native : Identity) (g : GateView) : Prop where
  reads : ∃ legacy found binding, g.legacy = .ok legacy ∧ g.found = .ok found ∧ g.binding = .ok binding ∧
    checkBound a.id found native legacy binding = .ok ()

/-- The call is for the home and from a caller that it answers. -/
structure Admitted (m : Machine) (a : Ask) (v : RowView) : Prop where
  home : a.home = m.device
  hint : a.hint = .ok ()
  hosting : m.hosting = .ok ()
  named : v.named = .ok ()

/-- The row has metadata, of a conversation that the call can name. -/
structure Found (x : Encoding) (m : Machine) (a : Ask) (v : RowView) (native : Identity) : Prop where
  row : ∃ found, recoveryMeta a.id v.found = .ok (some found) ∧ found.kind = GUI ∧
    recoveryNative x.toExternals m a.id v found = .ok (some native)
  join : Readable a native v.join
  there : v.join.found ≠ .ok none

theorem launch_native {title : String} {place : Option String} {native : Identity}
    (worked : recoveryLaunch c m title place native = .ok launch) : launch.native = native := by
  obtain ⟨_, _, worked⟩ := bind_ok.mp worked
  obtain ⟨_, _, worked⟩ := bind_ok.mp worked
  cases place with
  | none => cases worked
  | some place =>
      obtain ⟨_, worked⟩ := bind_failWhen.mp worked
      obtain ⟨_, _, worked⟩ := bind_ok.mp worked
      obtain ⟨_, _, worked⟩ := bind_ok.mp worked
      cases worked
      rfl

/-- The call comes to work out what it would launch; `worked` is what comes of it. -/
inductive Arrives (x : Encoding) (c : Codec) (m : Machine) (a : Ask) (v : RowView) :
    Identity → Except String NativeLaunch → Prop where
  | row {native : Identity} {again : Meta} (found : Found x m a v native)
      (read : recoveryRow a.id v.again = .ok again) :
      Arrives x c m a v native (recoveryLaunch c m again.title again.place native)
  | observed {record : Observation} (read : recoveryMeta a.id v.found = .ok none)
      (first : a.expectedRun = none) (seen : v.observation = .ok record)
      (ended : v.ended ⟨a.home, record.agent, record.nativeId⟩ = .ok true) :
      Arrives x c m a v ⟨a.home, record.agent, record.nativeId⟩
        (recoveryLaunch c m record.title record.cwd ⟨a.home, record.agent, record.nativeId⟩)

theorem Arrives.native {native : Identity} (arrives : Arrives x c m a v native (.ok launch)) :
    launch.native = native := by
  generalize is : (Except.ok launch : Except String NativeLaunch) = worked at arrives
  cases arrives with
  | row | observed => exact launch_native is.symm

/-- The call is for the token and the arguments. -/
structure Ask.For (a : Ask) (token : Token) (arguments : Arguments) : Prop where
  home : a.home = arguments.home
  id : a.id = arguments.id
  expectedRun : a.expectedRun = arguments.expectedRun
  token : actionToken a.supplied = .ok token

/-- What a recorded result is told as. -/
def outcome : Recorded → RecoveryResult
  | .opened id runId => .opened id runId
  | .refused reason => .refused reason.text

theorem nativeAt_valid (hexed : Hexed x) (valid : arguments.validate x.toExternals = .ok ())
    (operation : arguments.operation = .recoverNative) (launch : List UInt8) :
    nativeAt x.toExternals arguments.id arguments.native arguments.expectedRun launch =
      .ok { arguments with launchDigest := x.digest launch } := by
  obtain ⟨exact_, valid⟩ := bind_failWhen.mp valid
  obtain ⟨_, _, run⟩ := bind_ok.mp valid
  obtain ⟨home, id, expectedRun, _, native, digest⟩ := arguments
  cases operation
  push Not at exact_
  have same : home = native.home := exact_.1
  subst same
  have checked : Arguments.validate x.toExternals
      ⟨native.home, id, expectedRun, .recoverNative, native, x.digest launch⟩ = .ok () := by
    unfold Arguments.validate
    rw [failWhen_of_not (by push Not; exact exact_)]
    change (hex (x.digest launch) 64 >>= fun _ => whenSome expectedRun (hex · 32)) = .ok ()
    rw [hexed launch]
    exact run
  unfold nativeAt
  simp only [checked]
  rfl

/-- What the join's gate answers, where the call can read it. -/
theorem join_of_readable {native : Identity} (readable : Readable a native v.join) (there : v.join.found ≠ .ok none)
    (checked : joinArgumentsAt x.toExternals a.id native a.expectedRun = .ok arguments)
    (of_ : actionToken a.supplied = .ok token) : ∃ found, joinRecoveryIfLive x.toExternals m a native v.join =
      match answerOf m a.id a.supplied.epoch
          ((⟨v.join.document, false⟩ : Held).replayJoin x.toExternals arguments token) with
      | some answer => .ok (some answer)
      | none =>
          if (⟨v.join.document, false⟩ : Held).isExecutionToken token then .ok none
          else if found.guiRun.map (·.id) ≠ a.expectedRun then
            .ok (some (.reply (.refused "expected-execution-changed")))
          else if guiSlotEnded found || !found.pid.any m.running then .ok none
          else .ok (some .onward) := by
  obtain ⟨legacy, found, binding, readLegacy, readFound, readBinding, bound⟩ := readable.reads
  cases found with
  | none => exact absurd readFound there
  | some found =>
      refine ⟨found, ?_⟩
      unfold joinRecoveryIfLive
      rw [checked, of_, readLegacy, readFound, readBinding]
      change (checkBound a.id (some found) native legacy binding >>= fun _ => _) = _
      rw [bound]
      rfl

/-- The first half of a call that finds the row, at the gate of the join. -/
theorem sought_row {native : Identity} (admitted : Admitted m a v) (found : Found x m a v native)
    (of_ : actionToken a.supplied = .ok token)
    (checked : joinArgumentsAt x.toExternals a.id native a.expectedRun = .ok arguments) :
    sought x.toExternals c m a v = (do
      match ← joinRecoveryIfLive x.toExternals m a native v.join with
      | some answer => return .answer answer
      | none => do
          let found ← recoveryRow a.id v.again
          return .launch (← recoveryLaunch c m found.title found.place native)) := by
  obtain ⟨row, read, gui, source⟩ := found.row
  unfold sought
  rw [if_neg (not_not.mpr admitted.home), of_, admitted.hint, admitted.hosting, admitted.named, read]
  change soughtRow x.toExternals c m a v row = _
  unfold soughtRow
  rw [if_neg (not_not.mpr gui), source]
  dsimp only [bind, Except.bind]
  rw [checked] <;> rfl

/-- At the gate of the join, the token of a recorded attempt is not of a join. -/
theorem replayJoin_execution {joined : Arguments} (valid : joined.validate x.toExternals = .ok ())
    (token : l.token.validate = .ok ()) (action : actionOf d = none) (is : latestOf d = some l)
    (epoch : l.token.epoch = highWaterOf d) : (⟨d, false⟩ : Held).replayJoin x.toExternals joined l.token = .ok none ∧
      (⟨d, false⟩ : Held).isExecutionToken l.token = true := by
  obtain ⟨e, rfl, latest⟩ := Option.bind_eq_some_iff.mp is
  constructor
  · have ensure : (⟨some e, false⟩ : Held).ensure = .ok () := ensure_ok.mpr rfl
    have high : (⟨some e, false⟩ : Held).highWater = l.token.epoch := epoch.symm
    have none : (⟨some e, false⟩ : Held).action = none := action
    have last : (⟨some e, false⟩ : Held).latest = some l := is
    unfold Held.replayJoin
    rw [ensure, valid, token, high, none, last]
    change (if l.token.epoch < l.token.epoch then _ else if l.token.epoch = l.token.epoch then _ else _) = _
    rw [if_neg (UInt64.lt_irrefl _), if_pos rfl, failWhen_of_not (by simp)]
    rfl
  · have high : e.highWater = l.token.epoch := epoch.symm
    have none : e.action = none := action
    simp [Held.isExecutionToken, high, none, latest]

/-- A call for the token of a recorded attempt works out its launch, and is not taken for a join. -/
theorem sought_launch (hexed : Hexed x) {native : Identity} {worked : Except String NativeLaunch}
    (action : actionOf d = none) (is : latestOf d = some l) (epoch : l.token.epoch = highWaterOf d)
    (valid : l.arguments.validate x.toExternals = .ok ()) (token : l.token.validate = .ok ())
    (operation : l.arguments.operation = .recoverNative) (for_ : a.For l.token l.arguments)
    (admitted : Admitted m a v) (arrives : Arrives x c m a v native worked) (same : native = l.arguments.native)
    (there : v.join.document = d) : sought x.toExternals c m a v = worked.map Sought.launch := by
  cases arrives with
  | @row native again found read =>
      subst same
      obtain ⟨joined, checked⟩ : ∃ joined,
          joinArgumentsAt x.toExternals a.id l.arguments.native a.expectedRun = .ok joined := by
        rw [for_.id, for_.expectedRun]
        exact ⟨_, nativeAt_valid hexed valid operation _⟩
      rw [sought_row admitted found for_.token checked]
      obtain ⟨row, joins⟩ := join_of_readable (m := m) found.join found.there checked for_.token
      obtain ⟨replays, execution⟩ := replayJoin_execution (checkedAt checked).1 token action is epoch
      rw [joins, there, replays]
      simp only [answerOf, execution, if_true]
      change (recoveryRow a.id v.again >>= fun found =>
        recoveryLaunch c m found.title found.place l.arguments.native >>= fun launch =>
          pure (Sought.launch launch)) = _
      rw [read]
      rfl
  | @observed record read first seen ended =>
      unfold sought
      rw [if_neg (not_not.mpr admitted.home), for_.token, admitted.hint, admitted.hosting, admitted.named, read]
      change soughtObserved c m a v = _
      unfold soughtObserved
      rw [first, seen]
      change (v.ended ⟨a.home, record.agent, record.nativeId⟩ >>= fun ended => _) = _
      rw [ended]
      rfl

/-! ### The recorded outcome, asked for again -/

def reused : String := "recovery token was reused with different arguments"

/-- What later calls are answered for what is recorded at `w`, when they find the document of `w₁` at their
first gate and that of `w₂` at the second. A call that cannot work out its launch, or a shell's arguments, is
answered that before its token is looked up. -/
structure AskedAgain (x : Encoding) (c : Codec) (w w₁ w₂ : World) : Prop where
  native : ∀ l r, actionOf w.row.stored = none → latestOf w.row.stored = some l → l.result = some r →
    l.arguments.operation = .recoverNative → ∀ m a v worked, Ask.For a l.token l.arguments →
      Admitted m a v → Arrives x c m a v l.arguments.native worked →
      Readable a l.arguments.native v.gate → v.join.document = w₁.row.stored →
      v.gate.document = w₂.row.stored →
        recoverSessionHere x.toExternals c m a v = do
          let launch ← worked
          return .reply (if x.digest launch.encoded = l.arguments.launchDigest then outcome r
            else .refused reused)
  join : ∀ b arguments run, actionOf w.row.stored = some b → b.arguments = .native arguments →
    b.result = .join run → ∀ m a v, Ask.For a b.token arguments →
      joinArgumentsAt x.toExternals a.id arguments.native a.expectedRun = .ok arguments →
      Admitted m a v → Found x m a v arguments.native → v.join.document = w₁.row.stored →
        recoverSessionHere x.toExternals c m a v = .ok (.reply (.join a.id run))
  shell : ∀ b, actionOf w.row.stored = some b → b.result.completesShell = true →
    ∀ m a v, actionToken a.supplied = .ok b.token → v.document = w₁.row.stored →
      newShellRunHere x.toExternals c m a v = do
        match ← shellArguments x.toExternals c m a v with
        | .inl answer => return .reply answer
        | .inr arguments =>
            return .reply (if arguments = b.arguments then shellReplay a.id a.supplied.epoch (.recorded b.result)
              else .refused reused)

theorem latest_token {d : Document} (valid : d.validate x.toExternals = .ok ()) (is : d.latest = some l) :
    l.token.validate = .ok () ∧ l.arguments.validate x.toExternals = .ok () := by
  obtain ⟨u, token, rest⟩ := bind_ok.mp (latest_checks valid is).2
  obtain ⟨u', arguments, _⟩ := bind_ok.mp rest
  exact ⟨token, arguments⟩

theorem action_token {d : Document} (valid : d.validate x.toExternals = .ok ()) (is : d.action = some b) :
    b.token.validate = .ok () := by
  obtain ⟨parts, _⟩ := validate_parts valid
  rw [is] at parts
  obtain ⟨_, checked, _⟩ := bind_ok.mp parts
  obtain ⟨u, token, _⟩ := bind_ok.mp checked
  exact token

theorem action_scope {d : Document} (valid : d.validate x.toExternals = .ok ()) (is : d.action = some b)
    (latest : d.latest = some l) : (l.arguments.home, l.arguments.id) = b.arguments.scope := by
  obtain ⟨parts, _⟩ := validate_parts valid
  rw [is] at parts
  obtain ⟨_, _, parts⟩ := bind_ok.mp parts
  obtain ⟨high, _⟩ := bind_failWhen.mp parts
  push Not at high
  exact (high.2 l latest).2

/-- The second half of a call, where it can read. -/
theorem ask_readable {g : GateView} (readable : Readable a launch.native g)
    (checked : nativeAt x.toExternals a.id launch.native a.expectedRun launch.encoded = .ok arguments)
    (of_ : actionToken a.supplied = .ok token) : ∃ found : Option Meta, askNative x.toExternals m a launch g =
      match answerOf m a.id a.supplied.epoch
          ((⟨g.document, false⟩ : Held).replay x.toExternals arguments token) with
      | some answer => .ok answer
      | none =>
          if (found.bind (·.guiRun)).map (·.id) ≠ a.expectedRun then
            .ok (.reply (.refused "expected-execution-changed"))
          else .ok .onward := by
  obtain ⟨legacy, found, binding, readLegacy, readFound, readBinding, bound⟩ := readable.reads
  refine ⟨found, ?_⟩
  unfold askNative
  rw [checked, of_, readLegacy, readFound, readBinding]
  change (checkBound a.id found launch.native legacy binding >>= fun _ => _) = _
  rw [bound]
  rfl

/-- The arguments of the call are the recorded ones where the launch digests as the recorded one. -/
theorem same_launch (for_ : a.For l.token l.arguments) (native : launch.native = l.arguments.native) :
    ({ l.arguments with
        id := a.id
        expectedRun := a.expectedRun
        native := launch.native
        launchDigest := x.digest launch.encoded } : Arguments) = l.arguments ↔
      x.digest launch.encoded = l.arguments.launchDigest := by
  constructor
  · exact fun same => congrArg Arguments.launchDigest same
  · intro same
    rw [for_.id, for_.expectedRun, native, same]

theorem replayJoin_joined {run : Option String} (is : actionOf d = some b) (epoch : highWaterOf d = b.token.epoch)
    (valid : arguments.validate x.toExternals = .ok ()) (token : b.token.validate = .ok ())
    (replays : (⟨d, false⟩ : Held).replay x.toExternals arguments b.token = .ok (some (.joined run))) :
    (⟨d, false⟩ : Held).replayJoin x.toExternals arguments b.token = .ok (some (.joined run)) := by
  have ensure : (⟨d, false⟩ : Held).ensure = .ok () := ensure_ok.mpr rfl
  have high : (⟨d, false⟩ : Held).highWater = b.token.epoch := epoch
  have some_ : (⟨d, false⟩ : Held).action = some b := is
  unfold Held.replayJoin
  rw [ensure, valid, token, high, some_, replays]
  change (if b.token.epoch < b.token.epoch then _ else if b.token.epoch = b.token.epoch then _ else _) = _
  rw [if_neg (UInt64.lt_irrefl _), if_pos rfl]
  rfl

theorem shellArguments_valid {a : ShellAsk} {v : ShellView} {arguments : ActionArguments}
    (worked : shellArguments x.toExternals c m a v = .ok (.inr arguments)) :
    arguments.validate x.toExternals = .ok () := by
  unfold shellArguments at worked
  split at worked
  · cases worked
  obtain ⟨_, _, worked⟩ := bind_ok.mp worked
  split at worked
  · cases worked
  split at worked
  · cases worked
  split at worked
  · cases worked
  obtain ⟨_, _, worked⟩ := bind_ok.mp worked
  obtain ⟨found, _, worked⟩ := bind_ok.mp worked
  split at worked
  · cases worked
  split at worked
  · cases worked
  obtain ⟨value, made, worked⟩ := bind_ok.mp worked
  obtain rfl := Sum.inr.inj (Except.ok.inj worked)
  obtain ⟨u, valid, made⟩ := bind_ok.mp made
  cases made
  exact valid

theorem outcomes_asked_again (x : Encoding) (c : Codec) (hexed : Hexed x) (w w₁ w₂ : World)
    (reached : Reached x w) (first : Runs x w w₁) (second : Runs x w₁ w₂) (newest : Newest w w₂)
    (clean₁ : w₁.row.stored.bind (·.cleanupBarrier) = none)
    (clean₂ : w₂.row.stored.bind (·.cleanupBarrier) = none) : AskedAgain x c w w₁ w₂ := by
  have inv : Inv x w := (Inv.initial.runs reached).1
  have newest₁ : Newest w w₁ := newest.between inv first second
  refine ⟨?_, ?_, ?_⟩
  · intro l r last is result operation m a v worked for_ admitted arrives readable there there'
    obtain ⟨d, stored, latest⟩ := Option.bind_eq_some_iff.mp is
    obtain ⟨token, valid⟩ := latest_token (inv.sound.valid d stored) latest
    obtain ⟨last₁, l₁, is₁, key₁, result₁, epoch₁⟩ := attempt_stays inv first newest₁ last is result
    obtain ⟨last₂, l₂, is₂, key₂, result₂, epoch₂⟩ :=
      attempt_stays inv (first.trans second) newest last is result
    have arguments₁ : l₁.arguments = l.arguments := congrArg AttemptKey.arguments key₁
    have arguments₂ : l₂.arguments = l.arguments := congrArg AttemptKey.arguments key₂
    have gone : sought x.toExternals c m a v = worked.map Sought.launch := by
      refine sought_launch hexed last₁ is₁ epoch₁ ?_ ?_ ?_ ?_ admitted arrives ?_ there
      all_goals first
        | rw [arguments₁]
        | skip
      · exact valid
      · rw [key_token key₁]
        exact token
      · exact operation
      · rw [key_token key₁]
        exact for_
    unfold recoverSessionHere
    rw [gone]
    cases worked with
    | error why => rfl
    | ok launch =>
        have native := arrives.native
        rw [← native] at readable
        have checked := nativeAt_valid hexed valid operation launch.encoded
        rw [← for_.id, ← for_.expectedRun, ← native] at checked
        have asked := ask_readable (m := m) readable checked for_.token
        obtain ⟨found, asked⟩ := asked
        change askNative x.toExternals m a launch v.gate = .ok _
        rw [asked, there', ← key_token key₂]
        rw [replay_recorded last₂ is₂ result₂ epoch₂ clean₂ (checkedAt checked).1 (by rw [key_token key₂]; exact token)
          operation (by rw [arguments₂]) (by rw [arguments₂]; exact for_.id) (by rw [arguments₂]; exact native)]
        by_cases same : x.digest launch.encoded = l.arguments.launchDigest
        · rw [if_pos same, if_pos (by rw [arguments₂]; exact (same_launch for_ native).mpr same)]
          cases r <;> rfl
        · rw [if_neg same, if_neg (by rw [arguments₂]; exact fun is => same ((same_launch for_ native).mp is))]
          rfl
  · intro b arguments run is of_ result m a v for_ checked admitted found there
    obtain ⟨is₁, epoch₁⟩ := action_stays inv first newest₁ is (by rw [result]; rfl)
    obtain ⟨d, stored, action⟩ := Option.bind_eq_some_iff.mp is
    have token := action_token (inv.sound.valid d stored) action
    have inv₁ := (inv.runs first).1
    have scope : ∀ l, latestOf w₁.row.stored = some l → l.arguments.home = arguments.home ∧
        l.arguments.id = arguments.id ∧ l.arguments.native = arguments.native := by
      intro l latest
      obtain ⟨d₁, stored₁, latest'⟩ := Option.bind_eq_some_iff.mp latest
      have action₁ : d₁.action = some b := by
        rw [stored₁] at is₁
        exact is₁
      have same := action_scope (inv₁.sound.valid d₁ stored₁) action₁ latest'
      rw [of_] at same
      exact ⟨congrArg Prod.fst same, congrArg Prod.snd same, inv₁.sound.aligned b is₁ _ l of_ latest⟩
    have replays := replay_joined is₁ of_ result epoch₁ clean₁ (checkedAt checked).1 token
      (by rw [(checkedAt checked).2]) scope
    have joins := replayJoin_joined is₁ epoch₁ (checkedAt checked).1 token replays
    obtain ⟨row, asked⟩ := join_of_readable (m := m) found.join found.there checked for_.token
    unfold recoverSessionHere
    rw [sought_row admitted found for_.token checked, asked, there, joins]
    rfl
  · intro b is closed m a v of_ there
    have pending : b.result.pending = false := by
      cases result : b.result <;> rw [result] at closed <;> first | rfl | cases closed
    obtain ⟨is₁, epoch₁⟩ := action_stays inv first newest₁ is pending
    obtain ⟨d, stored, action⟩ := Option.bind_eq_some_iff.mp is
    have token := action_token (inv.sound.valid d stored) action
    have barrier : (⟨v.document, false⟩ : Held).hasCleanupBarrier = false := by
      rw [Held.hasCleanupBarrier, there]
      exact Option.isSome_eq_false_iff.mpr (Option.isNone_iff_eq_none.mpr clean₁)
    unfold newShellRunHere
    cases worked : shellArguments x.toExternals c m a v with
    | error why => rfl
    | ok sought =>
        cases sought with
        | inl answer => rfl
        | inr arguments =>
            change (actionToken a.supplied >>= fun token => _) = _
            rw [of_]
            change (failWhen ((⟨v.document, false⟩ : Held).hasCleanupBarrier = true) "source cleanup is unconfirmed"
              >>= fun _ => _) = _
            rw [failWhen_of_not (by rw [barrier]; decide), there]
            have recorded := actionReplay_recorded is₁ epoch₁ clean₁ (shellArguments_valid worked) token
            dsimp only [bind, Except.bind]
            rw [recorded]
            by_cases same : arguments = b.arguments
            · rw [if_pos same, if_pos same]
            · rw [if_neg same, if_neg same]
              rfl

/-! ### A row that has been renamed -/

/-- As `zeros`, with another digest for what is not empty. -/
def twoDigests : Encoding :=
  { zeros with
    digest := fun bytes =>
      if bytes = [] then "0000000000000000000000000000000000000000000000000000000000000000"
      else "1111111111111111111111111111111111111111111111111111111111111111" }

/-- The text of a launch is its title. -/
def titles : Codec where
  launch := fun _ title _ _ => title.toList.map fun c => UInt8.ofNat c.toNat
  shell := fun _ _ _ _ title _ => title.toList.map fun c => UInt8.ofNat c.toNat

def plainMachine : Machine where
  device := [1]
  hosting := .ok ()
  userPath := "/bin"
  installedExe := .ok "/bin/khor"
  agentOrRefuse := fun name => .ok ⟨name, []⟩
  launchOn := fun spec _ => .ok spec.command
  isDir := fun _ => true
  canonicalize := .ok
  savedEnvironment := fun _ => .ok []
  defaultShell := "/bin/sh"
  directory := .ok
  running := fun _ => false
  present := fun _ => false

def firstAsk : Ask where
  home := [1]
  id := "tui/n"
  expectedRun := none
  supplied := ⟨"1", "00000000000000000000000000000000"⟩
  hint := .ok ()

def titledMeta (title : String) : Meta where
  kind := GUI
  title := title
  id := "tui/n"
  pid := none
  category := none
  place := some "/"
  shellRun := none
  guiNative := some ⟨[1], "a", "n"⟩
  guiRun := none

/-- The row under a title, with a document at its gates. -/
def titledView (title : String) (document : Option Document) : RowView :=
  let gate : GateView := ⟨.ok (some (titledMeta title)), .ok none, .ok none, document⟩
  { named := .ok ()
    found := .ok (some (titledMeta title))
    bound := .ok none
    legacy := .ok none
    target := fun _ => .ok ()
    join := gate
    again := .ok (some (titledMeta title))
    observation := .error "observation reference is unavailable"
    ended := fun _ => .ok false
    gate := gate }

/-- The first attempt, whose host could not be spawned. -/
def refusedLatest : Latest where
  token := firstToken
  arguments := firstArguments
  runId := firstRun
  phase := .refused
  host := none
  unverifiedHostPid := none
  provider := .notStarted
  generation := none
  result := some (.refused .setupFailed)
  support := none

def refusedDocument : Document := { firstDocument with latest := some refusedLatest }

def afterRefusal : World :=
  ⟨⟨some refusedDocument, [], []⟩, some ⟨⟨some refusedDocument, false⟩, none⟩, [⟨none, firstKey⟩]⟩

theorem afterRefusal_reached : Reached twoDigests afterRefusal := by
  have w := Relation.ReflTransGen.refl.tail (@Step.acquire twoDigests .initial rfl)
  have w := w.tail (Step.invoke (.reserve firstArguments firstToken none) rfl)
  have w := w.tail (@Step.call twoDigests _ _ _ .readMeta _ (.ok none) _ rfl rfl)
  have w := w.tail (@Step.call twoDigests _ _ _ .nativeBinding _ (.ok none) _ rfl rfl)
  have w := w.tail (@Step.call twoDigests _ _ _ .freshHex _ (.ok firstRun) _ rfl rfl)
  have w := w.tail (@Step.call twoDigests _ _ _ (.write firstDocument) _ (.ok ()) _ rfl (.inl rfl))
  have w := w.tail (@Step.finish twoDigests _ _ ⟨some firstDocument, false⟩ none
    (.ok (.reservation (.start firstKey))) rfl)
  have w := w.tail (Step.invoke (.spawnFailed firstKey) rfl)
  have w := w.tail (@Step.call twoDigests _ _ _ (.write refusedDocument) _ (.ok ()) _ rfl (.inl rfl))
  exact w.tail (@Step.finish twoDigests _ _ ⟨some refusedDocument, false⟩ (some firstDocument) (.ok .done) rfl)

theorem twoDigests_hexed : Hexed twoDigests := by
  intro bytes
  change hex (if bytes = [] then _ else _) 64 = .ok ()
  split <;> decide

/-- A recovery is accepted and refused. Under the title that the row had, a later call is told so; under
another title it is told that its token was reused. -/
theorem a_new_title_hides_the_outcome :
    recoverSessionHere twoDigests.toExternals titles plainMachine firstAsk (titledView "" none) =
        .ok .onward ∧
      Reached twoDigests afterRefusal ∧
      (latestOf afterRefusal.row.stored).bind (·.result) = some (.refused .setupFailed) ∧
      recoverSessionHere twoDigests.toExternals titles plainMachine firstAsk
        (titledView "" afterRefusal.row.stored) = .ok (.reply (.refused "setup-failed")) ∧
      recoverSessionHere twoDigests.toExternals titles plainMachine firstAsk
        (titledView "renamed" afterRefusal.row.stored) = .ok (.reply (.refused reused)) :=
  ⟨by decide +kernel, afterRefusal_reached, by rfl, by decide +kernel, by decide +kernel⟩

theorem the_refusal_is_told_again :
    highWaterOf afterRefusal.row.stored = 1 ∧
      AskedAgain twoDigests titles afterRefusal afterRefusal afterRefusal :=
  ⟨by rfl, outcomes_asked_again twoDigests titles twoDigests_hexed afterRefusal afterRefusal afterRefusal
    afterRefusal_reached .refl .refl rfl rfl rfl⟩

end Khor.Live
