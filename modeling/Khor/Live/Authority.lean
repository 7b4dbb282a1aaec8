/-
Module: Khor.Live.Authority
Purpose: One execution authority per row: over all runs of the processes that take a row's gate in turn and
  are stopped anywhere, starts are given one above the other, what they supersede can do nothing more, and
  each attempt is published once and keeps its result.
Trusted boundary: the gate is held by one process at a time; a written document is stored whole or not at all
Main exports: World, Step, Reached, Authority, one_execution_authority
-/
import Khor.Live.Fence

namespace Khor.Live

open Keeping (reads)

variable {x : Encoding} {h : Held}

/-! ### Superseded tokens -/

/-- The token an operation is for, where it is for one that was accepted or is to be. -/
def Op.token : Op → Option Token
  | .seedInitialNew .. | .quarantineNewAt .. => none
  | .publishInitialBase authority .. | .publishInitialRun authority .. | .settleInitial authority .. =>
      some authority.key.token
  | .beginJoin _ token _ | .reserveShell _ token | .finishShell _ token _ | .reserve _ token _ => some token
  | .finishJoin ticket _ => some ticket.token
  | .spawnFailed key | .claimHost key _ | .startingProvider key | .ownedProvider key _
  | .recordSupport key _ | .publishBase key _ | .publishRun key | .settleRecovery key .. => some key.token
  | .foregroundAbsent registered .. => some registered.key.token

/-- The program ends with an error before its first call. -/
def Refuses {α : Type} (p : HeldM α) (h : Held) : Prop := ∃ e, p h = .ended (.ok (.error e, h))

/-- A look that goes well leaves the refusal to the rest. -/
theorem Refuses.reads {α β : Type} {f : Held → Except String α} {g : α → HeldM β}
    (next : ∀ a, f h = .ok a → Refuses (g a) h) : Refuses (reads f >>= g) h := by
  cases looked : f h with
  | error e => exact ⟨e, Keeping.bind_reads_error looked⟩
  | ok a =>
      obtain ⟨e, ends⟩ := next a looked
      exact ⟨e, (Keeping.bind_reads_ok looked).trans ends⟩

theorem Refuses.map {α β : Type} {p : HeldM α} {f : α → β} (refuses : Refuses p h) : Refuses (f <$> p) h := by
  obtain ⟨e, ends⟩ := refuses
  exact ⟨e, Keeping.map_ended ends⟩

/-- The token is below the latest attempt's, or nothing can be stored any more. -/
def Superseded (h : Held) (token : Token) : Prop :=
  h.failed = true ∨ ∃ d v, h.document = some d ∧ d.latest = some v ∧
    token.epoch < v.token.epoch ∧ v.token.epoch ≤ d.highWater

/-- The key of an older token names no attempt. -/
theorem Superseded.current {key : AttemptKey} (old : Superseded h key.token) (v : Latest) :
    h.current key ≠ .ok v := by
  intro now
  obtain ⟨fine, same, d, loaded, latest⟩ := current_ok now
  rcases old with failed | ⟨d', v', loaded', latest', lt, _⟩
  · rw [fine] at failed
    cases failed
  · obtain rfl : d' = d := Option.some.inj (loaded'.symm.trans loaded)
    obtain rfl : v' = v := Option.some.inj (latest'.symm.trans latest)
    rw [← same] at lt
    exact UInt64.lt_irrefl _ lt

/-- A superseded token is below the high water. -/
theorem Superseded.high {token : Token} (old : Superseded h token) (fine : h.failed = false) :
    token.epoch < h.highWater := by
  rcases old with failed | ⟨d, v, loaded, _, lt, le⟩
  · rw [fine] at failed
    cases failed
  · rw [Held.highWater, loaded]
    exact UInt64.lt_of_lt_of_le lt le

/-- Nothing is changed for it. -/
theorem Superseded.change {key : AttemptKey} {update : Latest → Except String Latest}
    (old : Superseded h key.token) : Refuses (change x key update) h := by
  refine Refuses.reads fun d is => ?_
  obtain ⟨_, ok, _⟩ := bind_ok.mp is
  cases now : h.current key with
  | ok v => exact absurd now (old.current v)
  | error e =>
      rw [now] at ok
      cases ok

theorem Superseded.checkPending {arguments : ActionArguments} {token : Token} {pending : ActionResult}
    {why : String} {u : Unit} (old : Superseded h token) :
    h.checkPending x arguments token pending why ≠ .ok u := by
  intro is
  obtain ⟨replayed, is, same⟩ := bind_ok.mp is
  have same := not_not.mp (failWhen_ok.mp same)
  obtain ⟨_, ok, is⟩ := bind_ok.mp is
  obtain ⟨_, _, is⟩ := bind_ok.mp is
  obtain ⟨_, _, is⟩ := bind_ok.mp is
  obtain ⟨_, is⟩ := bind_failWhen.mp is
  rw [if_pos (old.high (ensure_ok.mp ok))] at is
  rw [same] at is
  cases is

/-- The program ends before its first call, and with no permission to start. -/
def Idles (p : HeldM Answer) (h : Held) : Prop :=
  ∃ a, p h = .ended (.ok (a, h)) ∧ ∀ key, a ≠ .ok (.reservation (.start key))

/-- A refusal calls nothing. -/
theorem Refuses.idles {p : HeldM Answer} (refuses : Refuses p h) : Idles p h := by
  obtain ⟨e, ends⟩ := refuses
  exact ⟨.error e, ends, fun _ is => by cases is⟩

/-- It is not taken for a new one. -/
theorem Superseded.replay {arguments : Arguments} {token : Token} (old : Superseded h token) :
    h.replay x.toExternals arguments token ≠ .ok none := by
  intro is
  obtain ⟨fine, _, next, _⟩ := replay_none is
  exact UInt64.lt_irrefl _ (UInt64.lt_trans (old.high fine) (checkedSucc_lt next))

theorem Superseded.actionReplay {arguments : ActionArguments} {token : Token} (old : Superseded h token) :
    h.actionReplay x.toExternals arguments token ≠ .ok none := by
  intro is
  obtain ⟨fine, next⟩ := actionReplay_none is
  exact UInt64.lt_irrefl _ (UInt64.lt_trans (old.high fine) (checkedSucc_lt next))

/-- What is for a superseded token changes nothing, enters no callback and starts nothing. -/
theorem superseded_idles {op : Op} {token : Token} (is : op.token = some token)
    (old : Superseded h token) : Idles (program x op) h := by
  cases op with
  | seedInitialNew | quarantineNewAt => cases is
  | publishInitialBase | publishInitialRun =>
      cases is
      refine (Refuses.map (Refuses.reads fun _ ok => ?_)).idles
      obtain ⟨v, now, _⟩ := checkInitial_ok ok
      exact absurd now (old.current v)
  | settleInitial authority control receipt pid =>
      cases is
      exact (Refuses.map (Refuses.reads fun v now => absurd now (old.current v))).idles
  | beginJoin arguments token legacy =>
      cases is
      cases looked : h.replay x.toExternals arguments token with
      | error e => exact (Refuses.map ⟨e, Keeping.bind_reads_error (f := fun h => Held.replay _ h _ _) looked⟩).idles
      | ok previous =>
          cases previous with
          | none => exact absurd looked old.replay
          | some previous =>
              have ends : beginJoin x arguments token legacy h =
                  .ended (.ok (.ok (.previous previous), h)) := Keeping.bind_reads_ok (f := fun h => Held.replay _ h _ _) looked
              refine ⟨_, Keeping.map_ended ends, fun key same => ?_⟩
              cases same
  | finishJoin ticket legacy =>
      cases is
      exact (Refuses.map (Refuses.reads fun _ ok => absurd ok old.checkPending)).idles
  | reserveShell arguments token =>
      cases is
      by_cases shell : arguments.isShell = false
      · refine (Refuses.map ⟨"not a Shell action", ?_⟩).idles
        exact Keeping.bind_reads_error (k := h) (f := fun _ => failWhen _ _) (if_pos shell)
      have first : failWhen (arguments.isShell = false) "not a Shell action" = .ok () := if_neg shell
      cases looked : h.actionReplay x.toExternals arguments token with
      | error e =>
          refine (Refuses.map ⟨e, ?_⟩).idles
          exact (Keeping.bind_reads_ok (k := h) (f := fun _ => failWhen _ _) first).trans
            (Keeping.bind_reads_error (f := fun h => Held.actionReplay _ h _ _) looked)
      | ok previous =>
          cases previous with
          | none => exact absurd looked old.actionReplay
          | some previous =>
              have ends : reserveShell x arguments token h =
                  .ended (.ok (.ok (some previous), h)) :=
                (Keeping.bind_reads_ok (k := h) (f := fun _ => failWhen _ _) first).trans
                  (Keeping.bind_reads_ok (f := fun h => Held.actionReplay _ h _ _) looked)
              refine ⟨_, Keeping.map_ended ends, fun key same => ?_⟩
              cases same
  | finishShell arguments token result =>
      cases is
      exact (Refuses.map (Refuses.reads fun _ ok => absurd ok old.checkPending)).idles
  | reserve arguments token legacy =>
      cases is
      cases looked : h.replay x.toExternals arguments token with
      | error e => exact (Refuses.map ⟨e, Keeping.bind_reads_error (f := fun h => Held.replay _ h _ _) looked⟩).idles
      | ok previous =>
          cases previous with
          | none => exact absurd looked old.replay
          | some previous =>
              have ends : reserve x arguments token legacy h =
                  .ended (.ok (.ok previous, h)) := Keeping.bind_reads_ok (f := fun h => Held.replay _ h _ _) looked
              refine ⟨_, Keeping.map_ended ends, fun key same => ?_⟩
              exact replay_ne_start looked (Answer.reservation.inj (Except.ok.inj same))
  | spawnFailed key =>
      cases is
      exact (Refuses.map (Refuses.reads fun v now => absurd now (old.current v))).idles
  | claimHost key host =>
      cases is
      exact (Refuses.map (Refuses.reads fun _ _ => old.change)).idles
  | startingProvider key =>
      cases is
      exact (Refuses.map old.change).idles
  | ownedProvider key provider =>
      cases is
      exact (Refuses.map (Refuses.reads fun _ _ => old.change)).idles
  | recordSupport key support =>
      cases is
      exact (Refuses.map old.change).idles
  | publishBase | publishRun =>
      cases is
      refine (Refuses.map (Refuses.reads fun _ ok => ?_)).idles
      obtain ⟨v, now, _⟩ := checkLive_ok ok
      exact absurd now (old.current v)
  | settleRecovery | foregroundAbsent =>
      cases is
      exact (Refuses.map (Refuses.reads fun v now => absurd now (old.current v))).idles

/-! ### Runs -/

/-- An operation under way, and what was stored when it was begun. -/
structure Doing where
  before : Option Document
  rest : Script Call Reply String (Except String Answer × Held)

/-- The process that has the gate. -/
structure Holder where
  held : Held
  doing : Option Doing

/-- A start that was returned, and what was stored before it was asked for. -/
structure Start where
  before : Option Document
  key : AttemptKey

/-- A row, the process that has its gate, and the starts that were returned. -/
structure World where
  row : Row
  holder : Option Holder
  started : List Start

def World.initial : World := ⟨⟨none, [], []⟩, none, []⟩

/-- The start that an answer gives. -/
def startOf (before : Option Document) : Except String Answer → List Start
  | .ok (.reservation (.start key)) => [⟨before, key⟩]
  | _ => []

/-- A process takes the gate and loads the document, begins an operation, makes its next call, has its
answer, or is gone, by its own will or because it was killed. -/
inductive Step (x : Encoding) : World → World → Prop where
  | acquire {w : World} (free : w.holder = none) :
      Step x w { w with holder := some ⟨⟨w.row.stored, false⟩, none⟩ }
  | invoke {w : World} {held : Held} (op : Op) (idle : w.holder = some ⟨held, none⟩) :
      Step x w { w with holder := some ⟨held, some ⟨w.row.stored, program x op held⟩⟩ }
  | call {w : World} {held : Held} {before : Option Document} {c : Call}
      {next : Except String (Reply c) → Script Call Reply String (Except String Answer × Held)}
      {answer : Except String (Reply c)} {row : Row}
      (busy : w.holder = some ⟨held, some ⟨before, .call c next⟩⟩) (does : Does c w.row answer row) :
      Step x w { w with row := row, holder := some ⟨held, some ⟨before, next answer⟩⟩ }
  | finish {w : World} {held held' : Held} {before : Option Document} {answer : Except String Answer}
      (busy : w.holder = some ⟨held, some ⟨before, .ended (.ok (answer, held'))⟩⟩) :
      Step x w { w with holder := some ⟨held', none⟩, started := w.started ++ startOf before answer }
  | leave {w : World} : Step x w { w with holder := none }

/-- One world comes of another by steps. -/
def Runs (x : Encoding) (w w' : World) : Prop := Relation.ReflTransGen (Step x) w w'

def Reached (x : Encoding) (w : World) : Prop := Runs x .initial w

/-- A start is no longer ahead of the attempts that were accepted. -/
def Overtaken (d : Option Document) (s : Start) : Prop :=
  ∃ v, latestOf d = some v ∧ s.key.token.epoch ≤ v.token.epoch

/-- What the holder knows and does is right. -/
def Holder.Right (x : Encoding) (w : World) (holder : Holder) : Prop :=
  match holder.doing with
  | none => holder.held.Faithful w.row
  | some doing =>
      (doing.rest.Holds (terms x.toExternals) (fun r t => ∃ a h', r = .ok (a, h') ∧ h'.Faithful t ∧
          ∀ key, a = .ok (.reservation (.start key)) → Started doing.before t.stored key) w.row) ∧
        ∀ s ∈ w.started, s.key.token.epoch ≤ highWaterOf doing.before

/-- What holds in every state. -/
structure Inv (x : Encoding) (w : World) : Prop where
  sound : w.row.Sound x.toExternals
  right : ∀ holder, w.holder = some holder → holder.Right x w
  startable : ∀ s ∈ w.started, Startable s.before
  overtaken : ∀ s ∈ w.started, Overtaken w.row.stored s
  ascending : w.started.Pairwise fun s s' => s.key.token.epoch < s'.key.token.epoch

theorem Row.Sound.latest_le {r : Row} (sound : r.Sound x.toExternals) {v : Latest}
    (is : latestOf r.stored = some v) : v.token.epoch ≤ highWaterOf r.stored := by
  obtain ⟨d, there, is⟩ := Option.bind_eq_some_iff.mp is
  rw [there]
  exact latest_le_high (sound.valid d there) is

/-- A start that was overtaken stays so. -/
theorem Overtaken.follows {r : Row} {d' : Option Document} {s : Start} (sound : r.Sound x.toExternals)
    (overtaken : Overtaken r.stored s) (follows : Follows r.stored d') : Overtaken d' s := by
  obtain ⟨v, is, le⟩ := overtaken
  obtain ⟨v', is', advances | above⟩ := follows.latest v is
  · refine ⟨v', is', ?_⟩
    rw [key_token advances.key]
    exact le
  · exact ⟨v', is', UInt64.le_trans (UInt64.le_trans le (sound.latest_le is)) (UInt64.le_of_lt above)⟩

/-- A start is told by the answer to a reservation. -/
theorem mem_startOf {before : Option Document} {answer : Except String Answer} {s : Start}
    (mem : s ∈ startOf before answer) : s.before = before ∧ answer = .ok (.reservation (.start s.key)) := by
  unfold startOf at mem
  split at mem
  · obtain rfl := List.mem_singleton.mp mem
    exact ⟨rfl, rfl⟩
  · cases mem

theorem startOf_pairwise (before : Option Document) (answer : Except String Answer)
    (lt : Start → Start → Prop) : (startOf before answer).Pairwise lt := by
  unfold startOf
  split
  · exact List.pairwise_singleton _ _
  · exact List.Pairwise.nil

theorem Inv.initial : Inv x .initial where
  sound :=
    { valid := fun _ is => by cases is
      aligned := fun _ is => by cases is
      bases := List.nodup_nil
      based := fun _ mem => absurd mem List.not_mem_nil
      runs := List.nodup_nil
      ran := fun _ mem => absurd mem List.not_mem_nil }
  right := fun _ is => by cases is
  startable := fun _ mem => absurd mem List.not_mem_nil
  overtaken := fun _ mem => absurd mem List.not_mem_nil
  ascending := List.Pairwise.nil

/-- One step keeps the invariant, and what it stores may follow what was stored. -/
theorem Inv.step {w w' : World} (inv : Inv x w) (step : Step x w w') :
    Inv x w' ∧ Follows w.row.stored w'.row.stored := by
  cases step with
  | acquire free =>
      refine ⟨⟨inv.sound, ?_, inv.startable, inv.overtaken, inv.ascending⟩, .refl _⟩
      rintro _ ⟨⟩
      exact fun _ => rfl
  | @invoke held op idle =>
      have faithful : held.Faithful w.row := inv.right _ idle
      refine ⟨⟨inv.sound, ?_, inv.startable, inv.overtaken, inv.ascending⟩, .refl _⟩
      rintro _ ⟨⟩
      refine ⟨program_holds op inv.sound faithful, fun s mem => ?_⟩
      obtain ⟨v, is, le⟩ := inv.overtaken s mem
      exact UInt64.le_trans le (inv.sound.latest_le is)
  | @call held before c next answer row busy does =>
      obtain ⟨holds, below⟩ := inv.right _ busy
      obtain ⟨follows, after⟩ := holds.2 w.row answer row rfl does
      have sound : row.Sound x.toExternals := after.rest
      refine ⟨⟨sound, ?_, inv.startable, ?_, inv.ascending⟩, follows⟩
      · rintro _ ⟨⟩
        exact ⟨after, below⟩
      · exact fun s mem => (inv.overtaken s mem).follows inv.sound follows
  | @finish held held' before answer busy =>
      obtain ⟨⟨_, a, h', same, faithful, starts⟩, below⟩ := inv.right _ busy
      obtain ⟨rfl, rfl⟩ := Prod.mk.inj (Except.ok.inj same)
      refine ⟨⟨inv.sound, ?_, ?_, ?_, ?_⟩, .refl _⟩
      · rintro _ ⟨⟩
        exact faithful
      · intro s mem
        rcases List.mem_append.mp mem with old | new
        · exact inv.startable s old
        · obtain ⟨rfl, is⟩ := mem_startOf new
          exact (starts s.key is).startable
      · intro s mem
        rcases List.mem_append.mp mem with old | new
        · exact inv.overtaken s old
        · obtain ⟨rfl, is⟩ := mem_startOf new
          obtain ⟨v, there, same⟩ := (starts s.key is).latest
          refine ⟨v, there, ?_⟩
          rw [← same]
          exact UInt64.le_refl _
      · refine List.pairwise_append.mpr ⟨inv.ascending, startOf_pairwise before answer _, ?_⟩
        intro s old s' new
        obtain ⟨rfl, is⟩ := mem_startOf new
        exact UInt64.lt_of_le_of_lt (below s old) (checkedSucc_lt (starts s'.key is).next)
  | leave =>
      refine ⟨⟨inv.sound, fun _ is => ?_, inv.startable, inv.overtaken, inv.ascending⟩, .refl _⟩
      cases is

/-- Every run keeps the invariant, and its rows follow on each other. -/
theorem Inv.runs {w w' : World} (inv : Inv x w) (run : Runs x w w') :
    Inv x w' ∧ Follows w.row.stored w'.row.stored := by
  induction run with
  | refl => exact ⟨inv, .refl _⟩
  | tail _ step ih =>
      obtain ⟨next, follows⟩ := ih.1.step step
      exact ⟨next, ih.2.trans follows⟩

/-! ### One authority -/

/-- What holds of a row, and of whatever its gate's holders do from there on. -/
structure Authority (x : Encoding) (w : World) : Prop where
  valid : ∀ d, w.row.stored = some d → d.validate x.toExternals = .ok ()
  mark : ∀ w', Runs x w w' → highWaterOf w.row.stored ≤ highWaterOf w'.row.stored
  once : (w.started.map (·.key.token)).Nodup
  startable : ∀ s ∈ w.started, Startable s.before
  superseded : ∀ s ∈ w.started, ∀ op token, op.token = some token →
    token.epoch < s.key.token.epoch → ∀ held, w.holder = some ⟨held, none⟩ → Idles (program x op) held
  result : ∀ w', Runs x w w' → ∀ v v' r, latestOf w.row.stored = some v → v.result = some r →
    latestOf w'.row.stored = some v' → v'.token = v.token → v'.result = some r
  bases : w.row.bases.Nodup
  runs : w.row.runs.Nodup

theorem one_execution_authority (x : Encoding) (w : World) (reached : Reached x w) : Authority x w := by
  have inv : Inv x w := (Inv.initial.runs reached).1
  refine
    { valid := inv.sound.valid
      mark := fun w' run => (inv.runs run).2.high
      once := ?_
      startable := inv.startable
      superseded := ?_
      result := ?_
      bases := inv.sound.bases
      runs := inv.sound.runs }
  · refine List.pairwise_map.mpr (inv.ascending.imp fun lt same => ?_)
    rw [same] at lt
    exact UInt64.lt_irrefl _ lt
  · intro s mem op token is lt held idle
    have faithful : held.Faithful w.row := inv.right _ idle
    refine superseded_idles is ?_
    cases failed : held.failed with
    | true => exact .inl failed
    | false =>
        obtain ⟨v, latest, le⟩ := inv.overtaken s mem
        obtain ⟨d, there, latest⟩ := Option.bind_eq_some_iff.mp latest
        refine .inr ⟨d, v, (faithful failed).trans there, latest, UInt64.lt_of_lt_of_le lt le, ?_⟩
        exact latest_le_high (inv.sound.valid d there) latest
  · intro w' run v v' r is result is' same
    obtain ⟨u, there, advances | above⟩ := (inv.runs run).2.latest v is
    · obtain rfl : u = v' := Option.some.inj (there.symm.trans is')
      exact advances.result r result
    · obtain rfl : u = v' := Option.some.inj (there.symm.trans is')
      rw [same] at above
      exact absurd (inv.sound.latest_le is) (UInt64.not_le.mpr above)

/-! ### The first start of a row -/

/-- Digests are of zeros, and every text is short. -/
def zeros : Encoding where
  digest := fun _ => "0000000000000000000000000000000000000000000000000000000000000000"
  sourceDigest := fun _ _ _ _ => "0000000000000000000000000000000000000000000000000000000000000000"
  identityBytes := fun _ => 64
  documentBytes := fun _ => 1024

/-- A first attempt, for the runs below. -/
def firstRun : String := "00000000000000000000000000000000"

def firstToken : Token := ⟨1, "00000000000000000000000000000000"⟩

def firstArguments : Arguments where
  home := [1]
  id := "tui/n"
  expectedRun := none
  operation := .recoverNative
  native := ⟨[1], "a", "n"⟩
  launchDigest := "0000000000000000000000000000000000000000000000000000000000000000"

def firstDocument : Document := reservedDocument firstToken firstArguments firstRun

def firstKey : AttemptKey := ⟨firstToken, firstArguments, firstRun⟩

/-- The row, when its first start has been returned. -/
def afterStart : World :=
  ⟨⟨some firstDocument, [], []⟩, some ⟨⟨some firstDocument, false⟩, none⟩, [⟨none, firstKey⟩]⟩

/-- It is reserved. -/
theorem afterStart_reached : Reached zeros afterStart := by
  have w := Relation.ReflTransGen.refl.tail (@Step.acquire zeros .initial rfl)
  have w := w.tail (Step.invoke (.reserve firstArguments firstToken none) rfl)
  have w := w.tail (@Step.call zeros _ _ _ .readMeta _ (.ok none) _ rfl rfl)
  have w := w.tail (@Step.call zeros _ _ _ .nativeBinding _ (.ok none) _ rfl rfl)
  have w := w.tail (@Step.call zeros _ _ _ .freshHex _ (.ok firstRun) _ rfl rfl)
  have w := w.tail (@Step.call zeros _ _ _ (.write firstDocument) _ (.ok ()) _ rfl (.inl rfl))
  exact w.tail (@Step.finish zeros _ _ ⟨some firstDocument, false⟩ none
    (.ok (.reservation (.start firstKey))) rfl)

/-- What is stored when the ghost of the first start could not be spawned. -/
def unspawnedDocument : Document :=
  { firstDocument with
    latest := firstDocument.latest.map fun v => { v with phase := .refused, result := some (.refused .setupFailed) } }

/-- The attempt that comes after it. -/
def secondToken : Token := ⟨2, "11111111111111111111111111111111"⟩

def secondRun : String := "11111111111111111111111111111111"

def secondDocument : Document := reservedDocument secondToken firstArguments secondRun

def secondKey : AttemptKey := ⟨secondToken, firstArguments, secondRun⟩

/-- The row, when another process has been given a second start. -/
def afterSecond : World :=
  ⟨⟨some secondDocument, [], []⟩, some ⟨⟨some secondDocument, false⟩, none⟩,
    [⟨none, firstKey⟩, ⟨some unspawnedDocument, secondKey⟩]⟩

/-- The first could not be spawned, and the second is reserved. -/
theorem afterSecond_reached : Reached zeros afterSecond := by
  have w := afterStart_reached.tail (Step.invoke (.spawnFailed firstKey) rfl)
  have w := w.tail (@Step.call zeros _ _ _ (.write unspawnedDocument) _ (.ok ()) _ rfl (.inl rfl))
  have w := w.tail (@Step.finish zeros _ _ ⟨some unspawnedDocument, false⟩ _ (.ok .done) rfl)
  have w := (w.tail Step.leave).tail (Step.acquire rfl)
  have w := w.tail (Step.invoke (.reserve firstArguments secondToken none) rfl)
  have w := w.tail (@Step.call zeros _ _ _ .readMeta _ (.ok none) _ rfl rfl)
  have w := w.tail (@Step.call zeros _ _ _ .nativeBinding _ (.ok none) _ rfl rfl)
  have w := w.tail (@Step.call zeros _ _ _ .freshHex _ (.ok secondRun) _ rfl rfl)
  have w := w.tail (@Step.call zeros _ _ _ (.write secondDocument) _ (.ok ()) _ rfl (.inl rfl))
  exact w.tail (@Step.finish zeros _ _ ⟨some secondDocument, false⟩ _
    (.ok (.reservation (.start secondKey))) rfl)

/-- After the second start what still goes by the first does nothing. -/
theorem second_start_authority :
    afterSecond.started = [⟨none, firstKey⟩, ⟨some unspawnedDocument, secondKey⟩] ∧ Authority zeros afterSecond ∧
      Idles (program zeros (.spawnFailed firstKey)) ⟨some secondDocument, false⟩ := by
  have authority := one_execution_authority zeros afterSecond afterSecond_reached
  exact ⟨rfl, authority, authority.superseded ⟨some unspawnedDocument, secondKey⟩ (.tail _ (.head _)) _ firstToken rfl
    (by decide) _ rfl⟩

end Khor.Live
