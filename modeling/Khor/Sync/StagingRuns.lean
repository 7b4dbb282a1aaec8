/-
Module: Khor.Sync.StagingRuns
Purpose: Runs of a stage (sync/src/transfer.rs): it is opened, chunks are appended in any order, writes fail or the process
  is killed in the middle of them, and the stage is opened again. What was acknowledged is never lost, and what is there
  is what was accepted.
Trusted boundary: that of Khor.Sync.Staging; the owner locks, so that one process has the stage
Main exports: World, Event, Inv, Inv.step, staging_exact
-/
import Khor.Sync.Staging
import Khor.Lib.Runs

namespace Khor.Staging

/-- Where the process is: in no call, in `recover` before the body or the journal is cut, or in `append` before the body is
written or synced, before the record is written or synced. -/
inductive Doing where
  | idle
  | truncating (offset : Nat) (hasher : Bytes) (accepted : Nat)
  | truncated (offset : Nat) (hasher : Bytes) (accepted : Nat)
  | writing (bytes : Bytes)
  | written (bytes : Bytes)
  | synced (bytes : Bytes)
  | recorded (bytes : Bytes)
deriving DecidableEq

/-- The files, the process that has them open and where it is. The last two fields are ghosts: the chunks whose record was
written, and what calls of `append` answered, with the body at that time. -/
structure World where
  stage : Stage
  sink : Option Sink
  doing : Doing
  chunks : List Bytes
  answers : List (Except Error Progress × Bytes)

inductive Event where
  | open_
  | append (start : Nat) (bytes : Bytes)
  | step
  | fail (k : Nat)
  | kill (k : Nat)
  | drop

namespace World

variable (h : Hash) (m : Manifest)

def start : World := ⟨⟨[], checkpoint h m.id 0 (h.hash [])⟩, none, .idle, [], []⟩

/-- The record that the sink writes for the next chunk. -/
def record (s : Sink) (bytes : Bytes) : Bytes :=
  checkpoint h m.id (s.offset + bytes.length) (h.hash (s.hasher ++ bytes))

/-- `open_stage` up to where `recover` cuts the files. -/
def opens (w : World) : World :=
  match recover h m.id m.totalBytes w.stage with
  | .ok (offset, hasher, accepted) => { w with doing := .truncating offset hasher accepted }
  | .error _ => w

/-- `Sink::append` up to its first write. -/
def append (w : World) (start : Nat) (bytes : Bytes) : World :=
  match w.sink with
  | none => w
  | some s =>
      match s.append h m w.stage.body start bytes with
      | .answers result => { w with answers := w.answers ++ [(result, w.stage.body)] }
      | .writes => { w with sink := some { s with poisoned := true }, doing := .writing bytes }

/-- The next step of the call. -/
def next (w : World) : World :=
  match w.doing, w.sink with
  | .truncating offset hasher accepted, _ => { w with
      stage := { w.stage with body := w.stage.body.take offset }
      doing := .truncated offset hasher accepted }
  | .truncated offset hasher accepted, _ => { w with
      stage := { w.stage with offsets := w.stage.offsets.take accepted }
      sink := some ⟨offset, hasher, false⟩
      doing := .idle }
  | .writing bytes, some s => { w with
      stage := { w.stage with body := writeAt w.stage.body s.offset bytes }
      doing := .written bytes }
  | .written bytes, some _ => { w with doing := .synced bytes }
  | .synced bytes, some s => { w with
      stage := { w.stage with offsets := w.stage.offsets ++ record h m s bytes }
      doing := .recorded bytes
      chunks := w.chunks ++ [bytes] }
  | .recorded bytes, some s =>
      let s' : Sink := ⟨s.offset + bytes.length, s.hasher ++ bytes, false⟩
      { w with
        sink := some s'
        doing := .idle
        answers := w.answers ++ [(s'.progress h m, w.stage.body)] }
  | _, _ => w

/-- The next step is cut off after `k` bytes of its write. -/
def cut (w : World) (k : Nat) : World :=
  match w.doing, w.sink with
  | .writing bytes, some s =>
      { w with stage := { w.stage with body := writeAt w.stage.body s.offset (bytes.take k) } }
  | .synced bytes, some s =>
      { w with stage := { w.stage with offsets := w.stage.offsets ++ (record h m s bytes).take k } }
  | _, _ => w

/-- A step fails: `append` leaves the sink poisoned, and there is none after a failed `recover`. -/
def fail (w : World) (k : Nat) : World := { w.cut h m k with doing := .idle }

/-- The process is killed in the middle of a step. -/
def kill (w : World) (k : Nat) : World := { w.cut h m k with doing := .idle, sink := none }

def step (w : World) : Event → World
  | .open_ => w.opens h m
  | .append start bytes => w.append h m start bytes
  | .step => w.next h m
  | .fail k => w.fail h m k
  | .kill k => w.kill h m k
  | .drop => { w with sink := none }

/-- A record that is cut off lacks bytes. -/
def Cuts (w : World) (k : Nat) : Prop :=
  match w.doing with
  | .synced _ => k < RECORD_BYTES
  | _ => True

instance (w : World) (k : Nat) : Decidable (w.Cuts k) := by
  unfold Cuts
  split <;> infer_instance

/-- Which events can happen: one process has the stage and makes one call at a time. -/
def May (w : World) : Event → Prop
  | .open_ => w.sink = none ∧ w.doing = .idle
  | .append _ _ | .drop => w.sink ≠ none ∧ w.doing = .idle
  | .step => w.doing ≠ .idle
  | .fail k => w.doing ≠ .idle ∧ w.Cuts k
  | .kill k => w.Cuts k

instance (w : World) : ∀ e, Decidable (w.May e)
  | .open_ | .append .. | .drop | .fail _ => inferInstanceAs (Decidable (_ ∧ _))
  | .step => inferInstanceAs (Decidable (w.doing ≠ .idle))
  | .kill k => inferInstanceAs (Decidable (w.Cuts k))

end World

variable {h : Hash} {m : Manifest} {w : World}

/-- The files hold the chunks and nothing else, and the sink is at their end. -/
structure Clean (h : Hash) (m : Manifest) (stage : Stage) (chunks : List Bytes) (s : Sink) : Prop where
  body : stage.body = chunks.flatten
  offsets : stage.offsets = (journal h m.id chunks).flatten
  offset : s.offset = chunks.flatten.length
  hasher : s.hasher = chunks.flatten

/-- What holds where the process is. -/
def Phase (h : Hash) (m : Manifest) (stage : Stage) (chunks : List Bytes) (sink : Option Sink) : Doing → Prop
  | .idle => ∀ s, sink = some s → s.poisoned = false → Clean h m stage chunks s
  | .truncating offset hasher accepted => sink = none ∧ offset = chunks.flatten.length ∧ hasher = chunks.flatten ∧
      accepted = (journal h m.id chunks).flatten.length
  | .truncated offset hasher accepted => sink = none ∧ offset = chunks.flatten.length ∧ hasher = chunks.flatten ∧
      accepted = (journal h m.id chunks).flatten.length ∧ stage.body = chunks.flatten
  | .writing bytes => Canonical m.totalBytes 0 (chunks ++ [bytes]) ∧
      ∃ s, sink = some s ∧ s.poisoned = true ∧ Clean h m stage chunks s
  | .written bytes | .synced bytes => Canonical m.totalBytes 0 (chunks ++ [bytes]) ∧
      ∃ s, sink = some s ∧ s.poisoned = true ∧ Clean h m ⟨chunks.flatten, stage.offsets⟩ chunks s ∧
        stage.body = chunks.flatten ++ bytes
  | .recorded bytes => ∃ before s, chunks = before ++ [bytes] ∧ sink = some s ∧ s.poisoned = true ∧
      s.offset = before.flatten.length ∧ s.hasher = before.flatten ∧ stage.body = chunks.flatten ∧
      stage.offsets = (journal h m.id chunks).flatten

/-- What an answer says of the chunks and of the body at its time. -/
def Told (h : Hash) (m : Manifest) (length : Nat) : Except Error Progress × Bytes → Prop
  | (.ok (.stored n), _) => n ≤ length
  | (.ok (.verifiedComplete id n), body) =>
      id = m.id ∧ n = m.totalBytes ∧ body.length = m.totalBytes ∧ h.hash body = m.digest
  | (.error _, _) => True

structure Inv (h : Hash) (m : Manifest) (w : World) : Prop where
  canonical : Canonical m.totalBytes 0 w.chunks
  body : w.chunks.flatten <+: w.stage.body
  offsets : ∃ torn, w.stage.offsets = (journal h m.id w.chunks).flatten ++ torn ∧ torn.length < RECORD_BYTES ∧
    (torn ≠ [] → w.chunks.flatten.length < m.totalBytes)
  phase : Phase h m w.stage w.chunks w.sink w.doing
  sinks : ∀ s, w.sink = some s →
    s.offset ≤ m.totalBytes ∧ (s.offset = m.totalBytes ∨ s.offset % CHUNK_BYTES = 0)
  answers : ∀ answer ∈ w.answers, Told h m w.chunks.flatten.length answer

theorem Inv.start : Inv h m (World.start h m) where
  canonical := trivial
  body := List.nil_prefix
  offsets := ⟨[], by simp [World.start, journal, log], by decide, fun ne => absurd rfl ne⟩
  phase := nofun
  sinks := nofun
  answers := nofun

theorem Inv.recovers (inv : Inv h m w) : recover h m.id m.totalBytes w.stage =
    .ok (w.chunks.flatten.length, w.chunks.flatten, (journal h m.id w.chunks).flatten.length) := by
  obtain ⟨torn, offsets, less, goes⟩ := inv.offsets
  rw [recover_log inv.canonical m.valid offsets less goes inv.body, journal_length]

variable {s : Sink}

/-- The answer of a sink that is at the end of the chunks. -/
theorem Clean.told {stage : Stage} {chunks : List Bytes} (clean : Clean h m stage chunks s) :
    Told h m chunks.flatten.length (s.progress h m, stage.body) := by
  unfold Sink.progress
  split
  · trivial
  split
  · exact Nat.le_of_eq clean.offset
  rename_i _ total
  split
  · trivial
  rename_i digest
  have total := not_not.mp total
  refine ⟨rfl, total, ?_, ?_⟩
  · rw [clean.body, ← clean.offset, total]
  · rw [clean.body, ← clean.hasher]
    exact not_not.mp digest

/-- When `append` goes on to write. -/
theorem append_writes {body : Bytes} {start : Nat} {bytes : Bytes} (is : s.append h m body start bytes = .writes) :
    start = s.offset ∧ bytes ≠ [] ∧ bytes.length ≤ CHUNK_BYTES ∧
      start + bytes.length ≤ m.totalBytes ∧ (start + bytes.length = m.totalBytes ∨ bytes.length = CHUNK_BYTES) := by
  unfold Sink.append at is
  by_cases same : (body.drop start).take bytes.length = bytes
  · grind
  · grind

/-- What `append` answers at once: an error, or where the sink is. -/
theorem append_answers {body : Bytes} {start : Nat} {bytes : Bytes} {result : Except Error Progress}
    (is : s.append h m body start bytes = .answers result) :
    (∃ e, result = .error e) ∨ s.poisoned = false ∧ result = s.progress h m := by
  unfold Sink.append at is
  by_cases poisoned : s.poisoned = true
  · grind
  by_cases short : body.length < start + bytes.length
  · grind
  by_cases same : (body.drop start).take bytes.length = bytes
  · grind
  · grind

theorem told_mono {n n' : Nat} (le : n ≤ n') {answer : Except Error Progress × Bytes} (told : Told h m n answer) :
    Told h m n' answer := by
  obtain ⟨result, body⟩ := answer
  cases result with
  | error e => trivial
  | ok progress =>
      cases progress with
      | stored offset => exact Nat.le_trans told le
      | verifiedComplete id n => exact told

/-- The chunks are as they were: what remains to show. -/
theorem Inv.same (inv : Inv h m w) {stage : Stage} {sink : Option Sink} {doing : Doing}
    {answers : List (Except Error Progress × Bytes)} (body : w.chunks.flatten <+: stage.body)
    (offsets : ∃ torn, stage.offsets = (journal h m.id w.chunks).flatten ++ torn ∧ torn.length < RECORD_BYTES ∧
      (torn ≠ [] → w.chunks.flatten.length < m.totalBytes)) (phase : Phase h m stage w.chunks sink doing)
    (sinks : ∀ s, sink = some s → s.offset = w.chunks.flatten.length ∨ ∃ s', w.sink = some s' ∧ s.offset = s'.offset)
    (told : ∀ answer ∈ answers, answer ∈ w.answers ∨ Told h m w.chunks.flatten.length answer) :
    Inv h m ⟨stage, sink, doing, w.chunks, answers⟩ where
  canonical := inv.canonical
  body := body
  offsets := offsets
  phase := phase
  sinks := fun s is => by
    obtain here | ⟨s', was, same⟩ := sinks s is
    · have upTo := canonical_offset inv.canonical (Nat.zero_le _) (.inr rfl)
      rw [here]
      simpa using upTo
    · rw [same]
      exact inv.sinks s' was
  answers := fun answer mem => (told answer mem).elim (inv.answers answer) id

theorem Inv.opens (inv : Inv h m w) (none_ : w.sink = none) : Inv h m (w.opens h m) := by
  unfold World.opens
  rw [inv.recovers]
  exact inv.same inv.body inv.offsets ⟨none_, rfl, rfl, rfl⟩ (fun s is => .inr ⟨s, is, rfl⟩) fun _ mem => .inl mem

theorem Inv.append (inv : Inv h m w) (idle : w.doing = .idle) (start : Nat) (bytes : Bytes) :
    Inv h m (w.append h m start bytes) := by
  unfold World.append
  split
  · exact inv
  rename_i s is
  have phase := inv.phase
  rw [idle] at phase
  split
  · rename_i result answers
    refine inv.same inv.body inv.offsets inv.phase (fun s is => .inr ⟨s, is, rfl⟩) fun answer mem => ?_
    obtain mem | mem := List.mem_append.mp mem
    · exact .inl mem
    · obtain rfl := List.mem_singleton.mp mem
      refine .inr ?_
      obtain ⟨e, rfl⟩ | ⟨unpoisoned, rfl⟩ := append_answers answers
      · trivial
      · exact (phase s is unpoisoned).told
  · rename_i writes
    obtain ⟨here, some_, most, fits, full⟩ := append_writes writes
    have unpoisoned : s.poisoned = false := by
      unfold Sink.append at writes
      grind
    have clean := phase s is unpoisoned
    have next : Canonical m.totalBytes 0 (w.chunks ++ [bytes]) := by
      refine canonical_snoc.mpr ⟨inv.canonical, some_, most, ?_, ?_, trivial⟩
      · rw [Nat.zero_add, ← clean.offset, ← here]
        exact fits
      · rw [Nat.zero_add, ← clean.offset, ← here]
        exact full
    refine inv.same inv.body inv.offsets ⟨next, _, rfl, rfl, clean.body, clean.offsets, clean.offset, clean.hasher⟩
      (fun s' is' => .inl ?_) fun _ mem => .inl mem
    cases is'
    exact clean.offset

/-- A write at the end of a body appends. -/
theorem writeAt_end (body bytes : Bytes) : writeAt body body.length bytes = body ++ bytes := by
  simp [writeAt]

section

variable (inv : Inv h m w)
include inv

theorem Inv.next : Inv h m (w.next h m) := by
  have phase := inv.phase
  obtain ⟨torn, offsets, less, goes⟩ := inv.offsets
  unfold World.next
  split
  · rename_i offset hasher accepted doing
    rw [doing] at phase
    obtain ⟨none_, rfl, rfl, rfl⟩ := phase
    have taken : w.stage.body.take w.chunks.flatten.length = w.chunks.flatten := by
      obtain ⟨more, is⟩ := inv.body
      rw [← is, List.take_left' rfl]
    refine inv.same (taken.symm ▸ List.prefix_rfl) inv.offsets ⟨none_, rfl, rfl, rfl, taken⟩ (fun s is => .inr ⟨s, is, rfl⟩)
      fun _ mem => .inl mem
  · rename_i offset hasher accepted doing
    rw [doing] at phase
    obtain ⟨none_, rfl, rfl, rfl, body⟩ := phase
    have taken : w.stage.offsets.take (journal h m.id w.chunks).flatten.length = (journal h m.id w.chunks).flatten := by
      rw [offsets, List.take_left' rfl]
    refine inv.same inv.body ⟨[], by rw [taken, List.append_nil], by decide, fun ne => absurd rfl ne⟩
      (fun s is _ => ?_) (fun s is => .inl ?_) fun _ mem => .inl mem
    · cases is
      exact ⟨body, taken, rfl, rfl⟩
    · cases is
      rfl
  · rename_i bytes s doing is
    rw [doing] at phase
    obtain ⟨next, s', is', poisoned, clean⟩ := phase
    obtain rfl : s = s' := Option.some.inj (is.symm.trans is')
    have body : writeAt w.stage.body s.offset bytes = w.chunks.flatten ++ bytes := by
      rw [clean.offset, ← clean.body, writeAt_end]
    refine inv.same (by rw [body]; exact List.prefix_append _ _) inv.offsets
      ⟨next, s, is, poisoned, ⟨rfl, clean.offsets, clean.offset, clean.hasher⟩, body⟩ (fun s is => .inr ⟨s, is, rfl⟩)
      fun _ mem => .inl mem
  · rename_i bytes s doing is
    rw [doing] at phase
    exact inv.same inv.body inv.offsets phase (fun s is => .inr ⟨s, is, rfl⟩) fun _ mem => .inl mem
  · rename_i bytes s doing is
    rw [doing] at phase
    obtain ⟨next, s', is', poisoned, clean, body⟩ := phase
    obtain rfl : s = s' := Option.some.inj (is.symm.trans is')
    have flatten : (w.chunks ++ [bytes]).flatten = w.chunks.flatten ++ bytes := by simp
    have record : w.stage.offsets ++ World.record h m s bytes = (journal h m.id (w.chunks ++ [bytes])).flatten := by
      rw [show w.stage.offsets = _ from clean.offsets, World.record, journal, journal, log_snoc, clean.offset, clean.hasher]
      simp
    exact
      { canonical := next
        body := by
          dsimp only
          simp only [flatten, body, List.prefix_rfl]
        offsets := ⟨[], by rw [record, List.append_nil], by decide, fun ne => absurd rfl ne⟩
        phase := ⟨w.chunks, s, rfl, is, poisoned, clean.offset, clean.hasher, by rw [flatten]; exact body, record⟩
        sinks := inv.sinks
        answers := fun answer mem => told_mono (by rw [flatten, List.length_append]; omega) (inv.answers answer mem) }
  · rename_i bytes s doing is
    rw [doing] at phase
    obtain ⟨before, s', split, is', poisoned, offset, hasher, body, record⟩ := phase
    obtain rfl : s = s' := Option.some.inj (is.symm.trans is')
    have clean : Clean h m w.stage w.chunks ⟨s.offset + bytes.length, s.hasher ++ bytes, false⟩ := by
      refine ⟨body, record, ?_, ?_⟩
      · rw [offset, split]
        simp
      · rw [hasher, split]
        simp
    refine inv.same inv.body inv.offsets (fun s' is' _ => ?_) (fun s' is' => .inl ?_) fun answer mem => ?_
    · cases is'
      exact clean
    · cases is'
      exact clean.offset
    · obtain mem | mem := List.mem_append.mp mem
      · exact .inl mem
      · obtain rfl := List.mem_singleton.mp mem
        exact .inr clean.told
  · exact inv

/-- Wherever a write is cut off, the files still hold the chunks. -/
theorem Inv.cut {k : Nat} (cuts : w.Cuts k) : w.chunks.flatten <+: (w.cut h m k).stage.body ∧
    (∃ torn, (w.cut h m k).stage.offsets = (journal h m.id w.chunks).flatten ++ torn ∧ torn.length < RECORD_BYTES ∧
      (torn ≠ [] → w.chunks.flatten.length < m.totalBytes)) ∧
    (w.cut h m k).chunks = w.chunks ∧ (w.cut h m k).sink = w.sink ∧ (w.cut h m k).answers = w.answers := by
  have phase := inv.phase
  unfold World.cut
  split
  · rename_i bytes s doing is
    rw [doing] at phase
    obtain ⟨-, s', is', -, clean⟩ := phase
    obtain rfl : s = s' := Option.some.inj (is.symm.trans is')
    refine ⟨?_, inv.offsets, rfl, rfl, rfl⟩
    dsimp only
    rw [clean.offset, ← clean.body, writeAt_end]
    exact List.prefix_append _ _
  · rename_i bytes s doing is
    have less : k < RECORD_BYTES := by
      rw [World.Cuts, doing] at cuts
      exact cuts
    rw [doing] at phase
    obtain ⟨next, s', is', -, clean, -⟩ := phase
    refine ⟨inv.body, ⟨(World.record h m s bytes).take k, ?_, ?_, fun _ => ?_⟩, rfl, rfl, rfl⟩
    · rw [show w.stage.offsets = _ from clean.offsets]
    · exact Nat.lt_of_le_of_lt (List.length_take_le _ _) less
    · -- the chunk whose record is cut off belongs to the body
      obtain ⟨-, some_, -, fits, -⟩ := canonical_snoc.mp next
      have pos := List.length_pos_of_ne_nil some_
      omega
  · exact ⟨inv.body, inv.offsets, rfl, rfl, rfl⟩

theorem Inv.kill {k : Nat} (cuts : w.Cuts k) : Inv h m (w.kill h m k) := by
  obtain ⟨body, offsets, chunks, -, answers⟩ := inv.cut cuts
  show Inv h m ⟨(w.cut h m k).stage, none, .idle, (w.cut h m k).chunks, (w.cut h m k).answers⟩
  rw [chunks, answers]
  exact inv.same body offsets nofun nofun fun _ mem => .inl mem

/-- A sink whose call failed is poisoned. -/
theorem Inv.poisoned (busy : w.doing ≠ .idle) : ∀ s, w.sink = some s → s.poisoned = true := by
  have phase := inv.phase
  intro s is
  cases doing : w.doing with
  | idle => exact absurd doing busy
  | truncating offset hasher accepted | truncated offset hasher accepted =>
      rw [doing] at phase
      rw [phase.1] at is
      cases is
  | writing bytes | written bytes | synced bytes =>
      rw [doing] at phase
      obtain ⟨-, s', is', poisoned, -⟩ := phase
      rw [Option.some.inj (is.symm.trans is')]
      exact poisoned
  | recorded bytes =>
      rw [doing] at phase
      obtain ⟨-, s', -, is', poisoned, -⟩ := phase
      rw [Option.some.inj (is.symm.trans is')]
      exact poisoned

theorem Inv.fail (busy : w.doing ≠ .idle) {k : Nat} (cuts : w.Cuts k) : Inv h m (w.fail h m k) := by
  obtain ⟨body, offsets, chunks, sink, answers⟩ := inv.cut cuts
  show Inv h m ⟨(w.cut h m k).stage, (w.cut h m k).sink, .idle, (w.cut h m k).chunks, (w.cut h m k).answers⟩
  rw [chunks, answers, sink]
  refine inv.same body offsets (fun s is unpoisoned => ?_) (fun s is => .inr ⟨s, is, rfl⟩) fun _ mem => .inl mem
  rw [inv.poisoned busy s is] at unpoisoned
  cases unpoisoned

theorem Inv.step {e : Event} (may : w.May e) : Inv h m (w.step h m e) := by
  cases e with
  | open_ => exact inv.opens may.1
  | append start bytes => exact inv.append may.2 start bytes
  | step => exact inv.next
  | fail k => exact inv.fail may.1 may.2
  | kill k => exact inv.kill may
  | drop =>
      refine inv.same inv.body inv.offsets ?_ nofun fun _ mem => .inl mem
      rw [may.2]
      exact nofun

end

theorem Inv.runs (run : Runs (World.step h m) World.May (World.start h m) w) : Inv h m w :=
  run.invariant (fun may inv => inv.step may) .start

/-- A full offset, or the end of the body, can be read. -/
theorem readChunk_ok {total offset : Nat} (le : offset ≤ total) (full : offset = total ∨ offset % CHUNK_BYTES = 0)
    (body : Bytes) : ∃ bytes, readChunk total body offset = .ok bytes := by
  refine ⟨_, if_neg fun refused => ?_⟩
  obtain beyond | ⟨ne, odd⟩ := refused
  · omega
  · exact full.elim ne odd

/-- In every state of a stage, whatever was killed before: the recovery finds the chunks that were accepted and nothing
else, at an offset that no acknowledgement is beyond and that the sender can read; the same holds of the offset of each
sink; and what was answered as complete was the body of the manifest. -/
theorem staging_exact (h : Hash) (m : Manifest) (w : World)
    (run : Runs (World.step h m) World.May (World.start h m) w) :
    (∃ offset accepted, recover h m.id m.totalBytes w.stage = .ok (offset, w.chunks.flatten, accepted) ∧
      offset = w.chunks.flatten.length ∧ w.stage.body.take offset = w.chunks.flatten ∧
      Canonical m.totalBytes 0 w.chunks ∧ (offset = m.totalBytes ∨ offset % CHUNK_BYTES = 0) ∧
      (∀ body, ∃ bytes, readChunk m.totalBytes body offset = .ok bytes) ∧
      ∀ n body, (.ok (.stored n), body) ∈ w.answers → n ≤ offset) ∧
    (∀ s, w.sink = some s → (s.offset = m.totalBytes ∨ s.offset % CHUNK_BYTES = 0) ∧
      (∀ body, ∃ bytes, readChunk m.totalBytes body s.offset = .ok bytes) ∧
      (w.doing = .idle → s.poisoned = false → s.offset = w.chunks.flatten.length ∧ w.stage.body = w.chunks.flatten)) ∧
    ∀ id n body, (.ok (.verifiedComplete id n), body) ∈ w.answers →
      id = m.id ∧ n = m.totalBytes ∧ body.length = m.totalBytes ∧ h.hash body = m.digest := by
  have inv := Inv.runs run
  refine ⟨?_, fun s is => ?_, fun id n body mem => inv.answers _ mem⟩
  · obtain ⟨le, full⟩ := canonical_offset inv.canonical (Nat.zero_le _) (.inr rfl)
    rw [Nat.zero_add] at le full
    refine ⟨_, _, inv.recovers, rfl, ?_, inv.canonical, full, readChunk_ok le full, fun n body mem => inv.answers _ mem⟩
    obtain ⟨more, is⟩ := inv.body
    rw [← is, List.take_left' rfl]
  · obtain ⟨le, full⟩ := inv.sinks s is
    refine ⟨full, readChunk_ok le full, fun idle unpoisoned => ?_⟩
    have phase := inv.phase
    rw [idle] at phase
    have clean := phase s is unpoisoned
    exact ⟨clean.offset, clean.body⟩

/-- The id of a manifest for three bytes, and the digests of nothing, of the three bytes, and of the two records. -/
def someId : Bytes :=
  [211, 63, 180, 138, 181, 173, 255, 38, 154, 225, 114, 178, 154, 105, 19, 255, 4, 246, 242, 102, 32, 122, 122, 142,
  151, 111, 46, 205, 87, 29, 68, 146]

def nothing : Bytes :=
  [175, 19, 73, 185, 245, 249, 161, 166, 160, 64, 77, 234, 54, 220, 201, 73, 155, 203, 37, 201, 173, 193, 18, 183,
  204, 154, 147, 202, 228, 31, 50, 98]

def three : Bytes :=
  [177, 119, 236, 27, 242, 109, 251, 59, 112, 16, 212, 115, 230, 212, 71, 19, 178, 155, 118, 91, 153, 198, 230, 14,
  203, 250, 231, 66, 222, 73, 101, 67]

/-- The digests that a stage of the three bytes needs, each as blake3 has it. -/
def someHash : Hash where
  hash bytes :=
    if bytes = [] then nothing
    else if bytes = [1, 2, 3] then three
    else if bytes = "khor-transfer-offset-v1".toUTF8.data.toList ++ someId ++ (toBe 8 0 ++ nothing) then
      [211, 187, 63, 1, 191, 212, 76, 151, 206, 90, 161, 97, 122, 213, 93, 223, 66, 60, 86, 243, 85, 107, 228, 102,
      36, 86, 127, 96, 143, 16, 68, 68]
    else if bytes = "khor-transfer-offset-v1".toUTF8.data.toList ++ someId ++ (toBe 8 3 ++ three) then
      [228, 221, 133, 86, 128, 121, 169, 170, 206, 116, 108, 226, 218, 90, 113, 169, 174, 207, 68, 134, 5, 183, 18,
      5, 32, 142, 186, 200, 68, 167, 174, 116]
    else List.replicate 32 0
  length bytes := by
    split
    · rfl
    split
    · rfl
    split
    · rfl
    split
    · rfl
    · rfl

def threeBytes : Manifest := ⟨someId, 3, three, by decide⟩

/-- A kill in the middle of the record, the recovery, and the chunk once more. -/
def resumed : List Event :=
  [.open_, .step, .step, .append 0 [1, 2, 3], .step, .step, .kill 10, .open_, .step, .step, .append 0 [1, 2, 3], .step,
    .step, .step, .step]

theorem staging_exact_resumed : ∃ w, Runs (World.step someHash threeBytes) World.May (World.start someHash threeBytes) w ∧
    (.ok (.verifiedComplete someId 3), [1, 2, 3]) ∈ w.answers ∧ someHash.hash [1, 2, 3] = three := by
  have fits : Fits (World.step someHash threeBytes) World.May (World.start someHash threeBytes) resumed := by
    decide +kernel
  have told := (staging_exact someHash threeBytes _ fits.runs).2.2 someId 3 [1, 2, 3] (by decide +kernel)
  exact ⟨_, fits.runs, by decide +kernel, told.2.2.2⟩

end Khor.Staging
